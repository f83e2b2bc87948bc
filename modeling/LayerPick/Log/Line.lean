import LayerPick.Log.Record

/-!
# Log lines

How messages reach the terminal: further lines of a message are indented, and what a terminal would
take as a control sequence is left out.
-/
namespace LayerPick.Log

/-- Where the reading of control sequences stands. -/
inductive Control where
  | text
  | escape
  | sequence
  | command
  | string
  deriving Repr, DecidableEq

def isSpace (c : Char) : Bool :=
  c == ' ' || c == '\t' || c == '\n' || c == '\r' || c.toNat == 12

def isShown (c : Char) : Bool := (0x20 ≤ c.toNat && c.toNat ≠ 0x7F) || isSpace c

/-- The state behind one character, and whether the character is shown. -/
def Control.step (s : Control) (c : Char) : Control × Bool :=
  let n := c.toNat
  if n = 0x1B then (escape, false)
  else if n = 0x18 ∨ n = 0x1A then (text, false)
  else match s with
    | text => (text, isShown c)
    | escape =>
      if n < 0x20 then (if isSpace c then (text, true) else (escape, false))
      else if 0x20 ≤ n ∧ n < 0x30 then (escape, false)
      else if c = '[' then (sequence, false)
      else if c = ']' then (command, false)
      else if c = 'P' ∨ c = 'X' ∨ c = '^' ∨ c = '_' then (string, false)
      else if n < 0x7F then (text, false)
      else (escape, false)
    | sequence =>
      if n < 0x20 then (if isSpace c then (text, true) else (sequence, false))
      else if 0x40 ≤ n ∧ n < 0x7F then (text, false)
      else (sequence, false)
    | command => (if n = 7 then text else command, false)
    | string => (string, false)

def strip : Control → List Char → List Char
  | _, [] => []
  | s, c :: cs =>
    let (s', shown) := s.step c
    if shown then c :: strip s' cs else strip s' cs

/-- A line of the error stream: a message with its level and origin, or any other line. -/
inductive Line where
  | message (level : Level) (origin : Origin) (text : String)
  | plain (text : String)
  deriving Repr, DecidableEq

/-- The lines of a text. The first of them says where it comes from. -/
def messageLines (level : Level) (origin : Origin) (text : String) : List Line :=
  let indented := text.toList.flatMap fun c =>
    if c = '\n' then ['\n', ' ', ' ', ' ', ' '] else [c]
  match (strip .text indented).splitOn '\n' with
  | [] => []
  | first :: more => .message level origin (.ofList first) :: more.map fun l => .plain (.ofList l)

def Record.lines (spool : String) (r : Record) : List Line :=
  messageLines r.level r.origin (r.text spool)

end LayerPick.Log
