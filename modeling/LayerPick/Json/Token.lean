import LayerPick.Json.Text

/-!
# JSON tokens

A JSON text is cut into punctuation, literals, numbers and strings. Of a string, the bytes between
the quotes are kept as they are: escapes must have the right form, but what they spell and whether
the bytes are text is left to whoever needs the string. Likewise a number is kept as it is written.
-/
namespace LayerPick.Json

inductive Token where
  | openObject
  | closeObject
  | openArray
  | closeArray
  | colon
  | comma
  | null
  | bool (b : Bool)
  | number (text : Bytes)
  /-- The bytes between the quotes. -/
  | string (raw : Bytes)
  deriving Repr, DecidableEq

namespace Token

def isDigit (b : UInt8) : Bool := 48 ≤ b && b ≤ 57

/-- Cuts off digits, at least one. -/
def someDigits? (b : Bytes) : Option Bytes :=
  match b with
  | d :: r => if isDigit d then some (r.dropWhile isDigit) else none
  | [] => none

/-- Cuts off the digits before the point. A zero in front stands alone. -/
def wholePart? (b : Bytes) : Option Bytes :=
  match b with
  | 48 :: r => some r
  | _ => someDigits? b

/-- Cuts off a fraction, if there is one. -/
def fraction? (b : Bytes) : Option Bytes :=
  match b with
  | 46 :: r => someDigits? r
  | _ => some b

/-- Cuts off an exponent, if there is one. -/
def exponent? (b : Bytes) : Option Bytes :=
  match b with
  | e :: r =>
    if e = 101 ∨ e = 69 then
      match r with
      | sign :: r' => if sign = 43 ∨ sign = 45 then someDigits? r' else someDigits? r
      | [] => none
    else some b
  | [] => some []

def isNumber (b : Bytes) : Bool :=
  let unsigned := match b with
    | 45 :: r => r
    | _ => b
  (do exponent? (← fraction? (← wholePart? unsigned))) == some []

def ofWord? (w : Bytes) : Option Token :=
  if w = Utf8.encode "null" then some .null
  else if w = Utf8.encode "true" then some (.bool true)
  else if w = Utf8.encode "false" then some (.bool false)
  else if isNumber w then some (.number w)
  else none

def ofPunctuation? (b : UInt8) : Option Token :=
  if b = 123 then some .openObject
  else if b = 125 then some .closeObject
  else if b = 91 then some .openArray
  else if b = 93 then some .closeArray
  else if b = 58 then some .colon
  else if b = 44 then some .comma
  else none

def isBlank (b : UInt8) : Bool := b == 32 || b == 9 || b == 10 || b == 13

/-- Where the scan stands. Bytes of a token come latest first. -/
inductive Mode where
  | between
  | word (read : Bytes)
  | string (read : Bytes)
  /-- Behind a backslash in a string. -/
  | escape (read : Bytes)
  | digits (left : Nat) (read : Bytes)
  deriving Repr, DecidableEq

/-- The scan so far: tokens, latest first. -/
structure Scan where
  tokens : List Token := []
  mode : Mode := .between

def Scan.endWord? (s : Scan) : Option Scan :=
  match s.mode with
  | .word read => (ofWord? read.reverse).map fun t => ⟨t :: s.tokens, .between⟩
  | _ => some s

/-- A byte outside strings and words. -/
def Scan.start (s : Scan) (b : UInt8) : Scan :=
  if isBlank b then s
  else if b = 34 then { s with mode := .string [] }
  else match ofPunctuation? b with
    | some t => { s with tokens := t :: s.tokens }
    | none => { s with mode := .word [b] }

def Scan.step? (s : Scan) (b : UInt8) : Option Scan :=
  match s.mode with
  | .between => some (s.start b)
  | .word read =>
    if isBlank b || b == 34 || (ofPunctuation? b).isSome then s.endWord?.map (·.start b)
    else some { s with mode := .word (b :: read) }
  | .string read =>
    if b = 34 then some ⟨.string read.reverse :: s.tokens, .between⟩
    else if b < 32 then none
    else if b = 92 then some { s with mode := .escape (b :: read) }
    else some { s with mode := .string (b :: read) }
  | .escape read =>
    if b = 117 then some { s with mode := .digits 4 (b :: read) }
    else if (Text.simpleEscape? (Char.ofNat b.toNat)).isSome then
      some { s with mode := .string (b :: read) }
    else none
  | .digits left read =>
    if (hexDigit? (Char.ofNat b.toNat)).isSome then
      some { s with
        mode := if left ≤ 1 then .string (b :: read) else .digits (left - 1) (b :: read) }
    else none

/-- Reads bytes one by one. -/
def Scan.run? : Scan → Bytes → Option Scan
  | s, [] => some s
  | s, b :: bs =>
    match s.step? b with
    | none => none
    | some s' => s'.run? bs

def scan? (b : Bytes) : Option (List Token) := do
  let s ← (← Scan.run? {} b).endWord?
  if s.mode = .between then some s.tokens.reverse else none

end Token

end LayerPick.Json
