import LayerPick.Text.Utf8

/-!
# Text in JSON

The inside of a JSON string: `encode` escapes the quote, the backslash and control characters;
`decode?` reads any allowed spelling back. A code point above U+FFFF may be written as two escapes
that belong together; half of such a pair is not text.
-/
namespace LayerPick.Json

def hexDigit? (c : Char) : Option Nat :=
  if '0' ≤ c ∧ c ≤ '9' then some (c.toNat - 48)
  else if 'a' ≤ c ∧ c ≤ 'f' then some (c.toNat - 87)
  else if 'A' ≤ c ∧ c ≤ 'F' then some (c.toNat - 55)
  else none

namespace Text

/-- Four hexadecimal digits of a number below 2^16. -/
def hex4 (n : Nat) : List Char :=
  [n / 4096 % 16, n / 256 % 16, n / 16 % 16, n % 16].map Nat.digitChar

def encodeChar (c : Char) : List Char :=
  if c = '"' then ['\\', '"']
  else if c = '\\' then ['\\', '\\']
  else if c = '\n' then ['\\', 'n']
  else if c = '\r' then ['\\', 'r']
  else if c = '\t' then ['\\', 't']
  else if c.toNat = 8 then ['\\', 'b']
  else if c.toNat = 12 then ['\\', 'f']
  else if c.toNat < 0x20 then '\\' :: 'u' :: hex4 c.toNat
  else [c]

def encode (s : String) : List Char := s.toList.flatMap encodeChar

def quoted (s : String) : String := String.ofList ('"' :: (encode s ++ ['"']))

/-- The character that a backslash makes of the next one. -/
def simpleEscape? (c : Char) : Option Char :=
  if c = '"' ∨ c = '\\' ∨ c = '/' then some c
  else if c = 'b' then some (Char.ofNat 8)
  else if c = 'f' then some (Char.ofNat 12)
  else if c = 'n' then some '\n'
  else if c = 'r' then some '\r'
  else if c = 't' then some '\t'
  else none

/-- Where the reading of a string stands. `high` is the first half of a pair. -/
inductive State where
  | plain
  /-- Behind a backslash. -/
  | escape (high : Option Nat)
  | digits (left code : Nat) (high : Option Nat)
  /-- Behind the first half of a pair. -/
  | half (high : Nat)
  deriving Repr, DecidableEq

/-- The state and the character after an escape with this code. -/
def closeEscape? (code : Nat) : Option Nat → Option (List Char × State)
  | some high =>
    if 0xDC00 ≤ code ∧ code < 0xE000 then
      some ([Char.ofNat (0x10000 + (high - 0xD800) * 1024 + (code - 0xDC00))], .plain)
    else none
  | none =>
    if 0xD800 ≤ code ∧ code < 0xDC00 then some ([], .half code)
    else if 0xDC00 ≤ code ∧ code < 0xE000 then none
    else some ([Char.ofNat code], .plain)

def step? (s : State) (c : Char) : Option (List Char × State) :=
  match s with
  | .plain =>
    if c = '\\' then some ([], .escape none)
    else if c = '"' ∨ c.toNat < 0x20 then none
    else some ([c], .plain)
  | .escape high =>
    if c = 'u' then some ([], .digits 4 0 high)
    else match high with
      | some _ => none
      | none => (simpleEscape? c).map fun d => ([d], .plain)
  | .digits left code high => do
    let d ← hexDigit? c
    if left ≤ 1 then closeEscape? (code * 16 + d) high
    else some ([], .digits (left - 1) (code * 16 + d) high)
  | .half high => if c = '\\' then some ([], .escape (some high)) else none

/-- The text that characters between quotes spell, from a state on. -/
def decodeFrom? : State → List Char → Option (List Char)
  | .plain, [] => some []
  | _, [] => none
  | s, c :: cs => do
    let (out, s') ← step? s c
    return out ++ (← decodeFrom? s' cs)

/-- The text that bytes between quotes spell. -/
def decode? (raw : Bytes) : Option String := do
  let s ← Utf8.decode? raw
  return String.ofList (← decodeFrom? .plain s.toList)

end Text

end LayerPick.Json
