import LayerPick.Json.Token

/-!
# JSON values

A value is built from tokens with an explicit stack of the arrays and objects that are open, so that
values may be nested to any depth. Strings, keys and numbers are kept as they are written.
-/
namespace LayerPick.Json

inductive Value where
  | null
  | bool (b : Bool)
  | number (text : Bytes)
  | string (raw : Bytes)
  | array (items : List Value)
  | object (members : List (Bytes × Value))

/-- An array or object that is open, with what it holds so far, latest first. -/
inductive Frame where
  | array (items : List Value)
  /-- The key is the one that the value being read belongs to. -/
  | object (members : List (Bytes × Value)) (key : Bytes)

inductive Expected where
  | value
  /-- A value, or the end of the array that has just been opened. -/
  | firstItem
  /-- A key, or the end of the object that has just been opened. -/
  | firstKey
  | key (members : List (Bytes × Value))
  | colon (members : List (Bytes × Value)) (key : Bytes)
  /-- The value is complete; what follows belongs to the array or object around it. -/
  | after (v : Value)

structure Building where
  stack : List Frame := []
  expected : Expected := .value

namespace Building

def open? (s : Building) : Token → Option Building
  | .null => some ⟨s.stack, .after .null⟩
  | .bool b => some ⟨s.stack, .after (.bool b)⟩
  | .number t => some ⟨s.stack, .after (.number t)⟩
  | .string r => some ⟨s.stack, .after (.string r)⟩
  | .openArray => some ⟨.array [] :: s.stack, .firstItem⟩
  | .openObject => some ⟨s.stack, .firstKey⟩
  | _ => none

/-- Goes on behind a complete value. -/
def close? (v : Value) : List Frame → Token → Option Building
  | .array items :: stack, .comma => some ⟨.array (v :: items) :: stack, .value⟩
  | .array items :: stack, .closeArray => some ⟨stack, .after (.array (v :: items).reverse)⟩
  | .object members k :: stack, .comma => some ⟨stack, .key ((k, v) :: members)⟩
  | .object members k :: stack, .closeObject =>
    some ⟨stack, .after (.object ((k, v) :: members).reverse)⟩
  | _, _ => none

def step? (s : Building) (t : Token) : Option Building :=
  match s.expected, t with
  | .value, t => s.open? t
  | .firstItem, .closeArray => some ⟨s.stack.drop 1, .after (.array [])⟩
  | .firstItem, t => s.open? t
  | .firstKey, .closeObject => some ⟨s.stack, .after (.object [])⟩
  | .firstKey, .string k => some ⟨s.stack, .colon [] k⟩
  | .key members, .string k => some ⟨s.stack, .colon members k⟩
  | .colon members k, .colon => some ⟨.object members k :: s.stack, .value⟩
  | .after v, t => close? v s.stack t
  | _, _ => none

def run? : Building → List Token → Option Building
  | s, [] => some s
  | s, t :: ts =>
    match s.step? t with
    | none => none
    | some s' => s'.run? ts

end Building

def Value.ofTokens? (ts : List Token) : Option Value := do
  match ← Building.run? {} ts with
  | ⟨[], .after v⟩ => some v
  | _ => none

def parse? (b : Bytes) : Option Value := do
  Value.ofTokens? (← Token.scan? b)

end LayerPick.Json
