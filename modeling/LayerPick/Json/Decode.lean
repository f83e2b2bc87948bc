import LayerPick.Json.Value
import LayerPick.Text.Numeral

/-!
# Reading values of given types

A record is written as an object with named fields or as an array of its fields in order. In an
object each field comes at most once and unknown keys are passed over. A field is `required`,
`optional` (may be missing or null, though an array must not end before it), or `defaulted` (may be
missing).
-/
namespace LayerPick.Json

/-- What a record has in the place of a field. -/
inductive Slot where
  | given (v : Value)
  | missing
  /-- The array has ended before the field. -/
  | beyond

namespace Slot

def required {α : Type} (f : Value → Option α) : Slot → Option α
  | .given v => f v
  | _ => none

/-- A field that may be missing or null. -/
def optional {α : Type} (f : Value → Option α) : Slot → Option (Option α)
  | .given .null => some none
  | .given v => (f v).map some
  | .missing => some none
  | .beyond => none

/-- A field that has a default. -/
def defaulted {α : Type} (d : α) (f : Value → Option α) : Slot → Option α
  | .given v => f v
  | _ => some d

end Slot

namespace Value

def text? : Value → Option String
  | .string raw => Text.decode? raw
  | _ => none

/-- A natural number below `bound`, written in digits only. -/
def natural? (bound : Nat) : Value → Option Nat
  | .number t =>
    if t.all Token.isDigit then
      let n := t.foldl (fun n b => n * 10 + (b.toNat - 48)) 0
      if n < bound then some n else none
    else none
  | _ => none

def bool? : Value → Option Bool
  | .bool b => some b
  | _ => none

def list? {α : Type} (f : Value → Option α) : Value → Option (List α)
  | .array items => items.mapM f
  | _ => none

def map? {α : Type} (f : Value → Option α) : Value → Option (List (String × α))
  | .object members => members.mapM fun m => do return (← Text.decode? m.1, ← f m.2)
  | _ => none

/-- A record without fields. -/
def unit? : Value → Option Unit
  | .object members => (members.mapM fun m => Text.decode? m.1).map fun _ => ()
  | .array [] => some ()
  | _ => none

/-- The slot of one field among decoded members. A field that is there twice is refused. -/
def slot? (members : List (String × Value)) (name : String) : Option Slot :=
  match members.filter fun m => m.1 = name with
  | [] => some .missing
  | [m] => some (.given m.2)
  | _ => none

/-- The slots of a record with these fields. -/
def slots? (names : List String) : Value → Option (List Slot)
  | .object members => do
    let decoded ← members.mapM fun m => do return (← Text.decode? m.1, m.2)
    names.mapM (slot? decoded)
  | .array items =>
    if items.length ≤ names.length then
      some (items.map .given ++ List.replicate (names.length - items.length) .beyond)
    else none
  | _ => none

end Value

end LayerPick.Json
