import LayerPick.Text.Utf8

/-!
# Devices that take bytes

A `Device` takes bytes call by call. Each call is taken whole or refused whole; which calls are
refused, and with which message, may hang on the number of the call and on its bytes. `output` is
everything that was taken.
-/
namespace LayerPick

/-- A device that bytes are written to. -/
structure Device where
  /-- Why the call with this number (from 0) and these bytes is refused. -/
  refuses : Nat → Bytes → Option String
  calls : Nat := 0
  /-- The calls that were taken, latest first. -/
  taken : List Bytes := []

namespace Device

def accepting : Device := ⟨fun _ _ => none, 0, []⟩

def refusing (message : String) : Device := ⟨fun _ _ => some message, 0, []⟩

def containsRun (pattern : Bytes) : Bytes → Bool
  | [] => pattern.isEmpty
  | b :: bs => pattern.isPrefixOf (b :: bs) || containsRun pattern bs

/-- A device that refuses the calls whose bytes contain `pattern`. -/
def rejecting (pattern : Bytes) (message : String) : Device :=
  ⟨fun _ b => if containsRun pattern b then some message else none, 0, []⟩

/-- Everything that was taken, in order. -/
def output (d : Device) : Bytes := d.taken.reverse.flatten

/-- One call, and why it was refused. There is no call for no bytes. -/
def write (d : Device) (b : Bytes) : Device × Option String :=
  if b.isEmpty then (d, none)
  else match d.refuses d.calls b with
    | none => (⟨d.refuses, d.calls + 1, b :: d.taken⟩, none)
    | some m => (⟨d.refuses, d.calls + 1, d.taken⟩, some m)

/-- Calls one after the other up to the first refusal. -/
def writeAll (d : Device) : List Bytes → Device × Option String
  | [] => (d, none)
  | b :: bs =>
    match d.write b with
    | (d', none) => d'.writeAll bs
    | (d', some m) => (d', some m)

end Device

end LayerPick
