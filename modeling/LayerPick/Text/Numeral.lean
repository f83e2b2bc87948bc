/-!
# Numerals

Reading and writing natural numbers of 64 bits in a given base. A numeral is one digit or more,
with a `+` in front if one likes; nothing else is read, and nothing that needs more than 64 bits.
-/
namespace LayerPick.Numeral

/-- One more than the greatest number that is read. -/
def bound : Nat := UInt64.size

def digit? (base : Nat) (c : Char) : Option Nat :=
  if '0' ≤ c ∧ c.toNat < '0'.toNat + base then some (c.toNat - '0'.toNat) else none

/-- The number that digits write after the digits of `n`. -/
def digits? (base : Nat) : Nat → List Char → Option Nat
  | n, [] => if n < bound then some n else none
  | n, c :: cs => do digits? base (n * base + (← digit? base c)) cs

def unsigned : List Char → List Char
  | '+' :: cs => cs
  | cs => cs

/-- Reads a numeral in a base of at most ten. -/
def read? (base : Nat) (cs : List Char) : Option Nat :=
  match unsigned cs with
  | [] => none
  | c :: r => digits? base 0 (c :: r)

/-- The digits of `n`, at least `width` of them, filled up with zeros in front. -/
def padded (base width n : Nat) : List Char :=
  let ds := Nat.toDigits base n
  List.replicate (width - ds.length) '0' ++ ds

end LayerPick.Numeral
