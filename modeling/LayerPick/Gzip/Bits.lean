import LayerPick.Text.Utf8

/-!
# Bits of a byte run

Deflate data are read bit by bit, from the lowest bit of each byte to its highest.
-/
namespace LayerPick.Gzip

/-- Why deflate data cannot be read on. -/
inductive Stop where
  /-- There are no more bytes. -/
  | incomplete
  | corrupt
  deriving Repr, DecidableEq

structure Bits where
  current : Nat
  left : Nat
  rest : Bytes

namespace Bits

def ofBytes (b : Bytes) : Bits := ⟨0, 0, b⟩

/-- An upper bound for the number of bits. -/
def size (s : Bits) : Nat := s.left + 8 * s.rest.length

def next (s : Bits) : Except Stop (Bool × Bits) :=
  if s.left = 0 then
    match s.rest with
    | [] => .error .incomplete
    | b :: r => .ok (b.toNat % 2 == 1, ⟨b.toNat / 2, 7, r⟩)
  else .ok (s.current % 2 == 1, ⟨s.current / 2, s.left - 1, s.rest⟩)

/-- Reads a number of `n` bits, lowest first. -/
def number : (n : Nat) → Bits → Except Stop (Nat × Bits)
  | 0, s => .ok (0, s)
  | n + 1, s => do
    let (b, s) ← s.next
    let (m, s) ← number n s
    return (b.toNat + 2 * m, s)

/-- Drops what is left of the byte under way. -/
def align (s : Bits) : Bits := ⟨0, 0, s.rest⟩

end Bits

end LayerPick.Gzip
