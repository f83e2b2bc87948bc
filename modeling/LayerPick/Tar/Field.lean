import LayerPick.Text.Utf8

/-!
# Fields of fixed width

A tar header is a row of fields, each of a fixed number of bytes. Text in a field goes up to its
first NUL byte; what stands behind that is kept but not read.
-/
namespace LayerPick.Tar

structure Field (n : Nat) where
  bytes : Bytes
  length_bytes : bytes.length = n
  deriving DecidableEq

/-- A run of `n` NUL bytes. -/
def zeros (n : Nat) : Bytes := List.replicate n 0

/-- The bytes up to the first NUL. -/
def upToNul (b : Bytes) : Bytes := b.takeWhile (· ≠ 0)

namespace Field

/-- The first `n` bytes, filled up with NULs where there are fewer. -/
def ofBytes (n : Nat) (b : Bytes) : Field n :=
  ⟨(b ++ zeros (n - b.length)).take n, by simp [zeros]; omega⟩

def blank (n : Nat) : Field n := ofBytes n []

def text {n : Nat} (f : Field n) : Bytes := upToNul f.bytes

theorem ofBytes_bytes {n : Nat} (f : Field n) : ofBytes n f.bytes = f := by
  rcases f with ⟨b, rfl⟩
  simp [ofBytes, zeros]

end Field

end LayerPick.Tar
