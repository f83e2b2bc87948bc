import LayerPick.Gzip.Bits

/-!
# Prefix codes

A prefix code is a tree with symbols at its leaves; a bit decides the way at each node. The
canonical code of a list of lengths gives symbol `i` a code word of the `i`-th length (none for
length zero), shorter words before longer ones and equal lengths in the order of the symbols. The
tree is built from its deepest level up.
-/
namespace LayerPick.Gzip

inductive PrefixCode where
  | absent
  | leaf (symbol : Nat)
  | node (zero one : PrefixCode)
  deriving Repr, DecidableEq

/-- The greatest length of a code word. -/
def maxWordLength : Nat := 15

namespace PrefixCode

def read : PrefixCode → Bits → Except Stop (Nat × Bits)
  | .absent, _ => .error .corrupt
  | .leaf s, bits => .ok (s, bits)
  | .node zero one, bits => do
    match ← bits.next with
    | (false, bits) => read zero bits
    | (true, bits) => read one bits

/-- Joins neighbours on one level to nodes of the level above. -/
def join : List PrefixCode → List PrefixCode
  | a :: b :: r => .node a b :: join r
  | [a] => [.node a .absent]
  | [] => []

def symbolsOf (lengths : List Nat) (length : Nat) : List Nat :=
  (lengths.zipIdx.filter fun p => p.1 == length).map Prod.snd

/-- The nodes at depth `maxWordLength - up`, from left to right. -/
def levels (lengths : List Nat) : (up : Nat) → List PrefixCode
  | 0 => (symbolsOf lengths maxWordLength).map .leaf
  | up + 1 => (symbolsOf lengths (maxWordLength - (up + 1))).map .leaf ++ join (levels lengths up)

/-- How much of the room for words of greatest length is taken. -/
def weight (lengths : List Nat) : Nat :=
  lengths.foldr (fun l n => (if l = 0 then 0 else 1 <<< (maxWordLength - l)) + n) 0

def used (lengths : List Nat) : Nat := (lengths.filter (· ≠ 0)).length

/-- The canonical code of lengths. Unless there is at most one word and `sparse` allows that, the
words have to fill all the room. -/
def ofLengths (sparse : Bool) (lengths : List Nat) : Except Stop PrefixCode :=
  if weight lengths = 1 <<< maxWordLength ∨ (sparse ∧ used lengths ≤ 1) then
    match join (levels lengths (maxWordLength - 1)) with
    | [] => .ok .absent
    | root :: _ => .ok root
  else .error .corrupt

end PrefixCode

end LayerPick.Gzip
