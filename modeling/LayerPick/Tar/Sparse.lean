import LayerPick.Tar.Content
import LayerPick.Tar.Error
import LayerPick.Tar.Header

/-!
# Sparse files

A GNU header of kind `sparse` lists which stretches of a file are stored. Four of them are in the
header, more follow in blocks of 21 behind it. `SparseMap.add` takes in one stretch after the other:
what lies between two of them is a gap, they are in order and do not overlap, and each starts at a
block boundary of the stored data.
-/
namespace LayerPick.Tar

/-- The map of a sparse file as far as it has been read. -/
structure SparseMap where
  /-- The pieces so far, latest first. -/
  pieces : List Piece := []
  /-- Where the last stretch ends in the file. -/
  reached : Nat := 0
  /-- Bytes of data that no stretch has claimed yet. -/
  unclaimed : Nat
  /-- Bytes of data in all. -/
  total : Nat

namespace SparseMap

/-- One stretch that starts at `offset` and has `length` bytes. -/
def addStretch (m : SparseMap) (offset length : Nat) : Except ReadError SparseMap :=
  if length ≠ 0 ∧ (m.total - m.unclaimed) % blockSize ≠ 0 then .error .sparseAlignment
  else if offset < m.reached then .error .sparseOrder
  else if Numeral.bound ≤ offset + length then .error .sparseOverflow
  else if m.unclaimed < length then .error .sparseTooLong
  else
    let gap := if m.reached < offset then [.gap (offset - m.reached)] else []
    .ok ⟨.stored length :: (gap ++ m.pieces), offset + length, m.unclaimed - length, m.total⟩

/-- One entry of the map, 24 bytes. An entry whose offset or length is empty is no stretch. -/
def add (m : SparseMap) (entry : Bytes) : Except ReadError SparseMap :=
  let offset := entry.take 12
  let length := (entry.drop 12).take 12
  if offset.headD 0 = 0 ∨ length.headD 0 = 0 then .ok m
  else do
    let o ← (readNumber offset).mapError (.sparseField .offset)
    let l ← (readNumber length).mapError (.sparseField .length)
    m.addStretch o l

/-- Takes in `count` entries of the map, one behind the other. -/
def addAll (m : SparseMap) : (count : Nat) → Bytes → Except ReadError SparseMap
  | 0, _ => .ok m
  | count + 1, b => do (← m.add (b.take 24)).addAll count (b.drop 24)

/-- A block of the map from what stands where it is due. -/
def blockOf (t : Source.Taken) : Except ReadError (Bytes × Source) :=
  match t.fault with
  | some f => .error (.stream f)
  | none =>
    if t.data.length = 0 then .error .sparseExtensionMissing
    else if t.data.length < blockSize then .error .incompleteBlock
    else .ok (t.data, t.rest)

/-- The blocks of the map behind the header. `tries` is more than the number of blocks in the
stream. -/
def addBlocks (m : SparseMap) (c : Content) :
    (tries blocks : Nat) → Except ReadError (SparseMap × Content × Nat)
  | 0, _ => .error .sparseExtensionMissing
  | tries + 1, blocks => do
    let (b, s) ← blockOf (c.source.take false blockSize)
    let m ← m.addAll 21 b
    let c : Content := ⟨c.pieces, s, c.position + blockSize⟩
    if (b.drop 504).headD 0 = 1 then m.addBlocks c tries (blocks + 1)
    else .ok (m, c, blocks + 1)

end SparseMap

namespace Header

/-- The four entries of the map in a GNU header. -/
def sparseEntries (h : Header) : Bytes := (h.tail.bytes.drop 41).take 96

/-- Do more entries follow behind the header? -/
def sparseContinues (h : Header) : Bool := (h.tail.bytes.drop 137).headD 0 == 1

/-- The size that a GNU header states for a sparse file. -/
def sparseSize (h : Header) : Bytes := (h.tail.bytes.drop 138).take 12

end Header

/-- Takes in what follows behind the header, if the header says that something does. -/
def SparseMap.addRest (m : SparseMap) (h : Header) (c : Content) :
    Except ReadError (SparseMap × Content × Nat) :=
  if h.sparseContinues then m.addBlocks c (c.source.length / blockSize + 1) 0 else .ok (m, c, 0)

/-- The pieces of a sparse file of which `size` bytes are stored, its full size, and how many blocks
of its map came behind the header. -/
def sparsePieces (h : Header) (size : Nat) (c : Content) :
    Except ReadError (List Piece × Nat × Content × Nat) :=
  if h.form ≠ .gnu then .error .sparseForm
  else do
    let m ← (SparseMap.mk [] 0 size size).addAll 4 h.sparseEntries
    let (m, c, blocks) ← m.addRest h c
    let full ← (readNumber h.sparseSize).mapError fun e =>
      .sparseRealSize e (Utf8.decodeLossy h.groupName.text) (Utf8.decodeLossy h.userName.text)
    if m.reached ≠ full then .error .sparseSizeMismatch
    else if 0 < m.unclaimed then .error .sparseDataMismatch
    else .ok (m.pieces.reverse, full, c, blocks)

end LayerPick.Tar
