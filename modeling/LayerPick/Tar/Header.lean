import LayerPick.Tar.Number

/-!
# Headers

A header is one block of 512 bytes. `Header.ofBlock` and `Header.toBytes` go back and forth between
the block and its fields. Behind the fields that every header has lies a `tail` that each form reads
in its own way: ustar keeps there the front part of a long path, GNU the map of a sparse file.
-/
namespace LayerPick.Tar

def blockSize : Nat := 512

/-- How many bytes are missing to a whole number of blocks. -/
def padding (n : Nat) : Nat := (blockSize - n % blockSize) % blockSize

/-- What a header describes. -/
inductive Kind where
  | regular
  | hardLink
  | symbolicLink
  | folder
  /-- Holds the path of the next member. -/
  | longName
  /-- Holds the link target of the next member. -/
  | longLink
  /-- Holds PAX records for the next member. -/
  | extended
  /-- Holds PAX records for the whole archive. -/
  | globalExtended
  | sparse
  | other (b : UInt8)
  deriving Repr, DecidableEq

def Kind.ofByte (b : UInt8) : Kind :=
  if b = 0 ∨ b = 48 then .regular
  else if b = 49 then .hardLink
  else if b = 50 then .symbolicLink
  else if b = 53 then .folder
  else if b = 76 then .longName
  else if b = 75 then .longLink
  else if b = 120 then .extended
  else if b = 103 then .globalExtended
  else if b = 83 then .sparse
  else .other b

inductive Form where
  | old
  | ustar
  | gnu
  deriving Repr, DecidableEq

/-- The fields of a header, in order. -/
structure Header where
  name : Field 100
  mode : Field 8
  userId : Field 8
  groupId : Field 8
  size : Field 12
  modified : Field 12
  checksum : Field 8
  kindByte : UInt8
  linkName : Field 100
  magic : Field 8
  userName : Field 32
  groupName : Field 32
  deviceMajor : Field 8
  deviceMinor : Field 8
  tail : Field 167
  deriving DecidableEq

/-- The magic bytes of a ustar header. -/
def ustarMagic : Bytes := [117, 115, 116, 97, 114, 0, 48, 48]

/-- The magic bytes of a GNU header. -/
def gnuMagic : Bytes := [117, 115, 116, 97, 114, 32, 32, 0]

namespace Header

def ofBlock (b : Bytes) : Header where
  name := .ofBytes 100 b
  mode := .ofBytes 8 (b.drop 100)
  userId := .ofBytes 8 (b.drop 108)
  groupId := .ofBytes 8 (b.drop 116)
  size := .ofBytes 12 (b.drop 124)
  modified := .ofBytes 12 (b.drop 136)
  checksum := .ofBytes 8 (b.drop 148)
  kindByte := (b.drop 156).headD 0
  linkName := .ofBytes 100 (b.drop 157)
  magic := .ofBytes 8 (b.drop 257)
  userName := .ofBytes 32 (b.drop 265)
  groupName := .ofBytes 32 (b.drop 297)
  deviceMajor := .ofBytes 8 (b.drop 329)
  deviceMinor := .ofBytes 8 (b.drop 337)
  tail := .ofBytes 167 (b.drop 345)

/-- The fields before the checksum. -/
def beforeChecksum (h : Header) : Bytes :=
  h.name.bytes ++ (h.mode.bytes ++ (h.userId.bytes ++ (h.groupId.bytes ++ (h.size.bytes ++
    h.modified.bytes))))

/-- The fields behind the checksum. -/
def afterChecksum (h : Header) : Bytes :=
  h.kindByte :: (h.linkName.bytes ++ (h.magic.bytes ++ (h.userName.bytes ++ (h.groupName.bytes ++
    (h.deviceMajor.bytes ++ (h.deviceMinor.bytes ++ h.tail.bytes))))))

def toBytes (h : Header) : Bytes :=
  h.beforeChecksum ++ (h.checksum.bytes ++ h.afterChecksum)

/-- A header is one block. -/
theorem length_toBytes (h : Header) : h.toBytes.length = blockSize := by
  simp [toBytes, beforeChecksum, afterChecksum, Field.length_bytes, blockSize]

def blank : Header := ofBlock []

def kind (h : Header) : Kind := .ofByte h.kindByte

/-- The form that the magic bytes announce. -/
def form (h : Header) : Form :=
  if h.magic.bytes = ustarMagic then .ustar
  else if h.magic.bytes = gnuMagic then .gnu
  else .old

/-- The field of a ustar header for the front part of a path. -/
def pathFront (h : Header) : Field 155 := .ofBytes 155 h.tail.bytes

def setPathFront (h : Header) (f : Field 155) : Header :=
  { h with tail := .ofBytes 167 (f.bytes ++ h.tail.bytes.drop 155) }

def path (h : Header) : Bytes :=
  if h.form = .ustar ∧ h.pathFront.text ≠ [] then h.pathFront.text ++ 47 :: h.name.text
  else h.name.text

def pathText (h : Header) : String := Utf8.decodeLossy h.path

def link? (h : Header) : Option Bytes :=
  if h.linkName.text = [] then none else some h.linkName.text

/-- The sum of some bytes. -/
def sumBytes (b : Bytes) : Nat := b.foldr (fun x n => x.toNat + n) 0

/-- The sum of all bytes, the bytes of the checksum counted as spaces. -/
def byteSum (h : Header) : Nat := sumBytes h.beforeChecksum + 8 * 32 + sumBytes h.afterChecksum

def withChecksum (h : Header) : Header :=
  { h with checksum := .ofBytes 8 (octalField 8 h.byteSum) }

end Header

end LayerPick.Tar
