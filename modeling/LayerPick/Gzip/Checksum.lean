import LayerPick.Text.Utf8

/-!
# The checksum of gzip

The cyclic redundancy check of 32 bits that gzip puts behind the data, taken bit by bit.
-/
namespace LayerPick.Gzip

def crcBit (c : UInt32) : UInt32 :=
  if c &&& 1 = 1 then (c >>> 1) ^^^ 0xEDB88320 else c >>> 1

def crcByte (c : UInt32) (b : UInt8) : UInt32 :=
  Nat.repeat crcBit 8 (c ^^^ b.toUInt32)

/-- The checksum of bytes. -/
def crc32 (b : Bytes) : UInt32 := b.foldl crcByte 0xFFFFFFFF ^^^ 0xFFFFFFFF

/-- The number that little-endian bytes stand for. -/
def littleEndian (b : Bytes) : Nat := b.foldr (fun x n => n * 256 + x.toNat) 0

/-- The `width` lowest bytes of a number, lowest first. -/
def toLittleEndian : (width : Nat) → Nat → Bytes
  | 0, _ => []
  | width + 1, n => UInt8.ofNat (n % 256) :: toLittleEndian width (n / 256)

end LayerPick.Gzip
