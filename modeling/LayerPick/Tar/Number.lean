import LayerPick.Tar.Field
import LayerPick.Text.Blank
import LayerPick.Text.Numeral

/-!
# Numbers in header fields

A number is written in octal digits, or, when it needs more than those can hold, in binary with the
highest bit of the field set. Writing puts a NUL at the end of the field and zeros in front of the
digits.
-/
namespace LayerPick.Tar

/-- Why a field does not hold a number. -/
inductive NumberError where
  /-- The bytes are not text. -/
  | notText (b : Bytes)
  /-- The text is not an octal numeral of at most 64 bits. -/
  | notNumeral (s : String)
  deriving Repr, DecidableEq

def NumberError.message : NumberError → String
  | notText b => "numeric field did not have utf-8 text: " ++ Utf8.decodeLossy b
  | notNumeral s => "numeric field was not a number: " ++ s

/-- The number that big-endian bytes stand for. -/
def bigEndian (b : Bytes) : Nat := b.foldl (fun n x => n * 256 + x.toNat) 0

/-- The number that octal digits in a field stand for. Blanks around them do not count. -/
def readOctal (field : Bytes) : Except NumberError Nat :=
  let b := upToNul field
  match Utf8.decode? b with
  | none => .error (.notText b)
  | some s =>
    match Numeral.read? 8 (Blank.trim s.toList) with
    | none => .error (.notNumeral s)
    | some n => .ok n

/-- The number in a field that may be binary. A binary number is in the last eight bytes; in a field
of eight bytes the bit that marks it as binary is not part of it. -/
def readNumber (field : Bytes) : Except NumberError Nat :=
  match field with
  | [] => readOctal []
  | b :: r =>
    if b < 0x80 then readOctal field
    else if field.length ≤ 8 then .ok (bigEndian ((b ^^^ 0x80) :: r))
    else .ok (bigEndian (field.drop (field.length - 8)))

/-- The octal digits of a number in a field of `width` bytes, zeros in front and a NUL behind. A
number with more digits loses its first ones. -/
def octalField (width n : Nat) : Bytes :=
  let digits := (Nat.toDigits 8 n).map fun c => UInt8.ofNat c.toNat
  let kept := digits.drop (digits.length - (width - 1))
  List.replicate (width - 1 - kept.length) 48 ++ kept ++ [0]

/-- Big-endian bytes of a number of 64 bits, zeros in front, with the highest bit of a field of
`width` bytes set. -/
def binaryField (width n : Nat) : Bytes :=
  match zeros (width - 8) ++ (List.range 8).map fun i => UInt8.ofNat (n >>> (8 * (7 - i))) with
  | [] => []
  | b :: r => (b ||| 0x80) :: r

/-- A number in a field of `width` bytes, at least eight: in octal if the digits leave room for a
NUL, else in binary. -/
def numberField (width n : Nat) : Bytes :=
  if (Nat.toDigits 8 n).length < width then octalField width n else binaryField width n

end LayerPick.Tar
