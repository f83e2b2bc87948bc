import LayerPick.Gzip.Checksum
import LayerPick.Gzip.Inflate

/-!
# Gzip members

A gzip member is a header, deflate data, and a trailer with the checksum and the length of the data.
`read` takes the first member of a byte run and gives its data as far as they can be had, with the
error that reading them ends in. `encode` writes a member whose data are stored as they are.
-/
namespace LayerPick.Gzip

/-- Why a member cannot be read to its end. -/
inductive Error where
  | invalidHeader
  | headerTooLong
  | ended
  | wrongChecksum
  | incompleteData
  | corruptData
  deriving Repr, DecidableEq

def Error.message : Error → String
  | invalidHeader => "invalid gzip header"
  | headerTooLong => "gzip header field too long"
  | ended => "unexpected end of file"
  | wrongChecksum => "corrupt gzip stream does not have a matching checksum"
  | incompleteData => "incomplete deflate stream"
  | corruptData => "corrupt deflate stream"

/-- The data of a member as far as they can be had, and the error behind them. -/
structure Contents where
  data : Bytes
  error : Option Error
  deriving Repr, DecidableEq

def isGzip : Bytes → Bool
  | 0x1f :: 0x8b :: _ => true
  | _ => false

def hasFlag (flags bit : UInt8) : Bool := flags &&& bit != 0

/-- Skips two bytes of length and as many bytes as they say. -/
def skipExtra (b : Bytes) : Except Error Bytes :=
  let n := littleEndian (b.take 2)
  if b.length < 2 + n then .error .ended else .ok (b.drop (2 + n))

/-- The greatest length of a text in a header. -/
def maxHeaderText : Nat := 65535

/-- Skips a text and the NUL behind it. -/
def skipText (b : Bytes) : Except Error Bytes :=
  let n := (b.takeWhile (· ≠ 0)).length
  if maxHeaderText < n then .error .headerTooLong
  else if b.length ≤ n then .error .ended
  else .ok (b.drop (n + 1))

/-- Checks two bytes against the checksum of the header before them. -/
def skipHeaderChecksum (whole b : Bytes) : Except Error Bytes :=
  if b.length < 2 then .error .ended
  else
    let sum := crc32 (whole.take (whole.length - b.length))
    if littleEndian (b.take 2) = sum.toNat % 65536 then .ok (b.drop 2) else .error .wrongChecksum

def skipHeader (b : Bytes) : Except Error Bytes := do
  if b.length < 10 then throw .ended
  let flags := (b.drop 3).headD 0
  if !isGzip b || (b.drop 2).headD 0 != 8 || hasFlag flags 0xe0 then throw .invalidHeader
  let r := b.drop 10
  let r ← if hasFlag flags 4 then skipExtra r else .ok r
  let r ← if hasFlag flags 8 then skipText r else .ok r
  let r ← if hasFlag flags 16 then skipText r else .ok r
  if hasFlag flags 2 then skipHeaderChecksum b r else .ok r

def checkTrailer (data trailer : Bytes) : Option Error :=
  if trailer.length < 8 then some .ended
  else if littleEndian (trailer.take 4) = (crc32 data).toNat ∧
      littleEndian ((trailer.drop 4).take 4) = data.length % UInt32.size then none
  else some .wrongChecksum

/-- How many bytes are unpacked before any of them is handed out. A full window is handed out when
a byte behind it is due. -/
def windowSize : Nat := 32768

/-- Reads the first member. Data that turn out to be corrupt take the unfinished window with
them. -/
def read (b : Bytes) : Contents :=
  match skipHeader b with
  | .error e => ⟨[], some e⟩
  | .ok r =>
    match inflate r with
    | ⟨out, .error .incomplete⟩ => ⟨out.toList, some .incompleteData⟩
    | ⟨out, .error .corrupt⟩ =>
      ⟨out.toList.take ((out.size - 1) / windowSize * windowSize), some .corruptData⟩
    | ⟨out, .ok bits⟩ =>
      let data := out.toList
      ⟨data, checkTrailer data bits.align.rest⟩

/-- The greatest length of a stored block. -/
def maxStored : Nat := 65535

def storedBlock (last : Bool) (b : Bytes) : Bytes :=
  (if last then 1 else 0) ::
    (toLittleEndian 2 b.length ++ (toLittleEndian 2 (65535 - b.length) ++ b))

/-- Bytes as stored blocks. `tries` is at least the number of blocks after the first. -/
def storedBlocks : (tries : Nat) → Bytes → Bytes
  | 0, b => storedBlock true (b.take maxStored)
  | tries + 1, b =>
    let r := b.drop maxStored
    if r.isEmpty then storedBlock true b
    else storedBlock false (b.take maxStored) ++ storedBlocks tries r

def encode (b : Bytes) : Bytes :=
  [0x1f, 0x8b, 8, 0, 0, 0, 0, 0, 0, 255] ++ (storedBlocks (b.length / maxStored) b ++
    (toLittleEndian 4 (crc32 b).toNat ++ toLittleEndian 4 (b.length % UInt32.size)))

end LayerPick.Gzip
