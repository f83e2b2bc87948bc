import LayerPick.Gzip.PrefixCode

/-!
# Deflate data

Deflate data are blocks: bytes stored as they are, or symbols of a prefix code, which stand for
bytes and for repetitions of earlier ones. What lies before the first byte counts as zeros, so a
repetition may reach back there.
-/
namespace LayerPick.Gzip

/-- Where unpacking has got to. -/
structure Inflation where
  output : Array UInt8
  /-- What is left to read, or why nothing more can be read. -/
  state : Except Stop Bits

/-- Unpacking cannot go on. -/
def Inflation.stop (out : Array UInt8) (e : Stop) : Inflation := ⟨out, .error e⟩

/-- Repeats `n` bytes that lie `distance` bytes back. -/
def repeatBack (distance : Nat) : (n : Nat) → Array UInt8 → Array UInt8
  | 0, out => out
  | n + 1, out =>
    let b := if distance ≤ out.size then out.getD (out.size - distance) 0 else 0
    repeatBack distance n (out.push b)

/-- Least length and number of further bits for each length symbol. -/
def lengthTable : Array (Nat × Nat) :=
  #[(3, 0), (4, 0), (5, 0), (6, 0), (7, 0), (8, 0), (9, 0), (10, 0), (11, 1), (13, 1), (15, 1),
    (17, 1), (19, 2), (23, 2), (27, 2), (31, 2), (35, 3), (43, 3), (51, 3), (59, 3), (67, 4),
    (83, 4), (99, 4), (115, 4), (131, 5), (163, 5), (195, 5), (227, 5), (258, 0)]

/-- Least distance and number of further bits for each distance symbol. -/
def distanceTable : Array (Nat × Nat) :=
  #[(1, 0), (2, 0), (3, 0), (4, 0), (5, 1), (7, 1), (9, 2), (13, 2), (17, 3), (25, 3), (33, 4),
    (49, 4), (65, 5), (97, 5), (129, 6), (193, 6), (257, 7), (385, 7), (513, 8), (769, 8),
    (1025, 9), (1537, 9), (2049, 10), (3073, 10), (4097, 11), (6145, 11), (8193, 12), (12289, 12),
    (16385, 13), (24577, 13)]

/-- Reads the further bits of a symbol and adds them to its least value. -/
def extended (table : Array (Nat × Nat)) (symbol : Nat) (bits : Bits) :
    Except Stop (Nat × Bits) :=
  match table[symbol]? with
  | none => .error .corrupt
  | some (least, extra) => do
    let (n, bits) ← bits.number extra
    return (least + n, bits)

/-- What one symbol of a block stands for. -/
inductive Item where
  | byte (b : UInt8)
  | repetition (length distance : Nat)
  | blockEnd
  deriving Repr, DecidableEq

/-- Reads one symbol with what belongs to it. -/
def readItem (literals distances : PrefixCode) (bits : Bits) : Except Stop (Item × Bits) := do
  let (symbol, bits) ← literals.read bits
  if symbol < 256 then return (.byte (UInt8.ofNat symbol), bits)
  if symbol = 256 then return (.blockEnd, bits)
  let (length, bits) ← extended lengthTable (symbol - 257) bits
  let (symbol, bits) ← distances.read bits
  let (distance, bits) ← extended distanceTable symbol bits
  return (.repetition length distance, bits)

/-- Unpacks symbols up to the end of their block. `tries` is more than the number of bits. -/
def inflateItems (literals distances : PrefixCode) :
    (tries : Nat) → Array UInt8 → Bits → Inflation
  | 0, out, _ => .stop out .corrupt
  | tries + 1, out, bits =>
    match readItem literals distances bits with
    | .error e => .stop out e
    | .ok (.byte b, bits) => inflateItems literals distances tries (out.push b) bits
    | .ok (.repetition n d, bits) =>
      inflateItems literals distances tries (repeatBack d n out) bits
    | .ok (.blockEnd, bits) => ⟨out, .ok bits⟩

/-- Unpacks a stored block. Bytes that are there are delivered even if others are missing. -/
def inflateStored (out : Array UInt8) (bits : Bits) : Inflation :=
  let b := bits.align.rest
  if b.length < 4 then .stop out .incomplete
  else
    let n := (b.headD 0).toNat + 256 * ((b.drop 1).headD 0).toNat
    let m := ((b.drop 2).headD 0).toNat + 256 * ((b.drop 3).headD 0).toNat
    if n + m ≠ 65535 then .stop out .corrupt
    else
      let data := (b.drop 4).take n
      let out := data.foldl Array.push out
      if data.length < n then .stop out .incomplete
      else ⟨out, .ok (.ofBytes (b.drop (4 + n)))⟩

/-- The lengths of the fixed code for bytes and lengths. -/
def fixedLengths : List Nat :=
  List.replicate 144 8 ++ List.replicate 112 9 ++ List.replicate 24 7 ++ List.replicate 8 8

/-- Reads lengths of code words; `tries` is at least the number of lengths that are missing. -/
def readLengths (code : PrefixCode) (count : Nat) :
    (tries : Nat) → (read : List Nat) → Bits → Except Stop (List Nat × Bits)
  | 0, _, _ => .error .corrupt
  | tries + 1, read, bits => do
    if count = read.length then return (read.reverse, bits)
    if count < read.length then throw .corrupt
    let (symbol, bits) ← code.read bits
    if symbol < 16 then readLengths code count tries (symbol :: read) bits
    else if symbol = 16 then
      match read with
      | [] => throw .corrupt
      | l :: _ =>
        let (n, bits) ← bits.number 2
        readLengths code count tries (List.replicate (3 + n) l ++ read) bits
    else if symbol = 17 then
      let (n, bits) ← bits.number 3
      readLengths code count tries (List.replicate (3 + n) 0 ++ read) bits
    else
      let (n, bits) ← bits.number 7
      readLengths code count tries (List.replicate (11 + n) 0 ++ read) bits

/-- The order in which the lengths of the code for lengths are listed. -/
def lengthOrder : List Nat := [16, 17, 18, 0, 8, 7, 9, 6, 10, 5, 11, 4, 12, 3, 13, 2, 14, 1, 15]

def readTriples : (n : Nat) → Bits → Except Stop (List Nat × Bits)
  | 0, bits => .ok ([], bits)
  | n + 1, bits => do
    let (k, bits) ← bits.number 3
    let (ks, bits) ← readTriples n bits
    return (k :: ks, bits)

/-- Reads the codes of a block that brings its own. -/
def readCodes (bits : Bits) : Except Stop (PrefixCode × PrefixCode × Bits) := do
  let (n, bits) ← bits.number 5
  let (m, bits) ← bits.number 5
  let (k, bits) ← bits.number 4
  if 286 < n + 257 ∨ 30 < m + 1 then throw .corrupt
  let (triples, bits) ← readTriples (k + 4) bits
  let listed := lengthOrder.zip triples
  let lengths := (List.range 19).map fun s => (listed.lookup s).getD 0
  let code ← PrefixCode.ofLengths false lengths
  let count := n + 257 + (m + 1)
  let (all, bits) ← readLengths code count (count + 1) [] bits
  let literals ← PrefixCode.ofLengths true (all.take (n + 257))
  let distances ← PrefixCode.ofLengths true (all.drop (n + 257))
  return (literals, distances, bits)

def inflateBlock (type : Nat) (out : Array UInt8) (bits : Bits) : Inflation :=
  if type = 0 then inflateStored out bits
  else if type = 1 then
    match PrefixCode.ofLengths false fixedLengths,
        PrefixCode.ofLengths false (List.replicate 32 5) with
    | .ok literals, .ok distances => inflateItems literals distances (bits.size + 1) out bits
    | _, _ => .stop out .corrupt
  else if type = 2 then
    match readCodes bits with
    | .error e => .stop out e
    | .ok (literals, distances, bits) =>
      inflateItems literals distances (bits.size + 1) out bits
  else .stop out .corrupt

/-- Unpacks blocks up to the last. `tries` is more than the number of bits. -/
def inflateBlocks : (tries : Nat) → Array UInt8 → Bits → Inflation
  | 0, out, _ => .stop out .corrupt
  | tries + 1, out, bits =>
    match (do
      let (last, bits) ← bits.next
      let (type, bits) ← bits.number 2
      return (last, type, bits) : Except Stop (Bool × Nat × Bits)) with
    | .error e => .stop out e
    | .ok (last, type, bits) =>
      match inflateBlock type out bits with
      | ⟨out, .ok bits⟩ => if last then ⟨out, .ok bits⟩ else inflateBlocks tries out bits
      | r => r

def inflate (b : Bytes) : Inflation :=
  inflateBlocks (8 * b.length + 1) #[] (.ofBytes b)

end LayerPick.Gzip
