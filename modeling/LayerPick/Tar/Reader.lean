import LayerPick.Tar.Pax
import LayerPick.Tar.Sparse

/-!
# Reading an archive

A `Reader` goes through an archive entry by entry. `Reader.next?` skips what is left of the entry
before, reads the next header, and takes in the members that describe an entry (a long path, a long
link target, PAX records). The content of the entry can then be read through `Reader.content` as far
as one likes.

A stream is skipped by reading it. A file is skipped by moving on in it, which may lead behind its
end.
-/
namespace LayerPick.Tar

structure Entry where
  header : Header
  /-- How many bytes of content there are. -/
  size : Nat
  /-- Where the data start in the archive. -/
  start : Nat
  longName : Option Bytes := none
  longLink : Option Bytes := none
  pax : Option Bytes := none
  deriving DecidableEq

def withoutFinalNul (b : Bytes) : Bytes :=
  if b.getLast? = some 0 then b.dropLast else b

namespace Entry

def path (e : Entry) : Bytes :=
  match e.longName with
  | some b => withoutFinalNul b
  | none => (e.pax.bind (Pax.value? "path")).getD e.header.path

def link? (e : Entry) : Option Bytes :=
  match e.longLink with
  | some b => some (withoutFinalNul b)
  | none => (e.pax.bind (Pax.value? "linkpath")) <|> e.header.link?

end Entry

structure Reader where
  content : Content
  /-- Where the next header is. -/
  next : Nat := 0
  /-- Is the archive a file, in which one may move? -/
  isFile : Bool := false

/-- What has been read that describes the next entry. -/
structure Described where
  longName : Option Bytes := none
  longLink : Option Bytes := none
  pax : Option Bytes := none
  deriving DecidableEq

namespace Described

def isEmpty (d : Described) : Bool := d.longName.isNone && d.longLink.isNone && d.pax.isNone

/-- Why a member of this kind cannot describe the next entry as well. -/
def clash? (d : Described) : Kind → Option ReadError
  | .longName => if d.longName.isSome then some .twoLongNames else none
  | .longLink => if d.longLink.isSome then some .twoLongNames else none
  | .extended => if d.pax.isSome then some .twoExtended else none
  | _ => none

/-- Takes in the data of a member of this kind. -/
def add (d : Described) (data : Bytes) : Kind → Described
  | .longName => { d with longName := some data }
  | .longLink => { d with longLink := some data }
  | .extended => { d with pax := some data }
  | _ => d

end Described

/-- Does a member describe the next entry? Only the newer forms of headers have such members. -/
def Header.describes (h : Header) : Bool :=
  h.form ≠ .old ∧ (h.kind = .longName ∨ h.kind = .longLink ∨ h.kind = .extended)

namespace Reader

def ofSource (s : Source) : Reader := ⟨⟨[], s, 0⟩, 0, false⟩

/-- Reads an archive from the bytes of a file. -/
def ofFile (b : Bytes) : Reader := ⟨⟨[], .ofBytes b, 0⟩, 0, true⟩

/-- Skips what is left of the current member. -/
def skip (r : Reader) : Except ReadError Content :=
  let distance := r.next - r.content.position
  if r.isFile then
    if Numeral.bound / 2 ≤ distance then .error .skipTooFar
    else if Numeral.bound / 2 ≤ r.next then .error (.system .invalidPosition)
    else .ok ⟨[], (r.content.source.take false distance).rest, r.next⟩
  else
    let t := r.content.source.take false distance
    match t.fault with
    | some f => .error (.stream f)
    | none => if t.data.length < distance then .error .endedInSkip else .ok ⟨[], t.rest, r.next⟩

/-- Writes the owners that PAX records give into the header. -/
def applyOwners (pax : Option Bytes) (h : Header) : Header :=
  let h := match pax.bind (Pax.number? "uid") with
    | some n => { h with userId := .ofBytes 8 (numberField 8 n) }
    | none => h
  match pax.bind (Pax.number? "gid") with
  | some n => { h with groupId := .ofBytes 8 (numberField 8 n) }
  | none => h

/-- Do PAX records before a member say something about it? They describe a file, not a member that
describes files itself. -/
def isDescribed (h : Header) : Bool :=
  match h.kind with
  | .longName | .longLink | .extended | .globalExtended => false
  | _ => true

/-- What the bytes where a header is due are: the block of a header, or the end of the archive. -/
def headerBlock? (t : Source.Taken) : Except ReadError (Option (Bytes × Source)) :=
  match t.fault with
  | some f => .error (.stream f)
  | none =>
    if t.data.length = 0 then .ok none
    else if t.data.length < blockSize then .error .incompleteBlock
    else if t.data.all (· == 0) then .ok none
    else .ok (some (t.data, t.rest))

/-- The block of the next header and the stream behind it, or `none` at the end. -/
def nextBlock? (r : Reader) : Except ReadError (Option (Bytes × Source)) := do
  let c ← r.skip
  headerBlock? (c.source.take false blockSize)

/-- The header in a block, with what PAX records before it say, and how many bytes it announces. -/
def headerIn (block : Bytes) (pax : Option Bytes) : Except ReadError (Header × Nat) := do
  let h := Header.ofBlock block
  let sum ← (readOctal h.checksum.bytes).mapError (.checksumField · h.pathText)
  if sum ≠ h.byteSum then throw .checksumMismatch
  let pax := if isDescribed h then pax else none
  let h := applyOwners pax h
  let stated ← (readNumber h.size.bytes).mapError (.sizeField · h.pathText)
  return (h, (pax.bind (Pax.number? "size")).getD stated)

/-- The next member, or `none` at the end. -/
def nextMember? (r : Reader) (pax : Option Bytes) :
    Except ReadError (Option (Header × Nat × Reader)) := do
  match ← r.nextBlock? with
  | none => .ok none
  | some (block, rest) =>
    let (h, size) ← headerIn block pax
    let start := r.next + blockSize
    if Numeral.bound ≤ size + (blockSize - 1) ∨ Numeral.bound ≤ start + (size + padding size) then
      .error .sizeOverflow
    else
      .ok (some (h, size,
        ⟨⟨[.stored size], rest, start⟩, start + (size + padding size), r.isFile⟩))

/-- The entry that a member is, after what describes it. -/
def entryAt (d : Described) (h : Header) (size : Nat) (r : Reader) :
    Except ReadError (Entry × Reader) := do
  let start := r.content.position
  if h.kind = .sparse then
    let (pieces, full, c, blocks) ← sparsePieces h size r.content
    .ok (⟨h, full, start, d.longName, d.longLink, d.pax⟩,
      { r with content := { c with pieces := pieces }, next := r.next + blockSize * blocks })
  else .ok (⟨h, size, start, d.longName, d.longLink, d.pax⟩, r)

/-- The members up to the next entry. At most three describe it, one of each kind. -/
def nextFrom? : (members : Nat) → Described → Reader → Except ReadError (Option (Entry × Reader))
  | 0, _, _ => .error .nothingDescribed
  | members + 1, d, r => do
    match ← r.nextMember? d.pax with
    | none => if d.isEmpty then .ok none else .error .nothingDescribed
    | some (h, size, r) =>
      if h.describes then
        match d.clash? h.kind with
        | some e => .error e
        | none => do
          let (data, c) ← r.content.drain.mapError .stream
          nextFrom? members (d.add data h.kind) { r with content := c }
      else do return some (← entryAt d h size r)

/-- The next entry, or `none` at the end. -/
def next? (r : Reader) : Except ReadError (Option (Entry × Reader)) :=
  nextFrom? 4 {} r

/-- More entries than the archive can have. -/
def mostEntries (r : Reader) : Nat := r.content.source.length / blockSize + 1

end Reader

/-- The records with keys that must not follow an entry to where it is stored under another path. -/
def dropsKey (key : Bytes) : Bool :=
  key == Utf8.encode "path" || key == Utf8.encode "linkpath"

/-- The records that follow an entry, or that one of them is malformed. A record whose key is no
text does not follow it. -/
def carriedFrom : List (Option Pax.Record) → Except ReadError (List Pax.Record)
  | [] => .ok []
  | none :: _ => .error .malformedPax
  | some r :: rs => do
    let later ← carriedFrom rs
    if (Utf8.decode? r.key).isNone || dropsKey r.key then return later else return r :: later

/-- The records that follow an entry. An entry that is itself an extended member without records of
its own holds them as its content, which is read for that. -/
def Entry.carriedRecords (e : Entry) (c : Content) : Except ReadError (List Pax.Record × Content) :=
  match e.pax with
  | some data => do return (← carriedFrom (Pax.records data), c)
  | none =>
    if e.header.kind = .extended ∨ e.header.kind = .globalExtended then do
      let (data, c) ← c.drain.mapError .stream
      return (← carriedFrom (Pax.records data), c)
    else .ok ([], c)

end LayerPick.Tar
