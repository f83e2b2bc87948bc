import LayerPick.Stream.Device
import LayerPick.Tar.Content
import LayerPick.Tar.Pax
import LayerPick.Tar.PathField

/-!
# Writing an archive

An entry is written as a header block, its content, and zeros up to the next block. Records go
before it into a member of their own, and so does a path that its header does not take.

The calls on the device are part of the format here, since a device may refuse each of them: one per
block, one per 8192 bytes of content or less, one for the zeros.
-/
namespace LayerPick.Tar

/-- The most bytes that one call moves. -/
def chunkSize : Nat := 8192

/-- Bytes in calls of at most `chunkSize`. `tries` is at least the number of calls. -/
def chunks : (tries : Nat) → Bytes → List Bytes
  | 0, _ => []
  | tries + 1, b => if b.isEmpty then [] else b.take chunkSize :: chunks tries (b.drop chunkSize)

/-- The calls for a member whose content is known. -/
def memberCalls (h : Header) (content : List Bytes) : List Bytes :=
  h.toBytes :: (content ++ [zeros (padding content.flatten.length)])

/-- The header of a member with PAX records of `n` bytes. -/
def extendedHeader (n : Nat) : Header :=
  { Header.blank with
    size := .ofBytes 12 (numberField 12 n)
    modified := .ofBytes 12 (octalField 12 0)
    kindByte := 120
    magic := .ofBytes 8 ustarMagic : Header }.withChecksum

/-- The calls for a member with PAX records. -/
def extendedCalls (records : List Pax.Record) : List Bytes :=
  let data := Pax.encode records
  memberCalls (extendedHeader data.length) (chunks data.length data)

/-- The header of a member with a path of `n` bytes. -/
def longNameHeader (n : Nat) : Header :=
  { Header.blank with
    name := .ofBytes 100 (Utf8.encode "././@LongLink")
    mode := .ofBytes 8 (octalField 8 420)
    userId := .ofBytes 8 (octalField 8 0)
    groupId := .ofBytes 8 (octalField 8 0)
    size := .ofBytes 12 (numberField 12 (n + 1))
    modified := .ofBytes 12 (octalField 12 0)
    kindByte := 76
    magic := .ofBytes 8 gnuMagic : Header }.withChecksum

def longNameCalls (path : Bytes) : List Bytes :=
  memberCalls (longNameHeader path.length) (chunks path.length path ++ [[0]])

/-- The calls for a path that comes before the header of its entry, the header with that path, and
why it does not take it. A path of 100 bytes or more is kept in a member of its own if need be. -/
def placePath (h : Header) (p : String) : List Bytes × Header × Option PathError :=
  match h.setPath p with
  | (h', none) => ([], h', none)
  | (h', some e) =>
    let path := Utf8.encode p
    if path.length < 100 then ([], h', some e)
    else
      match h'.setCutPath (beginning 100 p) with
      | (h'', some e) => ([], h'', some e)
      | (h'', none) => (longNameCalls path, h'', none)

/-- How the copying of content ends. -/
inductive Copied where
  /-- The content ended after this many bytes. -/
  | complete (count : Nat)
  | refused (message : String)
  /-- The content failed otherwise than transiently. -/
  | unreadable (message : String)
  deriving Repr, DecidableEq

/-- Copies content to a device. `tries` is at least the number of read calls. -/
def copy : (tries : Nat) → (count : Nat) → Device → Content → Device × Content × Copied
  | 0, count, d, c => (d, c, .complete count)
  | tries + 1, count, d, c =>
    match c.read chunkSize with
    | (.ended, c') => (d, c', .complete count)
    | (.failed f, c') =>
      if f.transient then copy tries count d c' else (d, c', .unreadable f.message)
    | (.chunk b, c') =>
      match d.write b with
      | (d', some m) => (d', c', .refused m)
      | (d', none) => copy tries (count + b.length) d' c'

/-- Writes an entry: records and path before it, its header, its content, and zeros. -/
def writeEntry (d : Device) (h : Header) (p : String) (records : List Pax.Record) (c : Content) :
    Device × Content × Copied :=
  match d.writeAll (if records.isEmpty then [] else extendedCalls records) with
  | (d, some m) => (d, c, .refused m)
  | (d, none) =>
    let (before, h, e) := placePath h p
    match d.writeAll before with
    | (d, some m) => (d, c, .refused m)
    | (d, none) =>
      match e with
      | some e => (d, c, .refused e.message)
      | none =>
        match d.write h.withChecksum.toBytes with
        | (d, some m) => (d, c, .refused m)
        | (d, none) =>
          match copy c.calls 0 d c with
          | (d, c, .complete n) =>
            match d.write (zeros (padding n)) with
            | (d, some m) => (d, c, .refused m)
            | (d, none) => (d, c, .complete n)
          | r => r

def trailer : Bytes := zeros (2 * blockSize)

end LayerPick.Tar
