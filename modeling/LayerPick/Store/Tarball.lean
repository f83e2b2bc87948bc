import LayerPick.FileTree
import LayerPick.Gzip.Member
import LayerPick.Log.Traced
import LayerPick.Store.Blobs
import LayerPick.Tar.Reader

/-!
# Image tarballs

An image may come as one tar archive. Its index says where in the archive the data of each regular
file lie, and where links lead; blobs are then read from the archive itself. A link is followed like
a file, up to eight look-ups in all. An archive that is compressed with gzip is first unpacked into
a temporary file.
-/
namespace LayerPick

/-- Where the data of a blob lie in an archive. -/
structure Span where
  offset : Nat
  size : Nat
  deriving Repr, DecidableEq

/-- Where the blobs of an archive are. Later entries come first. -/
structure TarIndex where
  spans : List (String × Span) := []
  links : List (String × String) := []
  deriving Repr, DecidableEq

namespace TarIndex

/-- How many names are looked up for one blob. -/
def maxLookups : Nat := 8

def find? (i : TarIndex) : (lookups : Nat) → String → Option Span
  | 0, _ => none
  | lookups + 1, name =>
    match i.spans.lookup name with
    | some s => some s
    | none => do find? i lookups (← i.links.lookup name)

def lookup (i : TarIndex) (name : String) : Option Span :=
  i.find? maxLookups (Path.normalize name)

def folderOf (name : String) : String :=
  Path.join ((Path.split name).dropLast)

/-- The name that a link leads to. A symbolic link that is relative starts at its own folder. -/
def linkTarget (symbolic : Bool) (name target : String) : String :=
  if symbolic && !Path.rooted target then Path.normalize (folderOf name ++ "/" ++ target)
  else Path.normalize target

/-- Takes in one entry, with what is worth a trace message. -/
def add (i : TarIndex) (e : Tar.Entry) : TarIndex × List Log.Record :=
  let name := Path.normalize (Utf8.decodeLossy e.path)
  match e.header.kind with
  | .regular => (⟨(name, ⟨e.start, e.size⟩) :: i.spans, i.links⟩, [])
  | .symbolicLink | .hardLink =>
    match e.link? with
    | none => (i, [])
    | some link =>
      let target := linkTarget (e.header.kind = .symbolicLink) name (Utf8.decodeLossy link)
      (⟨i.spans, (name, target) :: i.links⟩,
        [{ level := .trace, origin := .store,
           message := "Image tarball link: " ++ name ++ " -> " ++ target }])
  | _ => (i, [])

/-- Takes in all entries. `tries` is more than their number. -/
def addAll (i : TarIndex) : (tries : Nat) → Tar.Reader → Traced TarIndex
  | 0, _ => pure i
  | tries + 1, r =>
    match r.next? with
    | .error e => ⟨.error ⟨[.readTarballEntry], .tar e⟩, []⟩
    | .ok none => pure i
    | .ok (some (e, r)) =>
      let (i, log) := i.add e
      let t := i.addAll tries r
      ⟨t.outcome, log ++ t.log⟩

def names {α : Type} (xs : List (String × α)) : List String := (xs.map Prod.fst).eraseDups

def ofBytes (b : Bytes) : Traced TarIndex :=
  let r := Tar.Reader.ofFile b
  TarIndex.addAll {} (r.mostEntries + 1) r

end TarIndex

namespace Tarball

/-- The blobs of an archive that has been indexed. `reopen` opens the archive anew. -/
def store (i : TarIndex) (path : String) (reopen : Except SystemError Bytes) : BlobStore where
  contains name := (i.lookup name).isSome
  openBlob name :=
    match i.lookup name with
    | none => .error (.of (.blobNotFound name))
    | some s =>
      match reopen with
      | .error e => .error ⟨[.openTarball path], .system e⟩
      | .ok b => .ok (.ofBytes ((b.drop s.offset).take s.size))

structure Opened where
  index : TarIndex
  path : String
  /-- The unpacked archive, if it was compressed. -/
  unpacked : Option Bytes

def fileBytes (t : FileTree) (path : String) : Except SystemError Bytes :=
  (t.openFile path).map Source.data

/-- The blobs of the tarball, read from the files as they are in `t`. -/
def Opened.store (o : Opened) (t : FileTree) : BlobStore :=
  Tarball.store o.index o.path <|
    match o.unpacked with
    | some b => .ok b
    | none => fileBytes t o.path

/-- Indexes an archive and says what it has found. An archive without a path lies in the temporary
file. -/
def index (path : Option String) (b : Bytes) : Traced TarIndex := do
  let i ← TarIndex.ofBytes b
  let found := "Indexed " ++ toString (TarIndex.names i.spans).length ++ " blobs and " ++
    toString (TarIndex.names i.links).length ++ " links in "
  ⟨.ok i, [{ level := .debug, origin := .store, message := found ++ path.getD "",
             namesSpool := path.isNone }]⟩

def openAt (t : FileTree) (path : String) : Traced Opened := do
  let source ← Traced.ofExcept <|
    (t.openFile path).mapError fun e => ⟨[.openTarball path], .system e⟩
  let all := source.drain false
  match all.fault with
  | some f => Traced.ofExcept (.error ⟨[.readMagic], .stream f.message⟩)
  | none =>
    if Gzip.isGzip all.data then
      Traced.say .debug .store ("Image tarball is gzip compressed, spooling: " ++ path)
      let c := Gzip.read all.data
      match c.error with
      | some e => Traced.ofExcept (.error ⟨[.unpackTarball path], .stream e.message⟩)
      | none => return ⟨← index none c.data, path, some c.data⟩
    else return ⟨← index (some path) all.data, path, none⟩

end Tarball

end LayerPick
