import LayerPick.Image.Layer
import LayerPick.Image.Selection
import LayerPick.Store.Layout
import LayerPick.Store.Tarball

/-!
# Images in files

An image in files is a layout folder or an image tarball. Each of its layers is a blob that holds a
tar archive, plain or compressed with gzip; the first two bytes tell which.
-/
namespace LayerPick

/-- What an unpacked source fails with: where data are missing and the source behind them fails, it
is with the failure of that source. -/
def unpackingFault (defect : Option String) : Gzip.Error → Fault
  | .ended => ⟨false, defect.getD Gzip.Error.ended.message⟩
  | .incompleteData => ⟨false, defect.getD Gzip.Error.incompleteData.message⟩
  | e => ⟨false, e.message⟩

/-- The data of gzip that a source delivers. Behind a failure the stream ends. -/
def gunzip (s : Source) : Source :=
  let c := Gzip.read s.data
  let fault := c.error.map fun e => Event.fault (unpackingFault s.defect e)
  ⟨.bytes c.data none :: fault.toList, none⟩

/-- How many bytes are looked at to tell gzip apart. -/
def peekSize : Nat := 8192

/-- The stream of a blob, unpacked if it is gzip. What one read call gives is looked at. -/
def unpackedBlob (name : String) (s : Source) : Except Failure Source :=
  match s.read peekSize with
  | (.failed f, _) => .error ⟨[.readLayer name], .stream f.message⟩
  | (.ended, s) => .ok s
  | (.chunk b, rest) =>
    let whole : Source := ⟨.bytes b none :: rest.events, rest.defect⟩
    .ok (if Gzip.isGzip b then gunzip whole else whole)

def blobLayers (s : BlobStore) (names : List String) : List Layer :=
  names.map fun name => ⟨name, do unpackedBlob name (← s.openBlob name)⟩

/-- Where the blobs of an image in files are. -/
inductive LocalStore where
  | layout (root : String)
  | tarball (o : Tarball.Opened)

/-- The blobs, read from the files as they are in `t`. -/
def LocalStore.blobs (s : LocalStore) (t : FileTree) : BlobStore :=
  match s with
  | .layout root => Layout.store t root
  | .tarball o => o.store t

structure LocalImage where
  path : String
  store : LocalStore
  /-- The names of the layers, the base layer first. -/
  layers : List String

namespace LocalImage

/-- Opens where the blobs are. -/
def openStore (t : FileTree) (path : String) : Traced LocalStore :=
  if t.isFolder path then do
    let _ ← Traced.ofExcept (Layout.openAt t path)
    return .layout path
  else do return .tarball (← Tarball.openAt t path)

def layersOf (s : BlobStore) (wanted : Option Platform) : Traced (List String) := do
  let names ← Selection.layerNames s wanted
  Traced.say .debug .image ("Image has " ++ toString names.length ++ " layers")
  return names

/-- Opens the image at a path, for a platform if one is asked for. -/
def openAt (t : FileTree) (path : String) (wanted : Option Platform) : Traced LocalImage := do
  let s ← openStore t path
  let names ← (layersOf (s.blobs t) wanted).during (.loadImage path)
  return ⟨path, s, names⟩

/-- The image, its layers read from the files as they are in `t`. -/
def image (i : LocalImage) (t : FileTree) : Image :=
  ⟨.ok (blobLayers (i.store.blobs t) i.layers)⟩

end LocalImage

end LayerPick
