import LayerPick.FileTree
import LayerPick.Store.Blobs

/-!
# Layout folders

An image layout is a folder; the name of a blob is its path in that folder. Names are brought to
their normal form first, and a name that would lead out of the folder names nothing.
-/
namespace LayerPick.Layout

def path? (root name : String) : Option String :=
  let normal := Path.normalize name
  if Path.escapes normal then none else some (Path.inFolder root normal)

def store (t : FileTree) (root : String) : BlobStore where
  contains name := (path? root name).any t.isFile
  openBlob name :=
    match path? root name with
    | none => .error (.of (.blobEscapes name))
    | some path => (t.openFile path).mapError fun e => ⟨[.openBlob path], .system e⟩

def openAt (t : FileTree) (root : String) : Except Failure BlobStore :=
  if t.isFolder root then .ok (store t root) else .error (.of (.notLayout root))

end LayerPick.Layout
