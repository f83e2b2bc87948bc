import LayerPick.Failure

/-!
# Blob stores

The files of an image are blobs, each with a name. `BlobStore` is all that reading an image asks of
where they are kept.
-/
namespace LayerPick

/-- Where the blobs of an image are kept. -/
structure BlobStore where
  contains : String → Bool
  openBlob : String → Except Failure Source

namespace BlobStore

def readBlob (s : BlobStore) (name : String) : Except Failure (Source.Taken) := do
  return (← s.openBlob name).drain true

def readText (s : BlobStore) (name : String) : Except Failure String := do
  let t := (← s.openBlob name).drain true
  match t.fault with
  | some f => .error ⟨[.readBlob name], .stream f.message⟩
  | none =>
    match Utf8.decode? t.data with
    | some text => .ok text
    | none => .error ⟨[.readBlob name], .notUtf8⟩

/-- Reads a JSON document. Reading ends at the first thing that is wrong. -/
def readDocument {α : Type} (s : BlobStore) (name : String) (stage : Stage)
    (f : Json.Value → Option α) : Except Failure α := do
  let t := (← s.openBlob name).drain true
  match t.fault with
  | some f => .error ⟨[stage, .decodeDocument], .stream f.message⟩
  | none =>
    match (Json.parse? t.data).bind f with
    | some a => .ok a
    | none => .error ⟨[stage, .decodeDocument], .json⟩

end BlobStore

end LayerPick
