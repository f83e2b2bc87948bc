import LayerPick.Log.Traced
import LayerPick.Oci.Spelling
import LayerPick.Store.Blobs

/-!
# Which layers make up an image

A store with a `manifest.json` holds saved images, of which the first counts. Otherwise `index.json`
lists manifests and further indexes, which are gone through depth first. When a platform is asked
for, a manifest counts if the index offers it for that platform; one that is offered for no platform
in particular, and a saved image, counts if its configuration is built for that platform.
-/
namespace LayerPick.Selection

open Oci

def savedImagesName : String := "manifest.json"

def indexName : String := "index.json"

/-- How many indexes may lie inside one another. -/
def maxIndexes : Nat := 5

def readConfig (s : BlobStore) (name : String) : Except Failure Config :=
  s.readDocument name (.parseConfig name) Config.ofValue?

/-- The first of the blobs that the store does not have. -/
def firstMissing? (s : BlobStore) (names : List String) : Option String :=
  names.find? fun n => !s.contains n

/-- The names, if the store has all of them. -/
def requireAll (s : BlobStore) (names : List String) : Except Failure (List String) :=
  match firstMissing? s names with
  | some n => .error (.of (.layerMissing n))
  | none => .ok names

/-- Is the image with this configuration for the platform that is asked for? -/
def requirePlatform (wanted : Option Platform) (s : BlobStore) (configName : String) :
    Except Failure Unit :=
  match wanted with
  | none => .ok ()
  | some p => do
    let c ← readConfig s configName
    if p.matchesConfig c then return ()
    else throw (.of (.wrongPlatform c.os c.architecture p))

def readSavedImages (s : BlobStore) : Except Failure (List SavedImage) := do
  let text ← s.readText savedImagesName
  match (Json.parse? (Utf8.encode text)).bind (Json.Value.list? SavedImage.ofValue?) with
  | some images => .ok images
  | none => .error ⟨[.parseSavedImages], .json⟩

def savedLayers (s : BlobStore) (wanted : Option Platform) : Traced (List String) := do
  match ← Traced.ofExcept (readSavedImages s) with
  | [] => Traced.fail .noSavedImage
  | image :: _ =>
    Traced.say .debug .manifest ("docker-save manifest: tags " ++
      Quoted.list (image.tags.getD []) ++ ", " ++ toString image.layers.length ++ " layers")
    Traced.ofExcept (requirePlatform wanted s image.config)
    Traced.ofExcept (requireAll s image.layers)

/-- What to do with a manifest that an index lists. -/
inductive Verdict where
  | take
  | skip
  | ask
  deriving Repr, DecidableEq

/-- What a descriptor says about a manifest. -/
def verdict (wanted : Option Platform) (d : Descriptor) : Verdict :=
  match wanted, d.platform with
  | none, _ => .take
  | some p, some o => if p.matchesOffer o then .take else .skip
  | some _, none => .ask

def tryManifest (s : BlobStore) (wanted : Option Platform) (d : Descriptor) :
    Traced (Option Manifest) := do
  let name := d.digest.blobName
  match verdict wanted d, wanted, d.platform with
  | .skip, _, some o =>
    Traced.say .trace .manifest ("Skipping manifest " ++ name ++ " for platform " ++ o.shown)
    return none
  | v, _, _ =>
    let m ← Traced.ofExcept (s.readDocument name (.parseManifest name) Manifest.ofValue?)
    let accepted ← match v, wanted with
      | .ask, some p => do
        let c ← Traced.ofExcept (readConfig s m.config.digest.blobName)
        pure (p.matchesConfig c)
      | _, _ => pure true
    if accepted then
      Traced.say .debug .manifest ("Selected image manifest " ++ d.digest.text)
      return some m
    else return none

/-- Looks for a manifest among descriptors. `inner` looks into an index inside. -/
def selectFrom (s : BlobStore) (wanted : Option Platform)
    (inner : Index → Traced (Option Manifest)) : List Descriptor → Traced (Option Manifest)
  | [] => pure none
  | d :: ds => do
    let found ←
      if d.mediaType = indexMediaType then do
        let name := d.digest.blobName
        let i ← Traced.ofExcept (s.readDocument name (.parseNestedIndex name) Index.ofValue?)
        inner i
      else tryManifest s wanted d
    match found with
    | some m => return some m
    | none => selectFrom s wanted inner ds

/-- Looks for a manifest in an index, in which at most `indexes` lie inside one another. -/
def select (s : BlobStore) (wanted : Option Platform) :
    (indexes : Nat) → Index → Traced (Option Manifest)
  | 0, _ => Traced.fail .nestingTooDeep
  | indexes + 1, i => selectFrom s wanted (select s wanted indexes) i.manifests

/-- The layers of the manifest that the outermost index leads to. -/
def indexedLayers (s : BlobStore) (wanted : Option Platform) : Traced (List String) := do
  let i ← Traced.ofExcept (s.readDocument indexName .parseIndex Index.ofValue?)
  match ← select s wanted maxIndexes i with
  | none => Traced.fail (.noManifest wanted)
  | some m => Traced.ofExcept (requireAll s (m.layers.map (·.digest.blobName)))

/-- The names of the layers of an image, the base layer first. -/
def layerNames (s : BlobStore) (wanted : Option Platform) : Traced (List String) :=
  if s.contains savedImagesName then (savedLayers s wanted).during .readSavedImages
  else if s.contains indexName then (indexedLayers s wanted).during .readIndex
  else Traced.fail .notImage

end LayerPick.Selection
