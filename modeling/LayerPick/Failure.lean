import LayerPick.Plugin
import LayerPick.SystemError
import LayerPick.Tar.Error

/-!
# Failures

Why an operation as a whole fails: a cause, and the stages it was in when the cause was met, the
outermost first. Each has a line of its own in the report.
-/
namespace LayerPick

/-- What has gone wrong. -/
inductive Cause where
  /-- JSON that has not the form it should have. -/
  | json
  | notUtf8
  | system (e : SystemError)
  | stream (message : String)
  | tar (e : Tar.ReadError)
  | platform (e : PlatformError)
  | flag (e : FlagError)
  | emptySource (index : Nat)
  | binNotListed (bin : String)
  | notLayout (path : String)
  | blobEscapes (name : String)
  | blobNotFound (name : String)
  | notImage
  | noSavedImage
  | layerMissing (name : String)
  | wrongPlatform (os architecture : String) (wanted : Platform)
  | noManifest (wanted : Option Platform)
  | nestingTooDeep
  | cancelled (layer : Nat)
  | entryUnreadable (path message : String)
  | entryTruncated (path : String) (expected got : Nat)
  deriving Repr, DecidableEq

def Cause.message : Cause → String
  | json => "<json>"
  | notUtf8 => "stream did not contain valid UTF-8"
  | system e => e.message
  | stream m => m
  | tar e => e.message
  | platform e => e.message
  | flag e => e.message
  | emptySource i => "files[" ++ toString i ++ "] has an empty 'from' path"
  | binNotListed bin => "bin '" ++ bin ++ "' is not the name of any declared file"
  | notLayout path => "Image layout is not a directory: " ++ path
  | blobEscapes name => "Blob path escapes the image layout: " ++ name
  | blobNotFound name => "Blob not found in image tarball: " ++ name
  | notImage => "Invalid image: neither manifest.json nor index.json found. " ++
      "This does not appear to be a valid OCI/Docker image."
  | noSavedImage => "Empty manifest.json"
  | layerMissing name => "Layer blob not found: " ++ name
  | wrongPlatform os arch wanted =>
    "Image is built for " ++ os ++ "/" ++ arch ++ ", not " ++ wanted.text
  | noManifest (some p) => "No manifest for platform " ++ p.text ++ " in image index"
  | noManifest none => "Image index lists no manifests"
  | nestingTooDeep => "Image index nesting is too deep"
  | cancelled i => "Extraction cancelled before layer " ++ toString i
  | entryUnreadable path m => path ++ ": " ++ m
  | entryTruncated path expected got =>
    path ++ " is truncated: expected " ++ toString expected ++ " bytes, got " ++ toString got

/-- What was being done. -/
inductive Stage where
  | openTarball (path : String)
  | readMagic
  | unpackTarball (path : String)
  | readTarballEntry
  | openBlob (path : String)
  | readBlob (name : String)
  | readSavedImages
  | parseSavedImages
  | readIndex
  | parseIndex
  | parseNestedIndex (name : String)
  | parseManifest (name : String)
  | parseConfig (name : String)
  | decodeDocument
  | loadImage (path : String)
  | readLayer (name : String)
  | listLayers
  | openLayer (index : Nat) (description : String)
  | readLayerEntry (index : Nat)
  | createArchive (path : String)
  | finishArchive
  | writeTrailer (path : String)
  | extract (path : String)
  | readPlugin (path : String)
  | checkPlugin (path : String)
  | parsePlugin
  deriving Repr, DecidableEq

def Stage.message : Stage → String
  | openTarball path => "Failed to open image tarball: " ++ path
  | readMagic => "Failed to read magic bytes from image tarball"
  | unpackTarball path => "Failed to decompress " ++ path
  | readTarballEntry => "Failed to read image tarball entry"
  | openBlob path => "Failed to open blob: " ++ path
  | readBlob name => "Failed to read " ++ name
  | readSavedImages => "Failed to read manifest.json"
  | parseSavedImages => "Failed to parse manifest.json"
  | readIndex => "Failed to read index.json"
  | parseIndex => "Failed to parse image index"
  | parseNestedIndex name => "Failed to parse nested image index " ++ name
  | parseManifest name => "Failed to parse image manifest " ++ name
  | parseConfig name => "Failed to parse image configuration " ++ name
  | decodeDocument => "serde failed"
  | loadImage path => "Failed to load image: " ++ path
  | readLayer name => "Failed to read layer " ++ name
  | listLayers => "Failed to retrieve image layers"
  | openLayer i d => "Failed to read layer " ++ toString i ++ " contents (" ++ d ++ ")"
  | readLayerEntry i => "Failed to read tar entry in layer " ++ toString i
  | createArchive path => "Failed to create output archive: " ++ path
  | finishArchive => "Failed to finalize output archive"
  | writeTrailer path => "Failed to write tar trailer: " ++ path
  | extract path => "Failed to extract files from " ++ path
  | readPlugin path => "Failed to read plugin manifest: " ++ path
  | checkPlugin path => "Invalid plugin manifest: " ++ path
  | parsePlugin => "Failed to parse plugin manifest"

structure Failure where
  /-- The outermost stage comes first. -/
  stages : List Stage := []
  cause : Cause
  deriving Repr, DecidableEq

namespace Failure

def of (c : Cause) : Failure := ⟨[], c⟩

/-- The failure seen from a stage around it. -/
def within (s : Stage) (f : Failure) : Failure := ⟨s :: f.stages, f.cause⟩

/-- The lines of the report, outermost first. -/
def messages (f : Failure) : List String := f.stages.map Stage.message ++ [f.cause.message]

def message (f : Failure) : String := ": ".intercalate f.messages

def ofPlugin : PluginError → Failure
  | .notJson => ⟨[.parsePlugin], .json⟩
  | .emptySource i => of (.emptySource i)
  | .binNotListed bin => of (.binNotListed bin)
  | .platform e => of (.platform e)

end Failure

end LayerPick
