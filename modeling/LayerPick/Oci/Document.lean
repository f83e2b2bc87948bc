import LayerPick.Json.Decode
import LayerPick.Oci.Digest

/-!
# OCI documents

The JSON documents of an image: index, manifest, configuration, and the list of records that
`docker save` writes. All fields are checked; only those that select layers are kept.
-/
namespace LayerPick.Oci

open Json

structure Offer where
  architecture : String
  os : String
  osVersion : Option String
  osFeatures : Option (List String)
  variant : Option String
  features : Option (List String)
  deriving Repr, DecidableEq

structure Descriptor where
  mediaType : String
  digest : Digest
  platform : Option Offer
  deriving DecidableEq

structure Index where
  manifests : List Descriptor

/-- A manifest: the configuration and the layers of an image. -/
structure Manifest where
  config : Descriptor
  layers : List Descriptor

/-- The part of an image's configuration that says what it is built for. -/
structure Config where
  architecture : String
  os : String
  variant : Option String
  deriving Repr, DecidableEq

/-- A record of `manifest.json`. -/
structure SavedImage where
  config : String
  tags : Option (List String)
  layers : List String
  deriving Repr, DecidableEq

def indexMediaType : String := "application/vnd.oci.image.index.v1+json"

/-- Reads the name of an architecture. Big-endian 32-bit ARM is taken as 64-bit. -/
def architecture? (v : Value) : Option String :=
  v.text?.map fun s => if s = "armbe" then "arm64be" else s

def texts? : Value → Option (List String) := Value.list? Value.text?

def textMap? : Value → Option (List (String × String)) := Value.map? Value.text?

def Offer.ofValue? (v : Value) : Option Offer := do
  match ← v.slots? ["architecture", "os", "os_version", "os_features", "variant", "features"] with
  | [arch, os, version, osFeatures, variant, features] =>
    return {
      architecture := ← arch.required architecture?
      os := ← os.required Value.text?
      osVersion := ← version.optional Value.text?
      osFeatures := ← osFeatures.optional texts?
      variant := ← variant.optional Value.text?
      features := ← features.optional texts? }
  | _ => none

def Descriptor.ofValue? (v : Value) : Option Descriptor := do
  match ← v.slots? ["mediaType", "digest", "size", "urls", "annotations", "platform",
    "artifactType", "data"] with
  | [mediaType, digest, size, urls, annotations, platform, artifactType, data] =>
    let mediaType ← mediaType.required Value.text?
    let digest ← digest.required fun v => do Digest.ofText? (← v.text?)
    let _ ← size.required (Value.natural? UInt64.size)
    let _ ← urls.optional texts?
    let _ ← annotations.optional textMap?
    let platform ← platform.optional Offer.ofValue?
    let _ ← artifactType.optional Value.text?
    let _ ← data.optional Value.text?
    return ⟨mediaType, digest, platform⟩
  | _ => none

def Index.ofValue? (v : Value) : Option Index := do
  match ← v.slots? ["schemaVersion", "mediaType", "artifactType", "manifests", "subject",
    "annotations"] with
  | [version, mediaType, artifactType, manifests, subject, annotations] =>
    let _ ← version.required (Value.natural? UInt32.size)
    let _ ← mediaType.optional Value.text?
    let _ ← artifactType.optional Value.text?
    let manifests ← manifests.required (Value.list? Descriptor.ofValue?)
    let _ ← subject.optional Descriptor.ofValue?
    let _ ← annotations.optional textMap?
    return ⟨manifests⟩
  | _ => none

def Manifest.ofValue? (v : Value) : Option Manifest := do
  match ← v.slots? ["schemaVersion", "mediaType", "artifactType", "config", "layers", "subject",
    "annotations"] with
  | [version, mediaType, artifactType, config, layers, subject, annotations] =>
    let _ ← version.required (Value.natural? UInt32.size)
    let _ ← mediaType.optional Value.text?
    let _ ← artifactType.optional Value.text?
    let config ← config.required Descriptor.ofValue?
    let layers ← layers.required (Value.list? Descriptor.ofValue?)
    let _ ← subject.optional Descriptor.ofValue?
    let _ ← annotations.optional textMap?
    return ⟨config, layers⟩
  | _ => none

def checkRuntime? (v : Value) : Option Unit := do
  match ← v.slots? ["User", "ExposedPorts", "Env", "Entrypoint", "Cmd", "Volumes", "WorkingDir",
    "Labels", "StopSignal"] with
  | [user, ports, env, entrypoint, cmd, volumes, folder, labels, signal] =>
    let _ ← user.optional Value.text?
    let _ ← ports.optional (Value.map? Value.unit?)
    let _ ← env.optional texts?
    let _ ← entrypoint.optional texts?
    let _ ← cmd.optional texts?
    let _ ← volumes.optional (Value.map? Value.unit?)
    let _ ← folder.optional Value.text?
    let _ ← labels.optional textMap?
    let _ ← signal.optional Value.text?
    return ()
  | _ => none

def checkRootFs? (v : Value) : Option Unit := do
  match ← v.slots? ["type", "diff_ids"] with
  | [kind, ids] =>
    let _ ← kind.required Value.text?
    let _ ← ids.required texts?
    return ()
  | _ => none

def checkStep? (v : Value) : Option Unit := do
  match ← v.slots? ["created", "author", "created_by", "comment", "empty_layer"] with
  | [created, author, createdBy, comment, emptyLayer] =>
    let _ ← created.optional Value.text?
    let _ ← author.optional Value.text?
    let _ ← createdBy.optional Value.text?
    let _ ← comment.optional Value.text?
    let _ ← emptyLayer.optional Value.bool?
    return ()
  | _ => none

def Config.ofValue? (v : Value) : Option Config := do
  match ← v.slots? ["created", "author", "architecture", "os", "os.version", "os.features",
    "variant", "config", "rootfs", "history"] with
  | [created, author, arch, os, version, features, variant, config, rootfs, history] =>
    let _ ← created.optional Value.text?
    let _ ← author.optional Value.text?
    let arch ← arch.required architecture?
    let os ← os.required Value.text?
    let _ ← version.optional Value.text?
    let _ ← features.optional texts?
    let variant ← variant.optional Value.text?
    let _ ← config.optional checkRuntime?
    let _ ← rootfs.required checkRootFs?
    let _ ← history.optional (Value.list? checkStep?)
    return ⟨arch, os, variant⟩
  | _ => none

/-- Reads a record of `manifest.json`. -/
def SavedImage.ofValue? (v : Value) : Option SavedImage := do
  match ← v.slots? ["Config", "RepoTags", "Layers"] with
  | [config, tags, layers] =>
    let config ← config.required Value.text?
    let tags ← match tags with
      | .beyond => some none
      | slot => slot.optional texts?
    let layers ← layers.required texts?
    return ⟨config, tags, layers⟩
  | _ => none

end LayerPick.Oci
