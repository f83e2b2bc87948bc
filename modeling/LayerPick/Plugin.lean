import LayerPick.Path.Components
import LayerPick.Platform

/-!
# What is to be extracted

Files are asked for one by one on the command line, or by a plugin manifest that lists them. A
manifest also names the platform it is for and, if it likes, the entrypoint, which must be the last
component of one of its files.
-/
namespace LayerPick

/-- A file that is asked for: its path in the image, and a label that is handed on. -/
structure FileSpec where
  source : String
  label : String
  deriving Repr, DecidableEq

structure FlagError where
  flag : String
  deriving Repr, DecidableEq

def FlagError.message (e : FlagError) : String :=
  "Invalid file '" ++ e.flag ++ "': source path is empty"

namespace FileSpec

/-- The path that the file is looked for under. -/
def target (f : FileSpec) : String := Path.target f.source

/-- Reads `FROM` or `FROM:TO`. A label that is left out is `.`. -/
def ofFlag (flag : String) : Except FlagError FileSpec :=
  let source := flag.toList.takeWhile (· ≠ ':')
  let label := (flag.toList.dropWhile (· ≠ ':')).drop 1
  if source.isEmpty then .error ⟨flag⟩
  else .ok ⟨.ofList source, if label.isEmpty then "." else .ofList label⟩

def ofValue? (v : Json.Value) : Option FileSpec := do
  match ← v.slots? ["from", "to"] with
  | [source, label] =>
    return ⟨← source.required Json.Value.text?, ← label.defaulted "" Json.Value.text?⟩
  | _ => none

def json (f : FileSpec) : String :=
  "\x7b\"from\":" ++ Json.Text.quoted f.source ++ ",\"to\":" ++ Json.Text.quoted f.label ++ "\x7d"

/-- The file as JSON inside a list that is written out over several lines. -/
def jsonLines (f : FileSpec) : String :=
  "  \x7b\n    \"from\": " ++ Json.Text.quoted f.source ++ ",\n    \"to\": " ++
    Json.Text.quoted f.label ++ "\n  \x7d"

/-- A list of files as JSON, written out over several lines. -/
def listLines : List FileSpec → String
  | [] => "[]"
  | fs => "[\n" ++ ",\n".intercalate (fs.map jsonLines) ++ "\n]"

end FileSpec

structure Plugin where
  /-- The platform, empty if any will do. -/
  platform : String
  image : String
  files : List FileSpec
  /-- The name of the entrypoint, empty if there is none. -/
  bin : String
  deriving Repr, DecidableEq

/-- Why a manifest is refused. -/
inductive PluginError where
  | notJson
  | emptySource (index : Nat)
  | binNotListed (bin : String)
  | platform (e : PlatformError)
  deriving Repr, DecidableEq

namespace Plugin

def ofValue? (v : Json.Value) : Option Plugin := do
  match ← v.slots? ["platform", "image", "files", "bin"] with
  | [platform, image, files, bin] =>
    return {
      platform := ← platform.defaulted "" Json.Value.text?
      image := ← image.defaulted "" Json.Value.text?
      files := ← files.required (Json.Value.list? FileSpec.ofValue?)
      bin := ← bin.defaulted "" Json.Value.text? }
  | _ => none

def platform? (p : Plugin) : Except PlatformError (Option Platform) :=
  if p.platform.isEmpty then .ok none else (Platform.parse p.platform).map some

/-- Why the manifest is refused, if it is. -/
def fault? (p : Plugin) : Option PluginError :=
  match p.files.findIdx? (·.source.isEmpty) with
  | some i => some (.emptySource i)
  | none =>
    if !p.bin.isEmpty && !p.files.any (fun f => Path.fileName? f.source == some p.bin) then
      some (.binNotListed p.bin)
    else match p.platform? with
      | .error e => some (.platform e)
      | .ok _ => none

def parse (text : String) : Except PluginError Plugin :=
  match (Json.parse? (Utf8.encode text)).bind ofValue? with
  | none => .error .notJson
  | some p =>
    match p.fault? with
    | some e => .error e
    | none => .ok p

def json (p : Plugin) : String :=
  "\x7b\"platform\":" ++ Json.Text.quoted p.platform ++ ",\"image\":" ++ Json.Text.quoted p.image ++
    ",\"files\":[" ++ ",".intercalate (p.files.map FileSpec.json) ++ "],\"bin\":" ++
    Json.Text.quoted p.bin ++ "\x7d"

end Plugin

end LayerPick
