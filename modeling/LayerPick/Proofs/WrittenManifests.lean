import LayerPick.Proofs.CalmReading
import LayerPick.Proofs.Requests
import LayerPick.Proofs.SpelledValues

/-!
# Manifests that are written back

A manifest is written as an object with all its fields. It is read back field by field, so that what
is left of reading it is to check it. A manifest that is valid is therefore loaded as it was
written, and one that is not is refused for the same reason as before.
-/
namespace LayerPick

open Json

namespace Json

lemma mapM_map_some {α β γ : Type} {f : β → Option γ} {g : α → β} {k : α → γ}
    (h : ∀ a, f (g a) = some (k a)) (as : List α) : (as.map g).mapM f = some (as.map k) := by
  induction as with
  | nil => rfl
  | cons a as ih => simp [h, ih]

namespace Spelled

lemma slots?_object (ms : List (String × Spelled)) (names : List String) :
    (object ms).value.slots? names =
      names.mapM (Value.slot? (ms.map fun m => (m.1, m.2.value))) := by
  have hdecoded : (ms.map memberValue).mapM (fun m => do return (← Text.decode? m.1, m.2)) =
      some (ms.map fun m => (m.1, m.2.value)) := by
    refine mapM_map_some (fun m => ?_) ms
    simp [memberValue]
  simp only [object, Value.slots?]
  rw [hdecoded]
  rfl

lemma text?_string (s : String) : (string s).value.text? = some s := by
  simp [string, Value.text?]

lemma list?_array {α : Type} {f : Value → Option α} {g : α → Spelled}
    (h : ∀ a, f (g a).value = some a) (as : List α) :
    (array (as.map g)).value.list? f = some as := by
  have hvalues : (as.map g).map value = as.map fun a => (g a).value := List.map_map
  simpa [array, Value.list?, hvalues] using mapM_map_some h as

end Spelled

end Json

def FileSpec.spelled (f : FileSpec) : Spelled :=
  .object [("from", .string f.source), ("to", .string f.label)]

lemma FileSpec.text_spelled (f : FileSpec) : f.spelled.text = f.json := by
  have hfrom : Text.quoted "from" = "\"from\"" := by decide
  have hto : Text.quoted "to" = "\"to\"" := by decide
  apply String.toList_injective
  simp [spelled, Spelled.memberText, json, hfrom, hto]

lemma FileSpec.ofValue?_spelled (f : FileSpec) : ofValue? f.spelled.value = some f := by
  simp [ofValue?, spelled, Spelled.slots?_object, Value.slot?, Slot.required, Slot.defaulted,
    Spelled.text?_string]

def Plugin.spelled (p : Plugin) : Spelled :=
  .object [("platform", .string p.platform), ("image", .string p.image),
    ("files", .array (p.files.map FileSpec.spelled)), ("bin", .string p.bin)]

lemma Plugin.text_spelled (p : Plugin) : p.spelled.text = p.json := by
  have hplatform : Text.quoted "platform" = "\"platform\"" := by decide
  have himage : Text.quoted "image" = "\"image\"" := by decide
  have hfiles : Text.quoted "files" = "\"files\"" := by decide
  have hbin : Text.quoted "bin" = "\"bin\"" := by decide
  have htexts : (p.files.map FileSpec.spelled).map Spelled.text = p.files.map FileSpec.json := by
    rw [List.map_map]
    exact List.map_congr_left fun f _ => f.text_spelled
  unfold json
  apply String.toList_injective
  simp [spelled, Spelled.memberText, htexts, hplatform, himage, hfiles, hbin]

lemma Plugin.ofValue?_spelled (p : Plugin) : ofValue? p.spelled.value = some p := by
  simp [ofValue?, spelled, Spelled.slots?_object, Value.slot?, Slot.required, Slot.defaulted,
    Spelled.text?_string, Spelled.list?_array FileSpec.ofValue?_spelled]

namespace Plugin

variable {p : Plugin}

lemma parse_json (p : Plugin) :
    parse p.json = match p.fault? with
      | some e => .error e
      | none => .ok p := by
  have hread : (Json.parse? (Utf8.encode p.json)).bind ofValue? = some p := by
    rw [← p.text_spelled, p.spelled.parse?_text, Option.bind_some, p.ofValue?_spelled]
  cases h : p.fault? <;> simp [parse, hread, h]

lemma parse_json_valid (h : p.fault? = none) : parse p.json = .ok p := by
  rw [parse_json, h]

lemma loadPlugin_json {t : FileTree} {path : String} (h : p.fault? = none)
    (hfile : t.find? path = .ok (.file (Utf8.encode p.json))) : Cli.loadPlugin t path = .ok p := by
  obtain ⟨s, hdrain⟩ := Source.drain_ofBytes true (Utf8.encode p.json)
  have hopen : t.openFile path = .ok (.ofBytes (Utf8.encode p.json)) := by
    rw [FileTree.openFile, hfile]
  simp [Cli.loadPlugin, hopen, hdrain, parse_json_valid h, Except.mapError]

/-- A manifest that is valid loads as itself when it is written back, from any file that holds it.
So does whatever was read from some text. A manifest that is not valid is refused for what is wrong
with it, and never because its text could not be read. -/
theorem written_loads (p : Plugin) :
    (p.fault? = none → parse p.json = .ok p ∧
      ∀ (t : FileTree) (path : String), t.find? path = .ok (.file (Utf8.encode p.json)) →
        Cli.loadPlugin t path = .ok p) ∧
    (∀ text, parse text = .ok p → parse p.json = .ok p) ∧
    ∀ e, p.fault? = some e → parse p.json = .error e := by
  refine ⟨fun h => ⟨parse_json_valid h, fun t path => loadPlugin_json h⟩, fun text h => ?_,
    fun e h => ?_⟩
  · exact parse_json_valid (fault?_of_parse h)
  · rw [parse_json, h]

/-- A manifest with characters of every length, some of which are written in another way. -/
def escaped : Plugin where
  platform := "linux/arm64/v8"
  image := "\x00\x1f\x7fé"
  files := [⟨"\"\\/😀", "\n"⟩]
  bin := "😀"

/-- A text that writes the same characters differently. -/
def escapedText : String :=
  "\x7b\"bin\":\"\\ud83d\\uDE00\", \"platform\":\"linux\\/arm64/v8\",\"files\":" ++
    "[\x7b\"to\":\"\\u000a\",\"from\":\"\\u0022\\u005C/😀\"\x7d]," ++
    "\"image\":\"\\u0000\\u001F\x7f\\u00e9\"\x7d"

/-- It loads as itself, and so does what is read from the other text. A platform with a single part
is refused. -/
theorem written_loads_escaped :
    escaped.fault? = none ∧ parse escaped.json = .ok escaped ∧
    Cli.loadPlugin (FileTree.empty.withFile "a" (Utf8.encode escaped.json)) "a" = .ok escaped ∧
    parse escapedText = .ok escaped ∧ escapedText ≠ escaped.json ∧
    parse (⟨"linux", "", [], ""⟩ : Plugin).json = .error (.platform (.wrongCount "linux")) := by
  have hvalid : escaped.fault? = none := by decide
  have hread : parse escapedText = .ok escaped := by decide +kernel
  obtain ⟨hloads, htext, -⟩ := written_loads escaped
  refine ⟨hvalid, htext _ hread, (hloads hvalid).2 _ _ rfl, hread, by decide +kernel, ?_⟩
  exact (written_loads ⟨"linux", "", [], ""⟩).2.2 _ (by decide)

end Plugin

end LayerPick
