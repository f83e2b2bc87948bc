import LayerPick.Cli.Run
import LayerPick.Proofs.CommandLines
import LayerPick.Proofs.TracedOutcomes

/-!
# Requests

The files and the platform that are asked for come from a plugin manifest or from flags. A manifest
that loads is valid: its files have sources and its platform can be read. A file that is written as a
flag is read back from it.
-/
namespace LayerPick

open Tar

namespace Plugin

variable {p : Plugin}

lemma fault?_of_parse {text : String} (h : parse text = .ok p) : p.fault? = none := by
  rw [parse] at h
  split at h
  · cases h
  · split at h
    · cases h
    · rename_i hfault
      obtain rfl := Except.ok.inj h
      exact hfault

lemma platform?_ok (h : p.fault? = none) : ∃ pl, p.platform? = .ok pl := by
  rw [fault?] at h
  split at h
  · cases h
  split_ifs at h
  split at h
  · cases h
  · rename_i pl hpl
    exact ⟨pl, hpl⟩

end Plugin

/-- The file as it is given on the command line. -/
def FileSpec.flag (f : FileSpec) : String := f.source ++ ":" ++ f.label

namespace Cli

section MapM

variable {α β ε : Type} {g : α → Except ε β}

lemma mapM_ok {as : List α} : (∃ bs, as.mapM g = .ok bs) ↔ ∀ a ∈ as, ∃ b, g a = .ok b := by
  induction as with
  | nil => simp
  | cons a as ih =>
    simp only [List.mapM_cons, List.forall_mem_cons, ← ih, bind_ok]
    constructor
    · rintro ⟨_, b, hb, bs, hbs, -⟩
      exact ⟨⟨b, hb⟩, bs, hbs⟩
    · rintro ⟨⟨b, hb⟩, bs, hbs⟩
      exact ⟨_, b, hb, bs, hbs, rfl⟩

end MapM

section Request

variable {t : FileTree} {o : Options}

/-- Either files or a manifest are named, and not both. -/
lemma names_of_ofArgs {args : List String} (h : Options.ofArgs args = .ok o) :
    o.manifest = none ∧ o.files ≠ [] ∨ o.manifest.isSome ∧ o.files = [] := by
  rw [ofArgs_eq] at h
  obtain ⟨r, -, hr⟩ := bind_ok.mp h
  simp only [Reading.options] at hr
  split at hr
  · split_ifs at hr with hnames
    obtain rfl := Except.ok.inj hr
    cases hm : r.manifest <;> cases hf : r.files <;> simp_all
  · cases hr

lemma loadPlugin_fault {path : String} {p : Plugin} (h : loadPlugin t path = .ok p) :
    p.fault? = none := by
  obtain ⟨source, -, h⟩ := bind_ok.mp h
  simp only at h
  split at h
  · cases h
  split at h
  · cases h
  · exact Plugin.fault?_of_parse (mapError_ok.mp h)

/-- The request for files, for the platform that is named or else for another. -/
def requestFor (files : List FileSpec) (other : Option Platform) :
    Option String → Except Failure Request
  | some p => (Platform.parse p).map (fun p => ⟨files, some p⟩) |>.mapError fun e => .of (.platform e)
  | none => .ok ⟨files, other⟩

lemma request_manifest {path : String} (hm : o.manifest = some path) {p : Plugin}
    (hp : loadPlugin t path = .ok p) {other : Option Platform} (hother : p.platform? = .ok other) :
    request t o = requestFor p.files other o.platform := by
  simp only [request, hm, hp, hother, Except.mapError, ok_bind, pure_eq]
  cases o.platform with
  | none => rfl
  | some q => cases h : Platform.parse q <;> simp [requestFor, h, Except.map, Except.mapError]

lemma request_files (hm : o.manifest = none) {files : List FileSpec}
    (hfiles : (o.files.mapM fun f => (FileSpec.ofFlag f).mapError fun e => Failure.of (.flag e)) =
      .ok files) : request t o = requestFor files none o.platform := by
  simp only [request, hm, hfiles, ok_bind, pure_eq]
  cases o.platform with
  | none => rfl
  | some q => cases h : Platform.parse q <;> simp [requestFor, h, Except.map, Except.mapError]

lemma requestFor_ok {files : List FileSpec} {other : Option Platform} {platform : Option String} :
    (∃ r, requestFor files other platform = .ok r) ↔
      ∀ p, platform = some p → ∃ pl, Platform.parse p = .ok pl := by
  cases platform with
  | none => simp [requestFor]
  | some p =>
    simp only [requestFor, mapError_ok, map_ok, Option.some.injEq, forall_eq']
    constructor
    · rintro ⟨_, pl, hpl, -⟩
      exact ⟨pl, hpl⟩
    · rintro ⟨pl, hpl⟩
      exact ⟨_, pl, hpl, rfl⟩

/-- A request can be met if the manifest loads, each file has a source, and the platform can be read,
as far as there are any. -/
lemma request_ok {args : List String} (ho : Options.ofArgs args = .ok o) :
    (∃ r, request t o = .ok r) ↔
      (∀ path, o.manifest = some path → ∃ p, loadPlugin t path = .ok p) ∧
      (∀ flag ∈ o.files, ∃ f, FileSpec.ofFlag flag = .ok f) ∧
      ∀ p, o.platform = some p → ∃ pl, Platform.parse p = .ok pl := by
  have hflags : (∃ files, (o.files.mapM fun f => (FileSpec.ofFlag f).mapError fun e =>
      Failure.of (.flag e)) = .ok files) ↔ ∀ flag ∈ o.files, ∃ f, FileSpec.ofFlag flag = .ok f := by
    simp only [mapM_ok, mapError_ok]
  rcases names_of_ofArgs ho with ⟨hm, -⟩ | ⟨hm, hnone⟩
  · simp only [hm, reduceCtorEq, false_implies, implies_true, true_and]
    rw [← hflags]
    rcases hfiles : (o.files.mapM fun f => (FileSpec.ofFlag f).mapError fun e =>
      Failure.of (.flag e)) with e | files
    · simp [request, hm, hfiles]
    · simp [request_files hm hfiles, requestFor_ok]
  · obtain ⟨path, hm⟩ := Option.isSome_iff_exists.mp hm
    rcases hp : loadPlugin t path with f | p
    · simp [request, hm, hp]
    · obtain ⟨other, hother⟩ := Plugin.platform?_ok (loadPlugin_fault hp)
      simp [request_manifest hm hp hother, requestFor_ok, hm, hp, hnone]

end Request

end Cli

end LayerPick
