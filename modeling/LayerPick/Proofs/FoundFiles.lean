import LayerPick.Cli.Run
import LayerPick.Proofs.FewerTargets
import LayerPick.Proofs.Requests
import LayerPick.Proofs.StorageForms
import Mathlib.Data.List.Perm.Basic

/-!
# Files that were found, and files that are missing

A file is found if its target has been claimed, and it is missing if it is not among the files that
were found. The first goes by paths and the second by files as a whole; but files that are equal
have equal targets, so what is missing is just what was not found. Both lists keep the order in
which the files were asked for, and hold a file as often as it was asked for.
-/
namespace LayerPick

/-- The files that are missing behind a selection are those that were not selected. -/
lemma missingFiles_filter (p : FileSpec → Bool) (files : List FileSpec) :
    missingFiles files (files.filter p) = files.filter fun f => !p f := by
  refine List.filter_congr fun f hf => ?_
  simp [List.mem_filter, hf]

/-- Files are split by whether their targets are among some paths. No occurrence of a file is lost,
and none is in both lists. -/
structure SplitBy (paths : List String) (files found missing : List FileSpec) : Prop where
  found_eq : found = files.filter fun f => decide (f.target ∈ paths)
  missing_eq : missing = files.filter fun f => decide (f.target ∉ paths)
  perm : (found ++ missing).Perm files
  disjoint : found.Disjoint missing

lemma SplitBy.of_found {paths : List String} {files found : List FileSpec}
    (h : found = files.filter fun f => decide (f.target ∈ paths)) :
    SplitBy paths files found (missingFiles files found) := by
  have hmissing : missingFiles files found = files.filter fun f => !decide (f.target ∈ paths) := by
    rw [h, missingFiles_filter]
  refine ⟨h, ?_, ?_, ?_⟩
  · rw [hmissing]
    exact List.filter_congr fun f _ => by simp
  · rw [hmissing, h]
    exact List.filter_append_perm ..
  · intro f hfound hmissing
    have hno : f ∉ found := by simpa using (List.mem_filter.mp hmissing).2
    exact hno hfound

section Extract

variable {image : Image} {files : List FileSpec} {cancelled : ℕ → Bool}
  {create : Except SystemError Device} {label : String} {x : Extracted} {e : Extraction}

/-- The files that an extraction finds are those whose paths the archive was asked to take. -/
lemma locations_eq (hx : extract image files cancelled create label = x) (he : x.outcome = .ok e) :
    e.locations = files.filter fun f => decide (f.target ∈ x.attempts.map fun a => a.path) := by
  rcases image with ⟨f | layers⟩
  · rw [← hx] at he
    simp [extract] at he
  rcases create with g | d
  · rw [← hx] at he
    simp [extract] at he
  obtain ⟨below, s, hreached, -, -, hattempts, -, rfl⟩ := extract_halt hx he
  have hpaths := hreached.consistent.attempted
  simp only [Resolved.found, Resolved.contains, hattempts, hpaths, List.mem_reverse]

end Extract

namespace Cli

/-- What is said of a file that was not found. -/
def missingNote (f : FileSpec) : Log.Record :=
  { level := .warn, origin := .progress, message := f.source ++ " not found in image" }

/-- A run that succeeds has met a request, and says at the end which files are missing. -/
lemma perform_ok {t : FileTree} {o : Options} {locations : List FileSpec}
    (h : (perform t o).1 = .ok locations) :
    ∃ r image e before after, request t o = .ok r ∧
      (extractInto t image r.files (fun _ => false) o.output).1.outcome = .ok e ∧
      locations = e.locations ∧
      (perform t o).2.1 =
        before ++ (missingFiles r.files e.locations).map missingNote ++ after := by
  rcases hr : request t o with f | r
  · simp [perform, hr] at h
  rcases hi : (openImage t o r).outcome with f | image
  · simp [perform, hr, hi] at h
  rcases hx : extractInto t image.image r.files (fun _ => false) o.output with ⟨x, t'⟩
  rcases he : x.outcome with f | e
  · simp [perform, hr, hi, hx, he] at h
  have hrun : perform t o =
      (.ok e.locations, (openImage t o r).log ++ (x.log ++ closingLog r.files e), t') := by
    simp only [perform, hr, hi, hx, he]
  obtain ⟨after, hclosing⟩ : ∃ after, closingLog r.files e =
      (missingFiles r.files e.locations).map missingNote ++ after := ⟨_, rfl⟩
  rw [hrun] at h ⊢
  refine ⟨r, image.image, e, (openImage t o r).log ++ x.log, after, rfl, by rw [hx]; exact he,
    (Except.ok.inj h).symm, ?_⟩
  rw [hclosing, List.append_assoc, List.append_assoc]

lemma extractInto_eq (t : FileTree) (image : FileTree → Image) (files : List FileSpec)
    (cancelled : ℕ → Bool) (path : String) :
    ∃ t' create, (extractInto t image files cancelled path).1 =
      extract (image t') files cancelled create path := by
  unfold extractInto
  rcases t.create path with e | ⟨target, t'⟩
  · exact ⟨t, .error e, rfl⟩
  · refine ⟨t', .ok (deviceOf target), ?_⟩
    simp only
    split <;> rfl

end Cli

/-- Which files are found and which are missing goes by their targets alone, whatever else tells
them apart and however often they are asked for: by the paths that have been claimed, and in an
extraction by the paths that the archive was asked to take. So a run that succeeds prints some of
the files that it was to look for, and names all the others, and only these, in a part of its log.
-/
theorem found_or_missing :
    (∀ (r : Resolved) (files : List FileSpec),
      SplitBy r.paths files (r.found files) (missingFiles files (r.found files))) ∧
    (∀ (image : Image) (files : List FileSpec) (cancelled : ℕ → Bool)
        (create : Except SystemError Device) (label : String) (x : Extracted) (e : Extraction),
      extract image files cancelled create label = x → x.outcome = .ok e →
        SplitBy (x.attempts.map fun a => a.path) files e.locations
          (missingFiles files e.locations)) ∧
    ∀ (t : FileTree) (o : Cli.Options) (locations : List FileSpec),
      (Cli.perform t o).1 = .ok locations →
        ∃ r paths missing before after, Cli.request t o = .ok r ∧
          SplitBy paths r.files locations missing ∧
          (Cli.perform t o).2.1 = before ++ missing.map Cli.missingNote ++ after := by
  refine ⟨fun r files => .of_found rfl, ?_, ?_⟩
  · intro image files cancelled create label x e hx he
    exact .of_found (locations_eq hx he)
  · intro t o locations h
    obtain ⟨r, image, e, before, after, hr, he, rfl, hlog⟩ := Cli.perform_ok h
    obtain ⟨t', create, hx⟩ := Cli.extractInto_eq t image r.files (fun _ => false) o.output
    exact ⟨r, _, _, before, after, hr, .of_found (locations_eq hx.symm he), hlog⟩

/-- A run that is asked for two files, one of them in two spellings and both twice. -/
theorem found_or_missing_twice :
    let files : List FileSpec :=
      [⟨"/usr/bin/foo", "."⟩, ⟨"/bar", "."⟩, ⟨"usr//bin/./foo", "bin"⟩, ⟨"/usr/bin/foo", "."⟩,
        ⟨"/bar", "."⟩]
    let t := imageFolder (savedBlobs (archiveOf [("usr/bin/foo", [104])]))
    let o : Cli.Options := ⟨"image", "out", none, files.map FileSpec.flag, none, 0⟩
    let found : List FileSpec :=
      [⟨"/usr/bin/foo", "."⟩, ⟨"usr//bin/./foo", "bin"⟩, ⟨"/usr/bin/foo", "."⟩]
    SplitBy (Resolved.ofList ["usr/bin/foo"]).paths files found [⟨"/bar", "."⟩, ⟨"/bar", "."⟩] ∧
      (Cli.perform t o).1 = .ok found ∧
      ∃ r paths missing before after, Cli.request t o = .ok r ∧
        SplitBy paths r.files found missing ∧
        (Cli.perform t o).2.1 = before ++ missing.map Cli.missingNote ++ after := by
  intro files t o found
  have hrun : (Cli.perform t o).1 = .ok found := by decide +kernel
  exact ⟨found_or_missing.1 (.ofList ["usr/bin/foo"]) files, hrun,
    found_or_missing.2.2 t o found hrun⟩

end LayerPick
