import LayerPick.Proofs.FoundFiles
import LayerPick.Proofs.StoredPaths
import LayerPick.Proofs.TargetSpellings
import Mathlib.Data.String.Basic

/-!
# Entrypoints

An entrypoint is the name of a declared file as a file system sees it, where `..` cancels nothing
and has no name. The file is stored under its target, where `..` cancels the component before it.
Both see the same last name: behind it there is nothing that could cancel it. So the entry is stored
under the name of the entrypoint, even if its header comes with the front part of another path.
-/
namespace LayerPick

namespace Path

lemma component?_later (part : Name) :
    component? false part =
      if part = [] ∨ part = selfName then none else some (component part) := by
  unfold component? component
  by_cases h₁ : part = []
  · simp [h₁]
  by_cases h₂ : part = selfName
  · simp [h₂]
  · simp only [h₁, h₂, or_self, if_false]
    split_ifs <;> rfl

lemma laterComponents_concat (parts : List Name) (part : Name) :
    laterComponents (parts ++ [part]) =
      laterComponents parts ++ (component? false part).toList := by
  rw [laterComponents, List.filterMap_append, List.filterMap_cons]
  cases component? false part <;> rfl

/-- The parts end in this name, but for some that count for nothing. -/
def EndsIn (parts : List Name) (n : Name) : Prop :=
  (laterComponents parts).getLast? = some (.name n)

lemma EndsIn.isName {parts : List Name} {n : Name} (h : EndsIn parts n) :
    n ∈ parts ∧ n ≠ selfName ∧ n ≠ parentName := by
  obtain ⟨part, hmem, hpart⟩ := List.mem_filterMap.mp (List.mem_of_getLast? h)
  rw [component?_later, component] at hpart
  split_ifs at hpart with hskip hup
  · simp at hpart
  · obtain rfl : part = n := by simpa using hpart
    exact ⟨hmem, fun hself => hskip (.inr hself), hup⟩

lemma EndsIn.foldl_walk {parts : List Name} {n : Name} (h : EndsIn parts n) (fromRoot : Bool)
    (inner : List Name) : ∃ outer, parts.foldl (walk fromRoot) inner = n :: outer := by
  induction parts using List.reverseRecOn with
  | nil => simp [EndsIn, laterComponents] at h
  | append_singleton parts part ih =>
    rw [EndsIn, laterComponents_concat, component?_later] at h
    rw [List.foldl_append, List.foldl_cons, List.foldl_nil]
    by_cases hskip : part = [] ∨ part = selfName
    · rw [if_pos hskip, Option.toList_none, List.append_nil] at h
      obtain ⟨outer, houter⟩ := ih h
      exact ⟨outer, by rw [houter, walk, if_pos hskip]⟩
    · rw [if_neg hskip, Option.toList_some, List.getLast?_concat, component] at h
      split_ifs at h with hup
      · simp at h
      · obtain rfl : part = n := by simpa using h
        exact ⟨parts.foldl (walk fromRoot) inner, by simp only [walk, hskip, hup, if_false]⟩

/-- In front of the components that a path has further on there is at most a root or a `.`. -/
lemma components_eq (p : String) : ∃ front : List Component,
    components p = front ++ laterComponents (split p) ∧ ∀ c ∈ front, c = .root ∨ c = .here := by
  obtain ⟨first, rest, hsplit⟩ : ∃ first rest, split p = first :: rest :=
    List.exists_cons_of_ne_nil (List.splitOn_ne_nil '/' p.toList)
  have hlater : laterComponents (first :: rest) =
      (component? false first).toList ++ laterComponents rest := by
    rw [laterComponents, List.filterMap_cons]
    cases component? false first <;> rfl
  rw [components, hsplit, hlater]
  by_cases hp : rooted p = true
  · obtain ⟨r, rfl⟩ := eq_root_append hp
    obtain ⟨rfl, -⟩ := List.cons.inj ((split_root r).symm.trans hsplit)
    exact ⟨[.root], by simp [hp, component?], by simp⟩
  · by_cases hself : first = selfName
    · subst hself
      exact ⟨[.here], by simp [hp, component?, selfName], by simp⟩
    · exact ⟨[], by simp [hp, component?, hself], by simp⟩

lemma fileName?_eq_some {p b : String} :
    fileName? p = some b ↔ EndsIn (split p) b.toList := by
  obtain ⟨front, hcomponents, hfront⟩ := components_eq p
  rw [fileName?, hcomponents, EndsIn]
  by_cases hnone : laterComponents (split p) = []
  · rw [hnone, List.append_nil]
    refine iff_of_false ?_ (by simp)
    rcases hlast : front.getLast? with _ | c
    · simp
    · rcases hfront c (List.mem_of_getLast? hlast) with rfl | rfl <;> simp
  · rw [List.getLast?_append_of_ne_nil _ hnone]
    rcases (laterComponents (split p)).getLast? with _ | _ | _ | _ | n <;>
      simp [String.ofList_eq]

lemma normalNames_endsIn {p : String} {n : Name} (h : EndsIn (split p) n) :
    ∃ ks, normalNames p = ks ++ [n] := by
  obtain ⟨outer, houter⟩ := h.foldl_walk (rooted p) []
  exact ⟨outer.reverse, by rw [normalNames, houter, List.reverse_cons]⟩

lemma target_endsIn {p b : String} (h : fileName? p = some b) :
    ∃ ks, target p = join (ks ++ [b.toList]) ∧ ∀ n ∈ ks ++ [b.toList], IsPlain n := by
  rw [fileName?_eq_some] at h
  have hnormal (q : String) (hq : EndsIn (split q) b.toList) :
      ∃ ks, normalize q = join (ks ++ [b.toList]) ∧ ∀ n ∈ ks ++ [b.toList], IsPlain n := by
    obtain ⟨ks, hks⟩ := normalNames_endsIn hq
    exact ⟨ks, by rw [normalize, hks], hks ▸ normalNames_isPlain q⟩
  by_cases hp : rooted p = true
  · obtain ⟨r, rfl⟩ := eq_root_append hp
    rw [target_root]
    refine hnormal r ?_
    rwa [split_root] at h
  · rw [target_of_relative (by simpa using hp)]
    exact hnormal p h

end Path

namespace Tar

/-- What stands behind the last separator. -/
def baseName (path : Bytes) : Bytes := (path.reverse.takeWhile (· ≠ 47)).reverse

lemma baseName_append {front name : Bytes} (hfront : front = [] ∨ ∃ f, front = f ++ [47])
    (hname : (47 : UInt8) ∉ name) : baseName (front ++ name) = name := by
  have hall : ∀ b ∈ name.reverse, decide (b ≠ 47) = true := fun b hb => by
    simpa using fun h : b = 47 => hname (h ▸ List.mem_reverse.mp hb)
  unfold baseName
  rw [List.reverse_append, List.takeWhile_append_of_pos hall]
  rcases hfront with rfl | ⟨f, rfl⟩ <;> simp

section Stored

variable {ns : List Path.Name} {h : Header}

/-- A header that keeps the front part of another path has that in front of the path it is given. -/
lemma Header.setPath_keepsFront (hns : ∀ n ∈ ns, Path.IsPlain n) {h' : Header}
    (hkeeps : h.KeepsFront (Path.join ns)) (hs : h.setPath (Path.join ns) = (h', none)) :
    h'.path = h.pathFront.text ++ 47 :: Utf8.encode (Path.join ns) := by
  obtain ⟨hform, hfront, hshort⟩ := hkeeps
  rw [setPath, if_neg (by omega)] at hs
  rcases hf : h.name.setPath false (Path.join ns) with ⟨f, e⟩
  simp only [setName, hf, Prod.mk.injEq, Option.map_eq_none_iff] at hs
  obtain ⟨rfl, rfl⟩ := hs
  have hform' : Header.form { h with name := f } = .ustar := hform
  have hfront' : Header.pathFront { h with name := f } = h.pathFront := rfl
  simp only [path, hform', hfront', Field.text_setPath hns hf, hfront, ne_eq, not_false_eq_true,
    and_self, if_true]

/-- An entry is found under the path that it is stored under, with another path in front of it at
most. -/
lemma storedPath_ends (hns : ∀ n ∈ ns, Path.IsPlain n)
    (hp : (placePath h (Path.join ns)).2.2 = none) :
    ∃ front, storedPath h (Path.join ns) = front ++ Utf8.encode (Path.join ns) ∧
      (front = [] ∨ ∃ f, front = f ++ [47]) := by
  by_cases hkeeps : h.KeepsFront (Path.join ns)
  · rcases hs : h.setPath (Path.join ns) with ⟨h', _ | e⟩
    · refine ⟨h.pathFront.text ++ [47], ?_, .inr ⟨_, rfl⟩⟩
      rw [storedPath, placePath, hs]
      simpa using Header.setPath_keepsFront hns hkeeps hs
    · rcases hplace : placePath h (Path.join ns) with ⟨calls, h'', e'⟩
      obtain rfl : e' = none := by simpa [hplace] using hp
      rcases (placePath_ok hns hplace).2 with ⟨rfl, -⟩ | ⟨-, hno⟩
      · simp only [placePath, hs] at hplace
        split_ifs at hplace
        · simp at hplace
        · split at hplace <;> simp [longNameCalls_ne_nil] at hplace
      · exact absurd hkeeps hno
  · exact ⟨[], (storedPath_eq_iff hns hp).mpr hkeeps, .inl rfl⟩

lemma baseName_storedPath {ks : List Path.Name} {n : Path.Name}
    (hns : ∀ m ∈ ks ++ [n], Path.IsPlain m)
    (hp : (placePath h (Path.join (ks ++ [n]))).2.2 = none) :
    baseName (storedPath h (Path.join (ks ++ [n]))) = Utf8.encode (String.ofList n) := by
  obtain ⟨front, hstored, hfront⟩ := storedPath_ends hns hp
  have hsep : '/' ∉ (String.ofList n).toList := by
    rw [String.toList_ofList]
    exact (hns n (by simp)).separator
  rw [hstored, encode_cut, ← List.append_assoc, ← List.append_assoc]
  refine baseName_append ?_ (Utf8.not_mem_encode (c := '/') (by decide) hsep)
  by_cases hks : ks = []
  · rw [hks, if_pos rfl, List.append_nil]
    have hnil : Utf8.encode (Path.join []) = [] := by decide
    rwa [hnil, List.append_nil]
  · rw [if_neg hks]
    exact .inr ⟨_, rfl⟩

end Stored

end Tar

open Tar

section Extract

variable {layers : List Layer} {files : List FileSpec} {cancelled : ℕ → Bool} {label : String}
  {x : Extracted} {e : Extraction}

/-- What has been written had its path taken. -/
def Archive.IsPlaced (a : Archive) : Prop :=
  ∀ x ∈ a.attempts, x.isWritten = true → (placePath x.header x.path).2.2 = none

lemma Archive.IsPlaced.append {a : Archive} (ha : a.IsPlaced) (h : Header) (p : String)
    (records : List Pax.Record) (c : Content) : (a.append h p records c).1.IsPlaced := by
  intro x hx hw
  rw [Archive.attempts_append] at hx
  rcases List.mem_append.mp hx with hx | hx
  · exact ha x hx hw
  obtain rfl := List.mem_singleton.mp hx
  rw [← frontCalls_snd h p records]
  rw [Attempt.isWritten, writeEntry_eq] at hw
  cases hno : (frontCalls h p records).2 with
  | none => rfl
  | some e =>
    rcases hd : a.device.writeAll (frontCalls h p records).1 with ⟨d', _ | m⟩ <;>
      simp [hno, hd] at hw

lemma take_isPlaced {i : ℕ} {p : String} {e : Entry} {s s' : WalkState} {c : Content}
    {z : Except Failure Content} (hs : s.archive.IsPlaced) (ht : take i p e s c = (s', z)) :
    s'.archive.IsPlaced := by
  rcases hr : e.carriedRecords c with err | ⟨rs, c₁⟩
  · simp only [take, hr] at ht
    rwa [← (Prod.mk.inj ht).1]
  · exact take_archive hr ht ▸ hs.append _ _ _ _

lemma walk_isPlaced (o : Order) (layers : List Layer) (d : Device) (label : String) :
    (walk o layers (.start o layers d label)).1.archive.IsPlaced := by
  have hkept : KeptByWalks fun s => s.archive.IsPlaced :=
    ⟨fun _ _ hs => hs, fun _ hs => hs, fun hs => hs, fun ht hs => take_isPlaced hs ht⟩
  exact hkept.walk (List.forall_mem_nil _)

/-- Whatever an extraction comes to, each attempt that was written had its path taken. -/
lemma placed_of_written {d₀ : Device}
    (hx : extract ⟨.ok layers⟩ files cancelled (.ok d₀) label = x) {a : Attempt}
    (ha : a ∈ x.attempts) (hw : a.isWritten = true) : (placePath a.header a.path).2.2 = none := by
  rw [← hx, extract_eq, (conclude_frame ..).2.1] at ha
  exact walk_isPlaced _ layers d₀ label a ha hw

lemma mem_attempts_of_completed {a : Attempt} (ha : a ∈ x.completed) :
    a ∈ x.attempts ∧ a.isWritten = true := by
  obtain ⟨ha, hw⟩ := List.mem_filter.mp ha
  refine ⟨?_, hw⟩
  rw [Extracted.settled] at ha
  split at ha
  · split_ifs at ha
    · exact List.mem_of_mem_dropLast ha
    · exact ha
  · exact ha

/-- A file that is found, and of which there is no warning, has been written. -/
lemma completed_of_found {d₀ : Device}
    (hx : extract ⟨.ok layers⟩ files cancelled (.ok d₀) label = x) (he : x.outcome = .ok e)
    {f : FileSpec} (hf : f ∈ e.locations) (hw : ∀ w ∈ e.warnings, w.path ≠ f.target) :
    ∃ a ∈ x.completed, a.path = f.target := by
  rw [locations_eq hx he, List.mem_filter, decide_eq_true_eq] at hf
  obtain ⟨a, ha, hpath⟩ := List.mem_map.mp hf.2
  obtain ⟨below, s, hreached, -, -, hattempts, -, rfl⟩ := extract_halt hx he
  refine ⟨a, ?_, hpath⟩
  simp only [Extracted.completed, Extracted.settled, he, List.mem_filter, ha, true_and]
  by_contra hfailed
  have hmem : a ∈ s.archive.failed := by
    rw [Archive.failed, List.mem_filter, ← hattempts]
    exact ⟨ha, by simpa using hfailed⟩
  have hwarned : a.path ∈ s.warnings.map Warning.path :=
    Warning.tells_paths hreached.tells ▸ List.mem_map_of_mem hmem
  obtain ⟨w, hmem, hwpath⟩ := List.mem_map.mp hwarned
  exact hw w hmem (hwpath.trans hpath)

end Extract

namespace Plugin

lemma exists_fileName {p : Plugin} (h : p.fault? = none) (hbin : p.bin ≠ "") :
    ∃ f ∈ p.files, Path.fileName? f.source = some p.bin := by
  rw [fault?] at h
  split at h
  · cases h
  split_ifs at h with hlisted
  simpa [hbin] using hlisted

/-- The entrypoint of a manifest that loads is a plain name, and the last component of the target of
one of its files. Whatever the output is and whatever an extraction comes to, an entry that is written
for that file has this name, and one is written if the file is found without a warning. The archive
is read back so unless it is broken: by a failure in the content of an entry, gaps in sparse files, or
records of entries that were refused. -/
theorem entrypoint_isStored {text : String} {p : Plugin} (hparse : parse text = .ok p)
    (hbin : p.bin ≠ "") :
    ('/' ∉ p.bin.toList ∧ p.bin ≠ "." ∧ p.bin ≠ "..") ∧
    ∃ f ∈ p.files, f.target ≠ "" ∧ (Path.split f.target).getLast? = some p.bin.toList ∧
      (∀ (layers : List Layer) (cancelled : ℕ → Bool) (label : String) (x : Extracted) (d : Device),
        extract ⟨.ok layers⟩ p.files cancelled (.ok d) label = x →
        (∀ a ∈ x.completed, a.path = f.target → baseName a.stored.path = Utf8.encode p.bin) ∧
        ∀ e, x.outcome = .ok e → f ∈ e.locations → (∀ w ∈ e.warnings, w.path ≠ f.target) →
          ∃ a ∈ x.completed, a.path = f.target) ∧
      ∀ (layers : List Layer) (cancelled : ℕ → Bool) (label : String) (x : Extracted) (d : Device),
        extract ⟨.ok layers⟩ p.files cancelled (.ok .accepting) label = x → x.device = some d →
        (∀ f, x.outcome = .error f → f.breaksEntry = false) → (∀ a ∈ x.completed, a.IsGapless) →
        (∀ a ∈ x.attempts, a.isWritten = false → a.records = []) →
        d.output.length < Numeral.bound →
        ∃ us, unpack d.output = .ok us ∧
          List.Forall₂ (fun a u => a.path = f.target → baseName u.path = Utf8.encode p.bin)
            x.completed us ∧
          ∀ e, x.outcome = .ok e → f ∈ e.locations → (∀ w ∈ e.warnings, w.path ≠ f.target) →
            ∃ u ∈ us, baseName u.path = Utf8.encode p.bin := by
  obtain ⟨f, hf, hname⟩ := exists_fileName (fault?_of_parse hparse) hbin
  obtain ⟨ks, htarget, hplain⟩ := Path.target_endsIn hname
  obtain ⟨-, hself, hup⟩ := (Path.fileName?_eq_some.mp hname).isName
  have hsplit : Path.split f.target = ks ++ [p.bin.toList] := by
    rw [FileSpec.target, htarget]
    exact Path.split_join hplain (by simp)
  have hnamed {layers : List Layer} {cancelled : ℕ → Bool} {label : String} {x : Extracted}
      {d : Device} (hx : extract ⟨.ok layers⟩ p.files cancelled (.ok d) label = x) :
      ∀ a ∈ x.completed, a.path = f.target → baseName a.stored.path = Utf8.encode p.bin := by
    intro a ha hpath
    obtain ⟨ha, hw⟩ := mem_attempts_of_completed ha
    have hplaced := placed_of_written hx ha hw
    rw [hpath, FileSpec.target, htarget] at hplaced
    rw [Request.stored, hpath, FileSpec.target, htarget, baseName_storedPath hplain hplaced,
      String.ofList_toList]
  refine ⟨⟨(hplain _ (by simp)).separator, ?_, ?_⟩, f, hf, ?_, ?_, ?_, ?_⟩
  · rintro hb
    exact hself (by rw [hb]; rfl)
  · rintro hb
    exact hup (by rw [hb]; rfl)
  · intro hempty
    have hlast : some p.bin.toList = some [] := by
      rw [← List.getLast?_concat (l := ks), ← hsplit, hempty]
      rfl
    exact (hplain _ (by simp)).ne_nil (Option.some.inj hlast)
  · rw [hsplit, List.getLast?_concat]
  · intro layers cancelled label x d hx
    exact ⟨hnamed hx, fun e he hfound hw => completed_of_found hx he hfound hw⟩
  · intro layers cancelled label x d hx hd hunbroken hgapless hrecords hfits
    obtain ⟨-, hunpack, -⟩ := extract_accepting hx hd hunbroken hgapless hrecords hfits
    refine ⟨_, hunpack, ?_, fun e he hfound hw => ?_⟩
    · rw [List.forall₂_map_right_iff, List.forall₂_same]
      exact hnamed hx
    · obtain ⟨a, ha, hpath⟩ := completed_of_found hx he hfound hw
      exact ⟨a.stored, List.mem_map_of_mem ha, hnamed hx a ha hpath⟩

/-- The manifest of a plugin whose entrypoint is spelled in a roundabout way. -/
def roundabout : String :=
  "\x7b\"files\":[\x7b\"from\":\"/opt/../usr//bin/foo/.\"\x7d],\"bin\":\"foo\"\x7d"

/-- The entrypoint is stored under its name, although the header of its entry keeps the front part
of another path. -/
theorem entrypoint_isStored_foo :
    let files : List FileSpec := [⟨"/opt/../usr//bin/foo/.", ""⟩]
    let x := extract ⟨.ok [splitLayer]⟩ files (fun _ => false) (.ok .accepting) "out"
    parse roundabout = .ok ⟨"", "", files, "foo"⟩ ∧ x.outcome = .ok ⟨files, [], 1, "out"⟩ ∧
      ∃ d us, x.device = some d ∧ unpack d.output = .ok us ∧
        ∃ u ∈ us, baseName u.path = Utf8.encode "foo" := by
  intro files x
  have hparse : parse roundabout = .ok ⟨"", "", files, "foo"⟩ := by decide +kernel
  have hrun : x.outcome = .ok ⟨files, [], 1, "out"⟩ ∧
      (x.device.isSome = true ∧
        x.device.all (fun d => d.output.length < Numeral.bound) = true) ∧
      (∀ a ∈ x.attempts, a.records = []) ∧
      ∀ a ∈ x.completed, a.header.kind = .regular := by
    decide +kernel
  obtain ⟨houtcome, ⟨hsome, hlen⟩, hrecords, hregular⟩ := hrun
  obtain ⟨d, hd⟩ := Option.isSome_iff_exists.mp hsome
  rw [hd, Option.all_some, decide_eq_true_eq] at hlen
  obtain ⟨-, f, hf, -, -, -, hstored⟩ := entrypoint_isStored hparse (by decide)
  obtain rfl := List.mem_singleton.mp hf
  obtain ⟨us, hunpack, -, hwritten⟩ := hstored [splitLayer] (fun _ => false) "out" x d rfl hd
    (Extracted.unbroken_of_ok houtcome) (fun a ha hsparse => by simp [hregular a ha] at hsparse)
    (fun a ha _ => hrecords a ha) hlen
  exact ⟨hparse, houtcome, d, us, hd, hunpack,
    hwritten _ houtcome (List.mem_singleton_self _) (by simp)⟩

end Plugin

end LayerPick
