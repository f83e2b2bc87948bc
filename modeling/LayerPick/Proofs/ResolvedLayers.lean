import LayerPick.Proofs.DigestNames
import LayerPick.Proofs.ManifestSearch
import LayerPick.Proofs.StatedPlatforms
import LayerPick.Store.Layout

/-!
# The layers of an image

A store holds saved images, of which the first counts, or an index, which leads to a manifest. What
is found there is for the platform that is asked for. If the store has all its layers, their names
are the result; in every other case there is none.
-/
namespace LayerPick.Selection

open Oci

/-- What the layers of an image are listed in. -/
inductive Origin where
  | saved (image : SavedImage)
  /-- A descriptor in an index, and the manifest that it leads to. -/
  | listed (d : Descriptor) (m : Manifest)

namespace Origin

/-- The names of the layers, the base layer first. -/
def layers : Origin → List String
  | .saved image => image.layers
  | .listed _ m => m.layers.map (·.digest.blobName)

/-- What is being done while the image is read. -/
def stage : Origin → Stage
  | .saved _ => .readSavedImages
  | .listed _ _ => .readIndex

end Origin

/-- This is what the store leads to. -/
inductive Picks (s : BlobStore) (wanted : Option Platform) : Origin → Prop
  | saved {image : SavedImage} {rest : List SavedImage} :
    s.contains savedImagesName = true → readSavedImages s = .ok (image :: rest) →
    (∀ p, wanted = some p →
      ∃ c, readConfig s image.config = .ok c ∧ p.matchesConfig c = true) →
    Picks s wanted (.saved image)
  | listed {root : Index} {d : Descriptor} {m : Manifest} :
    s.contains savedImagesName = false → s.contains indexName = true →
    s.readDocument indexName .parseIndex Index.ofValue? = .ok root →
    ComesTo s wanted (visits s maxLevels root) (.manifest d) → Accepts s wanted d m →
    Picks s wanted (.listed d m)

/-- A document of the image states this platform: its configuration, or the index that offers it. -/
inductive Origin.States (s : BlobStore) : Origin → String → String → Option String → Prop
  | saved {image : SavedImage} {v : Json.Value} {os architecture : String}
    {variant : Option String} :
    s.Has image.config v → v.States Config.fields os architecture variant →
    States s (.saved image) os architecture variant
  | built {d : Descriptor} {m : Manifest} {v : Json.Value} {os architecture : String}
    {variant : Option String} :
    s.Has m.config.digest.blobName v → v.States Config.fields os architecture variant →
    States s (.listed d m) os architecture variant
  | offered {d : Descriptor} {m : Manifest} {name : String} {v x : Json.Value}
    {os architecture : String} {variant : Option String} :
    s.Has name v → Index.Offers v d x → x.States Offer.fields os architecture variant →
    States s (.listed d m) os architecture variant

section Resolving

variable {s : BlobStore} {wanted : Option Platform} {p : Platform} {o : Origin}

lemma requireAll_ok {names names' : List String} :
    requireAll s names = .ok names' ↔ names' = names ∧ ∀ n ∈ names, s.contains n = true := by
  rw [requireAll]
  split
  · next n hn =>
    have hmem := List.mem_of_find?_eq_some hn
    have hmiss := List.find?_some hn
    simp only [reduceCtorEq, false_iff, not_and]
    intro _ hall
    simp [hall n hmem] at hmiss
  · next hn =>
    have hall : ∀ n ∈ names, s.contains n = true := by simpa [firstMissing?] using hn
    rw [Except.ok.injEq]
    exact ⟨fun he => ⟨he.symm, hall⟩, fun h => h.1.symm⟩

lemma requirePlatform_ok {name : String} :
    requirePlatform wanted s name = .ok () ↔
      ∀ p, wanted = some p → ∃ c, readConfig s name = .ok c ∧ p.matchesConfig c = true := by
  rcases wanted with _ | p
  · simp [requirePlatform]
  · simp only [requirePlatform, Option.some.injEq, forall_eq']
    rcases readConfig s name with e | c
    · simp [bind, Except.bind]
    · simp only [Tar.ok_bind, Except.ok.injEq, exists_eq_left']
      split <;> simp_all

lemma savedLayers_outcome :
    (savedLayers s wanted).outcome = (do
      match ← readSavedImages s with
      | [] => throw (.of .noSavedImage)
      | image :: _ => do
        requirePlatform wanted s image.config
        requireAll s image.layers) := by
  rw [savedLayers, Traced.outcome_bind, Traced.outcome_ofExcept]
  rcases readSavedImages s with e | _ | ⟨image, rest⟩
  · rfl
  · rfl
  · simp only [Tar.ok_bind, Traced.outcome_bind, Traced.outcome_say, Traced.outcome_ofExcept]

/-- The layers of what the store leads to, if it has all of them. -/
theorem Picks.outcome (h : Picks s wanted o) :
    (layerNames s wanted).outcome = (requireAll s o.layers).mapError (Failure.within o.stage) := by
  cases h with
  | saved hs hread hplatform =>
    rw [layerNames, if_pos hs, Traced.outcome_during, savedLayers_outcome, hread, Tar.ok_bind]
    simp only [requirePlatform_ok.mpr hplatform, Tar.ok_bind]
    rfl
  | @listed root d m hs hi hread hd hm =>
    have hselect : (select s wanted maxIndexes root).outcome = .ok (some m) :=
      ((select_firstAcceptable s wanted root).1 m).mpr ⟨d, hd, hm⟩
    rw [layerNames, if_neg (by simp [hs]), if_pos hi, Traced.outcome_during, indexedLayers,
      Traced.outcome_bind, Traced.outcome_ofExcept, hread, Tar.ok_bind, Traced.outcome_bind,
      hselect, Tar.ok_bind]
    rfl

/-- Names are given only for what the store leads to. -/
theorem picks_of_layerNames {names : List String}
    (h : (layerNames s wanted).outcome = .ok names) : ∃ o, Picks s wanted o := by
  rw [layerNames] at h
  split at h
  · next hs =>
    rw [Traced.outcome_during, Tar.mapError_ok, savedLayers_outcome] at h
    obtain ⟨images, hread, h⟩ := Tar.bind_ok.mp h
    cases images with
    | nil => simp at h
    | cons image rest =>
      obtain ⟨_, hplatform, -⟩ := Tar.bind_ok.mp h
      exact ⟨_, .saved hs hread (requirePlatform_ok.mp hplatform)⟩
  split at h
  · next hs hi =>
    rw [Traced.outcome_during, Tar.mapError_ok, indexedLayers, Traced.outcome_bind,
      Traced.outcome_ofExcept] at h
    obtain ⟨root, hread, h⟩ := Tar.bind_ok.mp h
    rw [Traced.outcome_bind] at h
    obtain ⟨found, hfound, h⟩ := Tar.bind_ok.mp h
    cases found with
    | none => simp at h
    | some m =>
      obtain ⟨d, hd, hm⟩ := ((select_firstAcceptable s wanted root).1 m).mp hfound
      exact ⟨_, .listed (by simpa using hs) hi hread hd hm⟩
  · simp at h

/-- The names that are given are the layers of what the store leads to, all of which it has. -/
theorem layerNames_ok {names : List String} :
    (layerNames s wanted).outcome = .ok names ↔
      ∃ o, Picks s wanted o ∧ names = o.layers ∧ ∀ n ∈ names, s.contains n = true := by
  constructor
  · intro h
    obtain ⟨o, ho⟩ := picks_of_layerNames h
    rw [ho.outcome, Tar.mapError_ok, requireAll_ok] at h
    obtain ⟨rfl, hall⟩ := h
    exact ⟨o, ho, rfl, hall⟩
  · rintro ⟨o, ho, rfl, hall⟩
    rw [ho.outcome, Tar.mapError_ok, requireAll_ok]
    exact ⟨rfl, hall⟩

lemma mem_manifests_of_visits {levels : ℕ} {i : Index} {d : Descriptor}
    (h : Visit.manifest d ∈ visits s levels i) :
    d ∈ i.manifests ∨ ∃ d' j, readInner s d' = .ok j ∧ d ∈ j.manifests := by
  have hat {inner : Index → List Visit} {d' : Descriptor}
      (hv : Visit.manifest d ∈ visitsAt s inner d') :
      d = d' ∨ ∃ j, readInner s d' = .ok j ∧ Visit.manifest d ∈ inner j := by
    rw [visitsAt] at hv
    split at hv
    · split at hv
      · simp at hv
      · next j hj => exact .inr ⟨j, hj, by simpa using hv⟩
    · exact .inl (by simpa using hv)
  induction levels generalizing i with
  | zero =>
    obtain ⟨d', hd', hv⟩ := List.mem_flatMap.mp h
    rcases hat hv with rfl | ⟨j, -, hj⟩
    · exact .inl hd'
    · simp at hj
  | succ levels ih =>
    obtain ⟨d', hd', hv⟩ := List.mem_flatMap.mp h
    rcases hat hv with rfl | ⟨j, hread, hj⟩
    · exact .inl hd'
    · rcases ih hj with hmem | hdeep
      · exact .inr ⟨d', j, hread, hmem⟩
      · exact .inr hdeep

/-- The platform that an index offers something for stands in the document of that index. -/
lemma offered_states {root : Index} {d : Descriptor} {m : Manifest} {offer : Offer}
    (hread : s.readDocument indexName .parseIndex Index.ofValue? = .ok root)
    (hd : Visit.manifest d ∈ visits s maxLevels root) (ho : d.platform = some offer) :
    ∃ a, (Origin.listed d m).States s offer.os a offer.variant ∧
      offer.architecture = readArchitecture a := by
  have hdoc : ∃ name v i, s.Has name v ∧ Index.ofValue? v = some i ∧ d ∈ i.manifests := by
    rcases mem_manifests_of_visits hd with hmem | ⟨d', j, hj, hmem⟩
    · obtain ⟨v, hv, hi⟩ := BlobStore.has_of_readDocument hread
      exact ⟨_, v, root, hv, hi, hmem⟩
    · obtain ⟨v, hv, hi⟩ := BlobStore.has_of_readDocument hj
      exact ⟨_, v, j, hv, hi, hmem⟩
  obtain ⟨name, v, i, hv, hi, hmem⟩ := hdoc
  obtain ⟨x, hx, hxo⟩ := Index.offers hi hmem ho
  obtain ⟨a, ha, he⟩ := Offer.states hxo
  exact ⟨a, .offered hv hx ha, he⟩

lemma config_states {name : String} {c : Config} (h : readConfig s name = .ok c) :
    ∃ v a, s.Has name v ∧ v.States Config.fields c.os a c.variant ∧
      c.architecture = readArchitecture a := by
  obtain ⟨v, hv, hc⟩ := BlobStore.has_of_readDocument h
  obtain ⟨a, ha, he⟩ := Config.states hc
  exact ⟨v, a, hv, ha, he⟩

lemma Picks.states (h : Picks s (some p) o) :
    ∃ os a variant, o.States s os a variant ∧ p.Fits os (readArchitecture a) variant := by
  cases h with
  | saved hs hread hplatform =>
    obtain ⟨c, hc, hp⟩ := hplatform p rfl
    obtain ⟨v, a, hv, ha, he⟩ := config_states hc
    exact ⟨_, a, _, .saved hv ha, he ▸ Platform.matchesParts_iff.mp hp⟩
  | listed hs hi hread hd hm =>
    obtain ⟨before, after, hvisits, -⟩ := hd
    cases hm with
    | any hw => simp at hw
    | offered hw ho hp _ =>
      obtain rfl := Option.some.inj hw
      obtain ⟨a, ha, he⟩ := offered_states hread (by simp [hvisits]) ho
      exact ⟨_, a, _, ha, he ▸ Platform.matchesParts_iff.mp hp⟩
    | built hw ho _ hc hp =>
      obtain rfl := Option.some.inj hw
      obtain ⟨v, a, hv, ha, he⟩ := config_states hc
      exact ⟨_, a, _, .built hv ha, he ▸ Platform.matchesParts_iff.mp hp⟩

lemma requireAll_error {names : List String} (h : ∃ n ∈ names, s.contains n = false) :
    ∃ n ∈ names, s.contains n = false ∧ requireAll s names = .error (.of (.layerMissing n)) := by
  rw [requireAll]
  cases hn : firstMissing? s names with
  | none =>
    obtain ⟨n, hmem, hmiss⟩ := h
    have hall : ∀ n ∈ names, s.contains n = true := by simpa [firstMissing?] using hn
    simp [hall n hmem] at hmiss
  | some n =>
    have hmiss := List.find?_some hn
    exact ⟨n, List.mem_of_find?_eq_some hn, by simpa using hmiss, rfl⟩

lemma Picks.missing (h : Picks s wanted o) (hn : ∃ n ∈ o.layers, s.contains n = false) :
    ∃ n ∈ o.layers, s.contains n = false ∧
      (layerNames s wanted).outcome = .error ⟨[o.stage], .layerMissing n⟩ := by
  obtain ⟨n, hmem, hmiss, he⟩ := requireAll_error hn
  refine ⟨n, hmem, hmiss, ?_⟩
  rw [h.outcome, he]
  rfl

lemma layerNames_unpicked (h : ∀ o, ¬Picks s wanted o) :
    ∃ e, (layerNames s wanted).outcome = .error e := by
  rcases hn : (layerNames s wanted).outcome with e | names
  · exact ⟨e, rfl⟩
  · obtain ⟨o, ho⟩ := picks_of_layerNames hn
    exact absurd ho (h o)

lemma layerNames_noRecords (hs : s.contains savedImagesName = true)
    (h : readSavedImages s = .ok []) :
    (layerNames s wanted).outcome = .error ⟨[.readSavedImages], .noSavedImage⟩ := by
  rw [layerNames, if_pos hs, Traced.outcome_during, savedLayers_outcome, h]
  rfl

end Resolving

/-- The names that are given are the layers of what the store leads to, in order and all of them, and
the store has each one. What it leads to states the platform that is asked for, unless its
architecture is the one that is read as another. The layers of a manifest have names that are normal
and stay in the image. A layer that is missing, nothing that the store leads to, and an empty list of
saved images give a failure. -/
theorem layerNames_sound (s : BlobStore) (wanted : Option Platform) :
    (∀ names, (layerNames s wanted).outcome = .ok names ↔
      ∃ o, Picks s wanted o ∧ names = o.layers ∧ ∀ n ∈ names, s.contains n = true) ∧
    (∀ p, wanted = some p → ∀ o, Picks s wanted o →
      ∃ os a variant, o.States s os a variant ∧ os = p.os ∧
        (∀ v, p.variant = some v → variant = some v) ∧ (a = p.architecture ↔ a ≠ "armbe")) ∧
    (∀ d m, Picks s wanted (.listed d m) → ∀ l ∈ m.layers,
      let n := l.digest.blobName
      n = "blobs/" ++ String.ofList l.digest.algorithm ++ "/" ++ String.ofList l.digest.value ∧
        IsWords l.digest.algorithm ∧
        (l.digest.value ≠ [] ∧ '/' ∉ l.digest.value ∧ '.' ∉ l.digest.value) ∧
        Path.normalize n = n ∧ Path.escapes n = false) ∧
    (∀ o, Picks s wanted o → (∃ n ∈ o.layers, s.contains n = false) →
      ∃ n ∈ o.layers, s.contains n = false ∧
        (layerNames s wanted).outcome = .error ⟨[o.stage], .layerMissing n⟩) ∧
    ((∀ o, ¬Picks s wanted o) → ∃ e, (layerNames s wanted).outcome = .error e) ∧
    (s.contains savedImagesName = true → readSavedImages s = .ok [] →
      (layerNames s wanted).outcome = .error ⟨[.readSavedImages], .noSavedImage⟩) := by
  refine ⟨fun names => layerNames_ok, ?_, ?_, fun o ho => ho.missing, layerNames_unpicked,
    layerNames_noRecords⟩
  · rintro p rfl o ho
    obtain ⟨os, a, variant, hstates, hos, ha, hv⟩ := ho.states
    refine ⟨os, a, variant, hstates, hos, hv, ?_⟩
    by_cases harm : a = "armbe"
    · subst harm
      rw [← ha]
      decide
    · simpa [readArchitecture, harm] using ha
  · intro d m _ l _
    exact ⟨rfl, l.digest.isWords_algorithm, l.digest.value_plain, l.digest.normalize_blobName,
      l.digest.escapes_blobName⟩

/-- The files of a saved image with one layer, built for this architecture. -/
def savedFiles (architecture : String) : FileTree :=
  (((FileTree.empty.put ["work", "image"] .folder).put ["work", "image", "manifest.json"]
    (.file (Utf8.encode "[\x7b\"Config\":\"config\",\"Layers\":[\"layer\"]\x7d]"))).put
    ["work", "image", "config"] (.file (Utf8.encode ("\x7b\"architecture\":\"" ++ architecture ++
      "\",\"os\":\"linux\",\"rootfs\":\x7b\"type\":\"layers\",\"diff_ids\":[]\x7d\x7d")))).put
    ["work", "image", "layer"] (.file [])

/-- An image for a common platform. -/
theorem layerNames_sound_amd64 :
    let s := Layout.store (savedFiles "amd64") "image"
    let p : Platform := ⟨"linux", "amd64", none⟩
    (layerNames s (some p)).outcome = .ok ["layer"] ∧
      ∃ o, Picks s (some p) o ∧ ["layer"] = o.layers ∧
        ∃ a variant, o.States s "linux" a variant ∧ (a = "amd64" ↔ a ≠ "armbe") := by
  intro s p
  have hok : (layerNames s (some p)).outcome = .ok ["layer"] := by decide +kernel
  have hsound := layerNames_sound s (some p)
  obtain ⟨o, ho, hl, -⟩ := (hsound.1 ["layer"]).mp hok
  obtain ⟨os, a, variant, hstates, rfl, -, ha⟩ := hsound.2.1 p rfl o ho
  exact ⟨hok, o, ho, hl, a, variant, hstates, ha⟩

/-- An image for 32-bit big-endian ARM is taken for one for 64-bit big-endian ARM. -/
theorem layerNames_armbe :
    let s := Layout.store (savedFiles "armbe") "image"
    let p : Platform := ⟨"linux", "arm64be", none⟩
    (layerNames s (some p)).outcome = .ok ["layer"] ∧
      ∀ o, Picks s (some p) o → ∀ os a variant, o.States s os a variant →
        a = "armbe" ∧ ¬p.Fits os a variant := by
  intro s p
  have hcontains : s.contains savedImagesName = true := by decide +kernel
  have hsaved : readSavedImages s = .ok [⟨"config", none, ["layer"]⟩] := by decide +kernel
  have harch : (do
      let src ← (s.openBlob "config").toOption
      let v ← Json.parse? (src.drain true).data
      (v.field? Config.fields "architecture").bind (Json.Slot.required Json.Value.text?)) =
        some "armbe" := by
    decide +kernel
  refine ⟨by decide +kernel, fun o ho os a variant hstates => ?_⟩
  cases ho with
  | listed hnone => simp [hcontains] at hnone
  | saved _ hread =>
    rw [hsaved] at hread
    obtain ⟨rfl, -⟩ := List.cons.inj (Except.ok.inj hread)
    cases hstates with
    | saved hv hstates =>
      obtain ⟨src, hsrc, -, hparse⟩ := hv
      simp only [hsrc, Except.toOption, hparse, bind, Option.bind_some] at harch
      obtain rfl := Option.some.inj (hstates.architecture.symm.trans harch)
      exact ⟨rfl, fun hfits => absurd hfits.architecture (by decide)⟩

end LayerPick.Selection
