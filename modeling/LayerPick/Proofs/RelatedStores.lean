import LayerPick.Proofs.CutDocuments
import LayerPick.Proofs.ManifestSearch

/-!
# Images in stores that are related

Which layers make up an image is found out by reading documents, one after the other, and by asking
whether blobs are there. So a relation between outcomes that goes along with every next step holds
between the layers of an image in two stores if it holds between what the stores say to each
question that comes up. Which documents come up is settled by one of the stores.
-/
namespace LayerPick

/-- A relation between outcomes that goes along with what is done next. -/
structure GoesAlong (R : ∀ {α : Type}, Except Failure α → Except Failure α → Prop) : Prop where
  refl {α : Type} (x : Except Failure α) : R x x
  bind {α β : Type} {x x' : Except Failure α} {f f' : α → Except Failure β} :
    R x x' → (∀ a, x = .ok a → R (f a) (f' a)) → R (x >>= f) (x' >>= f')
  mapError {α : Type} {x x' : Except Failure α} (g : Failure → Failure) :
    R x x' → R (x.mapError g) (x'.mapError g)

/-- The relation holds between what the two stores say of the documents with these names, and of
which blobs are there. -/
structure BlobStore.Related (R : ∀ {α : Type}, Except Failure α → Except Failure α → Prop)
    (names : String → Prop) (s s' : BlobStore) : Prop where
  document {α : Type} {name : String} (stage : Stage) {f : Json.Value → Option α} :
    names name → Json.NeedsContainer f → R (s.readDocument name stage f) (s'.readDocument name stage f)
  saved : names Selection.savedImagesName →
    R (Selection.readSavedImages s) (Selection.readSavedImages s')
  required (blobs : List String) :
    R (Selection.requireAll s blobs) (Selection.requireAll s' blobs)

lemma BlobStore.Related.mono {R : ∀ {α : Type}, Except Failure α → Except Failure α → Prop}
    {names names' : String → Prop} {s s' : BlobStore} (h : s.Related R names s')
    (hnames : ∀ name, names' name → names name) : s.Related R names' s' :=
  ⟨fun stage _ hn => h.document stage (hnames _ hn), fun hn => h.saved (hnames _ hn), h.required⟩

namespace Selection

open Oci

/-- The documents that are read to find the layers of an image, by their names. -/
inductive Reads (s : BlobStore) (wanted : Option Platform) : String → Prop
  | saved : s.contains savedImagesName = true → Reads s wanted savedImagesName
  | config {image : SavedImage} {images : List SavedImage} : s.contains savedImagesName = true →
    readSavedImages s = .ok (image :: images) → wanted.isSome → Reads s wanted image.config
  | index : s.contains savedImagesName = false → s.contains indexName = true →
    Reads s wanted indexName
  | visited {i : Index} {name : String} : s.contains savedImagesName = false →
    s.contains indexName = true → s.readDocument indexName .parseIndex Index.ofValue? = .ok i →
    ConsultedBy s wanted (visits s maxLevels i) name → Reads s wanted name

variable {R : ∀ {α : Type}, Except Failure α → Except Failure α → Prop} (hR : GoesAlong R)
  {s s' : BlobStore} {wanted : Option Platform}

include hR

lemma tryManifest_related {d : Descriptor}
    (h : s.Related R (Consults s wanted (.manifest d)) s') :
    R (tryManifest s wanted d).outcome (tryManifest s' wanted d).outcome := by
  by_cases hr : IsRuledOut wanted d
  · rw [tryManifest_offered hr, tryManifest_offered hr]
    exact hR.refl _
  · rw [tryManifest_outcome hr, tryManifest_outcome hr]
    refine hR.bind (h.document _ (.manifest hr) needsContainer_manifest) fun m hm => ?_
    split
    · rename_i ho
      exact hR.bind (h.document _ (.config rfl ho hm) needsContainer_config) fun _ _ => hR.refl _
    · exact hR.refl _

lemma lookAt_related {inner inner' : Index → Traced (Option Manifest)}
    {inside : Index → List Visit}
    (hinner : ∀ i, s.Related R (ConsultedBy s wanted (inside i)) s' →
      R (inner i).outcome (inner' i).outcome)
    {d : Descriptor} (h : s.Related R (ConsultedBy s wanted (visitsAt s inside d)) s') :
    R (lookAt s wanted inner d).outcome (lookAt s' wanted inner' d).outcome := by
  by_cases hm : d.mediaType = indexMediaType
  · simp only [visitsAt, if_pos hm] at h
    simp only [lookAt, if_pos hm, Traced.outcome_bind, Traced.outcome_ofExcept]
    refine hR.bind (h.document _ ?_ needsContainer_index) fun i hi =>
      hinner i (h.mono fun name hname => ?_)
    · split
      · exact ⟨_, ⟨[], [], rfl, by simp⟩, .unread d _⟩
      · exact ⟨_, ⟨[], _, rfl, by simp⟩, .index d⟩
    · have hpass : ∀ u ∈ [Visit.index d], Passes s wanted u := by simpa using .index d
      rw [hi]
      exact ConsultedBy.append_right hpass hname
  · simp only [visitsAt, if_neg hm] at h
    simp only [lookAt, if_neg hm]
    exact tryManifest_related hR (h.mono fun name hname => ⟨_, ⟨[], [], rfl, by simp⟩, hname⟩)

lemma selectFrom_related {inner inner' : Index → Traced (Option Manifest)}
    {inside : Index → List Visit} (ho : ∀ i, (inner i).outcome = resultOf s wanted (inside i))
    (hinner : ∀ i, s.Related R (ConsultedBy s wanted (inside i)) s' →
      R (inner i).outcome (inner' i).outcome)
    {ds : List Descriptor}
    (h : s.Related R (ConsultedBy s wanted (ds.flatMap (visitsAt s inside))) s') :
    R (selectFrom s wanted inner ds).outcome (selectFrom s' wanted inner' ds).outcome := by
  induction ds with
  | nil => exact hR.refl _
  | cons d ds ih =>
    rw [List.flatMap_cons] at h
    rw [selectFrom_cons, selectFrom_cons, Traced.outcome_bind, Traced.outcome_bind]
    refine hR.bind (lookAt_related hR hinner (h.mono fun _ hname => hname.append_left))
      fun found hfound => ?_
    cases found with
    | some m => exact hR.refl _
    | none =>
      rw [lookAt_outcome ho, resultOf_eq_none] at hfound
      exact ih (h.mono fun _ hname => hname.append_right hfound)

lemma select_related (levels : ℕ) {i : Index}
    (h : s.Related R (ConsultedBy s wanted (visits s levels i)) s') :
    R (select s wanted (levels + 1) i).outcome (select s' wanted (levels + 1) i).outcome := by
  induction levels generalizing i with
  | zero => exact selectFrom_related hR (fun _ => rfl) (fun _ _ => hR.refl _) h
  | succ levels ih => exact selectFrom_related hR (select_outcome levels) (fun _ => ih) h

lemma indexedLayers_related (hsaved : s.contains savedImagesName = false)
    (hindex : s.contains indexName = true) (h : s.Related R (Reads s wanted) s') :
    R (indexedLayers s wanted).outcome (indexedLayers s' wanted).outcome := by
  simp only [indexedLayers, Traced.outcome_bind, Traced.outcome_ofExcept]
  refine hR.bind (h.document _ (.index hsaved hindex) needsContainer_index) fun i hi =>
    hR.bind (select_related hR maxLevels (h.mono fun _ => .visited hsaved hindex hi))
      fun found _ => ?_
  cases found with
  | none => exact hR.refl _
  | some m => exact h.required _

lemma savedLayers_related (hsaved : s.contains savedImagesName = true)
    (h : s.Related R (Reads s wanted) s') :
    R (savedLayers s wanted).outcome (savedLayers s' wanted).outcome := by
  simp only [savedLayers, Traced.outcome_bind, Traced.outcome_ofExcept]
  refine hR.bind (h.saved (.saved hsaved)) fun images himages => ?_
  cases images with
  | nil => exact hR.refl _
  | cons image images =>
    simp only [Traced.outcome_bind, Traced.outcome_ofExcept, Traced.outcome_say]
    refine hR.bind (hR.refl _) fun _ _ => hR.bind ?_ fun _ _ => h.required _
    cases wanted with
    | none => exact hR.refl _
    | some p =>
      exact hR.bind (h.document _ (.config hsaved himages rfl) needsContainer_config)
        fun _ _ => hR.refl _

/-- The layers of an image in both stores are in relation, if its kind shows in both, and if the
documents are that are read to find the layers in one of them. -/
theorem layerNames_related (hsaved : s.contains savedImagesName = s'.contains savedImagesName)
    (hindex : s.contains indexName = s'.contains indexName)
    (h : s.Related R (Reads s wanted) s') :
    R (layerNames s wanted).outcome (layerNames s' wanted).outcome := by
  simp only [layerNames, ← hsaved, ← hindex]
  split_ifs with hs hi
  · exact hR.mapError _ (savedLayers_related hR hs h)
  · exact hR.mapError _ (indexedLayers_related hR (by simpa using hs) hi h)
  · exact hR.refl _

end Selection

end LayerPick
