import LayerPick.Proofs.MemberReading
import LayerPick.Proofs.TracedOutcomes

/-!
# The manifest that an index leads to

An index lists manifests and further indexes. Written out depth first, with what an inner index lists
in the place behind it, this is a row of visits. The search for a manifest comes to what the first
visit comes to that is not passed over, and it reads what this visit and those before it consult.
-/
namespace LayerPick.Selection

open Oci

/-- What comes up while an index is gone through. -/
inductive Visit where
  /-- An inner index. What it lists comes next. -/
  | index (d : Descriptor)
  /-- An inner index that cannot be read. -/
  | unread (d : Descriptor) (e : Failure)
  | tooDeep
  | manifest (d : Descriptor)

/-- How far below the outermost index an index may lie. -/
def maxLevels : ℕ := 4

section Visits

variable (s : BlobStore)

def readInner (d : Descriptor) : Except Failure Index :=
  s.readDocument d.digest.blobName (.parseNestedIndex d.digest.blobName) Index.ofValue?

def readListed (d : Descriptor) : Except Failure Manifest :=
  s.readDocument d.digest.blobName (.parseManifest d.digest.blobName) Manifest.ofValue?

/-- The visits that a descriptor stands for; `inner` says what an index stands for. -/
def visitsAt (inner : Index → List Visit) (d : Descriptor) : List Visit :=
  if d.mediaType = indexMediaType then
    match readInner s d with
    | .error e => [.unread d e]
    | .ok i => .index d :: inner i
  else [.manifest d]

/-- The visits of an index below which indexes may lie to some levels. -/
def visits : (levels : ℕ) → Index → List Visit
  | 0, i => i.manifests.flatMap (visitsAt s fun _ => [.tooDeep])
  | levels + 1, i => i.manifests.flatMap (visitsAt s (visits levels))

variable (wanted : Option Platform)

/-- A manifest that is offered for another platform. -/
def IsRuledOut (d : Descriptor) : Prop :=
  ∃ p o, wanted = some p ∧ d.platform = some o ∧ p.matchesOffer o = false

/-- The search goes on after this visit. -/
inductive Passes : Visit → Prop
  | index (d : Descriptor) : Passes (.index d)
  | offered {d : Descriptor} : IsRuledOut wanted d → Passes (.manifest d)
  | built {d : Descriptor} {p : Platform} {m : Manifest} {c : Config} :
    wanted = some p → d.platform = none → readListed s d = .ok m →
      readConfig s m.config.digest.blobName = .ok c → p.matchesConfig c = false →
      Passes (.manifest d)

/-- The descriptor leads to this manifest, which is acceptable. -/
inductive Accepts : Descriptor → Manifest → Prop
  | any {d : Descriptor} {m : Manifest} : wanted = none → readListed s d = .ok m → Accepts d m
  | offered {d : Descriptor} {p : Platform} {o : Offer} {m : Manifest} :
    wanted = some p → d.platform = some o → p.matchesOffer o = true → readListed s d = .ok m →
      Accepts d m
  | built {d : Descriptor} {p : Platform} {m : Manifest} {c : Config} :
    wanted = some p → d.platform = none → readListed s d = .ok m →
      readConfig s m.config.digest.blobName = .ok c → p.matchesConfig c = true → Accepts d m

inductive Fails : Visit → Failure → Prop
  | unread (d : Descriptor) (e : Failure) : Fails (.unread d e) e
  | tooDeep : Fails .tooDeep (.of .nestingTooDeep)
  | manifest {d : Descriptor} {e : Failure} :
    ¬IsRuledOut wanted d → readListed s d = .error e → Fails (.manifest d) e
  | config {d : Descriptor} {p : Platform} {m : Manifest} {e : Failure} :
    wanted = some p → d.platform = none → readListed s d = .ok m →
      readConfig s m.config.digest.blobName = .error e → Fails (.manifest d) e

/-- The visit needs the blob with this name. -/
inductive Consults : Visit → String → Prop
  | index (d : Descriptor) : Consults (.index d) d.digest.blobName
  | unread (d : Descriptor) (e : Failure) : Consults (.unread d e) d.digest.blobName
  | manifest {d : Descriptor} : ¬IsRuledOut wanted d → Consults (.manifest d) d.digest.blobName
  | config {d : Descriptor} {m : Manifest} :
    wanted.isSome → d.platform = none → readListed s d = .ok m →
      Consults (.manifest d) m.config.digest.blobName

/-- This visit comes up, and all those before it are passed over. -/
def ComesTo (vs : List Visit) (v : Visit) : Prop :=
  ∃ before after, vs = before ++ v :: after ∧ ∀ u ∈ before, Passes s wanted u

end Visits

section Search

variable {s s' : BlobStore} {wanted : Option Platform}

def Visit.result (s : BlobStore) (wanted : Option Platform) :
    Visit → Except Failure (Option Manifest)
  | .index _ => .ok none
  | .unread _ e => .error e
  | .tooDeep => .error (.of .nestingTooDeep)
  | .manifest d => (tryManifest s wanted d).outcome

lemma tryManifest_offered {d : Descriptor} (h : IsRuledOut wanted d) :
    (tryManifest s wanted d).outcome = .ok none := by
  obtain ⟨p, o, rfl, ho, hm⟩ := h
  simp [tryManifest, verdict, ho, hm]

/-- A manifest that is not ruled out is read. Where the index does not say what it is for, its
configuration is read too. -/
lemma tryManifest_outcome {d : Descriptor} (h : ¬IsRuledOut wanted d) :
    (tryManifest s wanted d).outcome = (do
      let m ← readListed s d
      match wanted, d.platform with
      | some p, none => do
        let c ← readConfig s m.config.digest.blobName
        pure (if p.matchesConfig c then some m else none)
      | _, _ => pure (some m)) := by
  have hlisted : s.readDocument d.digest.blobName (.parseManifest d.digest.blobName)
      Manifest.ofValue? = readListed s d := rfl
  rcases hw : wanted with _ | p
  · simp only [tryManifest, verdict, Traced.outcome_bind, Traced.outcome_ofExcept, hlisted,
      Traced.outcome_pure, Tar.ok_bind, if_true, Traced.outcome_say]
    rfl
  · rcases ho : d.platform with _ | o
    · simp only [tryManifest, verdict, ho, Traced.outcome_bind, Traced.outcome_ofExcept, hlisted]
      congr 1
      ext1 m
      rcases readConfig s m.config.digest.blobName with e | c
      · rfl
      · cases hc : p.matchesConfig c <;> simp [Tar.ok_bind, hc]
    · have hm : p.matchesOffer o = true := by
        by_contra hm
        exact h ⟨p, o, hw, ho, by simpa using hm⟩
      simp only [tryManifest, verdict, ho, hm, if_true, Traced.outcome_bind,
        Traced.outcome_ofExcept, hlisted, Traced.outcome_pure, Tar.ok_bind, Traced.outcome_say]
      rfl

lemma Passes.result {v : Visit} (h : Passes s wanted v) : v.result s wanted = .ok none := by
  cases h with
  | index d => rfl
  | offered h => exact tryManifest_offered h
  | built hw ho hm hc hp =>
    rw [Visit.result, tryManifest_outcome (by simp [IsRuledOut, ho]), hm, hw, ho]
    simp [hc, hp]

lemma Accepts.result {d : Descriptor} {m : Manifest} (h : Accepts s wanted d m) :
    (Visit.manifest d).result s wanted = .ok (some m) := by
  rw [Visit.result]
  cases h with
  | any hw hm =>
    rw [tryManifest_outcome (by simp [IsRuledOut, hw]), hm, hw]
    rfl
  | offered hw ho hp hm =>
    rw [tryManifest_outcome (by simp [IsRuledOut, hw, ho, hp]), hm, hw, ho]
    rfl
  | built hw ho hm hc hp =>
    rw [tryManifest_outcome (by simp [IsRuledOut, ho]), hm, hw, ho]
    simp [hc, hp]

lemma Fails.result {v : Visit} {e : Failure} (h : Fails s wanted v e) :
    v.result s wanted = .error e := by
  cases h with
  | unread d e => rfl
  | tooDeep => rfl
  | manifest hr hm =>
    rw [Visit.result, tryManifest_outcome hr, hm]
    rfl
  | config hw ho hm hc =>
    rw [Visit.result, tryManifest_outcome (by simp [IsRuledOut, ho]), hm, hw, ho]
    simp [hc]

lemma Visit.kinds (s : BlobStore) (wanted : Option Platform) (v : Visit) :
    Passes s wanted v ∨ (∃ d m, v = .manifest d ∧ Accepts s wanted d m) ∨
      ∃ e, Fails s wanted v e := by
  cases v with
  | index d => exact .inl (.index d)
  | unread d e => exact .inr (.inr ⟨e, .unread d e⟩)
  | tooDeep => exact .inr (.inr ⟨_, .tooDeep⟩)
  | manifest d =>
    by_cases hr : IsRuledOut wanted d
    · exact .inl (.offered hr)
    rcases hm : readListed s d with e | m
    · exact .inr (.inr ⟨e, .manifest hr hm⟩)
    rcases hw : wanted with _ | p
    · exact .inr (.inl ⟨d, m, rfl, .any rfl hm⟩)
    rcases ho : d.platform with _ | o
    · rcases hc : readConfig s m.config.digest.blobName with e | c
      · exact .inr (.inr ⟨e, .config rfl ho hm hc⟩)
      cases hp : p.matchesConfig c with
      | false => exact .inl (.built rfl ho hm hc hp)
      | true => exact .inr (.inl ⟨d, m, rfl, .built rfl ho hm hc hp⟩)
    · have hp : p.matchesOffer o = true := by
        by_contra hp
        exact hr ⟨p, o, hw, ho, by simpa using hp⟩
      exact .inr (.inl ⟨d, m, rfl, .offered rfl ho hp hm⟩)

/-- What a row of visits comes to: what the first visit comes to that is not passed over. -/
def resultOf (s : BlobStore) (wanted : Option Platform) :
    List Visit → Except Failure (Option Manifest)
  | [] => .ok none
  | v :: vs => do
    match ← v.result s wanted with
    | some m => return some m
    | none => resultOf s wanted vs

lemma resultOf_append (us vs : List Visit) :
    resultOf s wanted (us ++ vs) = (do
      match ← resultOf s wanted us with
      | some m => return some m
      | none => resultOf s wanted vs) := by
  induction us with
  | nil => rfl
  | cons u us ih =>
    rw [List.cons_append, resultOf, resultOf, ih]
    rcases u.result s wanted with e | _ | m <;> rfl

lemma resultOf_passes {us : List Visit} (h : ∀ u ∈ us, Passes s wanted u) :
    resultOf s wanted us = .ok none := by
  induction us with
  | nil => rfl
  | cons u us ih =>
    rw [resultOf, (h u (List.mem_cons_self ..)).result]
    exact ih fun v hv => h v (List.mem_cons_of_mem _ hv)

/-- A row comes to what a visit comes to that is not passed over, if it is the first one. -/
lemma ComesTo.resultOf {vs : List Visit} {v : Visit} (h : ComesTo s wanted vs v)
    (hv : v.result s wanted ≠ .ok none) : resultOf s wanted vs = v.result s wanted := by
  obtain ⟨before, after, rfl, hb⟩ := h
  rw [resultOf_append, resultOf_passes hb, Tar.ok_bind, Selection.resultOf]
  rcases hr : v.result s wanted with e | _ | m
  · rfl
  · exact absurd hr hv
  · rfl

/-- Either all visits are passed over, or there is a first one that is not. -/
lemma passes_or_comesTo (s : BlobStore) (wanted : Option Platform) (vs : List Visit) :
    (∀ v ∈ vs, Passes s wanted v) ∨ ∃ v, ComesTo s wanted vs v ∧ ¬Passes s wanted v := by
  induction vs with
  | nil => simp
  | cons v vs ih =>
    by_cases hv : Passes s wanted v
    · rcases ih with hall | ⟨u, ⟨before, after, rfl, hb⟩, hu⟩
      · exact .inl (by simpa using ⟨hv, hall⟩)
      · exact .inr ⟨u, ⟨v :: before, after, rfl, by simpa using ⟨hv, hb⟩⟩, hu⟩
    · exact .inr ⟨v, ⟨[], vs, rfl, by simp⟩, hv⟩

/-- What a row of visits comes to, in terms of the first visit that is not passed over. -/
lemma resultOf_cases (s : BlobStore) (wanted : Option Platform) (vs : List Visit) :
    (resultOf s wanted vs = .ok none ∧ ∀ v ∈ vs, Passes s wanted v) ∨
      (∃ d m, resultOf s wanted vs = .ok (some m) ∧ ComesTo s wanted vs (.manifest d) ∧
        Accepts s wanted d m) ∨
      ∃ v e, resultOf s wanted vs = .error e ∧ ComesTo s wanted vs v ∧ Fails s wanted v e := by
  rcases passes_or_comesTo s wanted vs with hall | ⟨v, hv, hnot⟩
  · exact .inl ⟨resultOf_passes hall, hall⟩
  rcases Visit.kinds s wanted v with hp | ⟨d, m, rfl, ha⟩ | ⟨e, hf⟩
  · exact absurd hp hnot
  · refine .inr (.inl ⟨d, m, ?_, hv, ha⟩)
    rw [hv.resultOf (by simp [ha.result]), ha.result]
  · refine .inr (.inr ⟨v, e, ?_, hv, hf⟩)
    rw [hv.resultOf (by simp [hf.result]), hf.result]

lemma resultOf_eq_none {vs : List Visit} :
    resultOf s wanted vs = .ok none ↔ ∀ v ∈ vs, Passes s wanted v := by
  refine ⟨fun h => ?_, resultOf_passes⟩
  rcases resultOf_cases s wanted vs with ⟨-, hall⟩ | ⟨d, m, hr, -⟩ | ⟨v, e, hr, -⟩
  · exact hall
  · simp [hr] at h
  · simp [hr] at h

lemma resultOf_eq_some {vs : List Visit} {m : Manifest} :
    resultOf s wanted vs = .ok (some m) ↔
      ∃ d, ComesTo s wanted vs (.manifest d) ∧ Accepts s wanted d m := by
  constructor
  · intro h
    rcases resultOf_cases s wanted vs with ⟨hr, -⟩ | ⟨d, m', hr, hv, ha⟩ | ⟨v, e, hr, -⟩
    · simp [hr] at h
    · obtain rfl : m' = m := by simpa [hr] using h
      exact ⟨d, hv, ha⟩
    · simp [hr] at h
  · rintro ⟨d, hv, ha⟩
    rw [hv.resultOf (by simp [ha.result]), ha.result]

lemma resultOf_eq_error {vs : List Visit} {e : Failure} :
    resultOf s wanted vs = .error e ↔ ∃ v, ComesTo s wanted vs v ∧ Fails s wanted v e := by
  constructor
  · intro h
    rcases resultOf_cases s wanted vs with ⟨hr, -⟩ | ⟨d, m, hr, -⟩ | ⟨v, e', hr, hv, hf⟩
    · simp [hr] at h
    · simp [hr] at h
    · obtain rfl : e' = e := by simpa [hr] using h
      exact ⟨v, hv, hf⟩
  · rintro ⟨v, hv, hf⟩
    rw [hv.resultOf (by simp [hf.result]), hf.result]

/-- What the search does at a descriptor. -/
def lookAt (s : BlobStore) (wanted : Option Platform) (inner : Index → Traced (Option Manifest))
    (d : Descriptor) : Traced (Option Manifest) :=
  if d.mediaType = indexMediaType then Traced.ofExcept (readInner s d) >>= inner
  else tryManifest s wanted d

lemma selectFrom_cons (inner : Index → Traced (Option Manifest)) (d : Descriptor)
    (ds : List Descriptor) :
    selectFrom s wanted inner (d :: ds) = (do
      match ← lookAt s wanted inner d with
      | some m => return some m
      | none => selectFrom s wanted inner ds) := by
  rw [selectFrom, lookAt]
  split
  · rw [Traced.bind_assoc]
    rfl
  · rfl

lemma lookAt_outcome {inner : Index → Traced (Option Manifest)} {inside : Index → List Visit}
    (h : ∀ i, (inner i).outcome = resultOf s wanted (inside i)) (d : Descriptor) :
    (lookAt s wanted inner d).outcome = resultOf s wanted (visitsAt s inside d) := by
  rw [lookAt, visitsAt]
  split
  · rw [Traced.outcome_bind, Traced.outcome_ofExcept]
    rcases readInner s d with e | i
    · rfl
    · rw [Tar.ok_bind, h]
      rfl
  · rw [resultOf, Visit.result]
    rcases (tryManifest s wanted d).outcome with e | _ | m <;> rfl

lemma selectFrom_outcome {inner : Index → Traced (Option Manifest)} {inside : Index → List Visit}
    (h : ∀ i, (inner i).outcome = resultOf s wanted (inside i)) (ds : List Descriptor) :
    (selectFrom s wanted inner ds).outcome =
      resultOf s wanted (ds.flatMap (visitsAt s inside)) := by
  induction ds with
  | nil => rfl
  | cons d ds ih =>
    rw [List.flatMap_cons, resultOf_append, ← ih, selectFrom_cons, Traced.outcome_bind,
      lookAt_outcome h]
    rcases resultOf s wanted (visitsAt s inside d) with e | _ | m <;> rfl

/-- The search in an index comes to what its visits come to. -/
theorem select_outcome (levels : ℕ) (i : Index) :
    (select s wanted (levels + 1) i).outcome = resultOf s wanted (visits s levels i) := by
  induction levels generalizing i with
  | zero => exact selectFrom_outcome (fun _ => rfl) i.manifests
  | succ levels ih => exact selectFrom_outcome ih i.manifests

/-- The two stores open the same under these names. -/
def OpensAlike (s s' : BlobStore) (names : String → Prop) : Prop :=
  ∀ name, names name → s'.openBlob name = s.openBlob name

/-- The names that a row of visits consults before it comes to something. -/
def ConsultedBy (s : BlobStore) (wanted : Option Platform) (vs : List Visit) (name : String) :
    Prop :=
  ∃ v, ComesTo s wanted vs v ∧ Consults s wanted v name

lemma ConsultedBy.append_left {us vs : List Visit} {name : String}
    (h : ConsultedBy s wanted us name) : ConsultedBy s wanted (us ++ vs) name := by
  obtain ⟨v, ⟨before, after, rfl, hb⟩, hv⟩ := h
  exact ⟨v, ⟨before, after ++ vs, by simp, hb⟩, hv⟩

lemma ConsultedBy.append_right {us vs : List Visit} {name : String}
    (hus : ∀ u ∈ us, Passes s wanted u) (h : ConsultedBy s wanted vs name) :
    ConsultedBy s wanted (us ++ vs) name := by
  obtain ⟨v, ⟨before, after, rfl, hb⟩, hv⟩ := h
  refine ⟨v, ⟨us ++ before, after, by simp, fun u hu => ?_⟩, hv⟩
  exact (List.mem_append.mp hu).elim (hus u) (hb u)

lemma readDocument_congr {α : Type} {name : String} (h : s'.openBlob name = s.openBlob name)
    (stage : Stage) (f : Json.Value → Option α) :
    s'.readDocument name stage f = s.readDocument name stage f := by
  rw [BlobStore.readDocument, BlobStore.readDocument, h]

lemma tryManifest_congr {d : Descriptor}
    (h : OpensAlike s s' (Consults s wanted (.manifest d))) :
    tryManifest s' wanted d = tryManifest s wanted d := by
  by_cases hr : IsRuledOut wanted d
  · obtain ⟨p, o, rfl, ho, hm⟩ := hr
    simp only [tryManifest, verdict, ho, hm, Bool.false_eq_true, if_false]
  have hlisted := readDocument_congr (h _ (.manifest hr)) (.parseManifest d.digest.blobName)
    Manifest.ofValue?
  have hconfig (m : Manifest) (hw : wanted.isSome) (ho : d.platform = none)
      (hm : readListed s d = .ok m) :
      readConfig s' m.config.digest.blobName = readConfig s m.config.digest.blobName :=
    readDocument_congr (h _ (.config hw ho hm)) _ _
  rcases wanted with _ | p
  · simp only [tryManifest, verdict, hlisted]
  rcases ho : d.platform with _ | o
  · simp only [tryManifest, verdict, ho, hlisted]
    exact Traced.bind_congr fun m hm => by rw [hconfig m rfl ho hm]
  · have hm : p.matchesOffer o = true := by
      by_contra hm
      exact hr ⟨p, o, rfl, ho, by simpa using hm⟩
    simp only [tryManifest, verdict, ho, hm, if_true, hlisted]

lemma lookAt_congr {inner inner' : Index → Traced (Option Manifest)}
    {inside : Index → List Visit}
    (h : ∀ i, OpensAlike s s' (ConsultedBy s wanted (inside i)) → inner' i = inner i)
    {d : Descriptor} (hd : OpensAlike s s' (ConsultedBy s wanted (visitsAt s inside d))) :
    lookAt s' wanted inner' d = lookAt s wanted inner d := by
  by_cases hm : d.mediaType = indexMediaType
  · simp only [visitsAt, if_pos hm] at hd
    simp only [lookAt, if_pos hm]
    have hname : s'.openBlob d.digest.blobName = s.openBlob d.digest.blobName := by
      refine hd _ ?_
      split
      · exact ⟨_, ⟨[], [], rfl, by simp⟩, .unread d _⟩
      · exact ⟨_, ⟨[], _, rfl, by simp⟩, .index d⟩
    have hread : readInner s' d = readInner s d := readDocument_congr hname _ _
    rw [hread]
    refine Traced.bind_congr fun i hi => h i fun name hname => hd name ?_
    rw [Traced.outcome_ofExcept] at hi
    have hpass : ∀ u ∈ [Visit.index d], Passes s wanted u := by simpa using .index d
    rw [hi]
    exact ConsultedBy.append_right hpass hname
  · simp only [visitsAt, if_neg hm] at hd
    simp only [lookAt, if_neg hm]
    exact tryManifest_congr fun name hname => hd name ⟨_, ⟨[], [], rfl, by simp⟩, hname⟩

lemma selectFrom_congr {inner inner' : Index → Traced (Option Manifest)}
    {inside : Index → List Visit}
    (ho : ∀ i, (inner i).outcome = resultOf s wanted (inside i))
    (h : ∀ i, OpensAlike s s' (ConsultedBy s wanted (inside i)) → inner' i = inner i)
    {ds : List Descriptor}
    (hds : OpensAlike s s' (ConsultedBy s wanted (ds.flatMap (visitsAt s inside)))) :
    selectFrom s' wanted inner' ds = selectFrom s wanted inner ds := by
  induction ds with
  | nil => rfl
  | cons d ds ih =>
    rw [List.flatMap_cons] at hds
    rw [selectFrom_cons, selectFrom_cons,
      lookAt_congr h fun name hname => hds name hname.append_left]
    refine Traced.bind_congr fun found hfound => ?_
    cases found with
    | some m => rfl
    | none =>
      rw [lookAt_outcome ho, resultOf_eq_none] at hfound
      exact ih fun name hname => hds name (hname.append_right hfound)

/-- The search in an index reads what its visits consult before it comes to something. -/
theorem select_congr (levels : ℕ) {i : Index}
    (h : OpensAlike s s' (ConsultedBy s wanted (visits s levels i))) :
    select s' wanted (levels + 1) i = select s wanted (levels + 1) i := by
  induction levels generalizing i with
  | zero => exact selectFrom_congr (fun _ => rfl) (fun _ _ => rfl) h
  | succ levels ih =>
    exact selectFrom_congr (select_outcome levels) (fun _ hi => ih hi) h

end Search

/-- The search gives the manifest of the first visit that is acceptable, and none if all visits are
passed over. It fails just if the first visit that is not passed over fails: an inner index or a
manifest that is not ruled out cannot be read, nor a configuration that has to decide, or an index
lies too deep. All that it does, its log included, depends on no other blob than those that the
visits up to that one consult, and a manifest that is ruled out consults none. -/
theorem select_firstAcceptable (s : BlobStore) (wanted : Option Platform) (root : Index) :
    (∀ m, (select s wanted maxIndexes root).outcome = .ok (some m) ↔
      ∃ d, ComesTo s wanted (visits s maxLevels root) (.manifest d) ∧ Accepts s wanted d m) ∧
    ((select s wanted maxIndexes root).outcome = .ok none ↔
      ∀ v ∈ visits s maxLevels root, Passes s wanted v) ∧
    (∀ e, (select s wanted maxIndexes root).outcome = .error e ↔
      ∃ v, ComesTo s wanted (visits s maxLevels root) v ∧ Fails s wanted v e) ∧
    (∀ s', OpensAlike s s' (ConsultedBy s wanted (visits s maxLevels root)) →
      select s' wanted maxIndexes root = select s wanted maxIndexes root) ∧
    ∀ d, IsRuledOut wanted d → ∀ name, ¬Consults s wanted (.manifest d) name := by
  have hsearch : (select s wanted maxIndexes root).outcome =
    resultOf s wanted (visits s maxLevels root) := select_outcome maxLevels root
  refine ⟨fun m => ?_, ?_, fun e => ?_, fun s' => select_congr maxLevels, fun d hr name hc => ?_⟩
  · rw [hsearch, resultOf_eq_some]
  · rw [hsearch, resultOf_eq_none]
  · rw [hsearch, resultOf_eq_error]
  · cases hc with
    | manifest hnot => exact hnot hr
    | config hw ho hm =>
      obtain ⟨p, o, hp, ho', -⟩ := hr
      simp [ho] at ho'

def storeOf (blobs : List (String × String)) : BlobStore where
  contains name := (blobs.lookup name).isSome
  openBlob name :=
    match blobs.lookup name with
    | none => .error (.of (.blobNotFound name))
    | some text => .ok (.ofBytes (Utf8.encode text))

/-- An index in an index. The first manifest is offered for another platform, and its blob is
missing; the second one leaves it to its configuration. -/
def nestedImage : BlobStore :=
  storeOf [
    ("index.json", "\x7b\"schemaVersion\":2,\"manifests\":[\x7b\"mediaType\":\"" ++ indexMediaType ++
      "\",\"digest\":\"a:inner\",\"size\":1\x7d]\x7d"),
    ("blobs/a/inner", "\x7b\"schemaVersion\":2,\"manifests\":[\x7b\"mediaType\":\"m\"," ++
      "\"digest\":\"a:gone\",\"size\":1,\"platform\":\x7b\"os\":\"linux\"," ++
      "\"architecture\":\"arm64\"\x7d\x7d,\x7b\"mediaType\":\"m\",\"digest\":\"a:manifest\"," ++
      "\"size\":1\x7d]\x7d"),
    ("blobs/a/manifest", "\x7b\"schemaVersion\":2,\"config\":\x7b\"mediaType\":\"c\"," ++
      "\"digest\":\"a:config\",\"size\":1\x7d,\"layers\":[\x7b\"mediaType\":\"l\"," ++
      "\"digest\":\"a:layer\",\"size\":1\x7d]\x7d"),
    ("blobs/a/config", "\x7b\"architecture\":\"amd64\",\"os\":\"linux\"," ++
      "\"rootfs\":\x7b\"type\":\"layers\",\"diff_ids\":[]\x7d\x7d")]

/-- The second manifest is the first acceptable one. -/
theorem select_firstAcceptable_nested :
    let p : Platform := ⟨"linux", "amd64", none⟩
    ∃ root m, nestedImage.readDocument indexName .parseIndex Index.ofValue? = .ok root ∧
      m.layers.map (·.digest.blobName) = ["blobs/a/layer"] ∧
      ∃ d, ComesTo nestedImage (some p) (visits nestedImage maxLevels root) (.manifest d) ∧
        Accepts nestedImage (some p) d m := by
  intro p
  let read := nestedImage.readDocument indexName .parseIndex Index.ofValue?
  have hrun : (do
      let found ← (select nestedImage (some p) maxIndexes (← read)).outcome
      return found.map fun (m : Manifest) => m.layers.map fun (l : Descriptor) => l.digest.blobName) =
        .ok (some ["blobs/a/layer"]) := by
    decide +kernel
  obtain ⟨root, hread, hrun⟩ := Tar.bind_ok.mp hrun
  obtain ⟨found, hfound, hlayers⟩ := Tar.bind_ok.mp hrun
  obtain ⟨m, rfl, hm⟩ := Option.map_eq_some_iff.mp (Except.ok.inj hlayers)
  exact ⟨root, m, hread, hm,
    ((select_firstAcceptable nestedImage (some p) root).1 m).mp hfound⟩

end LayerPick.Selection
