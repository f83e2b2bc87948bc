import LayerPick.Proofs.FailedExtraction
import LayerPick.Proofs.WalkRun
import Mathlib.Data.Finset.Card
import Mathlib.Data.List.Count

/-!
# The books of the walk

The walk counts the files it has written, keeps a warning for each it could not write, and notes
which paths are claimed. The archive keeps count as well. All these agree wherever the walk comes,
so that comparing one counter with the number of paths is enough to know when to stop: the walk can
stop before the last layer only if nothing has been refused.
-/
namespace LayerPick

open Tar

/-- The attempts that have failed, in order. -/
def Archive.failed (a : Archive) : List Attempt := a.attempts.filter fun x => !x.isWritten

/-- The warning tells that the archive has refused this. -/
def Warning.Tells (w : Warning) (a : Attempt) : Prop :=
  w.path = a.path ∧ a.result = .refused w.message

/-- The layers that are not yet left, the one under way first. -/
def Stand.ahead : Stand → List ℕ
  | .before below => below.map Prod.snd
  | .among i _ below => i :: below.map Prod.snd

structure WalkState.Books (files : List FileSpec) (s : WalkState) : Prop where
  wanted : ∀ p ∈ s.resolved.paths, p ∈ files.map FileSpec.target
  found : s.found = s.archive.entries
  counted : s.found + s.warnings.length = s.resolved.size
  bounded : s.resolved.size ≤ (files.map FileSpec.target).toFinset.card
  distinct : (s.warnings.map Warning.path).Nodup
  claimed : ∀ w ∈ s.warnings, w.path ∈ s.resolved.paths
  falling : (s.warnings.map Warning.layer).Pairwise (· ≥ ·)

lemma Warning.tells_paths {ws : List Warning} {as : List Attempt}
    (h : List.Forall₂ Warning.Tells ws as) : ws.map Warning.path = as.map fun a => a.path := by
  induction h with
  | nil => rfl
  | cons hw _ ih => rw [List.map_cons, List.map_cons, hw.1, ih]

lemma take_warnings {i : ℕ} {p : String} {e : Entry} {s s' : WalkState} {c c' : Content}
    (h : take i p e s c = (s', .ok c')) :
    s'.warnings = s.warnings ∧ s'.archive.failed = s.archive.failed ∨
      ∃ w a, s'.warnings = s.warnings ++ [w] ∧ s'.archive.failed = s.archive.failed ++ [a] ∧
        w.Tells a ∧ w.layer = i := by
  obtain ⟨records, c₁, a, r, -, ha, h⟩ := take_ok h
  obtain ⟨d, -, rfl⟩ := append_eq.mp ha
  rcases h with ⟨rfl, rfl⟩ | ⟨m, rfl, rfl⟩
  · left
    constructor
    · rfl
    · simp [WalkState.say, WalkState.countFile, WalkState.asked, Archive.failed,
        Archive.attempts, Attempt.isWritten]
  · right
    refine ⟨⟨p, i, m⟩, ⟨⟨e.header, p, records, c₁⟩, .refused m⟩, rfl, ?_, ⟨rfl, rfl⟩, rfl⟩
    simp [WalkState.say, WalkState.warn, WalkState.asked, Archive.failed, Archive.attempts,
      Attempt.isWritten]

lemma pairwise_again {i : ℕ} {l m : List ℕ} (h : (l ++ i :: m).Pairwise (· ≥ ·)) :
    ((l ++ [i]) ++ i :: m).Pairwise (· ≥ ·) := by
  simp only [List.pairwise_append, List.pairwise_cons, List.mem_cons, forall_eq_or_imp,
    List.mem_append, List.Pairwise.nil, List.mem_nil_iff, or_false] at h ⊢
  obtain ⟨hl, ⟨hi, hm⟩, hlm⟩ := h
  constructor
  · exact ⟨hl, ⟨by simp, trivial⟩, fun a ha b hb => hb ▸ (hlm a ha).1⟩
  · refine ⟨⟨hi, hm⟩, ?_⟩
    rintro a (ha | rfl)
    · exact hlm a ha
    · exact ⟨Nat.le_refl _, hi⟩

section Reached

variable {o : Order} {layers : List Layer} {d : Device} {label : String} {st : Stand}
  {s : WalkState}

/-- There is one warning for each failed attempt, in order. -/
lemma Reached.tells (h : Reached o layers d label (st, s)) :
    List.Forall₂ Warning.Tells s.warnings s.archive.failed := by
  refine h.invariant (P := fun x => List.Forall₂ Warning.Tells x.2.warnings x.2.archive.failed)
    .nil ?_
  intro x y _ hm hx
  cases hm with
  | enter _ _ _ => exact hx
  | pass _ _ _ => exact hx
  | leave _ => exact hx
  | take _ _ _ ht =>
    rcases take_warnings ht with ⟨hw, ha⟩ | ⟨w, a, hw, ha, htell, -⟩
    · rw [← hw, ← ha] at hx
      exact hx
    · simp only [hw, ha]
      exact List.rel_append hx (.cons htell .nil)

/-- The warnings come from layer after layer downwards, as far as the walk has come. -/
lemma Reached.falling (h : Reached o layers d label (st, s)) :
    (s.warnings.map Warning.layer ++ st.ahead).Pairwise (· ≥ ·) := by
  refine h.invariant
    (P := fun x => (x.2.warnings.map Warning.layer ++ x.1.ahead).Pairwise (· ≥ ·)) ?_ ?_
  · simp only [WalkState.start, List.map_nil, List.nil_append, Stand.ahead, List.map_reverse,
      List.zipIdx_map_snd, List.pairwise_reverse]
    exact (List.pairwise_lt_range' ..).imp Nat.le_of_lt
  · intro x y _ hm hx
    cases hm with
    | enter _ _ _ => exact hx
    | pass _ _ _ => exact hx
    | leave _ =>
      exact hx.sublist (List.Sublist.append_left (List.sublist_cons_self ..) _)
    | take _ _ _ ht =>
      rcases take_warnings ht with ⟨hw, -⟩ | ⟨w, a, hw, -, -, rfl⟩
      · simp only [hw]
        exact hx
      · simp only [hw, List.map_append, List.map_cons, List.map_nil]
        exact pairwise_again hx

lemma Reached.visited (h : Reached o layers d label (st, s)) :
    s.visited + st.ahead.length = layers.length := by
  refine h.invariant (P := fun x => x.2.visited + x.1.ahead.length = layers.length) ?_ ?_
  · simp [WalkState.start, Stand.ahead]
  · intro x y _ hm hx
    cases hm with
    | enter _ _ _ => exact hx
    | pass _ _ _ => exact hx
    | take _ _ _ ht =>
      have hv := (take_frames ht).visited
      simp only [hv]
      exact hx
    | @leave i r below s _ =>
      have hv : (s.leaving layers.length).visited = s.visited + 1 := rfl
      simp only [Stand.ahead, List.length_cons] at hx ⊢
      omega

lemma Reached.attempted_nodup (h : Reached o layers d label (st, s)) :
    (s.archive.attempts.map fun a => a.path).Nodup := by
  rw [h.consistent.attempted, List.nodup_reverse]
  exact s.resolved.nodup

/-- A claimed path has been written or has a warning, not both, and just once. -/
lemma Reached.count_eq_one (h : Reached o layers d label (st, s)) {p : String}
    (hp : p ∈ s.resolved.paths) :
    ((s.archive.attempts.filter Attempt.isWritten).map fun a => a.path).count p +
      (s.warnings.map Warning.path).count p = 1 := by
  have hmem : p ∈ s.archive.attempts.map fun a => a.path := by
    rw [h.consistent.attempted, List.mem_reverse]
    exact hp
  calc _ = ((s.archive.attempts.filter Attempt.isWritten ++ s.archive.failed).map
          fun a => a.path).count p := by
        rw [Warning.tells_paths h.tells, List.map_append, List.count_append]
    _ = (s.archive.attempts.map fun a => a.path).count p :=
        ((List.filter_append_perm Attempt.isWritten s.archive.attempts).map _).count_eq p
    _ = 1 := List.count_eq_one_of_mem h.attempted_nodup hmem

end Reached

lemma Reached.books {files : List FileSpec} {cancelled : ℕ → Bool} {layers : List Layer}
    {d : Device} {label : String} {st : Stand} {s : WalkState}
    (h : Reached (.ofFiles files cancelled) layers d label (st, s)) : s.Books files := by
  have hs := h.consistent
  have hwanted : ∀ p ∈ s.resolved.paths, p ∈ files.map FileSpec.target :=
    fun p hp => List.mem_eraseDups.mp (hs.wanted p hp)
  have hsub : (s.warnings.map Warning.path).Sublist (s.archive.attempts.map fun a => a.path) := by
    rw [Warning.tells_paths h.tells]
    exact List.filter_sublist.map _
  constructor
  · exact hwanted
  · exact hs.found
  · exact hs.counted
  · rw [Resolved.size, ← List.toFinset_card_of_nodup s.resolved.nodup]
    refine Finset.card_le_card fun p hp => ?_
    rw [List.mem_toFinset] at hp ⊢
    exact hwanted p hp
  · exact h.attempted_nodup.sublist hsub
  · intro w hw
    have hmem := hsub.subset (List.mem_map_of_mem hw)
    rwa [hs.attempted, List.mem_reverse] at hmem
  · exact (List.pairwise_append.mp h.falling).1

/-- The books are right wherever the walk comes, and it stops before the last layer only if nothing
was refused. So each file that an extraction reports has its path in the archive or in the warnings,
once and not in both. -/
theorem extract_books (layers : List Layer) (files : List FileSpec) (cancelled : ℕ → Bool)
    (d : Device) (label : String) :
    let o := Order.ofFiles files cancelled
    let x := extract ⟨.ok layers⟩ files cancelled (.ok d) label
    (∀ st s, Reached o layers d label (st, s) →
        s.Books files ∧ (o.isDone s = true → s.warnings = [])) ∧
      ∀ e, x.outcome = .ok e →
        (∀ f ∈ e.locations,
          ((x.attempts.filter Attempt.isWritten).map fun a => a.path).count f.target +
            (e.warnings.map Warning.path).count f.target = 1) ∧
        (e.visited < layers.length → e.warnings = []) := by
  intro o x
  constructor
  · intro st s h
    exact ⟨h.books, h.consistent.warnings_of_isDone⟩
  intro e he
  rcases hz : walk o layers (.start o layers d label) with ⟨s, failure⟩
  have hx : x = conclude files layers label s failure := by
    rw [show x = _ from extract_eq layers files cancelled d label, hz]
  rw [hx] at he
  obtain ⟨rfl, rfl⟩ := conclude_ok he
  obtain ⟨below, s₁, hreached, ⟨log, rfl⟩, hstop⟩ := walk_ok hz
  constructor
  · intro f hf
    have hp : f.target ∈ s₁.resolved.paths := by
      simpa [Resolved.contains] using (List.mem_filter.mp hf).2
    rw [hx, (conclude_frame ..).2.1]
    exact hreached.count_eq_one hp
  · intro hlt
    rcases hstop with rfl | hdone
    · have hall := hreached.visited
      simp only [Stand.ahead, List.map_nil, List.length_nil] at hall hlt
      omega
    · exact hreached.consistent.warnings_of_isDone hdone

/-- A file that the device refuses is reported, with a warning and not in the archive. -/
theorem extract_books_refused :
    let x := extract ⟨.ok [fooLayer]⟩ [⟨"/usr/bin/foo", "."⟩] (fun _ => false)
      (.ok (.rejecting [104, 101, 108, 108, 111] "no space")) "out"
    ∃ e, x.outcome = .ok e ∧ e.warnings = [⟨"usr/bin/foo", 0, "no space"⟩] ∧
      ((x.attempts.filter Attempt.isWritten).map fun a => a.path).count "usr/bin/foo" +
        (e.warnings.map Warning.path).count "usr/bin/foo" = 1 := by
  intro x
  have hout : x.outcome = .ok ⟨[⟨"/usr/bin/foo", "."⟩], [⟨"usr/bin/foo", 0, "no space"⟩], 1,
      "out"⟩ := by
    decide +kernel
  have htarget : FileSpec.target ⟨"/usr/bin/foo", "."⟩ = "usr/bin/foo" := by
    decide +kernel
  refine ⟨_, hout, rfl, ?_⟩
  rw [← htarget]
  exact ((extract_books [fooLayer] [⟨"/usr/bin/foo", "."⟩] (fun _ => false)
    (.rejecting [104, 101, 108, 108, 111] "no space") "out").2 _ hout).1 _
      (List.mem_singleton.mpr rfl)

end LayerPick
