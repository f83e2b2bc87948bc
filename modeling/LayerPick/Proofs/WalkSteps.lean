import LayerPick.Proofs.EntryReading
import LayerPick.Proofs.EntryWriting
import LayerPick.Walk
import Mathlib.Data.List.Perm.Subperm

/-!
# Steps of the walk

What the walk does at an entry: it passes it over, or claims its path and asks the archive to take
it. The lemmas here say once what can come of that; the books that the walk keeps are consistent
between entries.
-/
namespace LayerPick

namespace Tar.Entry

/-- The path that an entry is stored under. -/
def place (e : Entry) : String := Path.normalize (Utf8.decodeLossy e.path)

/-- Is the entry one of those that are looked for? -/
def isWanted (targets : List String) (e : Entry) : Bool :=
  e.header.kind ≠ .folder ∧ e.size ≠ 0 ∧ e.place ≠ "" ∧ Path.escapes e.place = false ∧
    e.place ∈ targets

end Tar.Entry

open Tar

@[simp] lemma Tar.Entry.isWanted_iff {targets : List String} {e : Entry} :
    e.isWanted targets = true ↔ e.header.kind ≠ .folder ∧ e.size ≠ 0 ∧ e.place ≠ "" ∧
      Path.escapes e.place = false ∧ e.place ∈ targets := by
  simp only [Entry.isWanted, decide_eq_true_eq]

lemma match?_some {o : Order} {r : Resolved} {e : Entry} {p : String} :
    o.match? r e = some p ↔ e.isWanted o.targets = true ∧ e.place ∉ r.paths ∧ p = e.place := by
  have hr : r.contains e.place = true ↔ e.place ∈ r.paths := by simp [Resolved.contains]
  rw [Entry.isWanted_iff, ← hr]
  change (if _ then none else if e.place = "" ∨ Path.escapes e.place ∨ r.contains e.place ∨
    e.place ∉ o.targets then none else some e.place) = some p ↔ _
  split_ifs with h₁ h₂
  · simp only [false_iff]
    rintro ⟨⟨hk, hs, -⟩, -⟩
    exact h₁.elim hk hs
  · simp only [false_iff]
    rintro ⟨⟨-, -, hp, he, ht⟩, hc, -⟩
    rw [he] at h₂
    exact h₂.elim hp (Or.rec (by decide) (Or.rec hc fun h => h ht))
  · simp only [not_or, Bool.not_eq_true, not_not] at h₁ h₂
    simp only [Option.some.injEq, h₁, h₂, ne_eq, not_false_eq_true, Bool.false_eq_true, true_and]
    exact eq_comm

lemma match?_none {o : Order} {r : Resolved} {e : Entry} :
    o.match? r e = none ↔ e.isWanted o.targets = false ∨ e.place ∈ r.paths := by
  rw [Option.eq_none_iff_forall_ne_some]
  simp only [ne_eq, match?_some, not_and]
  constructor
  · intro h
    by_cases hw : e.isWanted o.targets = true
    · exact .inr (not_not.mp fun hp => h e.place hw hp rfl)
    · exact .inl (Bool.not_eq_true _ ▸ hw)
  · rintro (h | h) p hw hp
    · exact absurd (h.symm.trans hw) (by decide)
    · exact absurd h hp

/-- The walk after the archive has been asked to take an entry. -/
def WalkState.asked (s : WalkState) (path : String) (a : Archive) : WalkState :=
  { s.claim path with archive := a }

lemma settle_ok {i n : ℕ} {p : String} {s s' : WalkState} {c c' : Content} {r : Copied} :
    settle i p n s c r = (s', .ok c') ↔ c' = c ∧
      (r = .complete n ∧ s' = s.countFile.say .debug ("Extracted " ++ p ++ " (" ++ toString n ++
          " bytes) from layer " ++ toString i) ∨
        ∃ m, r = .refused m ∧ s' = (s.warn ⟨p, i, m⟩).say .warn
          ("Skipping " ++ p ++ " from layer " ++ toString i ++ ": " ++ m)) := by
  cases r with
  | complete k =>
    simp only [settle]
    split_ifs with h
    · simp [h]
    · obtain rfl : k = n := not_not.mp h
      simp only [Prod.mk.injEq, Except.ok.injEq, true_and, false_and, exists_false, or_false]
      exact ⟨fun h => ⟨h.2.symm, h.1.symm⟩, fun h => ⟨h.2.symm, h.1.symm⟩⟩
  | refused m =>
    simp only [settle, Prod.mk.injEq, Except.ok.injEq, reduceCtorEq, false_and, false_or,
      Copied.refused.injEq, exists_eq_left']
    exact ⟨fun h => ⟨h.2.symm, h.1.symm⟩, fun h => ⟨h.2.symm, h.1.symm⟩⟩
  | unreadable m => simp [settle]

lemma settle_error {i n : ℕ} {p : String} {s s' : WalkState} {c : Content} {r : Copied}
    {f : Failure} :
    settle i p n s c r = (s', .error f) ↔ s' = s ∧
      ((∃ m, r = .unreadable m ∧ f = ⟨[.readLayerEntry i], .entryUnreadable p m⟩) ∨
        ∃ k, r = .complete k ∧ k ≠ n ∧ f = ⟨[.readLayerEntry i], .entryTruncated p n k⟩) := by
  cases r with
  | complete k =>
    simp only [settle]
    split_ifs with h
    · simp only [Prod.mk.injEq, Except.error.injEq, false_and, exists_false,
        Copied.complete.injEq, false_or, exists_eq_left', ne_eq, h, not_false_eq_true, true_and]
      exact ⟨fun h => ⟨h.1.symm, h.2.symm⟩, fun h => ⟨h.1.symm, h.2.symm⟩⟩
    · simp [not_not.mp h]
  | refused m => simp [settle]
  | unreadable m =>
    simp only [settle, Prod.mk.injEq, Except.error.injEq, Copied.unreadable.injEq,
      exists_eq_left', reduceCtorEq, false_and, exists_false, or_false]
    exact ⟨fun h => ⟨h.1.symm, h.2.symm⟩, fun h => ⟨h.1.symm, h.2.symm⟩⟩

lemma append_eq {a a' : Archive} {h : Header} {p : String} {records : List Pax.Record}
    {c c' : Content} {r : Copied} :
    a.append h p records c = (a', c', r) ↔
      ∃ d, writeEntry a.device h p records c = (d, c', r) ∧
        a' = ⟨d, a.label, ⟨⟨h, p, records, c⟩, r⟩ :: a.history⟩ := by
  simp only [Archive.append]
  rcases writeEntry a.device h p records c with ⟨d, c₁, r₁⟩
  simp only [Prod.mk.injEq]
  constructor
  · rintro ⟨rfl, rfl, rfl⟩
    exact ⟨d, ⟨rfl, rfl, rfl⟩, rfl⟩
  · rintro ⟨_, ⟨rfl, rfl, rfl⟩, rfl⟩
    exact ⟨rfl, rfl, rfl⟩

lemma take_eq {i : ℕ} {p : String} {e : Entry} {s : WalkState} {c c₁ c' : Content} {a : Archive}
    {records : List Pax.Record} {r : Copied} (hr : e.carriedRecords c = .ok (records, c₁))
    (ha : s.archive.append e.header p records c₁ = (a, c', r)) :
    take i p e s c = settle i p e.size (s.asked p a) c' r := by
  simp only [take, hr]
  rw [show (s.claim p).archive.append e.header p records c₁ = (a, c', r) from ha]
  rfl

/-- An entry that the walk has got past was written whole, or refused with a warning. -/
lemma take_ok {i : ℕ} {p : String} {e : Entry} {s s' : WalkState} {c c' : Content}
    (h : take i p e s c = (s', .ok c')) :
    ∃ records c₁ a r, e.carriedRecords c = .ok (records, c₁) ∧
      s.archive.append e.header p records c₁ = (a, c', r) ∧
      (r = .complete e.size ∧ s' = (s.asked p a).countFile.say .debug ("Extracted " ++ p ++
          " (" ++ toString e.size ++ " bytes) from layer " ++ toString i) ∨
        ∃ m, r = .refused m ∧ s' = ((s.asked p a).warn ⟨p, i, m⟩).say .warn
          ("Skipping " ++ p ++ " from layer " ++ toString i ++ ": " ++ m)) := by
  rcases hr : e.carriedRecords c with err | ⟨records, c₁⟩
  · simp [take, hr] at h
  rcases ha : s.archive.append e.header p records c₁ with ⟨a, c₂, r⟩
  rw [take_eq hr ha] at h
  obtain ⟨rfl, hset⟩ := settle_ok.mp h
  exact ⟨records, c₁, a, r, rfl, ha, hset⟩

/-- An entry that the walk fails at has records or content that cannot be read. -/
lemma take_error {i : ℕ} {p : String} {e : Entry} {s s' : WalkState} {c : Content} {f : Failure}
    (h : take i p e s c = (s', .error f)) :
    (∃ err, e.carriedRecords c = .error err ∧ s' = s.claim p ∧
        f = ⟨[.readLayerEntry i], .tar err⟩) ∨
      ∃ records c₁ a c' r, e.carriedRecords c = .ok (records, c₁) ∧
        s.archive.append e.header p records c₁ = (a, c', r) ∧ s' = s.asked p a ∧
        ((∃ m, r = .unreadable m ∧ f = ⟨[.readLayerEntry i], .entryUnreadable p m⟩) ∨
          ∃ k, r = .complete k ∧ k ≠ e.size ∧
            f = ⟨[.readLayerEntry i], .entryTruncated p e.size k⟩) := by
  rcases hr : e.carriedRecords c with err | ⟨records, c₁⟩
  · simp only [take, hr] at h
    obtain ⟨rfl, hf⟩ := Prod.mk.inj h
    exact .inl ⟨err, rfl, rfl, (Except.error.inj hf).symm⟩
  rcases ha : s.archive.append e.header p records c₁ with ⟨a, c₂, r⟩
  rw [take_eq hr ha] at h
  obtain ⟨rfl, hf⟩ := settle_error.mp h
  exact .inr ⟨records, c₁, a, c₂, r, rfl, ha, rfl, hf⟩

/-- An entry whose records can be read is asked for, whatever comes of it. -/
lemma take_archive {i : ℕ} {p : String} {e : Entry} {s s' : WalkState} {c c₁ : Content}
    {rs : List Pax.Record} {z : Except Failure Content}
    (hr : e.carriedRecords c = .ok (rs, c₁)) (ht : take i p e s c = (s', z)) :
    s'.archive = (s.archive.append e.header p rs c₁).1 := by
  rcases ha : s.archive.append e.header p rs c₁ with ⟨a, c', r⟩
  rw [take_eq hr ha] at ht
  rcases z with f | c₂
  · rw [(settle_error.mp ht).1]
    rfl
  · obtain ⟨-, ⟨-, rfl⟩ | ⟨m, -, rfl⟩⟩ := settle_ok.mp ht <;> rfl

lemma take_attempts {i : ℕ} {p : String} {e : Entry} {s s' : WalkState} {c c₁ : Content}
    {rs : List Pax.Record} {z : Except Failure Content}
    (hr : e.carriedRecords c = .ok (rs, c₁)) (ht : take i p e s c = (s', z)) :
    ∃ r, s'.archive.attempts = s.archive.attempts ++ [⟨⟨e.header, p, rs, c₁⟩, r⟩] :=
  ⟨_, by rw [take_archive hr ht, Archive.attempts_append]⟩

lemma take_attempts_kept {i : ℕ} {p : String} {e : Entry} {s s' : WalkState} {c : Content}
    {z : Except Failure Content} (ht : take i p e s c = (s', z)) :
    s.archive.attempts <+: s'.archive.attempts := by
  rcases hr : e.carriedRecords c with err | ⟨rs, c₁⟩
  · simp only [take, hr] at ht
    rw [← (Prod.mk.inj ht).1]
    exact List.prefix_refl _
  · obtain ⟨r, hattempts⟩ := take_attempts hr ht
    exact ⟨_, hattempts.symm⟩

lemma carriedRecords_content {e : Entry} {c c' : Content} {records : List Pax.Record}
    (h : e.carriedRecords c = .ok (records, c')) : c' = c ∨ ∃ b, c.drain = .ok (b, c') := by
  simp only [Entry.carriedRecords] at h
  split at h
  · obtain ⟨rs, -, h⟩ := bind_ok.mp h
    simp only [pure_eq, Except.ok.injEq, Prod.mk.injEq] at h
    exact .inl h.2.symm
  · split_ifs at h
    · obtain ⟨⟨b, c₁⟩, hd, h⟩ := bind_ok.mp h
      obtain ⟨rs, -, h⟩ := bind_ok.mp h
      simp only [pure_eq, Except.ok.injEq, Prod.mk.injEq] at h
      exact .inr ⟨b, h.2 ▸ mapError_ok.mp hd⟩
    · simp only [Except.ok.injEq, Prod.mk.injEq] at h
      exact .inl h.2.symm

lemma carriedRecords_leaves {e : Entry} {c c' : Content} {records : List Pax.Record}
    (hc : c.IsBounded) (h : e.carriedRecords c = .ok (records, c')) :
    c.Leaves c' ∧ ∃ b, c.drain = Content.after b c'.drain := by
  rcases carriedRecords_content h with rfl | ⟨b, hd⟩
  · exact ⟨hc.leaves, [], by simp⟩
  · obtain ⟨hl, hend⟩ := Content.drain_leaves hc hd
    exact ⟨hl, b, by rw [hend, hd]; simp⟩

/-- What the walk leaves of the content of an entry ends where it ended. -/
lemma take_leaves {i : ℕ} {p : String} {e : Entry} {s s' : WalkState} {c c' : Content}
    (hc : c.IsBounded) (h : take i p e s c = (s', .ok c')) :
    c.Leaves c' ∧ ∃ b, c.drain = Content.after b c'.drain := by
  obtain ⟨records, c₁, a, r, hr, ha, h⟩ := take_ok h
  obtain ⟨d, hw, -⟩ := append_eq.mp ha
  obtain ⟨hl₁, b₁, hd₁⟩ := carriedRecords_leaves hc hr
  refine ⟨hl₁.trans (writeEntry_leaves hl₁.bounded hw), ?_⟩
  have hex := explains_writeEntry hl₁.bounded hw
  rcases h with ⟨rfl, -⟩ | ⟨m, rfl, -⟩
  · obtain ⟨b₂, hd₂, -⟩ := hex
    refine ⟨b₁ ++ b₂, ?_⟩
    rw [hd₁, hd₂, (Content.drain_leaves hl₁.bounded hd₂).2]
    simp
  · obtain ⟨b₂, hd₂⟩ := hex
    exact ⟨b₁ ++ b₂, by rw [hd₁, hd₂, Content.after_after]⟩

/-- The books of the walk between entries: each claimed path was asked for and has been attempted,
in this order, and has come out as a file that was written or as a warning. -/
structure WalkState.Consistent (o : Order) (s : WalkState) : Prop where
  attempted : s.archive.attempts.map (fun a => a.path) = s.resolved.paths.reverse
  wanted : ∀ p ∈ s.resolved.paths, p ∈ o.targets
  found : s.found = s.archive.entries
  counted : s.found + s.warnings.length = s.resolved.paths.length

lemma consistent_start (o : Order) (layers : List Layer) (d : Device) (label : String) :
    (WalkState.start o layers d label).Consistent o :=
  ⟨rfl, by simp [WalkState.start, Resolved.empty], rfl, rfl⟩

lemma insert_paths {r : Resolved} {p : String} (h : p ∉ r.paths) :
    (r.insert p).paths = p :: r.paths := by
  simp [Resolved.insert, h]

lemma take_consistent {o : Order} {i : ℕ} {p : String} {e : Entry} {s s' : WalkState}
    {c c' : Content} (hs : s.Consistent o) (hm : o.match? s.resolved e = some p)
    (h : take i p e s c = (s', .ok c')) : s'.Consistent o := by
  obtain ⟨hw, hp, rfl⟩ := match?_some.mp hm
  obtain ⟨records, c₁, a, r, -, ha, h⟩ := take_ok h
  obtain ⟨d, -, rfl⟩ := append_eq.mp ha
  have hpaths := insert_paths hp
  have hatt := hs.attempted
  have hfound := hs.found
  have hcount := hs.counted
  have hwanted : ∀ q ∈ (s.resolved.insert e.place).paths, q ∈ o.targets := by
    intro q hq
    rcases Resolved.mem_insert.mp hq with rfl | hq
    · exact (Entry.isWanted_iff.mp hw).2.2.2.2
    · exact hs.wanted q hq
  rcases h with ⟨rfl, rfl⟩ | ⟨m, rfl, rfl⟩
  · refine ⟨?_, hwanted, ?_, ?_⟩
    · simp only [WalkState.say, WalkState.countFile, WalkState.asked, WalkState.claim, hpaths,
        Archive.attempts, List.reverse_cons, List.map_append, List.map_cons, List.map_nil]
      rw [← hatt]
      rfl
    · simp only [WalkState.say, WalkState.countFile, WalkState.asked, WalkState.claim,
        Archive.entries, List.countP_cons, Attempt.isWritten, if_true, hfound]
    · simp only [WalkState.say, WalkState.countFile, WalkState.asked, WalkState.claim, hpaths,
        List.length_cons]
      omega
  · refine ⟨?_, hwanted, ?_, ?_⟩
    · simp only [WalkState.say, WalkState.warn, WalkState.asked, WalkState.claim, hpaths,
        Archive.attempts, List.reverse_cons, List.map_append, List.map_cons, List.map_nil]
      rw [← hatt]
      rfl
    · simp only [WalkState.say, WalkState.warn, WalkState.asked, WalkState.claim,
        Archive.entries, List.countP_cons, Attempt.isWritten, hfound]
      rfl
    · simp only [WalkState.say, WalkState.warn, WalkState.asked, WalkState.claim, hpaths,
        List.length_cons, List.length_append, List.length_nil]
      omega

/-- When the walk is done, all paths that were asked for have been claimed. -/
lemma WalkState.Consistent.mem_of_isDone {o : Order} {s : WalkState} (hs : s.Consistent o)
    (h : o.isDone s = true) {t : String} (ht : t ∈ o.targets) : t ∈ s.resolved.paths := by
  have hfound : s.found = o.targets.length := by simpa [Order.isDone] using h
  have hcount := hs.counted
  have hsub : List.Subperm s.resolved.paths o.targets := s.resolved.nodup.subperm hs.wanted
  exact (hsub.perm_of_length_le (by omega)).mem_iff.mpr ht

lemma walkEntries_consistent {o : Order} {i n : ℕ} {s s' : WalkState} {r : Reader}
    (hs : s.Consistent o) (h : walkEntries o i n s r = (s', none)) : s'.Consistent o := by
  induction n generalizing s r with
  | zero =>
    obtain ⟨rfl, -⟩ := Prod.mk.inj h
    exact hs
  | succ n ih =>
    simp only [walkEntries] at h
    rcases hx : r.next? with err | _ | ⟨e, r'⟩ <;> simp only [hx] at h
    · simp at h
    · obtain ⟨rfl, -⟩ := Prod.mk.inj h
      exact hs
    rcases hm : o.match? s.resolved e with _ | p <;> simp only [hm] at h
    · exact ih hs h
    rcases ht : take i p e s r'.content with ⟨s₁, f | c⟩ <;> simp only [ht] at h
    · simp at h
    have hs₁ := take_consistent hs hm ht
    split_ifs at h
    · obtain ⟨rfl, -⟩ := Prod.mk.inj h
      exact hs₁
    · exact ih hs₁ h

lemma walkLayer_consistent {o : Order} {i : ℕ} {l : Layer} {s s' : WalkState}
    (hs : s.Consistent o) (h : walkLayer o i l s = (s', none)) : s'.Consistent o := by
  simp only [walkLayer] at h
  rcases ho : l.openLayer with f | src <;> simp only [ho] at h
  · simp at h
  · exact walkEntries_consistent (by exact ⟨hs.attempted, hs.wanted, hs.found, hs.counted⟩) h

lemma walkLayers_consistent {o : Order} {total : ℕ} {ls : List (Layer × ℕ)} {s s' : WalkState}
    (hs : s.Consistent o) (h : walkLayers o total ls s = (s', none)) : s'.Consistent o := by
  induction ls generalizing s with
  | nil =>
    obtain ⟨rfl, -⟩ := Prod.mk.inj h
    exact hs
  | cons x ls ih =>
    obtain ⟨l, i⟩ := x
    simp only [walkLayers] at h
    split_ifs at h
    · obtain ⟨rfl, -⟩ := Prod.mk.inj h
      exact ⟨hs.attempted, hs.wanted, hs.found, hs.counted⟩
    · simp at h
    · rcases hw : walkLayer o i l s with ⟨s₁, _ | f⟩ <;> rw [hw] at h <;> simp only at h
      · have hs₁ := walkLayer_consistent hs hw
        exact ih (by exact ⟨hs₁.attempted, hs₁.wanted, hs₁.found, hs₁.counted⟩) h
      · simp at h

lemma nodup_eraseDups (l : List String) : l.eraseDups.Nodup := by
  induction h : l.length using Nat.strongRecOn generalizing l with
  | ind n ih =>
    cases l with
    | nil => simp
    | cons a l =>
      rw [List.eraseDups_cons, List.nodup_cons]
      refine ⟨by simp, ih _ ?_ _ rfl⟩
      have hle := List.length_filter_le (fun b => !b == a) l
      rw [List.length_cons] at h
      omega

/-- When all paths that were asked for have been written, the walk is done. -/
lemma WalkState.Consistent.isDone_of_written {o : Order} {s : WalkState} (hs : s.Consistent o)
    (ho : o.targets.Nodup)
    (h : ∀ t ∈ o.targets, ∃ a ∈ s.archive.attempts, a.path = t ∧ a.isWritten = true) :
    o.isDone s = true := by
  have hcount := hs.counted
  have hsub : List.Subperm s.resolved.paths o.targets := s.resolved.nodup.subperm hs.wanted
  have hle := hsub.length_le
  have hmem : o.targets ⊆ (s.archive.history.filter Attempt.isWritten).map fun a => a.path := by
    intro t ht
    obtain ⟨a, ha, rfl, hw⟩ := h t ht
    exact List.mem_map_of_mem (List.mem_filter.mpr ⟨List.mem_reverse.mp ha, hw⟩)
  have hge := (ho.subperm hmem).length_le
  rw [List.length_map, ← List.countP_eq_length_filter] at hge
  have hfound : s.found = s.archive.history.countP Attempt.isWritten := hs.found
  simp only [Order.isDone, beq_iff_eq]
  omega

lemma WalkState.Consistent.warnings_of_isDone {o : Order} {s : WalkState} (hs : s.Consistent o)
    (h : o.isDone s = true) : s.warnings = [] := by
  have hfound : s.found = o.targets.length := by simpa [Order.isDone] using h
  have hcount := hs.counted
  have hsub : List.Subperm s.resolved.paths o.targets := s.resolved.nodup.subperm hs.wanted
  have hle := hsub.length_le
  exact List.eq_nil_of_length_eq_zero (by omega)

structure WalkState.Frames (s s' : WalkState) : Prop where
  opened : s'.opened = s.opened
  visited : s'.visited = s.visited
  label : s'.archive.label = s.archive.label

lemma WalkState.Frames.trans {s₁ s₂ s₃ : WalkState} (h : s₁.Frames s₂) (h' : s₂.Frames s₃) :
    s₁.Frames s₃ :=
  ⟨h'.opened.trans h.opened, h'.visited.trans h.visited, h'.label.trans h.label⟩

lemma take_frames {i : ℕ} {p : String} {e : Entry} {s s' : WalkState} {c : Content}
    {x : Except Failure Content} (h : take i p e s c = (s', x)) : s.Frames s' := by
  rcases x with f | c'
  · rcases take_error h with ⟨err, -, rfl, -⟩ | ⟨records, c₁, a, c', r, -, ha, rfl, -⟩
    · exact ⟨rfl, rfl, rfl⟩
    · obtain ⟨d, -, rfl⟩ := append_eq.mp ha
      exact ⟨rfl, rfl, rfl⟩
  · obtain ⟨records, c₁, a, r, -, ha, h⟩ := take_ok h
    obtain ⟨d, -, rfl⟩ := append_eq.mp ha
    rcases h with ⟨-, rfl⟩ | ⟨m, -, rfl⟩ <;> exact ⟨rfl, rfl, rfl⟩

lemma walkEntries_frames (o : Order) (i n : ℕ) (s : WalkState) (r : Reader) :
    s.Frames (walkEntries o i n s r).1 := by
  induction n generalizing s r with
  | zero => exact ⟨rfl, rfl, rfl⟩
  | succ n ih =>
    simp only [walkEntries]
    rcases r.next? with err | _ | ⟨e, r'⟩ <;> simp only
    · exact ⟨rfl, rfl, rfl⟩
    · exact ⟨rfl, rfl, rfl⟩
    rcases o.match? s.resolved e with _ | p <;> simp only
    · exact ih s r'
    rcases ht : take i p e s r'.content with ⟨s₁, f | c⟩ <;> simp only
    · exact take_frames ht
    · split_ifs
      · exact take_frames ht
      · exact (take_frames ht).trans (ih s₁ _)

lemma walkLayer_frame (o : Order) (i : ℕ) (l : Layer) (s : WalkState) :
    (walkLayer o i l s).1.opened = s.opened ++ [i] ∧ (walkLayer o i l s).1.visited = s.visited ∧
      (walkLayer o i l s).1.archive.label = s.archive.label := by
  simp only [walkLayer]
  rcases l.openLayer with f | src
  · exact ⟨rfl, rfl, rfl⟩
  · have h := walkEntries_frames o i ((Reader.ofSource src).mostEntries + 1)
      { s.say .debug ("Scanning layer " ++ toString i ++ " (" ++ l.description ++ ")") with
        opened := s.opened ++ [i] } (Reader.ofSource src)
    exact ⟨h.opened, h.visited, h.label⟩

lemma walkLayers_label (o : Order) (total : ℕ) (ls : List (Layer × ℕ)) (s : WalkState) :
    (walkLayers o total ls s).1.archive.label = s.archive.label := by
  induction ls generalizing s with
  | nil => rfl
  | cons x ls ih =>
    obtain ⟨l, i⟩ := x
    have hframe := (walkLayer_frame o i l s).2.2
    simp only [walkLayers]
    split_ifs
    · rfl
    · rfl
    · rcases hw : walkLayer o i l s with ⟨s₁, _ | f⟩ <;> rw [hw] at hframe
      · exact (ih _).trans hframe
      · exact hframe

lemma conclude_frame (files : List FileSpec) (layers : List Layer) (label : String)
    (s : WalkState) (failure : Option Failure) :
    (conclude files layers label s failure).opened = s.opened ∧
      (conclude files layers label s failure).attempts = s.archive.attempts ∧
      (conclude files layers label s failure).device = some s.archive.finish.1 := by
  rcases hf : s.archive.finish with ⟨d, _ | g⟩ <;> rcases failure with _ | f <;>
    simp only [conclude, hf, WalkState.say, and_self]

/-- A failure of the walk is the outcome, whatever comes of the end of the archive. -/
lemma conclude_failure (files : List FileSpec) (layers : List Layer) (label : String)
    (s : WalkState) (f : Failure) :
    (conclude files layers label s (some f)).outcome = .error f := rfl

lemma conclude_success (files : List FileSpec) (layers : List Layer) (label : String)
    (s : WalkState) :
    (conclude files layers label s none).outcome =
      match (s.archive.device.write trailer).2 with
      | none => .ok ⟨s.resolved.found files, s.warnings, s.visited, label⟩
      | some m => .error ⟨[.finishArchive, .writeTrailer s.archive.label], .stream m⟩ := by
  simp only [conclude, Archive.finish]
  rcases s.archive.device.write trailer with ⟨d, _ | m⟩ <;> rfl

lemma conclude_ok {files : List FileSpec} {layers : List Layer} {label : String} {s : WalkState}
    {failure : Option Failure} {e : Extraction}
    (h : (conclude files layers label s failure).outcome = .ok e) :
    failure = none ∧ e = ⟨s.resolved.found files, s.warnings, s.visited, label⟩ := by
  rcases failure with _ | f
  · rw [conclude_success] at h
    split at h
    · exact ⟨rfl, (Except.ok.inj h).symm⟩
    · simp at h
  · simp [conclude_failure] at h

lemma extract_eq (layers : List Layer) (files : List FileSpec) (cancelled : ℕ → Bool) (d : Device)
    (label : String) :
    extract ⟨.ok layers⟩ files cancelled (.ok d) label =
      conclude files layers label
        (walk (.ofFiles files cancelled) layers
          (.start (.ofFiles files cancelled) layers d label)).1
        (walk (.ofFiles files cancelled) layers
          (.start (.ofFiles files cancelled) layers d label)).2 := rfl

end LayerPick
