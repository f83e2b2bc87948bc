import LayerPick.Proofs.Bookkeeping
import LayerPick.Proofs.EarlyStop
import LayerPick.Proofs.Overlay
import LayerPick.Proofs.ShortContent

/-!
# What is fatal and what is a warning

An entry that is taken can go wrong on either side, and both at once: its content cannot be read or
falls short, or the device refuses it. Content that falls short is always fatal. If the device
refuses the entry first, there is a warning, so the walk is not done and goes on to the next header,
which it does not find.

The other way round, a walk over layers that are whole does not fail, whatever the device refuses:
each refusal becomes a warning, which names the topmost layer that holds the path.
-/
namespace LayerPick

open Tar

/-- The archive can be gone through, entry by entry, up to its end. -/
inductive Tar.Reader.IsWhole : Reader → Prop
  | ended {r : Reader} : r.next? = .ok none → IsWhole r
  | next {r r' : Reader} {e : Entry} : r.next? = .ok (some (e, r')) → IsWhole r' → IsWhole r

/-- Can the archive be gone through, in so many steps? -/
def Tar.Reader.isWholeWithin : ℕ → Reader → Bool
  | 0, _ => false
  | n + 1, r =>
    match r.next? with
    | .error _ => false
    | .ok none => true
    | .ok (some (_, r')) => isWholeWithin n r'

lemma Tar.Reader.isWhole_of_within {n : ℕ} {r : Reader} (h : r.isWholeWithin n = true) :
    r.IsWhole := by
  induction n generalizing r with
  | zero => simp [isWholeWithin] at h
  | succ n ih =>
    rw [isWholeWithin] at h
    rcases hx : r.next? with err | _ | ⟨e, r'⟩ <;> rw [hx] at h
    · simp at h
    · exact .ended hx
    · exact .next hx (ih h)

/-- The layer opens, and its archive can be gone through. -/
def Layer.IsWhole (l : Layer) : Prop :=
  ∃ src, l.openLayer = .ok src ∧ (Reader.ofSource src).IsWhole

/-- The topmost layer with an entry that is looked for and has this path. -/
def topmost? (layers : List Layer) (targets : List String) (path : String) : Option ℕ :=
  (layers.zipIdx.reverse.find? fun x =>
    x.1.entries.any fun y => y.1.isWanted targets && y.1.place == path).map Prod.snd

/-- The walk comes upon an entry, with this content, that it is to write. -/
def Meets (o : Order) (layers : List Layer) (d : Device) (label : String) (i : ℕ) (e : Entry)
    (c : Content) : Prop :=
  ∃ r r' below s p, Reached o layers d label (.among i r below, s) ∧ o.isDone s = false ∧
    r.next? = .ok (some (e, r')) ∧ o.match? s.resolved e = some p ∧ c = r'.content

variable {o : Order} {layers : List Layer} {d : Device} {label : String}

lemma take_fallsShort {i : ℕ} {p : String} {e : Entry} {s s' : WalkState} {c c' : Content}
    (hc : c.IsBounded) (hsize : e.size ≠ 0) (hshort : c.FallsShort e.size)
    (h : take i p e s c = (s', .ok c')) : s'.warnings ≠ [] := by
  obtain ⟨records, c₁, a, r, hr, ha, h⟩ := take_ok h
  rcases h with ⟨rfl, rfl⟩ | ⟨m, rfl, rfl⟩
  · obtain ⟨d, hw, -⟩ := append_eq.mp ha
    have hl := (carriedRecords_leaves hc hr).1
    obtain ⟨b, hd, hb⟩ := explains_writeEntry hl.bounded hw
    exfalso
    rcases carriedRecords_content hr with rfl | ⟨b₁, hd₁⟩
    · have := hshort b c' hd
      omega
    · rw [(Content.drain_leaves hc hd₁).2, Except.ok.injEq, Prod.mk.injEq] at hd
      obtain ⟨rfl, -⟩ := hd
      exact hsize (by simpa using hb)
  · exact List.append_ne_nil_of_right_ne_nil _ (List.cons_ne_nil _ _)

lemma take_stages {i : ℕ} {p : String} {e : Entry} {s s' : WalkState} {c : Content} {f : Failure}
    (h : take i p e s c = (s', .error f)) : f.stages = [.readLayerEntry i] := by
  rcases take_error h with ⟨err, -, -, rfl⟩ | ⟨_, _, _, _, _, -, -, -, ⟨m, -, rfl⟩ | ⟨k, -, -, rfl⟩⟩
  · rfl
  · rfl
  · rfl

/-- The walk fails at content that falls short, or at the header behind it. -/
lemma Meets.fatal {i : ℕ} {e : Entry} {c : Content} (h : Meets o layers d label i e c)
    (hshort : c.FallsShort e.size) :
    ∃ f, (walk o layers (.start o layers d label)).2 = some f ∧ f.stages = [.readLayerEntry i] := by
  obtain ⟨r, r', below, s, p, hreached, hdone, hnext, hmatch, rfl⟩ := h
  have hproper : r.Proper := hreached.proper
  have ha := Reader.next?_advances hproper hnext
  rcases ht : take i p e s r'.content with ⟨s', f | c⟩
  · have hw := walk_eq_iff.mpr ⟨_, hreached, .broken hdone hnext hmatch ht⟩
    exact ⟨f, by rw [hw], take_stages ht⟩
  · have hmove : Moves o layers.length _ (.among i { r' with content := c } below, s') :=
      .take hdone hnext hmatch ht
    have hreached' : Reached o layers d label (.among i { r' with content := c } below, s') :=
      hreached.tail hmove
    have hsize : e.size ≠ 0 := (Entry.isWanted_iff.mp (match?_some.mp hmatch).1).2.1
    have hwarned := take_fallsShort ha.proper.bounded hsize hshort ht
    have hdone' : o.isDone s' = false := by
      by_contra hd
      exact hwarned (hreached'.consistent.warnings_of_isDone (Bool.not_eq_false _ ▸ hd))
    obtain ⟨hl, b, hdrain⟩ := take_leaves ha.proper.bounded ht
    rw [← Reader.next?_span hnext] at hshort
    obtain ⟨err, herr⟩ := Reader.next?_fallsShort ha.proper hshort hl hdrain
    have hw := walk_eq_iff.mpr ⟨_, hreached', .undecodable hdone' herr⟩
    exact ⟨_, by rw [hw], rfl⟩

lemma Tar.Reader.IsWhole.next_ok {r : Reader} (h : r.IsWhole) : ∃ x, r.next? = .ok x := by
  cases h with
  | ended hx => exact ⟨_, hx⟩
  | next hx _ => exact ⟨_, hx⟩

lemma Tar.Reader.IsWhole.rest {r r' : Reader} {e : Entry} (h : r.IsWhole)
    (hx : r.next? = .ok (some (e, r'))) : r'.IsWhole := by
  cases h with
  | ended hn =>
    rw [hn] at hx
    simp at hx
  | next hn hw =>
    rw [hn] at hx
    obtain ⟨-, rfl⟩ := Prod.mk.inj (Option.some.inj (Except.ok.inj hx))
    exact hw

lemma Tar.Reader.IsWhole.congr {r r' : Reader} (h : r.IsWhole) (hx : r.next? = r'.next?) :
    r'.IsWhole := by
  cases h with
  | ended hn => exact .ended (hx ▸ hn)
  | next hn hw => exact .next (hx ▸ hn) hw

/-- Taking an entry of a whole archive does not change what follows. -/
lemma take_isWhole {i : ℕ} {p : String} {e : Entry} {s s' : WalkState} {r : Reader} {c : Content}
    (hr : r.Proper) (hw : r.IsWhole) (ht : take i p e s r.content = (s', .ok c)) :
    Reader.IsWhole { r with content := c } := by
  obtain ⟨x, hx⟩ := hw.next_ok
  obtain ⟨c₀, hskip⟩ := Reader.skip_of_next? hx
  obtain ⟨records, c₁, a, copied, hrecords, ha, -⟩ := take_ok ht
  obtain ⟨d, hwrite, -⟩ := append_eq.mp ha
  have hl := (carriedRecords_leaves hr.bounded hrecords).1
  have hfile := hr.isStream
  obtain ⟨content, next, isFile⟩ := r
  obtain rfl : isFile = false := hfile
  have hskip₁ : Reader.skip ⟨c₁, next, false⟩ = .ok c₀ := by
    rcases carriedRecords_content hrecords with rfl | ⟨b, hd⟩
    · exact hskip
    · obtain ⟨b', c', hd', hs⟩ := Reader.skip_drain rfl hr.bounded hr.reach hskip
      rw [hd, Except.ok.injEq, Prod.mk.injEq] at hd'
      obtain ⟨-, rfl⟩ := hd'
      exact hs
  have hskip₂ := Reader.skip_writeEntry hl.bounded (hl.reach.trans hr.reach) hwrite hskip₁
  exact hw.congr (Reader.next?_congr (hskip.trans hskip₂.symm) rfl rfl)

lemma carriedRecords_regular {e : Entry} {c c' : Content} {rs : List Pax.Record}
    (hkind : e.header.kind = .regular) (h : e.carriedRecords c = .ok (rs, c')) : c' = c := by
  simp only [Entry.carriedRecords, hkind, reduceCtorEq, or_self, if_false] at h
  cases hp : e.pax with
  | none =>
    rw [hp] at h
    exact (Prod.mk.inj (Except.ok.inj h)).2.symm
  | some data =>
    rw [hp] at h
    obtain ⟨rs', -, h⟩ := bind_ok.mp h
    exact (Prod.mk.inj (Except.ok.inj h)).2.symm

/-- An entry of a whole archive, with records that are well formed, is written or refused. -/
lemma take_of_isWhole {i : ℕ} {p : String} {e : Entry} {s : WalkState} {r r' : Reader}
    {rs : List Pax.Record} (hr : r'.Proper) (hw : r'.IsWhole)
    (hx : r.next? = .ok (some (e, r'))) (hrecords : e.carriedRecords r'.content = .ok (rs, r'.content)) :
    ∃ s' c, take i p e s r'.content = (s', .ok c) := by
  rcases ht : take i p e s r'.content with ⟨s', f | c⟩
  · exfalso
    obtain ⟨y, hy⟩ := hw.next_ok
    obtain ⟨b, c', hd, hb⟩ := Reader.drain_of_next? hr hy
    rcases take_error ht with ⟨err, herr, -⟩ | ⟨rs', c₁, a, c₂, copied, hrs, ha, -, hcopied⟩
    · rw [hrecords] at herr
      simp at herr
    rw [hrecords, Except.ok.injEq, Prod.mk.injEq] at hrs
    obtain ⟨rfl, rfl⟩ := hrs
    obtain ⟨d, hwrite, -⟩ := append_eq.mp ha
    have hex := explains_writeEntry hr.bounded hwrite
    rcases hcopied with ⟨m, rfl, -⟩ | ⟨k, rfl, hk, -⟩
    · obtain ⟨g, hg, -⟩ := hex
      rw [hd] at hg
      simp at hg
    · obtain ⟨b', hd', rfl⟩ := hex
      rw [hd, Except.ok.injEq, Prod.mk.injEq] at hd'
      obtain ⟨rfl, -⟩ := hd'
      rw [Reader.next?_span hx] at hb
      omega
  · exact ⟨s', c, rfl⟩

/-- All that is looked for among these entries is claimed. -/
def WalkState.Claims (s : WalkState) (targets : List String) (es : List (Entry × Content)) : Prop :=
  ∀ y ∈ es, y.1.isWanted targets = true → y.1.place ∈ s.resolved.paths

/-- All that is looked for above the stand is claimed. -/
def Stand.Covered (layers : List Layer) (targets : List String) : Stand → WalkState → Prop
  | .before below, s => ∃ above, layers.zipIdx.reverse = above ++ below ∧
      ∀ x ∈ above, s.Claims targets x.1.entries
  | .among i r below, s => ∃ above l seen, layers.zipIdx.reverse = above ++ (l, i) :: below ∧
      l.entries = seen ++ r.entries ∧ (∀ x ∈ above, s.Claims targets x.1.entries) ∧
      s.Claims targets seen

lemma Tar.Reader.entries_next {r : Reader} (hr : r.Proper) {x : Option (Entry × Reader)}
    (h : r.next? = .ok x) :
    r.entries = match x with
      | none => []
      | some (e, r') => (e, r'.content) :: r'.entries := by
  obtain ⟨b, c, hd, hx⟩ := Reader.next?_drained hr h
  rw [Reader.entries_eq hr, hd]
  simp only [hx]
  rcases x with _ | ⟨e, r'⟩ <;> rfl

lemma take_entries {i : ℕ} {p : String} {e : Entry} {s s' : WalkState} {r : Reader} {c : Content}
    (hr : r.Proper) (ht : take i p e s r.content = (s', .ok c)) :
    Reader.entries { r with content := c } = r.entries := by
  obtain ⟨hl, b, hd⟩ := take_leaves hr.bounded ht
  exact Reader.entries_left hr hl hd

lemma WalkState.Claims.mono {s s' : WalkState} {targets : List String}
    {es : List (Entry × Content)} (h : s.Claims targets es)
    (hs : ∀ p ∈ s.resolved.paths, p ∈ s'.resolved.paths) : s'.Claims targets es :=
  fun y hy hw => hs _ (h y hy hw)

lemma WalkState.Claims.snoc {s : WalkState} {targets : List String} {es : List (Entry × Content)}
    {y : Entry × Content} (h : s.Claims targets es)
    (hy : y.1.isWanted targets = true → y.1.place ∈ s.resolved.paths) :
    s.Claims targets (es ++ [y]) := by
  intro z hz hw
  rcases List.mem_append.mp hz with hz | hz
  · exact h z hz hw
  · obtain rfl := List.mem_singleton.mp hz
    exact hy hw

lemma take_paths {i : ℕ} {p : String} {e : Entry} {s s' : WalkState} {c c' : Content}
    (h : take i p e s c = (s', .ok c')) :
    ∀ q, q ∈ s'.resolved.paths ↔ q = p ∨ q ∈ s.resolved.paths := by
  obtain ⟨records, c₁, a, r, -, -, ⟨-, rfl⟩ | ⟨m, -, rfl⟩⟩ := take_ok h
  · exact fun q => Resolved.mem_insert
  · exact fun q => Resolved.mem_insert

lemma Reached.covered {x : Stand × WalkState} (h : Reached o layers d label x) :
    x.1.Covered layers o.targets x.2 := by
  refine h.invariant (P := fun x => x.1.Covered layers o.targets x.2) ⟨[], rfl, by simp⟩ ?_
  intro x y hreached hm hx
  have hproper := hreached.proper
  cases hm with
  | @enter l i src below s _ _ ho =>
    obtain ⟨above, hall, habove⟩ := hx
    refine ⟨above, l, [], hall, ?_, habove, by simp [WalkState.Claims]⟩
    simp only [Layer.entries, ho, List.nil_append]
  | @pass i e r r' below s _ hn hmatch =>
    obtain ⟨above, l, seen, hall, hl, habove, hseen⟩ := hx
    rw [Reader.entries_next hproper hn] at hl
    refine ⟨above, l, seen ++ [(e, r'.content)], hall, ?_, habove, hseen.snoc fun hw => ?_⟩
    · rw [hl, List.append_assoc, List.singleton_append]
    · rcases match?_none.mp hmatch with hnot | hp
      · exact absurd (hnot.symm.trans hw) (by decide)
      · exact hp
  | @take i e r r' p c below s s' _ hn hmatch ht =>
    obtain ⟨above, l, seen, hall, hl, habove, hseen⟩ := hx
    obtain ⟨-, -, rfl⟩ := match?_some.mp hmatch
    have hpaths := take_paths ht
    have hkept : ∀ q ∈ s.resolved.paths, q ∈ s'.resolved.paths := fun q hq => (hpaths q).mpr (.inr hq)
    rw [Reader.entries_next hproper hn] at hl
    refine ⟨above, l, seen ++ [(e, r'.content)], hall, ?_, fun x hx => (habove x hx).mono hkept,
      (hseen.mono hkept).snoc fun _ => (hpaths _).mpr (.inl rfl)⟩
    rw [hl, List.append_assoc, List.singleton_append,
      take_entries (Reader.next?_advances hproper hn).proper ht]
  | @leave i r below s hleave =>
    obtain ⟨above, l, seen, hall, hl, habove, hseen⟩ := hx
    refine ⟨above ++ [(l, i)], by rw [hall, List.append_assoc, List.singleton_append], ?_⟩
    intro x hx
    rcases List.mem_append.mp hx with hx | hx
    · exact habove x hx
    obtain rfl := List.mem_singleton.mp hx
    rcases hleave with hdone | hn
    · intro y _ hw
      exact hreached.consistent.mem_of_isDone hdone (Entry.isWanted_iff.mp hw).2.2.2.2
    · rw [Reader.entries_next hproper hn, List.append_nil] at hl
      simp only [hl]
      exact hseen

lemma topmost?_of_met {i : ℕ} {e : Entry} {r r' : Reader} {p : String}
    {below : List (Layer × ℕ)} {s : WalkState}
    (h : Reached o layers d label (.among i r below, s)) (hn : r.next? = .ok (some (e, r')))
    (hm : o.match? s.resolved e = some p) : topmost? layers o.targets p = some i := by
  obtain ⟨above, l, seen, hall, hl, habove, -⟩ := h.covered
  obtain ⟨hw, hp, rfl⟩ := match?_some.mp hm
  rw [Reader.entries_next h.proper hn] at hl
  have hnone : above.find? (fun x => x.1.entries.any fun y =>
      y.1.isWanted o.targets && y.1.place == e.place) = none := by
    rw [List.find?_eq_none]
    intro x hx hany
    obtain ⟨y, hy, hyes⟩ := List.any_eq_true.mp hany
    obtain ⟨hyw, hye⟩ := by simpa only [Bool.and_eq_true, beq_iff_eq] using hyes
    exact hp (hye ▸ habove x hx y hy hyw)
  have hsome : (l.entries.any fun y => y.1.isWanted o.targets && y.1.place == e.place) = true := by
    rw [List.any_eq_true]
    exact ⟨(e, r'.content), by simp [hl], by rw [hw]; simp⟩
  rw [topmost?, hall, List.find?_append, hnone, Option.none_or, List.find?_cons_of_pos (by exact hsome),
    Option.map_some]

lemma Meets.mem_entries {i : ℕ} {e : Entry} {c : Content} (h : Meets o layers d label i e c) :
    ∃ l, layers[i]? = some l ∧ (e, c) ∈ l.entries := by
  obtain ⟨r, r', below, s, p, hreached, -, hn, -, rfl⟩ := h
  obtain ⟨above, l, seen, hall, hl, -⟩ := hreached.covered
  have hmem : (l, i) ∈ layers.zipIdx.reverse := by
    rw [hall]
    simp
  rw [Reader.entries_next hreached.proper hn] at hl
  exact ⟨l, List.mem_zipIdx_iff_getElem?.mp (List.mem_reverse.mp hmem), by simp [hl]⟩

/-- A warning names the topmost layer with an entry for its path. -/
lemma Reached.topmost {x : Stand × WalkState} (h : Reached o layers d label x) :
    ∀ w ∈ x.2.warnings, topmost? layers o.targets w.path = some w.layer := by
  refine h.invariant
    (P := fun x => ∀ w ∈ x.2.warnings, topmost? layers o.targets w.path = some w.layer)
    (by simp [WalkState.start]) ?_
  intro x y hreached hm hx
  cases hm with
  | enter _ _ _ => exact hx
  | pass _ _ _ => exact hx
  | leave _ => exact hx
  | @take i e r r' p c below s s' _ hn hmatch ht =>
    obtain ⟨records, c₁, a, copied, -, -, ⟨-, rfl⟩ | ⟨m, -, rfl⟩⟩ := take_ok ht
    · exact hx
    · intro w hw
      rcases List.mem_append.mp hw with hw | hw
      · exact hx w hw
      · obtain rfl := List.mem_singleton.mp hw
        exact topmost?_of_met hreached hn hmatch

lemma resume_opened (o : Order) (total : ℕ) (x : Stand × WalkState) :
    x.2.opened <+: (Stand.resume o total x).1.opened := by
  obtain ⟨below | ⟨i, r, below⟩, s⟩ := x
  · obtain ⟨j, -, hop, -⟩ := walkLayers_opened o total below s
    exact ⟨_, hop.symm⟩
  · have hframes : s.Frames
        (if o.isDone s then (s, none) else walkEntries o i (r.mostEntries + 1) s r).1 := by
      split_ifs
      · exact ⟨rfl, rfl, rfl⟩
      · exact walkEntries_frames ..
    simp only [Stand.resume]
    rcases hz : (if o.isDone s then (s, none) else walkEntries o i (r.mostEntries + 1) s r) with
      ⟨s', _ | f⟩ <;> rw [hz] at hframes <;> simp only
    · obtain ⟨j, -, hop, -⟩ := walkLayers_opened o total below (s'.leaving total)
      rw [show (s'.leaving total).opened = s.opened from hframes.opened] at hop
      exact ⟨_, hop.symm⟩
    · exact ⟨[], (List.append_nil _).trans hframes.opened.symm⟩

lemma Reached.opened {x : Stand × WalkState} (h : Reached o layers d label x) :
    x.2.opened <+: (walk o layers (.start o layers d label)).1.opened := by
  rw [← h.resume]
  exact resume_opened o layers.length x

lemma Reached.getElem? {l : Layer} {i : ℕ} {below : List (Layer × ℕ)} {s : WalkState}
    (h : Reached o layers d label (.before ((l, i) :: below), s)) : layers[i]? = some l := by
  obtain ⟨above, hall, -⟩ := h.covered
  have hmem : (l, i) ∈ layers.zipIdx.reverse := by
    rw [hall]
    simp
  exact List.mem_zipIdx_iff_getElem?.mp (List.mem_reverse.mp hmem)

/-- Among entries, what is left of the archive is whole. -/
def Stand.IsWhole : Stand → Prop
  | .before _ => True
  | .among _ r _ => r.IsWhole

section Whole

variable (hwhole : ∀ i ∈ (walk o layers (.start o layers d label)).1.opened,
  ∀ l, layers[i]? = some l → l.IsWhole)

include hwhole

lemma Reached.isWhole {i : ℕ} {r : Reader} {below : List (Layer × ℕ)} {s : WalkState}
    (h : Reached o layers d label (.among i r below, s)) : r.IsWhole := by
  refine h.invariant (P := fun x => x.1.IsWhole) trivial ?_
  intro x y hreached hm hx
  cases hm with
  | @enter l i src below s hd hc ho =>
    have hopened : i ∈ (walk o layers (.start o layers d label)).1.opened := by
      have hnext : Reached o layers d label (.among i (.ofSource src) below, s.entering i l) :=
        hreached.tail (.enter hd hc ho)
      refine hnext.opened.subset ?_
      simp [WalkState.entering]
    obtain ⟨src', ho', hw⟩ := hwhole i hopened l hreached.getElem?
    rw [ho, Except.ok.injEq] at ho'
    exact ho' ▸ hw
  | pass _ hn _ => exact Reader.IsWhole.rest hx hn
  | take _ hn _ ht =>
    exact take_isWhole (Reader.next?_advances hreached.proper hn).proper (Reader.IsWhole.rest hx hn) ht
  | leave _ => trivial

/-- A walk over whole layers does not fail. -/
lemma walk_whole (hcancel : ∀ i, o.cancelled i = false)
    (hentries : ∀ i e c, Meets o layers d label i e c → ∃ rs, e.carriedRecords c = .ok (rs, c)) :
    (walk o layers (.start o layers d label)).2 = none := by
  rcases hz : walk o layers (.start o layers d label) with ⟨s, _ | f⟩
  · rfl
  exfalso
  obtain ⟨x, hx, hh⟩ := walk_eq_iff.mp hz
  cases hh with
  | @cancelled l i below s _ hc => exact absurd (hc.symm.trans (hcancel i)) (by decide)
  | @closed l i f below s _ _ ho =>
    obtain ⟨src, hsrc, -⟩ := hwhole i (by rw [hz]; simp [WalkState.entering, WalkState.countLayer])
      l hx.getElem?
    rw [ho] at hsrc
    simp at hsrc
  | undecodable _ hn =>
    obtain ⟨y, hy⟩ := (hx.isWhole hwhole).next_ok
    rw [hn] at hy
    simp at hy
  | @broken i e r r' p f below s s' hd hn hm ht =>
    obtain ⟨rs, hrs⟩ := hentries i e r'.content ⟨r, r', below, s, p, hx, hd, hn, hm, rfl⟩
    obtain ⟨s₁, c₁, ht₁⟩ := take_of_isWhole (i := i) (p := p) (s := s)
      (Reader.next?_advances hx.proper hn).proper ((hx.isWhole hwhole).rest hn) hn hrs
    rw [ht] at ht₁
    simp at ht₁

end Whole

/-- What cannot be read is fatal, what cannot be written is a warning. If the content of an entry
that is to be written fails or ends before the entry is complete, the walk fails at this layer, also
if the device has refused the entry. And if the layers that are opened are whole, and the entries
that are to be written are regular files with records that are well formed, the walk does not fail
unless it is cancelled: there is one warning for each failed attempt, in order, with its path, why
it failed, and the layer it came from. -/
theorem extract_failure_kinds (layers : List Layer) (files : List FileSpec)
    (cancelled : ℕ → Bool) (d : Device) (label : String) :
    let o := Order.ofFiles files cancelled
    let w := walk o layers (.start o layers d label)
    (∀ i e c, Meets o layers d label i e c → c.FallsShort e.size →
        ∃ f, w.2 = some f ∧
          (extract ⟨.ok layers⟩ files cancelled (.ok d) label).outcome = .error f ∧
          f.messages = ["Failed to read tar entry in layer " ++ toString i, f.cause.message]) ∧
      ((∀ i ∈ w.1.opened, ∀ l, layers[i]? = some l → l.IsWhole) →
        (∀ i e c, Meets o layers d label i e c →
          e.header.kind = .regular ∧ ∃ rs c', e.carriedRecords c = .ok (rs, c')) →
        (∀ i, cancelled i = false) →
        w.2 = none ∧ List.Forall₂ Warning.Tells w.1.warnings w.1.archive.failed ∧
          ∀ v ∈ w.1.warnings, topmost? layers o.targets v.path = some v.layer) := by
  intro o w
  constructor
  · intro i e c hmeets hshort
    obtain ⟨f, hf, hstages⟩ := hmeets.fatal hshort
    refine ⟨f, hf, ?_, ?_⟩
    · rw [extract_eq, hf]
      exact conclude_failure ..
    · rw [Failure.messages, hstages]
      rfl
  · intro hwhole hentries hcancel
    have hnone : w.2 = none := by
      refine walk_whole hwhole hcancel fun i e c hy => ?_
      obtain ⟨hkind, rs, c', hrs⟩ := hentries i e c hy
      exact ⟨rs, carriedRecords_regular hkind hrs ▸ hrs⟩
    obtain ⟨below, s, hreached, ⟨log, hs⟩, -⟩ := walk_ok (Prod.ext rfl hnone : w = (w.1, none))
    rw [hs]
    exact ⟨hnone, hreached.tells, hreached.topmost⟩

/-- The device refuses a file in both cases. That is passed over if the layer is whole, but not if
it ends in the content of the file. -/
theorem extract_failure_kinds_foo :
    let files : List FileSpec := [⟨"/usr/bin/foo", "."⟩]
    let d : Device := .rejecting [104, 101, 108, 108, 111] "no space"
    (∃ f, (extract ⟨.ok [brokenLayer]⟩ files (fun _ => false) (.ok d) "out").outcome = .error f ∧
        f.messages.head? = some "Failed to read tar entry in layer 0") ∧
      (walk (.ofFiles files fun _ => false) [fooLayer]
        (.start (.ofFiles files fun _ => false) [fooLayer] d "out")).2 = none := by
  intro files d
  constructor
  · let o := Order.ofFiles files fun _ => false
    let src : Source := .ofBytes ((bareHeader "usr/bin/foo" 12).toBytes ++ [104, 101, 108, 108, 111])
    let s : WalkState := (WalkState.start o [brokenLayer] d "out").entering 0 brokenLayer
    have hreached : Reached o [brokenLayer] d "out" (.among 0 (.ofSource src) [], s) :=
      .single (.enter rfl rfl rfl)
    have hrun : ((Reader.ofSource src).next?.toOption.bind fun x => x.map fun x =>
        (x.1.size, o.match? s.resolved x.1, x.2.content.drain.toOption.map fun y => y.1.length)) =
          some (12, some "usr/bin/foo", some 5) := by
      decide +kernel
    rcases hx : (Reader.ofSource src).next? with err | _ | ⟨e, r'⟩
    · rw [hx] at hrun
      simp [Except.toOption] at hrun
    · rw [hx] at hrun
      simp [Except.toOption] at hrun
    simp only [hx, Except.toOption, Option.bind_some, Option.map_some, Option.some.injEq,
      Prod.mk.injEq] at hrun
    obtain ⟨hsize, hmatch, hdrain⟩ := hrun
    have hmeets : Meets o [brokenLayer] d "out" 0 e r'.content :=
      ⟨_, r', [], s, _, hreached, rfl, hx, hmatch, rfl⟩
    obtain ⟨f, -, hf, hm⟩ := (extract_failure_kinds [brokenLayer] files (fun _ => false) d
      "out").1 0 e r'.content hmeets fun b c' hd => by
        rw [hd] at hdrain
        simp only [Option.map_some, Option.some.injEq] at hdrain
        omega
    exact ⟨f, hf, by rw [hm]; rfl⟩
  · refine ((extract_failure_kinds [fooLayer] files (fun _ => false) d "out").2 ?_ ?_
      fun _ => rfl).1
    · intro i _ l hl
      obtain rfl := List.mem_singleton.mp (List.mem_of_getElem? hl)
      exact ⟨_, rfl, Reader.isWhole_of_within (n := 2) (by decide +kernel)⟩
    · intro i e c hmeets
      obtain ⟨l, hl, he⟩ := hmeets.mem_entries
      obtain rfl := List.mem_singleton.mp (List.mem_of_getElem? hl)
      have hall : ∀ y ∈ fooLayer.entries,
          y.1.header.kind = .regular ∧ y.1.carriedRecords y.2 = .ok ([], y.2) := by
        decide +kernel
      exact ⟨(hall _ he).1, _, _, (hall _ he).2⟩

end LayerPick
