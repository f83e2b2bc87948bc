import LayerPick.Proofs.WalkSteps

/-!
# The overlay of the layers

An image is looked through as if its layers lay on top of each other: the entries of all layers,
the topmost layer first, in the order of their archives. Of those that are looked for, the first
one under each path is the one that shows. `overlay` lists what the archive is to be asked to take
for them, and the walk asks for just that.

The proof keeps one list in view. What has been asked for, and behind it what the entries still to
come would add to the paths that are claimed, is the same list before and after every step.
-/
namespace LayerPick

open Tar

/-- The entries of a layer, each with its content unread. -/
def Layer.entries (l : Layer) : List (Entry × Content) :=
  match l.openLayer with
  | .error _ => []
  | .ok s => (Reader.ofSource s).entries

/-- Entries that are looked for and whose paths are not claimed, the first under each path. -/
def unclaimed (targets claimed : List String) (es : List (Entry × Content)) :
    List (Entry × Content) :=
  (es.filter fun x => x.1.isWanted targets && decide (x.1.place ∉ claimed)).eraseDupsBy
    fun x y => x.1.place == y.1.place

/-- What the archive is asked to take for an entry, if its records can be read. -/
def requestFor? (x : Entry × Content) : Option Request :=
  match x.1.carriedRecords x.2 with
  | .ok (records, c) => some ⟨x.1.header, x.1.place, records, c⟩
  | .error _ => none

/-- What the archive is to be asked to take out of an image. -/
def overlay (files : List FileSpec) (layers : List Layer) : List Request :=
  (unclaimed (files.map FileSpec.target) [] (layers.reverse.flatMap Layer.entries)).filterMap
    requestFor?

/-- A reader that has come from `r₀`, by going to the next entry and by reading content. -/
inductive Tar.Reader.Reaches (r₀ : Reader) : Reader → Prop
  | start : Reaches r₀ r₀
  | next {r r' : Reader} {e : Entry} :
    Reaches r₀ r → r.next? = .ok (some (e, r')) → Reaches r₀ r'
  | read {r : Reader} (most : ℕ) :
    Reaches r₀ r → Reaches r₀ { r with content := (r.content.read most).2 }
  | drain {r : Reader} {b : Bytes} {c : Content} :
    Reaches r₀ r → r.content.drain = .ok (b, c) → Reaches r₀ { r with content := c }

/-- A reason to fail at the layer with this index: it does not open, or it is not an archive all
through, or an entry that is looked for has records or content that cannot be read, or content that
ends early. -/
inductive Disturbs (layers : List Layer) (targets : List String) (i : ℕ) : Failure → Prop
  | closed {l : Layer} {f : Failure} : layers[i]? = some l → l.openLayer = .error f →
    Disturbs layers targets i (f.within (.openLayer i l.description))
  | undecodable {l : Layer} {s : Source} {r : Reader} {err : ReadError} : layers[i]? = some l →
    l.openLayer = .ok s → (Reader.ofSource s).Reaches r → r.next? = .error err →
    Disturbs layers targets i ⟨[.readLayerEntry i], .tar err⟩
  | records {l : Layer} {e : Entry} {c : Content} {err : ReadError} : layers[i]? = some l →
    (e, c) ∈ l.entries → e.isWanted targets = true → e.carriedRecords c = .error err →
    Disturbs layers targets i ⟨[.readLayerEntry i], .tar err⟩
  | unreadable {l : Layer} {e : Entry} {c c' : Content} {rs : List Pax.Record} {f : Fault} :
    layers[i]? = some l → (e, c) ∈ l.entries → e.isWanted targets = true →
    e.carriedRecords c = .ok (rs, c') → c'.drain = .error f →
    Disturbs layers targets i ⟨[.readLayerEntry i], .entryUnreadable e.place f.message⟩
  | truncated {l : Layer} {e : Entry} {c c' c'' : Content} {rs : List Pax.Record} {b : Bytes} :
    layers[i]? = some l → (e, c) ∈ l.entries → e.isWanted targets = true →
    e.carriedRecords c = .ok (rs, c') → c'.drain = .ok (b, c'') → b.length ≠ e.size →
    Disturbs layers targets i ⟨[.readLayerEntry i], .entryTruncated e.place e.size b.length⟩

section Unclaimed

variable {targets claimed : List String}

@[simp] lemma unclaimed_nil : unclaimed targets claimed [] = [] := rfl

/-- An entry that is not looked for, or whose path is claimed, does not show. -/
lemma unclaimed_skip (x : Entry × Content) (es : List (Entry × Content))
    (h : x.1.isWanted targets = false ∨ x.1.place ∈ claimed) :
    unclaimed targets claimed (x :: es) = unclaimed targets claimed es := by
  have hx : (x.1.isWanted targets && decide (x.1.place ∉ claimed)) = false := by
    rcases h with h | h <;> simp [h]
  simp only [unclaimed]
  rw [List.filter_cons_of_neg (by rw [hx]; decide)]

lemma unclaimed_take (x : Entry × Content) (es : List (Entry × Content))
    (hw : x.1.isWanted targets = true) (hp : x.1.place ∉ claimed) :
    unclaimed targets claimed (x :: es) =
      x :: unclaimed targets (x.1.place :: claimed) es := by
  have hx : (x.1.isWanted targets && decide (x.1.place ∉ claimed)) = true := by simp [hw, hp]
  simp only [unclaimed]
  rw [List.filter_cons_of_pos (by exact hx), List.eraseDupsBy_cons, List.filter_filter]
  refine congrArg (fun l => x :: List.eraseDupsBy (fun x y => x.1.place == y.1.place) l)
    (List.filter_congr fun y _ => ?_)
  by_cases hy : y.1.place = x.1.place <;> simp [hy, Bool.and_comm]

/-- Once all paths are claimed, nothing more shows. -/
lemma unclaimed_done (es : List (Entry × Content)) (h : ∀ t ∈ targets, t ∈ claimed) :
    unclaimed targets claimed es = [] := by
  induction es with
  | nil => rfl
  | cons x es ih =>
    rw [unclaimed_skip x es ?_, ih]
    by_cases hw : x.1.isWanted targets = true
    · exact .inr (h _ (Entry.isWanted_iff.mp hw).2.2.2.2)
    · exact .inl (Bool.not_eq_true _ ▸ hw)

end Unclaimed

/-- What the archive has been asked to take so far. -/
def WalkState.requests (s : WalkState) : List Request :=
  s.archive.attempts.map Attempt.toRequest

/-- What the archive has been asked to take, and what entries would add to it. -/
def WalkState.showing (targets : List String) (s : WalkState) (es : List (Entry × Content)) :
    List Request :=
  s.requests ++ (unclaimed targets s.resolved.paths es).filterMap requestFor?

lemma WalkState.Consistent.showing_of_isDone {o : Order} {s : WalkState} (hs : s.Consistent o)
    (h : o.isDone s = true) (es : List (Entry × Content)) :
    s.showing o.targets es = s.requests := by
  simp [WalkState.showing, unclaimed_done es fun t ht => hs.mem_of_isDone h ht]

/-- Asking the archive to take an entry moves it from what is to come to what has been asked. -/
lemma take_showing {o : Order} {i : ℕ} {p : String} {e : Entry} {s s' : WalkState}
    {c c' : Content} (hm : o.match? s.resolved e = some p) (h : take i p e s c = (s', .ok c'))
    (es : List (Entry × Content)) :
    s.showing o.targets ((e, c) :: es) = s'.showing o.targets es := by
  obtain ⟨hw, hp, rfl⟩ := match?_some.mp hm
  obtain ⟨records, c₁, a, r, hr, ha, h⟩ := take_ok h
  obtain ⟨d, -, rfl⟩ := append_eq.mp ha
  have hreq : requestFor? (e, c) = some ⟨e.header, e.place, records, c₁⟩ := by
    simp [requestFor?, hr]
  have hs' : s'.requests = s.requests ++ [⟨e.header, e.place, records, c₁⟩] ∧
      s'.resolved.paths = e.place :: s.resolved.paths := by
    rcases h with ⟨-, rfl⟩ | ⟨m, -, rfl⟩
    · simp only [WalkState.requests, WalkState.say, WalkState.countFile, WalkState.asked,
        WalkState.claim, Archive.attempts, List.reverse_cons, List.map_append, List.map_cons,
        List.map_nil, insert_paths hp, and_self]
    · simp only [WalkState.requests, WalkState.say, WalkState.warn, WalkState.asked,
        WalkState.claim, Archive.attempts, List.reverse_cons, List.map_append, List.map_cons,
        List.map_nil, insert_paths hp, and_self]
  rw [WalkState.showing, unclaimed_take (e, c) es hw hp, List.filterMap_cons_some hreq,
    WalkState.showing, hs'.1, hs'.2, List.append_assoc, List.singleton_append]

/-- Going through a layer without a failure asks for what shows of it. -/
lemma walkEntries_showing {o : Order} {i n : ℕ} {s s' : WalkState} {r : Reader}
    (hs : s.Consistent o) (hr : r.Proper) (h : walkEntries o i n s r = (s', none))
    (more : List (Entry × Content)) :
    s.showing o.targets (r.entriesWithin n ++ more) = s'.showing o.targets more := by
  induction n generalizing s r with
  | zero =>
    obtain ⟨rfl, -⟩ := Prod.mk.inj h
    rfl
  | succ n ih =>
    simp only [walkEntries] at h
    rcases hx : r.next? with err | x <;> rw [hx] at h
    · simp at h
    obtain ⟨b, c, hd, hx'⟩ := Reader.next?_drained hr hx
    rcases x with _ | ⟨e, r'⟩
    · obtain ⟨rfl, -⟩ := Prod.mk.inj h
      simp only [Reader.entriesWithin, hd, hx', List.nil_append]
    have ha := Reader.next?_advances hr hx
    simp only [Reader.entriesWithin, hd, hx', List.cons_append]
    rcases hm : o.match? s.resolved e with _ | p <;> simp only [hm] at h
    · rw [← ih hs ha.proper h, WalkState.showing, unclaimed_skip (e, r'.content) _ (match?_none.mp hm), WalkState.showing]
    · rcases ht : take i p e s r'.content with ⟨s₁, f | c₁⟩ <;> simp only [ht] at h
      · simp at h
      have hs₁ := take_consistent hs hm ht
      obtain ⟨hleaves, b₁, hd₁⟩ := take_leaves ha.proper.bounded ht
      rw [take_showing hm ht]
      split_ifs at h with hdone
      · obtain ⟨rfl, -⟩ := Prod.mk.inj h
        rw [hs₁.showing_of_isDone hdone, hs₁.showing_of_isDone hdone]
      · rw [← ih hs₁ (ha.proper.at hleaves) h,
          Reader.entriesWithin_congr n r' { r' with content := c₁ } ?_ rfl rfl]
        rw [hd₁]
        cases c₁.drain <;> rfl

lemma copy_reaches {r₀ r : Reader} (h : r₀.Reaches r) (count : ℕ) (d : Device) :
    r₀.Reaches { r with content := (copy r.content.calls count d r.content).2.1 } := by
  induction hn : r.content.calls using Nat.strongRecOn generalizing r count d with
  | ind n ih =>
    have hex := Content.explains_read (show 0 < chunkSize by decide) r.content
    have hread := Reader.Reaches.read chunkSize h
    rw [← hn, copy_eq]
    rcases hr : r.content.read chunkSize with ⟨b | _ | f, c⟩ <;> rw [hr] at hex hread <;> simp only
    · rcases d.write b with ⟨d₁, _ | m⟩
      · exact ih _ (hn ▸ hex.2.2) hread (count + b.length) d₁ rfl
      · exact hread
    · exact hread
    · simp only [Content.Explains] at hex
      split_ifs at hex ⊢
      · exact ih _ (hn ▸ hex.2) hread count d rfl
      · exact hread

lemma take_reaches {r₀ r : Reader} (h : r₀.Reaches r) {i : ℕ} {p : String} {e : Entry}
    {s s' : WalkState} {c : Content} (ht : take i p e s r.content = (s', .ok c)) :
    r₀.Reaches { r with content := c } := by
  obtain ⟨records, c₁, a, x, hr, ha, -⟩ := take_ok ht
  obtain ⟨d, hw, -⟩ := append_eq.mp ha
  have h₁ : r₀.Reaches { r with content := c₁ } := by
    rcases carriedRecords_content hr with rfl | ⟨b, hd⟩
    · exact h
    · exact h.drain hd
  rcases writeEntry_cases hw with ⟨rfl, -⟩ | ⟨d₁, d₂, r₁, hcopy, -⟩
  · exact h₁
  · have h₂ := copy_reaches h₁ 0 d₁
    rw [hcopy] at h₂
    exact h₂

section Failing

variable {layers : List Layer} {o : Order} {i : ℕ} {l : Layer} {f : Failure}

lemma take_disturbs {e : Entry} {s s' : WalkState} {c : Content} (hl : layers[i]? = some l)
    (he : (e, c) ∈ l.entries) (hw : e.isWanted o.targets = true) (hc : c.IsBounded)
    (h : take i e.place e s c = (s', .error f)) : Disturbs layers o.targets i f := by
  rcases take_error h with ⟨err, hr, -, rfl⟩ | ⟨records, c₁, a, c', r, hr, ha, -, h⟩
  · exact .records hl he hw hr
  obtain ⟨d, hwrite, -⟩ := append_eq.mp ha
  have hb := (carriedRecords_leaves hc hr).1.bounded
  have hex := explains_writeEntry hb hwrite
  rcases h with ⟨m, rfl, rfl⟩ | ⟨k, rfl, hk, rfl⟩
  · obtain ⟨g, hg, rfl⟩ := hex
    exact .unreadable hl he hw hr hg
  · obtain ⟨b, hd, rfl⟩ := hex
    rw [Nat.zero_add] at hk ⊢
    exact .truncated hl he hw hr hd hk

lemma walkEntries_disturbs {n : ℕ} {s s' : WalkState} {r : Reader} {src : Source}
    (hl : layers[i]? = some l) (ho : l.openLayer = .ok src)
    (hreach : (Reader.ofSource src).Reaches r) (hr : r.Proper)
    (hsub : ∀ x ∈ r.entriesWithin n, x ∈ l.entries)
    (h : walkEntries o i n s r = (s', some f)) : Disturbs layers o.targets i f := by
  induction n generalizing s r with
  | zero => simp [walkEntries] at h
  | succ n ih =>
    simp only [walkEntries] at h
    rcases hx : r.next? with err | x <;> rw [hx] at h
    · obtain ⟨-, h⟩ := Prod.mk.inj h
      obtain rfl := Option.some.inj h
      exact .undecodable hl ho hreach hx
    obtain ⟨b, c, hd, hx'⟩ := Reader.next?_drained hr hx
    rcases x with _ | ⟨e, r'⟩
    · simp at h
    have ha := Reader.next?_advances hr hx
    simp only [Reader.entriesWithin, hd, hx'] at hsub
    have hsub' := fun x hx => hsub x (List.mem_cons_of_mem _ hx)
    rcases hm : o.match? s.resolved e with _ | p <;> simp only [hm] at h
    · exact ih (hreach.next hx) ha.proper hsub' h
    · obtain ⟨hw, -, rfl⟩ := match?_some.mp hm
      rcases ht : take i e.place e s r'.content with ⟨s₁, g | c₁⟩ <;> simp only [ht] at h
      · obtain ⟨-, h⟩ := Prod.mk.inj h
        obtain rfl := Option.some.inj h
        exact take_disturbs hl (hsub _ (List.mem_cons_self ..)) hw ha.proper.bounded ht
      · obtain ⟨hleaves, b₁, hd₁⟩ := take_leaves ha.proper.bounded ht
        split_ifs at h with hdone
        · simp at h
        refine ih (take_reaches (hreach.next hx) ht) (ha.proper.at hleaves) ?_ h
        rw [← Reader.entriesWithin_congr n r' { r' with content := c₁ } ?_ rfl rfl]
        · exact hsub'
        · rw [hd₁]
          cases c₁.drain <;> rfl

lemma walkLayer_disturbs {s s' : WalkState} (hl : layers[i]? = some l)
    (h : walkLayer o i l s = (s', some f)) : Disturbs layers o.targets i f := by
  simp only [walkLayer] at h
  rcases ho : l.openLayer with g | src <;> rw [ho] at h <;> simp only at h
  · obtain ⟨-, h⟩ := Prod.mk.inj h
    obtain rfl := Option.some.inj h
    exact .closed hl ho
  · refine walkEntries_disturbs hl ho .start (Reader.proper_ofSource src) ?_ h
    simp only [Layer.entries, ho]
    exact fun x hx => hx

end Failing

/-- Going through a layer without a failure asks for what shows of it. -/
lemma walkLayer_showing {o : Order} {i : ℕ} {l : Layer} {s s' : WalkState} (hs : s.Consistent o)
    (h : walkLayer o i l s = (s', none)) (more : List (Entry × Content)) :
    s.showing o.targets (l.entries ++ more) = s'.showing o.targets more := by
  simp only [walkLayer] at h
  rcases ho : l.openLayer with g | src <;> rw [ho] at h <;> simp only at h
  · simp at h
  · have hs₁ : WalkState.Consistent o { s.say .debug ("Scanning layer " ++ toString i ++ " (" ++
        l.description ++ ")") with opened := s.opened ++ [i] } :=
      ⟨hs.attempted, hs.wanted, hs.found, hs.counted⟩
    rw [← walkEntries_showing hs₁ (Reader.proper_ofSource src) h more]
    simp only [Layer.entries, ho, Reader.entries]
    rfl

/-- Going through layers without a failure asks for what shows of them. -/
lemma walkLayers_showing {o : Order} {total : ℕ} {ls : List (Layer × ℕ)} {s s' : WalkState}
    (hs : s.Consistent o) (h : walkLayers o total ls s = (s', none)) :
    s'.requests = s.showing o.targets (ls.flatMap fun x => x.1.entries) := by
  induction ls generalizing s with
  | nil =>
    obtain ⟨rfl, -⟩ := Prod.mk.inj h
    simp [WalkState.showing]
  | cons x ls ih =>
    obtain ⟨l, i⟩ := x
    simp only [walkLayers] at h
    split_ifs at h with hdone hc
    · obtain ⟨rfl, -⟩ := Prod.mk.inj h
      rw [hs.showing_of_isDone hdone]
      rfl
    · simp at h
    · rcases hw : walkLayer o i l s with ⟨s₁, _ | f⟩ <;> rw [hw] at h <;> simp only at h
      · have hs₁ := walkLayer_consistent hs hw
        have hreq := ih (by exact ⟨hs₁.attempted, hs₁.wanted, hs₁.found, hs₁.counted⟩) h
        rw [List.flatMap_cons, walkLayer_showing hs hw]
        exact hreq
      · simp at h

/-- Going through layers fails for a reason that one of them gives, or because it is cancelled. -/
lemma walkLayers_disturbs {layers : List Layer} {o : Order} {total : ℕ} {ls : List (Layer × ℕ)}
    {s s' : WalkState} {f : Failure} (hls : ∀ x ∈ ls, layers[x.2]? = some x.1)
    (h : walkLayers o total ls s = (s', some f)) :
    (∃ i < layers.length, o.cancelled i = true ∧ f = .of (.cancelled i)) ∨
      ∃ i ∈ s'.opened, Disturbs layers o.targets i f := by
  induction ls generalizing s with
  | nil => simp [walkLayers] at h
  | cons x ls ih =>
    obtain ⟨l, i⟩ := x
    have hl : layers[i]? = some l := hls _ (List.mem_cons_self ..)
    simp only [walkLayers] at h
    split_ifs at h with hdone hc
    · simp at h
    · obtain ⟨-, h⟩ := Prod.mk.inj h
      obtain rfl := Option.some.inj h
      exact .inl ⟨i, (List.getElem?_eq_some_iff.mp hl).1, hc, rfl⟩
    · have hframe := walkLayer_frame o i l s
      rcases hw : walkLayer o i l s with ⟨s₁, _ | g⟩ <;> rw [hw] at h hframe <;> simp only at h
      · exact ih (fun x hx => hls x (List.mem_cons_of_mem _ hx)) h
      · obtain ⟨rfl, hf⟩ := Prod.mk.inj h
        obtain rfl := Option.some.inj hf
        have hi : i ∈ s₁.opened := by
          rw [show s₁.opened = s.opened ++ [i] from hframe.1]
          simp
        exact .inr ⟨i, hi, walkLayer_disturbs hl hw⟩

lemma isWanted_eraseDups (ts : List String) (e : Entry) :
    e.isWanted ts.eraseDups = e.isWanted ts := by
  simp [Entry.isWanted]

lemma unclaimed_eraseDups (ts claimed : List String) (es : List (Entry × Content)) :
    unclaimed ts.eraseDups claimed es = unclaimed ts claimed es := by
  simp only [unclaimed, isWanted_eraseDups]

lemma Disturbs.of_eraseDups {layers : List Layer} {ts : List String} {i : ℕ} {f : Failure}
    (h : Disturbs layers ts.eraseDups i f) : Disturbs layers ts i f := by
  cases h with
  | closed hl ho => exact .closed hl ho
  | undecodable hl ho hr hx => exact .undecodable hl ho hr hx
  | records hl he hw hr => exact .records hl he (isWanted_eraseDups ts _ ▸ hw) hr
  | unreadable hl he hw hr hd => exact .unreadable hl he (isWanted_eraseDups ts _ ▸ hw) hr hd
  | truncated hl he hw hr hd hb =>
    exact .truncated hl he (isWanted_eraseDups ts _ ▸ hw) hr hd hb

/-- The walk over a whole image asks for the overlay. -/
lemma walk_overlay {files : List FileSpec} {layers : List Layer} {cancelled : ℕ → Bool}
    {d : Device} {label : String} {s : WalkState}
    (h : walk (.ofFiles files cancelled) layers (.start (.ofFiles files cancelled) layers d label) =
      (s, none)) :
    s.requests = overlay files layers ∧
      ∀ t, t ∈ s.resolved.paths ↔ t ∈ (overlay files layers).map Request.path := by
  have hs := walkLayers_consistent (consistent_start _ layers d label) h
  have hreq := walkLayers_showing (consistent_start _ layers d label) h
  have hentries : (layers.zipIdx.reverse.flatMap fun y => y.1.entries) =
      layers.reverse.flatMap Layer.entries := by
    rw [← List.flatMap_map, List.map_reverse, List.zipIdx_map_fst]
  have hov : s.requests = overlay files layers := by
    rw [hreq, hentries]
    simp only [WalkState.showing, Order.ofFiles, unclaimed_eraseDups]
    rfl
  have hpaths : (overlay files layers).map Request.path = s.resolved.paths.reverse := by
    rw [← hov, ← hs.attempted, WalkState.requests, List.map_map]
    rfl
  exact ⟨hov, fun t => by rw [hpaths, List.mem_reverse]⟩

/-- The archive is asked to take what shows of the layers, entry by entry, and the files that are
found are those whose paths it was asked to take; unless the run is cancelled, or a layer that was
opened gives a reason to fail. Whether the device takes what it is given makes no difference to
what the archive is asked, and only a refusal at the end of the archive makes the whole fail. -/
theorem extract_overlay (layers : List Layer) (files : List FileSpec) (cancelled : ℕ → Bool)
    (d : Device) (label : String) :
    let x := extract ⟨.ok layers⟩ files cancelled (.ok d) label
    (∃ f, x.outcome = .error f ∧
        ((∃ i < layers.length, cancelled i = true ∧ f = .of (.cancelled i)) ∨
          ∃ i ∈ x.opened, Disturbs layers (files.map FileSpec.target) i f)) ∨
      x.attempts.map Attempt.toRequest = overlay files layers ∧
        match x.outcome with
        | .ok e => e.locations =
            files.filter fun f => decide (f.target ∈ (overlay files layers).map Request.path)
        | .error f => ∃ m, f = ⟨[.finishArchive, .writeTrailer label], .stream m⟩ := by
  intro x
  have hlabel := walkLayers_label (Order.ofFiles files cancelled) layers.length
    layers.zipIdx.reverse (.start (Order.ofFiles files cancelled) layers d label)
  have hx : x = conclude files layers label
    (walk (Order.ofFiles files cancelled) layers (.start (.ofFiles files cancelled) layers d label)).1
    (walk (Order.ofFiles files cancelled) layers
      (.start (.ofFiles files cancelled) layers d label)).2 := rfl
  obtain ⟨hopened, hattempts, -⟩ := conclude_frame files layers label
    (walk (Order.ofFiles files cancelled) layers (.start (.ofFiles files cancelled) layers d label)).1
    (walk (Order.ofFiles files cancelled) layers
      (.start (.ofFiles files cancelled) layers d label)).2
  rw [← hx] at hopened hattempts
  rw [hopened, hattempts]
  rcases hw : walk (Order.ofFiles files cancelled) layers
    (.start (.ofFiles files cancelled) layers d label) with ⟨s, _ | f⟩ <;> rw [hw] at hx
  · right
    obtain ⟨hreq, hpaths⟩ := walk_overlay hw
    refine ⟨hreq, ?_⟩
    have hl : s.archive.label = label := (congrArg (fun y => y.1.archive.label) hw).symm.trans hlabel
    have hout := conclude_success files layers label s
    rw [← hx] at hout
    rcases hm : (s.archive.device.write trailer).2 with _ | m <;> simp only [hm] at hout <;>
      rw [hout]
    · exact List.filter_congr fun f _ => by simp only [Resolved.contains, hpaths]
    · exact ⟨m, by rw [hl]⟩
  · left
    refine ⟨f, by rw [hx, conclude_failure], ?_⟩
    have hls : ∀ y ∈ layers.zipIdx.reverse, layers[y.2]? = some y.1 := by
      rintro ⟨l, i⟩ hy
      exact List.mem_zipIdx_iff_getElem?.mp (List.mem_reverse.mp hy)
    rcases walkLayers_disturbs hls hw with h | ⟨i, hi, h⟩
    · exact .inl h
    · exact .inr ⟨i, hi, h.of_eraseDups⟩

end LayerPick
