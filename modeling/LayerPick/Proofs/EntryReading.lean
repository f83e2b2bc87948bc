import LayerPick.Proofs.SparseReading

/-!
# From entry to entry

Going to the next entry moves a reader on by one block or more, so an archive has finitely many.
`Reader.entries` lists them, each with its content unread, up to the end or to where reading
fails.
-/
namespace LayerPick.Tar
namespace Reader

/-- A reader of a stream that stands inside or behind the content of an entry, whose end is
settled. -/
structure Proper (r : Reader) : Prop where
  isStream : r.isFile = false
  bounded : r.content.IsBounded
  reach : r.content.reach ≤ r.next

lemma proper_ofSource (s : Source) : (ofSource s).Proper :=
  ⟨rfl, by simp [ofSource, Content.IsBounded],
    by simp [ofSource, Content.reach, Content.stored, Piece.total]⟩

lemma Proper.at {r : Reader} (hr : r.Proper) {c : Content} (h : r.content.Leaves c) :
    Proper { r with content := c } :=
  ⟨hr.isStream, h.bounded, h.reach.trans hr.reach⟩

lemma Proper.drained {r : Reader} (hr : r.Proper) {b : Bytes} {c : Content}
    (hd : r.content.drain = .ok (b, c)) : Proper { r with content := c } :=
  hr.at (Content.drain_leaves hr.bounded hd).1

/-- The reader `r'` stands at the content of an entry behind `r`. -/
structure Advances (r r' : Reader) : Prop where
  proper : r'.Proper
  position : r.next + blockSize ≤ r'.content.position
  length : r'.content.source.length + blockSize ≤ r.content.source.length

lemma nextBlock?_length {r : Reader} (hr : r.Proper) {b : Bytes} {s : Source}
    (h : r.nextBlock? = .ok (some (b, s))) :
    s.length + blockSize ≤ r.content.source.length := by
  obtain ⟨c, hc, ht, hl, -⟩ := nextBlock?_some.mp h
  obtain ⟨rfl, -, -⟩ := (skip_ok hr.isStream).mp hc
  have h₁ := Source.take_length false (r.next - r.content.position) r.content.source
  have h₂ := Source.take_length false blockSize
    (r.content.source.take false (r.next - r.content.position)).rest
  simp only at ht
  rw [ht] at h₂
  simp only at h₂
  omega

lemma nextMember?_advances {r r' : Reader} (hr : r.Proper) {pax : Option Bytes} {h : Header}
    {size : ℕ} (hm : r.nextMember? pax = .ok (some (h, size, r'))) :
    r.Advances r' ∧ r'.content.stored = size := by
  obtain ⟨b, s, hb, -, -, -, rfl⟩ := nextMember?_some.mp hm
  refine ⟨⟨⟨hr.isStream, ?_, ?_⟩, Nat.le_refl _, nextBlock?_length hr hb⟩, ?_⟩
  · simp [Content.IsBounded]
  · simp only [Content.reach, Content.stored, Piece.total]
    omega
  · simp [Content.stored, Piece.total]

lemma entryAt_advances {d : Described} {h : Header} {size : ℕ} {r r₁ r' : Reader} {e : Entry}
    (hr : r.Advances r₁) (hs : r₁.content.stored = size) (he : entryAt d h size r₁ = .ok (e, r')) :
    r.Advances r' := by
  simp only [entryAt] at he
  split_ifs at he with hk
  · obtain ⟨⟨ps, full, c, n⟩, hp, he⟩ := bind_ok.mp he
    simp only [Except.ok.injEq, Prod.mk.injEq] at he
    obtain ⟨-, rfl⟩ := he
    obtain ⟨hb, ht, hpos, hlen⟩ := sparsePieces_ok hp
    have hreach := hr.proper.reach
    have hposition := hr.position
    have hlength := hr.length
    refine ⟨⟨hr.proper.isStream, hb, ?_⟩, ?_, ?_⟩
    · simp only [Content.reach, Content.stored] at hs hreach ⊢
      omega
    · simp only
      omega
    · simp only
      omega
  · simp only [Except.ok.injEq, Prod.mk.injEq] at he
    obtain ⟨-, rfl⟩ := he
    exact hr

lemma entryAt_position {d : Described} {h : Header} {size : ℕ} {r r' : Reader} {e : Entry}
    (he : entryAt d h size r = .ok (e, r')) : r.content.position ≤ r'.content.position := by
  simp only [entryAt] at he
  split_ifs at he
  · obtain ⟨⟨ps, full, c, n⟩, hp, he⟩ := bind_ok.mp he
    simp only [Except.ok.injEq, Prod.mk.injEq] at he
    obtain ⟨-, rfl⟩ := he
    have hpos := (sparsePieces_ok hp).2.2.1
    simp only
    omega
  · simp only [Except.ok.injEq, Prod.mk.injEq] at he
    obtain ⟨-, rfl⟩ := he
    exact Nat.le_refl _

/-- Reading to the end of content and going on from there is going on from the content. -/
lemma Advances.drained {r r₁ r' : Reader} (h : r.Advances r₁) {b : Bytes} {c : Content}
    (hd : r₁.content.drain = .ok (b, c)) (h' : Advances { r₁ with content := c } r') :
    r.Advances r' := by
  have hlen := (Content.drain_leaves h.proper.bounded hd).1.length
  have h₁ := h.position
  have h₂ := h.proper.reach
  have h₃ := h'.position
  have h₄ := h.length
  have h₅ := h'.length
  simp only [Content.reach] at h₂ h₃ h₅
  exact ⟨h'.proper, by omega, by omega⟩

lemma nextFrom?_advances {n : ℕ} {d : Described} {r r' : Reader} {e : Entry} (hr : r.Proper)
    (h : nextFrom? n d r = .ok (some (e, r'))) : r.Advances r' := by
  induction n generalizing d r with
  | zero => simp [nextFrom?] at h
  | succ n ih =>
    obtain ⟨hd, size, r₁, hm, hcase⟩ := nextFrom?_some.mp h
    obtain ⟨ha, hs⟩ := nextMember?_advances hr hm
    rcases hcase with ⟨-, -, data, c, hdr, hn⟩ | ⟨-, he⟩
    · exact ha.drained hdr (ih (ha.proper.drained hdr) hn)
    · exact entryAt_advances ha hs he

lemma next?_advances {r r' : Reader} {e : Entry} (hr : r.Proper)
    (h : r.next? = .ok (some (e, r'))) : r.Advances r' := nextFrom?_advances hr h

/-- Where the next entry is found hangs on where skipping leads. -/
lemma next?_congr {r r' : Reader} (hs : r.skip = r'.skip) (hn : r.next = r'.next)
    (hf : r.isFile = r'.isFile) : r.next? = r'.next? := by
  simp only [next?, nextFrom?, nextMember?, nextBlock?, hs, hn, hf]

lemma skip_of_next? {r : Reader} {x : Option (Entry × Reader)} (h : r.next? = .ok x) :
    ∃ c, r.skip = .ok c := by
  obtain ⟨m, hm, -⟩ := bind_ok.mp h
  obtain ⟨b, hb, -⟩ := bind_ok.mp hm
  obtain ⟨c, hc, -⟩ := bind_ok.mp hb
  exact ⟨c, hc⟩

lemma next?_drained {r : Reader} (hr : r.Proper) {x : Option (Entry × Reader)}
    (h : r.next? = .ok x) :
    ∃ b c, r.content.drain = .ok (b, c) ∧ next? { r with content := c } = .ok x := by
  obtain ⟨c, hc⟩ := skip_of_next? h
  obtain ⟨b, c', hd, hs⟩ := skip_drain hr.isStream hr.bounded hr.reach hc
  refine ⟨b, c', hd, ?_⟩
  rw [← h]
  exact next?_congr (hs.trans hc.symm) rfl rfl

/-- The entries behind the content under way, at most `tries` of them. -/
def entriesWithin : (tries : ℕ) → Reader → List (Entry × Content)
  | 0, _ => []
  | tries + 1, r =>
    match r.content.drain with
    | .error _ => []
    | .ok (_, c) =>
      match next? { r with content := c } with
      | .ok (some (e, r')) => (e, r'.content) :: entriesWithin tries r'
      | _ => []

/-- The entries behind the content under way, each with its content unread, up to the end or to
where reading fails. -/
def entries (r : Reader) : List (Entry × Content) := entriesWithin (r.mostEntries + 1) r

/-- Which entries follow hangs on where the content under way ends. -/
lemma entriesWithin_congr (n : ℕ) (r r' : Reader)
    (hd : r.content.drain.map Prod.snd = r'.content.drain.map Prod.snd) (hn : r.next = r'.next)
    (hf : r.isFile = r'.isFile) : entriesWithin n r = entriesWithin n r' := by
  cases n with
  | zero => rfl
  | succ n =>
    simp only [entriesWithin, hn, hf]
    rcases h : r.content.drain with f | ⟨b, c⟩ <;>
      rcases h' : r'.content.drain with f' | ⟨b', c'⟩ <;>
      simp only [h, h', Except.map, reduceCtorEq, Except.ok.injEq] at hd <;> simp only
    rw [hd]

lemma Advances.mostEntries_lt {r r' : Reader} (h : r.Advances r') :
    r'.mostEntries < r.mostEntries := by
  have hlen := h.length
  have hdiv := Nat.div_add_mod r'.content.source.length blockSize
  have hle := Nat.div_le_div_right (c := blockSize) hlen
  rw [Nat.add_div_right _ (by decide)] at hle
  simp only [mostEntries]
  omega

lemma entriesWithin_stable {n m : ℕ} {r : Reader} (hr : r.Proper) (hn : r.mostEntries ≤ n)
    (hm : r.mostEntries ≤ m) : entriesWithin n r = entriesWithin m r := by
  induction n generalizing m r with
  | zero => simp [mostEntries] at hn
  | succ n ih =>
    have hpos : 0 < r.mostEntries := Nat.succ_pos _
    obtain ⟨m, rfl⟩ : ∃ k, m = k + 1 := ⟨m - 1, by omega⟩
    simp only [entriesWithin]
    rcases hd : r.content.drain with f | ⟨b, c⟩ <;> simp only
    rcases hx : next? { r with content := c } with err | _ | ⟨e, r'⟩ <;> simp only
    have ha := next?_advances (hr.drained hd) hx
    have hle := (Content.drain_leaves hr.bounded hd).1.length
    have hlt := ha.mostEntries_lt
    have hmost : mostEntries { r with content := c } ≤ r.mostEntries :=
      Nat.add_le_add_right (Nat.div_le_div_right hle) 1
    rw [ih ha.proper (show _ ≤ n by omega) (show _ ≤ m by omega)]

lemma entries_left {r : Reader} (hr : r.Proper) {b : Bytes} {c : Content}
    (hl : r.content.Leaves c) (hd : r.content.drain = Content.after b c.drain) :
    entries { r with content := c } = r.entries := by
  have hle : mostEntries { r with content := c } ≤ r.mostEntries :=
    Nat.add_le_add_right (Nat.div_le_div_right hl.length) 1
  rw [entries, entries, entriesWithin_stable (hr.at hl) (Nat.le_succ _)
    (hle.trans (Nat.le_succ _))]
  refine entriesWithin_congr _ _ _ ?_ rfl rfl
  rw [hd]
  cases c.drain <;> rfl

/-- The entries are the next one and those behind it. -/
theorem entries_eq {r : Reader} (hr : r.Proper) :
    r.entries =
      match r.content.drain with
      | .error _ => []
      | .ok (_, c) =>
        match next? { r with content := c } with
        | .ok (some (e, r')) => (e, r'.content) :: r'.entries
        | _ => [] := by
  rw [entries, entriesWithin]
  rcases hd : r.content.drain with f | ⟨b, c⟩ <;> simp only
  rcases hx : next? { r with content := c } with err | _ | ⟨e, r'⟩ <;> simp only
  have ha := next?_advances (hr.drained hd) hx
  have hle := (Content.drain_leaves hr.bounded hd).1.length
  have hlt := ha.mostEntries_lt
  have hmost : mostEntries { r with content := c } ≤ r.mostEntries :=
    Nat.add_le_add_right (Nat.div_le_div_right hle) 1
  rw [entries, entriesWithin_stable ha.proper (show _ ≤ r.mostEntries by omega) (Nat.le_succ _)]

end Reader

end LayerPick.Tar
