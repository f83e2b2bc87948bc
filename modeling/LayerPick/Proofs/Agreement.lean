import LayerPick.Proofs.EntryReading
import LayerPick.Proofs.EntryWriting

/-!
# Streams that agree for a while

Two streams agree on `n` bytes if they deliver these in the same calls, with the same failures in
between. Behind them they may hold anything. Whoever reads no further cannot tell them apart: the
same bytes come out, and what is left agrees on as many bytes as are left of the `n`.

The position of an archive reader tells how far it has read. So content that ends before `n` is
read and copied alike, and an entry that starts before `n` is found alike.
-/
namespace LayerPick

/-- The next `n` bytes are delivered alike. -/
inductive Event.Agree : ℕ → List Event → List Event → Prop
  | done (es es' : List Event) : Agree 0 es es'
  | within {n : ℕ} {b b' : Bytes} (l : Option ℕ) (es es' : List Event) :
    n ≤ b.length → n ≤ b'.length → b.take n = b'.take n →
    Agree n (.bytes b l :: es) (.bytes b' l :: es')
  | bytes {n : ℕ} (b : Bytes) (l : Option ℕ) {es es' : List Event} :
    Agree n es es' → Agree (b.length + n) (.bytes b l :: es) (.bytes b l :: es')
  | fault {n : ℕ} (f : Fault) {es es' : List Event} :
    Agree n es es' → Agree n (.fault f :: es) (.fault f :: es')

namespace Source

/-- The next `n` bytes of two sources are delivered alike. -/
def Agree (n : ℕ) (s s' : Source) : Prop := Event.Agree n s.events s'.events

lemma take_within (p : Bool) {m : ℕ} {b : Bytes} (l : Option ℕ) (es : List Event)
    (d : Option String) (hm : 0 < m) (hb : m ≤ b.length) :
    (⟨.bytes b l :: es, d⟩ : Source).take p m =
      ⟨b.take m, if m < b.length then ⟨.bytes (b.drop m) l :: es, d⟩ else ⟨es, d⟩, none⟩ := by
  split_ifs with h
  · exact take_bytes_of_lt p b l es d hm h
  · obtain rfl : m = b.length := by omega
    rw [take_bytes_of_le p b l es d hm (Nat.le_refl _)]
    simp [Taken.then]

lemma agree_drop {m n : ℕ} {b b' : Bytes} (l : Option ℕ) (es es' : List Event)
    (hb : n ≤ b.length) (hb' : n ≤ b'.length) (h : b.take n = b'.take n) (hm : m ≤ n) :
    Event.Agree (n - m) (if m < b.length then .bytes (b.drop m) l :: es else es)
      (if m < b'.length then .bytes (b'.drop m) l :: es' else es') := by
  rcases Nat.eq_or_lt_of_le hm with rfl | hlt
  · rw [Nat.sub_self]
    exact .done _ _
  · rw [if_pos (by omega), if_pos (by omega)]
    refine .within l es es' (by simp; omega) (by simp; omega) ?_
    rw [← List.drop_take, ← List.drop_take, h]

/-- Taking agreed bytes gives the same and leaves the agreed bytes behind them. -/
lemma take_agree (p : Bool) {m n : ℕ} {s s' : Source} (h : s.Agree n s') (hm : m ≤ n) :
    (s'.take p m).data = (s.take p m).data ∧ (s'.take p m).fault = (s.take p m).fault ∧
      (s.take p m).rest.Agree (n - (s.take p m).data.length) (s'.take p m).rest ∧
      ((s.take p m).fault = none → (s.take p m).data.length = m) := by
  rcases s with ⟨es, d⟩
  rcases s' with ⟨es', d'⟩
  by_cases hzero : m = 0
  · subst hzero
    simpa using h
  have hpos := Nat.pos_of_ne_zero hzero
  clear hzero
  simp only [Agree] at h
  induction h generalizing m with
  | done => omega
  | @within n b b' l es es' hb hb' ht =>
    rw [take_within p l es d hpos (by omega), take_within p l es' d' hpos (by omega)]
    have hmin : min m n = m := by omega
    have hlen : (b.take m).length = m := by simp; omega
    refine ⟨?_, rfl, ?_, fun _ => hlen⟩
    · rw [← hmin, ← List.take_take, ← List.take_take, ht]
    · simp only [hlen, Agree]
      have hd := agree_drop l es es' hb hb' ht hm
      split_ifs at hd ⊢ <;> exact hd
  | @bytes n b l es es' h ih =>
    by_cases hb : m < b.length
    · rw [take_bytes_of_lt p b l es d hpos hb, take_bytes_of_lt p b l es' d' hpos hb]
      have hlen : (b.take m).length = m := by simp; omega
      refine ⟨rfl, rfl, ?_, fun _ => hlen⟩
      have he : b.length + n - m = (b.drop m).length + n := by simp; omega
      simp only [hlen, he]
      exact .bytes _ l h
    · rw [take_bytes_of_le p b l es d hpos (by omega), take_bytes_of_le p b l es' d' hpos (by omega)]
      by_cases h₀ : m - b.length = 0
      · simp only [Taken.then, h₀, take_zero, List.append_nil, Nat.add_sub_cancel_left, true_and]
        exact ⟨h, fun _ => by omega⟩
      · obtain ⟨hd, hf, ha, hl⟩ := ih (by omega) (Nat.pos_of_ne_zero h₀)
        simp only [Taken.then, hd, hf, List.length_append, true_and]
        refine ⟨?_, fun h => by rw [hl h]; omega⟩
        rw [Nat.add_sub_add_left]
        exact ha
  | @fault n f es es' h ih =>
    rw [take_fault p f es d hpos, take_fault p f es' d' hpos]
    split_ifs
    · exact ih hm hpos
    · exact ⟨rfl, rfl, h, by simp⟩

lemma take_agree_ok (p : Bool) {m n : ℕ} {s s' t : Source} {b : Bytes} (h : s.Agree n s')
    (hm : m ≤ n) (ht : s.take p m = ⟨b, t, none⟩) :
    b.length = m ∧ ∃ t', s'.take p m = ⟨b, t', none⟩ ∧ t.Agree (n - m) t' := by
  obtain ⟨hd, hf, ha, hl⟩ := take_agree p h hm
  rw [ht] at hd hf ha hl
  have hlen : b.length = m := hl rfl
  simp only [hlen] at ha
  refine ⟨hlen, (s'.take p m).rest, ?_, ha⟩
  rcases hx : s'.take p m with ⟨b', t', f'⟩
  rw [hx] at hd hf
  simp only at hd hf
  rw [hd, hf]

/-- How many bytes a call gives hangs on its limit, unless there are fewer. -/
lemma read_bytes {most : ℕ} (l : Option ℕ) (hmost : 0 < most) :
    ∃ k, 0 < k ∧ k ≤ most ∧ ∀ (b : Bytes) (es : List Event) (d : Option String), b ≠ [] →
      (⟨.bytes b l :: es, d⟩ : Source).read most =
        (.chunk (b.take k), ⟨if k < b.length then .bytes (b.drop k) l :: es else es, d⟩) := by
  have hrest (k : ℕ) (b : Bytes) (l : Option ℕ) (es : List Event) :
      (if b.length ≤ k then es else .bytes (b.drop k) l :: es) =
        if k < b.length then .bytes (b.drop k) l :: es else es := by
    split_ifs <;> first | rfl | omega
  cases l with
  | none =>
    refine ⟨most, hmost, Nat.le_refl _, fun b es d hb => ?_⟩
    obtain ⟨x, xs, rfl⟩ := List.exists_cons_of_ne_nil hb
    simp only [read, readEvents, hrest]
  | some v =>
    refine ⟨min (max v 1) most, by omega, by omega, fun b es d hb => ?_⟩
    obtain ⟨x, xs, rfl⟩ := List.exists_cons_of_ne_nil hb
    simp only [read, readEvents, hrest]

lemma read_agree {most n : ℕ} {s s' : Source} (h : s.Agree n s') (hpos : 0 < most)
    (hm : most ≤ n) :
    (∃ b t t', s.read most = (.chunk b, t) ∧ s'.read most = (.chunk b, t') ∧
        t.Agree (n - b.length) t') ∨
      ∃ f t t', s.read most = (.failed f, t) ∧ s'.read most = (.failed f, t') ∧ t.Agree n t' := by
  rcases s with ⟨es, d⟩
  rcases s' with ⟨es', d'⟩
  simp only [Agree] at h
  induction h with
  | done => omega
  | @within n b b' l es es' hb hb' ht =>
    obtain ⟨k, hk, hkm, hread⟩ := read_bytes l hpos
    have hb₀ : b ≠ [] := List.ne_nil_of_length_pos (by omega)
    have hb₁ : b' ≠ [] := List.ne_nil_of_length_pos (by omega)
    have hmin : min k n = k := by omega
    have htk : b'.take k = b.take k := by
      rw [← hmin, ← List.take_take, ← List.take_take, ht]
    refine .inl ⟨b.take k, _, _, hread b es d hb₀, by rw [hread b' es' d' hb₁, htk], ?_⟩
    have hlen : (b.take k).length = k := by simp; omega
    rw [hlen]
    exact agree_drop l es es' hb hb' ht (by omega)
  | @bytes n b l es es' h ih =>
    rcases eq_or_ne b [] with rfl | hb
    · simp only [List.length_nil, Nat.zero_add, read_bytes_nil] at hm ⊢
      exact ih hm
    · obtain ⟨k, hk, hkm, hread⟩ := read_bytes l hpos
      refine .inl ⟨b.take k, _, _, hread b es d hb, hread b es' d' hb, ?_⟩
      simp only [Agree, List.length_take]
      split_ifs with hlt
      · have he : b.length + n - min k b.length = (b.drop k).length + n := by simp; omega
        rw [he]
        exact .bytes _ l h
      · have he : b.length + n - min k b.length = n := by omega
        rw [he]
        exact h
  | @fault n f es es' h ih => exact .inr ⟨f, ⟨es, d⟩, ⟨es', d'⟩, rfl, rfl, h⟩

end Source

namespace Tar
namespace Content

/-- Content of two archives that are delivered alike up to the position `n`. -/
structure Agree (n : ℕ) (c c' : Content) : Prop where
  pieces : c'.pieces = c.pieces
  position : c'.position = c.position
  source : c.source.Agree (n - c.position) c'.source

lemma read_agree {most n : ℕ} (hmost : 0 < most) {c c' : Content} (h : c.Agree n c')
    (hb : c.IsBounded) (hr : c.reach ≤ n) :
    (c'.read most).1 = (c.read most).1 ∧ (c.read most).2.Agree n (c'.read most).2 := by
  rcases c with ⟨ps, s, k⟩
  rcases c' with ⟨ps', s', k'⟩
  obtain ⟨rfl, rfl, hs⟩ := h
  simp only [read, reach, stored] at hs hr ⊢
  induction ps' with
  | nil => exact ⟨rfl, rfl, rfl, hs⟩
  | cons p ps ih =>
    cases p with
    | rest => exact absurd (List.mem_cons_self ..) hb
    | gap m =>
      simp only [readPieces]
      split_ifs
      · exact ih (hb.tail s k') hr
      · exact ⟨rfl, rfl, rfl, hs⟩
    | stored m =>
      simp only [Piece.total] at hr
      simp only [readPieces]
      split_ifs
      · exact ih (hb.tail s k') (by omega)
      · rcases Source.read_agree hs (show 0 < min m most by omega) (by omega) with
          ⟨b, t, t', h₁, h₂, ha⟩ | ⟨f, t, t', h₁, h₂, ha⟩ <;> simp only [h₁, h₂]
        · refine ⟨trivial, rfl, rfl, ?_⟩
          simp only [← Nat.sub_sub]
          exact ha
        · exact ⟨trivial, rfl, rfl, ha⟩

/-- Content that ends before the position is read to its end alike. -/
lemma drain_agree {n : ℕ} {c c' c₁ : Content} {b : Bytes} (h : c.Agree n c') (hb : c.IsBounded)
    (hr : c.reach ≤ n) (hd : c.drain = .ok (b, c₁)) :
    ∃ c₁', c'.drain = .ok (b, c₁') ∧ c₁.Agree n c₁' := by
  rcases c with ⟨ps, s, k⟩
  rcases c' with ⟨ps', s', k'⟩
  obtain ⟨rfl, rfl, hs⟩ := h
  simp only [reach, stored] at hs hr
  induction ps' generalizing s s' k' b with
  | nil =>
    obtain ⟨rfl, rfl⟩ := by simpa using hd
    exact ⟨_, drain_nil s' k', rfl, rfl, hs⟩
  | cons p ps ih =>
    cases p with
    | rest => exact absurd (List.mem_cons_self ..) hb
    | gap m =>
      rw [drain_gap] at hd ⊢
      rcases hx : drain ⟨ps, s, k'⟩ with f | ⟨b₁, c₂⟩ <;> rw [hx] at hd
      · simp at hd
      · obtain ⟨rfl, rfl⟩ := by simpa using hd
        obtain ⟨c₁', hd', ha⟩ := ih s s' k' (hb.tail s k') hr hx hs
        exact ⟨c₁', by rw [hd']; rfl, ha⟩
    | stored m =>
      simp only [Piece.total] at hr
      obtain ⟨hdata, hfault, ha, hlen⟩ := Source.take_agree true hs (show m ≤ n - k' by omega)
      rw [drain_stored] at hd ⊢
      rw [hfault, hdata]
      cases hf : (s.take true m).fault with
      | some f => simp [hf] at hd
      | none =>
        simp only [hf] at hd ⊢
        have hl := hlen hf
        rcases hx : drain ⟨ps, (s.take true m).rest, k' + (s.take true m).data.length⟩ with
          f | ⟨b₁, c₂⟩ <;> rw [hx] at hd
        · simp at hd
        · obtain ⟨rfl, rfl⟩ := by simpa using hd
          obtain ⟨c₁', hd', ha'⟩ := ih (s.take true m).rest (s'.take true m).rest
            (k' + (s.take true m).data.length) (hb.tail _ _) (by omega) hx
            (by rw [← Nat.sub_sub]; exact ha)
          exact ⟨c₁', by rw [hd']; rfl, ha'⟩

end Content

lemma copy_agree {n : ℕ} (count : ℕ) (d : Device) {c c' : Content} (h : c.Agree n c')
    (hb : c.IsBounded) (hr : c.reach ≤ n) :
    ∃ d₁ c₁ c₁' x, copy c.calls count d c = (d₁, c₁, x) ∧
      copy c'.calls count d c' = (d₁, c₁', x) ∧ c₁.Agree n c₁' := by
  induction hn : c.calls using Nat.strongRecOn generalizing count d c c' with
  | ind m ih =>
    have hpos : 0 < chunkSize := by decide
    have hex := Content.explains_read hpos c
    obtain ⟨hsame, hagree⟩ := Content.read_agree hpos h hb hr
    obtain ⟨hb₁, hr₁, -⟩ := Content.read_leaves hpos hb
    rw [← hn, copy_eq, copy_eq]
    rcases hx : c.read chunkSize with ⟨x, c₁⟩
    rcases hx' : c'.read chunkSize with ⟨x', c₁'⟩
    simp only [hx, hx'] at hsame hagree hex hb₁ hr₁
    subst hsame
    rcases x' with b | _ | f <;> simp only
    · rcases d.write b with ⟨d₁, _ | e⟩
      · exact ih _ (hn ▸ hex.2.2) (count + b.length) d₁ hagree hb₁ (hr₁.trans hr) rfl
      · exact ⟨d₁, c₁, c₁', _, rfl, rfl, hagree⟩
    · exact ⟨d, c₁, c₁', _, rfl, rfl, hagree⟩
    · simp only [Content.Explains] at hex
      split_ifs at hex ⊢
      · exact ih _ (hn ▸ hex.2) count d hagree hb₁ (hr₁.trans hr) rfl
      · exact ⟨d, c₁, c₁', _, rfl, rfl, hagree⟩

/-- An entry whose content ends before the position is written alike. -/
lemma writeEntry_agree {n : ℕ} (d : Device) (h : Header) (p : String) (records : List Pax.Record)
    {c c' : Content} (ha : c.Agree n c') (hb : c.IsBounded) (hr : c.reach ≤ n) :
    ∃ d₁ c₁ c₁' x, writeEntry d h p records c = (d₁, c₁, x) ∧
      writeEntry d h p records c' = (d₁, c₁', x) ∧ c₁.Agree n c₁' := by
  rw [writeEntry_eq, writeEntry_eq]
  rcases d.writeAll (frontCalls h p records).1 with ⟨d₁, _ | m⟩ <;> simp only
  · rcases (frontCalls h p records).2 with _ | e <;> simp only
    · obtain ⟨d₂, c₁, c₁', x, h₁, h₂, h₃⟩ := copy_agree 0 d₁ ha hb hr
      rw [h₁, h₂]
      cases x with
      | complete k =>
        simp only [padCopied]
        rcases d₂.write (zeros (padding k)) with ⟨d₃, _ | m⟩ <;>
          exact ⟨d₃, c₁, c₁', _, rfl, rfl, h₃⟩
      | refused m => exact ⟨d₂, c₁, c₁', _, rfl, rfl, h₃⟩
      | unreadable m => exact ⟨d₂, c₁, c₁', _, rfl, rfl, h₃⟩
    · exact ⟨d₁, c, c', _, rfl, rfl, ha⟩
  · exact ⟨d₁, c, c', _, rfl, rfl, ha⟩

end Tar

end LayerPick
