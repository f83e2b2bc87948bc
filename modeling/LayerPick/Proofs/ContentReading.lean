import LayerPick.Proofs.SourceReading
import LayerPick.Tar.Writer

/-!
# Reading the content of an entry

Reading content call by call and reading it to its end go together: what calls have given is the
beginning of what there is, and the rest is where reading goes on. So whatever has been read of some
content, and however, the content behind it stands at the same place: `drain` tells that place.

Every call that gives something comes closer to the end. That bounds the number of calls, so that
copying content is a plain recursion on it.
-/
namespace LayerPick.Tar
namespace Content

/-- Content with some bytes read before it. -/
def after (b : Bytes) (r : Except Fault (Bytes × Content)) : Except Fault (Bytes × Content) :=
  r.map fun x => (b ++ x.1, x.2)

@[simp] lemma after_ok (b : Bytes) (x : Bytes × Content) :
    after b (.ok x) = .ok (b ++ x.1, x.2) := rfl

@[simp] lemma after_error (b : Bytes) (f : Fault) : after b (.error f) = .error f := rfl

@[simp] lemma after_nil (r : Except Fault (Bytes × Content)) : after [] r = r := by
  cases r <;> rfl

lemma after_after (a b : Bytes) (r : Except Fault (Bytes × Content)) :
    after a (after b r) = after (a ++ b) r := by
  cases r <;> simp

lemma drainPieces_got (s : Source) (k : ℕ) (ps : List Piece) (got : List Bytes) :
    drainPieces s k ps got =
      (((got.reverse.flatten ++ (drainPieces s k ps []).1.1), (drainPieces s k ps []).1.2),
        (drainPieces s k ps []).2) := by
  induction ps generalizing s k got with
  | nil => simp [drainPieces]
  | cons p ps ih =>
    cases p with
    | gap n =>
      simp only [drainPieces]
      rw [ih s k (zeros n :: got), ih s k [zeros n]]
      simp
    | stored n =>
      simp only [drainPieces]
      split
      · rw [ih _ _ (_ :: got), ih _ _ [_]]
        simp
      · simp
    | rest =>
      simp only [drainPieces]
      split
      · rw [ih _ _ (_ :: got), ih _ _ [_]]
        simp
      · simp

@[simp] lemma drain_nil (s : Source) (k : ℕ) : drain ⟨[], s, k⟩ = .ok ([], ⟨[], s, k⟩) := rfl

lemma drain_gap (n : ℕ) (ps : List Piece) (s : Source) (k : ℕ) :
    drain ⟨.gap n :: ps, s, k⟩ = after (zeros n) (drain ⟨ps, s, k⟩) := by
  simp only [drain, drainPieces]
  rw [drainPieces_got]
  rcases drainPieces s k ps [] with ⟨⟨b, c⟩, _ | f⟩ <;> simp

lemma drain_stored (n : ℕ) (ps : List Piece) (s : Source) (k : ℕ) :
    drain ⟨.stored n :: ps, s, k⟩ =
      match (s.take true n).fault with
      | none => after (s.take true n).data
          (drain ⟨ps, (s.take true n).rest, k + (s.take true n).data.length⟩)
      | some f => .error f := by
  simp only [drain, drainPieces]
  cases (s.take true n).fault with
  | none =>
    simp only
    rw [drainPieces_got]
    rcases drainPieces _ _ ps [] with ⟨⟨b, c⟩, _ | f⟩ <;> simp
  | some f => rfl

lemma drain_rest (ps : List Piece) (s : Source) (k : ℕ) :
    drain ⟨.rest :: ps, s, k⟩ =
      match (s.drain true).fault with
      | none => after (s.drain true).data
          (drain ⟨ps, (s.drain true).rest, k + (s.drain true).data.length⟩)
      | some f => .error f := by
  simp only [drain, drainPieces]
  cases (s.drain true).fault with
  | none =>
    simp only
    rw [drainPieces_got]
    rcases drainPieces _ _ ps [] with ⟨⟨b, c⟩, _ | f⟩ <;> simp
  | some f => rfl

/-- What one call says about reading to the end. -/
def Explains (c : Content) : Reading × Content → Prop
  | (.chunk b, c') => 0 < b.length ∧ c.drain = after b c'.drain ∧ c'.calls < c.calls
  | (.ended, c') => c.drain = .ok ([], c')
  | (.failed f, c') =>
    if f.transient then c.drain = c'.drain ∧ c'.calls < c.calls else c.drain = .error f

lemma extent_cons (p : Piece) (ps : List Piece) (s : Source) (k : ℕ) :
    extent ⟨p :: ps, s, k⟩ = pieceExtent s p + extent ⟨ps, s, k⟩ := rfl

lemma extent_mono (ps : List Piece) {s s' : Source} (k k' : ℕ) (h : s'.length ≤ s.length) :
    extent ⟨ps, s', k'⟩ ≤ extent ⟨ps, s, k⟩ := by
  induction ps with
  | nil => simp [extent]
  | cons p ps ih =>
    rw [extent_cons, extent_cons]
    cases p <;> simp only [pieceExtent] <;> omega

lemma Explains.of_drain_eq {c c₀ : Content} {r : Reading × Content} (h : Explains c₀ r)
    (hd : c.drain = c₀.drain) (hc : c₀.calls ≤ c.calls) : Explains c r := by
  rcases r with ⟨_ | _ | f, c'⟩
  · exact ⟨h.1, hd.trans h.2.1, Nat.lt_of_lt_of_le h.2.2 hc⟩
  · exact hd.trans h
  · simp only [Explains] at h ⊢
    split_ifs at h ⊢
    · exact ⟨hd.trans h.1, Nat.lt_of_lt_of_le h.2 hc⟩
    · exact hd.trans h

lemma calls_cons_le (p : Piece) (ps : List Piece) {s s' : Source} (k : ℕ)
    (h : s'.length ≤ s.length) (hev : s'.events.length ≤ s.events.length) :
    calls ⟨ps, s', k⟩ ≤ calls ⟨p :: ps, s, k⟩ := by
  have hmono := extent_mono ps k k h
  simp only [calls, extent_cons]
  omega

lemma explains_gap {n : ℕ} {ps : List Piece} {s : Source} {k most : ℕ} (hmost : 0 < most)
    (ih : Explains ⟨ps, s, k⟩ (readPieces most s k ps)) :
    Explains ⟨.gap n :: ps, s, k⟩ (readPieces most s k (.gap n :: ps)) := by
  by_cases hn : n = 0
  · subst hn
    simp only [readPieces, if_true]
    refine ih.of_drain_eq ?_ (calls_cons_le _ ps k (Nat.le_refl _) (Nat.le_refl _))
    simp [drain_gap, zeros]
  · simp only [readPieces, if_neg hn]
    refine ⟨by simp [zeros]; omega, ?_, ?_⟩
    · rw [drain_gap, drain_gap, after_after]
      congr 1
      simp only [zeros, List.replicate_append_replicate]
      congr 1
      omega
    · simp only [calls, extent_cons, pieceExtent]
      omega

lemma explains_stored {n : ℕ} {ps : List Piece} {s : Source} {k most : ℕ} (hmost : 0 < most)
    (ih : ∀ s k, Explains ⟨ps, s, k⟩ (readPieces most s k ps)) :
    Explains ⟨.stored n :: ps, s, k⟩ (readPieces most s k (.stored n :: ps)) := by
  by_cases hzero : n = 0
  · subst hzero
    simp only [readPieces, if_true]
    refine (ih s k).of_drain_eq ?_ (calls_cons_le _ ps k (Nat.le_refl _) (Nat.le_refl _))
    simp [drain_stored]
  have hn := Nat.pos_of_ne_zero hzero
  simp only [readPieces, if_neg (Nat.ne_of_gt hn)]
  have hmin : 0 < min n most := by omega
  rcases h : s.read (min n most) with ⟨b | _ | f, s'⟩
  · obtain ⟨hpos, hle, htake, hev⟩ := Source.read_chunk hmin h
    have hlen := Source.read_chunk_length hmin h
    refine ⟨hpos, ?_, ?_⟩
    · have hsplit : n = b.length + (n - b.length) := by omega
      have hadd := Source.take_add true b.length (n - b.length) s (by rw [htake])
      rw [← hsplit, htake] at hadd
      simp only [drain_stored, hadd, Source.Taken.then]
      cases (s'.take true (n - b.length)).fault with
      | none => simp [after_after, Nat.add_assoc]
      | some f => rfl
    · have hmono := extent_mono ps k (k + b.length) (show s'.length ≤ s.length by omega)
      simp only [calls, extent_cons, pieceExtent]
      omega
  · obtain ⟨rfl, hlen, htake⟩ := Source.read_ended h
    refine (ih ⟨[], none⟩ k).of_drain_eq ?_
      (calls_cons_le _ ps k (Nat.zero_le _) (Nat.zero_le _))
    rw [drain_stored, htake true n hn]
    simp
  · obtain ⟨htake, hlen, hev, hlt⟩ := Source.read_failed h
    simp only [Explains]
    split_ifs with hf
    · refine ⟨?_, ?_⟩
      · rw [drain_stored, drain_stored, htake true n hn]
        simp [hf]
      · have hmono := extent_mono ps k k (show s'.length ≤ s.length by omega)
        have := hlt hf
        simp only [calls, extent_cons, pieceExtent]
        omega
    · rw [drain_stored, htake true n hn]
      simp [hf]

lemma explains_rest {ps : List Piece} {s : Source} {k most : ℕ} (hmost : 0 < most)
    (ih : ∀ s k, Explains ⟨ps, s, k⟩ (readPieces most s k ps)) :
    Explains ⟨.rest :: ps, s, k⟩ (readPieces most s k (.rest :: ps)) := by
  simp only [readPieces]
  rcases h : s.read most with ⟨b | _ | f, s'⟩
  · obtain ⟨hpos, hle, htake, hev⟩ := Source.read_chunk hmost h
    have hlen := Source.read_chunk_length hmost h
    refine ⟨hpos, ?_, ?_⟩
    · have hsplit : s.length + 1 = b.length + (s'.length + 1) := by omega
      have hadd := Source.take_add true b.length (s'.length + 1) s (by rw [htake])
      rw [← hsplit, htake] at hadd
      simp only [drain_rest, Source.drain, hadd, Source.Taken.then]
      cases (s'.take true (s'.length + 1)).fault with
      | none => simp [after_after, Nat.add_assoc]
      | some f => rfl
    · have hmono := extent_mono ps k (k + b.length) (show s'.length ≤ s.length by omega)
      simp only [calls, extent_cons, pieceExtent]
      omega
  · obtain ⟨rfl, hlen, htake⟩ := Source.read_ended h
    refine (ih ⟨[], none⟩ k).of_drain_eq ?_
      (calls_cons_le _ ps k (Nat.zero_le _) (Nat.zero_le _))
    rw [drain_rest, Source.drain, htake true _ (Nat.succ_pos _)]
    simp
  · obtain ⟨htake, hlen, hev, hlt⟩ := Source.read_failed h
    simp only [Explains]
    split_ifs with hf
    · refine ⟨?_, ?_⟩
      · rw [drain_rest, drain_rest, Source.drain, Source.drain, htake true _ (Nat.succ_pos _),
          hlen]
        simp [hf]
      · have hmono := extent_mono ps k k (show s'.length ≤ s.length by omega)
        have := hlt hf
        simp only [calls, extent_cons, pieceExtent]
        omega
    · rw [drain_rest, Source.drain, htake true _ (Nat.succ_pos _)]
      simp [hf]

lemma explains_read {most : ℕ} (hmost : 0 < most) (c : Content) : Explains c (c.read most) := by
  rcases c with ⟨ps, s, k⟩
  simp only [read]
  induction ps generalizing s k with
  | nil => rfl
  | cons p ps ih =>
    cases p with
    | gap n => exact explains_gap hmost (ih s k)
    | stored n => exact explains_stored hmost ih
    | rest => exact explains_rest hmost ih

end Content

lemma calls_pos (c : Content) : 0 < c.calls := by simp [Content.calls]

lemma copy_tries {m n : ℕ} (count : ℕ) (d : Device) {c : Content} (hm : c.calls ≤ m)
    (hn : c.calls ≤ n) : copy m count d c = copy n count d c := by
  have hpos := calls_pos c
  induction m generalizing n count d c with
  | zero => omega
  | succ m ih =>
    obtain ⟨n, rfl⟩ : ∃ k, n = k + 1 := ⟨n - 1, by omega⟩
    have hex := Content.explains_read (show 0 < chunkSize by decide) c
    simp only [copy]
    rcases hr : c.read chunkSize with ⟨b | _ | f, c'⟩ <;> rw [hr] at hex <;> simp only
    · have hlt := hex.2.2
      rcases d.write b with ⟨d', _ | m'⟩
      · exact ih _ _ (by omega) (by omega) (calls_pos c')
      · rfl
    · simp only [Content.Explains] at hex
      split_ifs at hex ⊢
      · have hlt := hex.2
        exact ih _ _ (by omega) (by omega) (calls_pos c')
      · rfl

lemma copy_eq (count : ℕ) (d : Device) (c : Content) :
    copy c.calls count d c =
      match c.read chunkSize with
      | (.ended, c') => (d, c', .complete count)
      | (.failed f, c') =>
        if f.transient then copy c'.calls count d c' else (d, c', .unreadable f.message)
      | (.chunk b, c') =>
        match d.write b with
        | (d', some m) => (d', c', .refused m)
        | (d', none) => copy c'.calls (count + b.length) d' c' := by
  have hex := Content.explains_read (show 0 < chunkSize by decide) c
  obtain ⟨n, hn⟩ : ∃ n, c.calls = n + 1 := ⟨c.calls - 1, by have := calls_pos c; omega⟩
  rw [hn]
  simp only [copy]
  rcases hr : c.read chunkSize with ⟨b | _ | f, c'⟩ <;> rw [hr] at hex <;> simp only
  · have hlt := hex.2.2
    rcases d.write b with ⟨d', _ | m'⟩
    · exact copy_tries _ _ (by omega) (Nat.le_refl _)
    · rfl
  · simp only [Content.Explains] at hex
    split_ifs at hex ⊢
    · have hlt := hex.2
      exact copy_tries _ _ (by omega) (Nat.le_refl _)
    · rfl

/-- What the end of copying says about reading content `c` to its end, where `c'` is left of it: a
complete copy has read all of it, a refused one leaves off where the rest is still to come, and an
unreadable one fails as reading does. -/
def Copied.Explains (count : ℕ) (c c' : Content) : Copied → Prop
  | .complete n => ∃ b, c.drain = .ok (b, c') ∧ n = count + b.length
  | .refused _ => ∃ b, c.drain = Content.after b c'.drain
  | .unreadable m => ∃ f, c.drain = .error f ∧ f.message = m

lemma explains_copy {count : ℕ} {d d' : Device} {c c' : Content} {r : Copied}
    (h : copy c.calls count d c = (d', c', r)) : r.Explains count c c' := by
  induction hn : c.calls using Nat.strongRecOn generalizing count d c with
  | ind n ih =>
    have hex := Content.explains_read (show 0 < chunkSize by decide) c
    rw [copy_eq] at h
    rcases hr : c.read chunkSize with ⟨b | _ | f, c₁⟩ <;> rw [hr] at hex h <;> simp only at h
    · obtain ⟨-, hdrain, hlt⟩ := hex
      rcases hw : d.write b with ⟨d₁, _ | m⟩ <;> rw [hw] at h <;> simp only at h
      · have h₁ := ih _ (hn ▸ hlt) h rfl
        cases r with
        | complete n =>
          obtain ⟨b₁, hb₁, rfl⟩ := h₁
          exact ⟨b ++ b₁, by rw [hdrain, hb₁]; rfl, by simp [Nat.add_assoc]⟩
        | refused m =>
          obtain ⟨b₁, hb₁⟩ := h₁
          exact ⟨b ++ b₁, by rw [hdrain, hb₁, Content.after_after]⟩
        | unreadable m =>
          obtain ⟨f, hf, hm⟩ := h₁
          exact ⟨f, by rw [hdrain, hf]; rfl, hm⟩
      · obtain ⟨-, rfl, rfl⟩ := by simpa only [Prod.mk.injEq] using h
        exact ⟨b, hdrain⟩
    · obtain ⟨-, rfl, rfl⟩ := by simpa only [Prod.mk.injEq] using h
      exact ⟨[], hex, by simp⟩
    · simp only [Content.Explains] at hex
      split_ifs at hex h with hf
      · have h₁ := ih _ (hn ▸ hex.2) h rfl
        cases r <;> simp only [Copied.Explains, hex.1] at h₁ ⊢ <;> exact h₁
      · obtain ⟨-, rfl, rfl⟩ := by simpa only [Prod.mk.injEq] using h
        exact ⟨f, hex, rfl⟩

end LayerPick.Tar
