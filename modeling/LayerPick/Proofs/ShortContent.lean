import LayerPick.Proofs.EntryReading
import LayerPick.Proofs.EntryWriting

/-!
# Content that falls short

An entry announces how many bytes it holds. Content that cannot be read, or ends before that, stops
its reader for good: however much of it has been read, and in which calls, no other header is found
behind it.

Content that can be skipped is all there. It can be read to its end, and it does not matter for what
follows how much of it was read before the rest is skipped.
-/
namespace LayerPick

lemma Source.take_short {p : Bool} {n : ℕ} {s : Source} (hf : (s.take p n).fault = none)
    (hn : (s.take p n).data.length < n) : (s.take p n).rest.length = 0 := by
  rcases s with ⟨es, d⟩
  induction es generalizing n with
  | nil =>
    rw [take_nil p d (by omega)]
    rfl
  | cons e es ih =>
    have hpos : 0 < n := by omega
    cases e with
    | bytes b l =>
      by_cases hb : n < b.length
      · rw [take_bytes_of_lt p b l es d hpos hb, List.length_take] at hn
        omega
      · rw [take_bytes_of_le p b l es d hpos (by omega)] at hf hn ⊢
        simp only [Taken.then, List.length_append] at hf hn ⊢
        exact ih hf (by omega)
    | fault f =>
      rw [take_fault p f es d hpos] at hf hn ⊢
      split_ifs at hf hn ⊢
      exact ih hf hn

namespace Tar

namespace Content

/-- How many bytes the content still delivers. -/
def span (c : Content) : ℕ := Piece.span c.pieces

/-- Reading the content to its end does not give `n` bytes. -/
def FallsShort (c : Content) (n : ℕ) : Prop := ∀ b c', c.drain = .ok (b, c') → b.length < n

lemma drain_length {c c' : Content} {b : Bytes} (hc : c.IsBounded) (h : c.drain = .ok (b, c')) :
    b.length + c.reach = c.span + c'.position := by
  rcases c with ⟨ps, s, k⟩
  simp only [reach, stored, span]
  induction ps generalizing s k b with
  | nil =>
    obtain ⟨rfl, rfl⟩ := by simpa using h
    simp [Piece.total, Piece.span]
  | cons p ps ih =>
    cases p with
    | rest => exact absurd (List.mem_cons_self ..) hc
    | gap n =>
      rw [drain_gap] at h
      rcases hd : drain ⟨ps, s, k⟩ with f | ⟨b₁, c₁⟩ <;> rw [hd] at h
      · simp at h
      obtain ⟨rfl, rfl⟩ := by simpa using h
      have := ih s k (hc.tail s k) hd
      simp only [Piece.total, Piece.span, List.length_append, zeros, List.length_replicate]
      omega
    | stored n =>
      rw [drain_stored] at h
      cases hf : (s.take true n).fault with
      | some f => simp [hf] at h
      | none =>
        simp only [hf] at h
        rcases hd : drain ⟨ps, (s.take true n).rest, k + (s.take true n).data.length⟩ with
          f | ⟨b₁, c₁⟩ <;> rw [hd] at h
        · simp at h
        obtain ⟨rfl, rfl⟩ := by simpa using h
        have := ih _ _ (hc.tail _ _) hd
        simp only [Piece.total, Piece.span, List.length_append]
        omega

lemma length_le_span {c c' : Content} {b : Bytes} (hc : c.IsBounded)
    (h : c.drain = .ok (b, c')) : b.length ≤ c.span := by
  have hlen := drain_length hc h
  have hpos := (drain_ok hc h).2.1
  omega

/-- Content that ends early has the end of the stream behind it. -/
lemma drain_position {c c' : Content} {b : Bytes} (hc : c.IsBounded) (h : c.drain = .ok (b, c')) :
    c'.position = c.reach ∨ c'.source.length = 0 := by
  rcases c with ⟨ps, s, k⟩
  simp only [reach, stored]
  induction ps generalizing s k b with
  | nil =>
    obtain ⟨-, rfl⟩ := by simpa using h
    exact .inl rfl
  | cons p ps ih =>
    cases p with
    | rest => exact absurd (List.mem_cons_self ..) hc
    | gap n =>
      rw [drain_gap] at h
      rcases hd : drain ⟨ps, s, k⟩ with f | ⟨b₁, c₁⟩ <;> rw [hd] at h
      · simp at h
      obtain ⟨-, rfl⟩ := by simpa using h
      exact ih s k (hc.tail s k) hd
    | stored n =>
      rw [drain_stored] at h
      cases hf : (s.take true n).fault with
      | some f => simp [hf] at h
      | none =>
        simp only [hf] at h
        rcases hd : drain ⟨ps, (s.take true n).rest, k + (s.take true n).data.length⟩ with
          f | ⟨b₁, c₁⟩ <;> rw [hd] at h
        · simp at h
        obtain ⟨-, rfl⟩ := by simpa using h
        by_cases hn : (s.take true n).data.length < n
        · have hrest := Source.take_short hf hn
          have hle := (drain_ok (hc.tail _ _) hd).2.2
          simp only at hle
          exact .inr (by omega)
        · have hle := Source.take_data_le true n s
          obtain hn : (s.take true n).data.length = n := by omega
          have hpos := ih _ _ (hc.tail _ _) hd
          rw [hn] at hpos
          simpa [Piece.total, Nat.add_assoc] using hpos

end Content

namespace Reader

lemma nextFrom?_span {n : ℕ} {d : Described} {r r' : Reader} {e : Entry}
    (h : nextFrom? n d r = .ok (some (e, r'))) : r'.content.span = e.size := by
  induction n generalizing d r with
  | zero => simp [nextFrom?] at h
  | succ n ih =>
    obtain ⟨hd, size, r₁, hm, ⟨-, -, data, c, -, hn⟩ | ⟨-, he⟩⟩ := nextFrom?_some.mp h
    · exact ih hn
    · obtain ⟨b, s, -, -, -, -, rfl⟩ := nextMember?_some.mp hm
      simp only [entryAt] at he
      split_ifs at he
      · obtain ⟨⟨ps, full, c, k⟩, hp, he⟩ := bind_ok.mp he
        obtain ⟨rfl, rfl⟩ := Prod.mk.inj (Except.ok.inj he)
        exact sparsePieces_span hp
      · obtain ⟨rfl, rfl⟩ := Prod.mk.inj (Except.ok.inj he)
        rfl

lemma next?_span {r r' : Reader} {e : Entry} (h : r.next? = .ok (some (e, r'))) :
    r'.content.span = e.size := nextFrom?_span h

/-- Behind content that falls short there is no other header to be found. -/
lemma next?_fallsShort {r : Reader} {c : Content} {b : Bytes} (hr : r.Proper)
    (hshort : r.content.FallsShort r.content.span) (hl : r.content.Leaves c)
    (hd : r.content.drain = Content.after b c.drain) :
    ∃ err, next? { r with content := c } = .error err := by
  cases hx : next? { r with content := c } with
  | error err => exact ⟨err, rfl⟩
  | ok x =>
    exfalso
    obtain ⟨b₁, c₁, hd₁, hx₁⟩ := next?_drained (hr.at hl) hx
    simp only at hd₁ hx₁
    rw [hd₁, Content.after_ok] at hd
    simp only at hd
    have hlt := hshort _ _ hd
    have hlen := Content.drain_length hr.bounded hd
    have hreach := hr.reach
    have hempty : c₁.source.length = 0 :=
      (Content.drain_position hr.bounded hd).resolve_left (by omega)
    obtain ⟨c₂, hskip⟩ := skip_of_next? hx₁
    obtain ⟨-, -, hskipped⟩ := (skip_ok (by exact hr.isStream)).mp hskip
    have htake := Source.take_length false (r.next - c₁.position) c₁.source
    simp only at hskipped
    omega

/-- A call on content that can be skipped gives a chunk, and leaves the rest to be skipped. -/
lemma skip_read {c x : Content} {most n : ℕ} (hmost : 0 < most) (hc : c.IsBounded)
    (hn : c.reach ≤ n) (h : skip ⟨c, n, false⟩ = .ok x) :
    skip ⟨(c.read most).2, n, false⟩ = .ok x := by
  rcases c with ⟨ps, s, k⟩
  simp only [Content.read]
  induction ps with
  | nil => exact h
  | cons p ps ih =>
    cases p with
    | rest => exact absurd (List.mem_cons_self ..) hc
    | gap m =>
      simp only [Content.readPieces]
      split_ifs
      · exact ih (hc.tail s k) hn h
      · exact h
    | stored m =>
      simp only [Content.readPieces]
      split_ifs with hm
      · refine ih (hc.tail s k) (hn.trans' ?_) h
        simp [Content.reach, Content.stored, Piece.total, hm]
      · simp only [Content.reach, Content.stored, Piece.total] at hn
        obtain ⟨rfl, hf, hl⟩ := (skip_ok rfl).mp h
        simp only at hf hl
        have hmin : 0 < min m most := by omega
        rcases hread : s.read (min m most) with ⟨b | _ | f, s'⟩
        · obtain ⟨-, hle, htake, -⟩ := Source.read_chunk hmin hread
          obtain ⟨i, hi⟩ : ∃ i, n - k = b.length + i := ⟨n - k - b.length, by omega⟩
          have hadd := Source.take_add false b.length i s (by rw [htake])
          rw [← hi, htake] at hadd
          simp only [Source.Taken.then] at hadd
          have he : n - (k + b.length) = i := by omega
          rw [hadd] at hf hl
          simp only [List.length_append] at hf hl
          refine (skip_ok rfl).mpr ⟨?_, ?_, ?_⟩
          · simp only [hadd, he]
          · simpa only [he] using hf
          · simp only [he]
            omega
        · have htake := (Source.read_ended hread).2.2 false (n - k) (by omega)
          rw [htake] at hl
          simp only [List.length_nil] at hl
          omega
        · have htake := (Source.read_failed hread).1 false (n - k) (by omega)
          rw [htake] at hf
          simp at hf

lemma skip_copy {c x : Content} {n : ℕ} (count : ℕ) (d : Device) (hc : c.IsBounded)
    (hn : c.reach ≤ n) (h : skip ⟨c, n, false⟩ = .ok x) :
    skip ⟨(copy c.calls count d c).2.1, n, false⟩ = .ok x := by
  induction hm : c.calls using Nat.strongRecOn generalizing count d c with
  | ind m ih =>
    have hex := Content.explains_read (show 0 < chunkSize by decide) c
    have hl := Content.read_leaves (show 0 < chunkSize by decide) hc
    have hskip := skip_read (show 0 < chunkSize by decide) hc hn h
    rw [← hm, copy_eq]
    rcases hr : c.read chunkSize with ⟨b | _ | f, c₁⟩ <;> rw [hr] at hex hl hskip <;> simp only
    · rcases d.write b with ⟨d₁, _ | m'⟩
      · exact ih _ (hm ▸ hex.2.2) (count + b.length) d₁ hl.bounded (hl.reach.trans hn) hskip rfl
      · exact hskip
    · exact hskip
    · simp only [Content.Explains] at hex
      split_ifs at hex ⊢
      · exact ih _ (hm ▸ hex.2) count d hl.bounded (hl.reach.trans hn) hskip rfl
      · exact hskip

lemma skip_writeEntry {d d' : Device} {h : Header} {p : String} {records : List Pax.Record}
    {c c' x : Content} {r : Copied} {n : ℕ} (hc : c.IsBounded) (hn : c.reach ≤ n)
    (hw : writeEntry d h p records c = (d', c', r)) (hs : skip ⟨c, n, false⟩ = .ok x) :
    skip ⟨c', n, false⟩ = .ok x := by
  rcases writeEntry_cases hw with ⟨rfl, -⟩ | ⟨d₁, d₂, r₁, hcopy, -⟩
  · exact hs
  · have h := skip_copy 0 d₁ hc hn hs
    rw [hcopy] at h
    exact h

lemma drain_of_next? {r : Reader} {x : Option (Entry × Reader)} (hr : r.Proper)
    (h : r.next? = .ok x) :
    ∃ b c, r.content.drain = .ok (b, c) ∧ b.length = r.content.span := by
  obtain ⟨c, hc⟩ := skip_of_next? h
  obtain ⟨-, hf, hl⟩ := (skip_ok hr.isStream).mp hc
  have hreach := hr.reach
  simp only [Content.reach] at hreach
  obtain ⟨b, s', u, hd, -⟩ := Content.drain_of_take hr.bounded (by omega) hf hl
  have hlen := Content.drain_length hr.bounded hd
  refine ⟨b, _, hd, ?_⟩
  simp only at hlen
  omega

end Reader

end Tar

end LayerPick
