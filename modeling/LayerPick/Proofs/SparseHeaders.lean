import LayerPick.Proofs.CalmReading
import LayerPick.Proofs.PathFields

/-!
# What a reader makes of what is stored

A sparse file is stored without its gaps, and more of its map may stand between its header and its
data. If the map is all in the header, the header alone says what a reader makes of the bytes behind
it: how many are stored, and how many there are with the gaps. For a header of another kind the two
are the same, and then the content stands behind the header as it is read.

This stays so when the header takes another path, since what a GNU header says of a sparse file is
kept apart from its path.
-/
namespace LayerPick.Tar

/-- Of so many bytes in the archive the pieces deliver so many, with the gaps. -/
structure Piece.Cover (ps : List Piece) (n full : ℕ) : Prop where
  bounded : Piece.rest ∉ ps
  total : Piece.total ps = n
  span : Piece.span ps = full

/-- Of `n` bytes behind the header, and nothing else, a reader makes content of `full` bytes. -/
def Header.Yields (h : Header) (n full : ℕ) : Prop :=
  if h.kind = .sparse then ∃ ps, ∀ c, sparsePieces h n c = .ok (ps, full, c, 0) else full = n

section Yields

variable {h h' : Header} {n full k : ℕ} {c c' : Content} {ps : List Piece}

lemma Header.yields_of_ne (hk : h.kind ≠ .sparse) (n : ℕ) : h.Yields n n := by
  simp [Yields, hk]

/-- A map that is all in the header does not hang on what stands behind it. -/
lemma sparsePieces_whole (hform : h'.form = h.form) (htail : h'.tail = h.tail)
    (hwhole : h.sparseContinues = false) (hs : sparsePieces h n c = .ok (ps, full, c', k))
    (c₁ : Content) : sparsePieces h' n c₁ = .ok (ps, full, c₁, 0) := by
  obtain ⟨hg, m₁, m₂, h₁, h₂, hreal, hreached, hunclaimed, rfl⟩ := sparsePieces_iff.mp hs
  have hsame : h'.sparseEntries = h.sparseEntries ∧ h'.sparseSize = h.sparseSize ∧
      h'.sparseContinues = false := by
    simp only [Header.sparseEntries, Header.sparseSize, htail, true_and]
    rw [← hwhole]
    simp only [Header.sparseContinues, htail]
  obtain ⟨hentries, hsize, hwhole'⟩ := hsame
  obtain ⟨rfl, -⟩ : m₁ = m₂ ∧ _ := by
    simpa only [SparseMap.addRest, hwhole, Bool.false_eq_true, if_false, Except.ok.injEq,
      Prod.mk.injEq] using h₂
  rw [sparsePieces_iff]
  refine ⟨hform.trans hg, m₁, m₁, hentries ▸ h₁, ?_, hsize ▸ hreal, hreached, hunclaimed, rfl⟩
  simp only [SparseMap.addRest, hwhole', Bool.false_eq_true, if_false]

lemma Header.yields_of_sparsePieces (hwhole : h.sparseContinues = false) (hk : h.kind = .sparse)
    (hs : sparsePieces h n c = .ok (ps, full, c', k)) : h.Yields n full := by
  rw [Yields, if_pos hk]
  exact ⟨ps, sparsePieces_whole rfl rfl hwhole hs⟩

/-- What a reader makes of the bytes behind a header does not hang on its path. -/
lemma Header.Yields.congr (hy : h.Yields n full) (hkind : h'.kind = h.kind)
    (hform : h'.form = h.form) (htail : h.form = .gnu → h'.tail = h.tail) : h'.Yields n full := by
  unfold Yields at hy ⊢
  rw [hkind]
  by_cases hk : h.kind = .sparse
  · rw [if_pos hk] at hy ⊢
    obtain ⟨ps, hps⟩ := hy
    have hempty := hps ⟨[], ⟨[], none⟩, 0⟩
    obtain ⟨hg, m₁, m₂, -, hrest, -⟩ := sparsePieces_iff.mp hempty
    have hwhole : h.sparseContinues = false := by
      by_contra hc
      rw [SparseMap.addRest, if_pos (by simpa using hc)] at hrest
      obtain ⟨b, s, m, htake, hlen, -⟩ := SparseMap.addBlocks_ok.mp hrest
      rw [Source.take_nil false none (by decide)] at htake
      obtain ⟨rfl, -⟩ := by simpa only [Source.Taken.mk.injEq] using htake
      simp [blockSize] at hlen
    exact ⟨ps, sparsePieces_whole hform (htail hg) hwhole hempty⟩
  · rw [if_neg hk] at hy ⊢
    exact hy

end Yields

namespace Reader

/-- The entry of a header, with the content that a reader makes of the bytes behind it. -/
lemma entryAt_yields {h : Header} {n full : ℕ} (hy : h.Yields n full) (d : Described) (s : Source)
    (k next : ℕ) (f : Bool) :
    ∃ ps, Piece.Cover ps n full ∧
      entryAt d h n ⟨⟨[.stored n], s, k⟩, next, f⟩ =
        .ok (⟨h, full, k, d.longName, d.longLink, d.pax⟩, ⟨⟨ps, s, k⟩, next, f⟩) := by
  unfold Header.Yields at hy
  by_cases hk : h.kind = .sparse
  · rw [if_pos hk] at hy
    obtain ⟨ps, hps⟩ := hy
    obtain ⟨hb, ht, -⟩ := sparsePieces_ok (hps ⟨[], s, k⟩)
    refine ⟨ps, ⟨hb, ht, sparsePieces_span (hps ⟨[], s, k⟩)⟩, ?_⟩
    simp only [entryAt, hk, if_true, hps, ok_bind, Nat.mul_zero, Nat.add_zero]
  · rw [if_neg hk] at hy
    subst hy
    refine ⟨[.stored full], ⟨by simp, by simp [Piece.total], by simp [Piece.span]⟩, ?_⟩
    simp only [entryAt, hk, if_false]

end Reader

section Reading

lemma Piece.total_le_span (ps : List Piece) : total ps ≤ span ps := by
  induction ps with
  | nil => exact Nat.le_refl 0
  | cons p ps ih => cases p <;> simp only [total, span] <;> omega

/-- Content without gaps is read off the bytes behind the header. -/
lemma Content.drain_cover {ps : List Piece} {n : ℕ} (hp : Piece.Cover ps n n) {s : Source}
    (hs : s.IsCalm) (k : ℕ) :
    ∃ s', drain ⟨ps, s, k⟩ = .ok (s.data.take n, ⟨[], s', k + (s.data.take n).length⟩) ∧
      s'.IsCalm ∧ s'.data = s.data.drop n := by
  induction ps generalizing n s k with
  | nil =>
    obtain rfl : 0 = n := hp.total
    exact ⟨s, by simp, hs, by simp⟩
  | cons p ps ih =>
    obtain ⟨hb, ht, hspan⟩ := hp
    have hle := Piece.total_le_span ps
    have hb' : Piece.rest ∉ ps := fun hm => hb (List.mem_cons_of_mem _ hm)
    cases p with
    | rest => exact absurd (List.mem_cons_self ..) hb
    | gap m =>
      simp only [Piece.total, Piece.span] at ht hspan
      obtain rfl : m = 0 := by omega
      obtain ⟨s', hd, hc, hdata⟩ := ih ⟨hb', ht, by omega⟩ hs k
      refine ⟨s', ?_, hc, hdata⟩
      simp [drain_gap, hd, zeros]
    | stored m =>
      simp only [Piece.total, Piece.span] at ht hspan
      obtain ⟨s₁, htake, hc₁, hdata₁⟩ := hs.take true m
      obtain ⟨s', hd, hc, hdata⟩ := ih ⟨hb', rfl, by omega⟩ hc₁ (k + (s.data.take m).length)
      rw [hdata₁] at hd hdata
      have hsplit : s.data.take n = s.data.take m ++ (s.data.drop m).take (Piece.total ps) := by
        rw [← ht, List.take_add]
      refine ⟨s', ?_, hc, by rw [hdata, List.drop_drop, ht]⟩
      rw [drain_stored, htake]
      simp only [hd, after_ok, hsplit, List.length_append, Nat.add_assoc]

end Reading

/-- Only the front part of a path of a ustar header stands where others have something else. -/
lemma Header.tail_setPath {h : Header} (hform : h.form ≠ .ustar) (p : String) :
    (h.setPath p).1.tail = h.tail := by
  simp only [setPath, hform, false_and, if_false, setName]

lemma Header.tail_setCutPath {h : Header} (hform : h.form ≠ .ustar) (p : String) :
    (h.setCutPath p).1.tail = h.tail := by
  simp only [setCutPath, hform, if_false, setName]

lemma tail_placePath {h : Header} (hform : h.form ≠ .ustar) (p : String) :
    (placePath h p).2.1.tail = h.tail := by
  have hset := h.tail_setPath hform p
  have hkeeps := h.keepsRest_setPath p
  rcases hs : h.setPath p with ⟨h₁, _ | e⟩ <;> rw [hs] at hset hkeeps <;>
    simp only [placePath, hs]
  · exact hset
  · have hcut := Header.tail_setCutPath (h := h₁) (hkeeps.form ▸ hform) (beginning 100 p)
    split_ifs
    · exact hset
    · rcases hc : h₁.setCutPath (beginning 100 p) with ⟨h₂, _ | e'⟩ <;> rw [hc] at hcut <;>
        exact hcut.trans hset

lemma Header.Yields.placePath {h : Header} {n full : ℕ} (hy : h.Yields n full) {p : String}
    (hkeeps : h.KeepsRest (placePath h p).2.1) : (placePath h p).2.1.Yields n full :=
  hy.congr hkeeps.kind hkeeps.form fun hg => tail_placePath (by simp [hg]) p

end LayerPick.Tar
