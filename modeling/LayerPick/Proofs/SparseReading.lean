import LayerPick.Proofs.MemberReading

/-!
# Reading the map of a sparse file

A map splits what is stored of a file into pieces. Each stretch takes its bytes from those that are
not claimed yet, so the pieces claim no more than the header announces, and a map is accepted only
if they claim all of it. Blocks of the map behind the header are taken from the stream one by one.
-/
namespace LayerPick.Tar

lemma Piece.total_append (ps qs : List Piece) :
    total (ps ++ qs) = total ps + total qs := by
  induction ps with
  | nil => simp [total]
  | cons p ps ih => cases p <;> simp [total, ih, Nat.add_assoc]

lemma Piece.total_reverse (ps : List Piece) : total ps.reverse = total ps := by
  induction ps with
  | nil => rfl
  | cons p ps ih =>
    rw [List.reverse_cons, total_append, ih]
    cases p <;> simp [total, Nat.add_comm]

/-- How many bytes pieces deliver. -/
def Piece.span : List Piece → ℕ
  | [] => 0
  | .gap n :: ps => n + span ps
  | .stored n :: ps => n + span ps
  | .rest :: ps => span ps

lemma Piece.span_append (ps qs : List Piece) : span (ps ++ qs) = span ps + span qs := by
  induction ps with
  | nil => simp [span]
  | cons p ps ih => cases p <;> simp [span, ih, Nat.add_assoc]

lemma Piece.span_reverse (ps : List Piece) : span ps.reverse = span ps := by
  induction ps with
  | nil => rfl
  | cons p ps ih =>
    rw [List.reverse_cons, span_append, ih]
    cases p <;> simp [span, Nat.add_comm]

namespace SparseMap

/-- What the pieces claim and what is unclaimed are all of the data, and the pieces go as far as the
map has been read. -/
structure Balanced (m : SparseMap) : Prop where
  bounded : Piece.rest ∉ m.pieces
  sum : Piece.total m.pieces + m.unclaimed = m.total
  span : Piece.span m.pieces = m.reached

lemma addStretch_balanced {m m' : SparseMap} {o l : ℕ} (hm : m.Balanced)
    (h : m.addStretch o l = .ok m') : m'.Balanced ∧ m'.total = m.total := by
  simp only [addStretch] at h
  have hs := hm.sum
  have hspan := hm.span
  split_ifs at h with _ _ _ hl hgap <;> obtain rfl := Except.ok.inj h
  · refine ⟨⟨by simp [hm.bounded], ?_, ?_⟩, rfl⟩
    · simp only [Piece.total, List.cons_append, List.nil_append]
      omega
    · simp only [Piece.span, List.cons_append, List.nil_append]
      omega
  · refine ⟨⟨by simp [hm.bounded], ?_, ?_⟩, rfl⟩
    · simp only [Piece.total, List.nil_append]
      omega
    · simp only [Piece.span, List.nil_append]
      omega

lemma add_balanced {m m' : SparseMap} {b : Bytes} (hm : m.Balanced) (h : m.add b = .ok m') :
    m'.Balanced ∧ m'.total = m.total := by
  simp only [add] at h
  split_ifs at h with hz
  · obtain rfl := Except.ok.inj h
    exact ⟨hm, rfl⟩
  · obtain ⟨o, -, h⟩ := bind_ok.mp h
    obtain ⟨l, -, h⟩ := bind_ok.mp h
    exact addStretch_balanced hm h

lemma addAll_balanced {count : ℕ} {m m' : SparseMap} {b : Bytes} (hm : m.Balanced)
    (h : m.addAll count b = .ok m') : m'.Balanced ∧ m'.total = m.total := by
  induction count generalizing m b with
  | zero =>
    obtain rfl := Except.ok.inj h
    exact ⟨hm, rfl⟩
  | succ count ih =>
    obtain ⟨m₁, h₁, h⟩ := bind_ok.mp h
    obtain ⟨hb, ht⟩ := add_balanced hm h₁
    obtain ⟨hb', ht'⟩ := ih hb h
    exact ⟨hb', ht'.trans ht⟩

lemma blockOf_ok {t : Source.Taken} {b : Bytes} {s : Source} :
    blockOf t = .ok (b, s) ↔ t = ⟨b, s, none⟩ ∧ blockSize ≤ b.length := by
  rcases t with ⟨d, s', _ | f⟩
  · simp only [blockOf]
    split_ifs with h₀ h₁
    · simp only [Source.Taken.mk.injEq, false_iff]
      rintro ⟨⟨rfl, -⟩, hl⟩
      exact absurd (h₀ ▸ hl) (by decide)
    · simp only [Source.Taken.mk.injEq, false_iff]
      rintro ⟨⟨rfl, -⟩, hl⟩
      omega
    · simp only [Except.ok.injEq, Prod.mk.injEq, Source.Taken.mk.injEq, and_true]
      constructor
      · rintro ⟨rfl, rfl⟩
        exact ⟨⟨rfl, rfl⟩, Nat.not_lt.mp h₁⟩
      · exact fun h => h.1
  · simp [blockOf]

/-- One more block of the map: it is there, it is taken in, and it says whether another follows. -/
lemma addBlocks_ok {m m' : SparseMap} {c c' : Content} {tries n n' : ℕ} :
    m.addBlocks c (tries + 1) n = .ok (m', c', n') ↔
      ∃ b s m₁, c.source.take false blockSize = ⟨b, s, none⟩ ∧ blockSize ≤ b.length ∧
        m.addAll 21 b = .ok m₁ ∧
        ((b.drop 504).headD 0 = 1 ∧
            m₁.addBlocks ⟨c.pieces, s, c.position + blockSize⟩ tries (n + 1) = .ok (m', c', n') ∨
          (b.drop 504).headD 0 ≠ 1 ∧
            (m', c', n') = (m₁, ⟨c.pieces, s, c.position + blockSize⟩, n + 1)) := by
  simp only [addBlocks, bind_ok]
  constructor
  · rintro ⟨⟨b, s⟩, hb, m₁, hm, h⟩
    obtain ⟨ht, hl⟩ := blockOf_ok.mp hb
    refine ⟨b, s, m₁, ht, hl, hm, ?_⟩
    split_ifs at h with hc
    · exact .inl ⟨hc, h⟩
    · exact .inr ⟨hc, (Except.ok.inj h).symm⟩
  · rintro ⟨b, s, m₁, ht, hl, hm, h⟩
    refine ⟨(b, s), blockOf_ok.mpr ⟨ht, hl⟩, m₁, hm, ?_⟩
    rcases h with ⟨hc, h⟩ | ⟨hc, h⟩
    · simp only [hc, if_true, h]
    · simp only [if_neg hc, h]

lemma addBlocks_balanced {m m' : SparseMap} {c c' : Content} {tries n n' : ℕ} (hm : m.Balanced)
    (h : m.addBlocks c tries n = .ok (m', c', n')) : m'.Balanced ∧ m'.total = m.total := by
  induction tries generalizing m c n with
  | zero => simp [addBlocks] at h
  | succ tries ih =>
    obtain ⟨b, s, m₁, -, -, hm₁, h⟩ := addBlocks_ok.mp h
    obtain ⟨hb, ht⟩ := addAll_balanced hm hm₁
    rcases h with ⟨-, h⟩ | ⟨-, h⟩
    · obtain ⟨hb', ht'⟩ := ih hb h
      exact ⟨hb', ht'.trans ht⟩
    · obtain ⟨rfl, -⟩ := Prod.mk.inj h
      exact ⟨hb, ht⟩

lemma addBlocks_position {m m' : SparseMap} {c c' : Content} {tries n n' : ℕ}
    (h : m.addBlocks c tries n = .ok (m', c', n')) :
    n ≤ n' ∧ c'.position = c.position + blockSize * (n' - n) ∧
      c'.source.length ≤ c.source.length := by
  induction tries generalizing m c n with
  | zero => simp [addBlocks] at h
  | succ tries ih =>
    obtain ⟨b, s, m₁, ht, -, -, h⟩ := addBlocks_ok.mp h
    have hlen := Source.take_length false blockSize c.source
    rw [ht] at hlen
    simp only at hlen
    rcases h with ⟨-, h⟩ | ⟨-, h⟩
    · obtain ⟨hle, hpos, hsrc⟩ := ih h
      refine ⟨by omega, ?_, by simp only at hsrc; omega⟩
      obtain ⟨i, rfl⟩ := Nat.exists_eq_add_of_le hle
      have he : n + 1 + i - n = (n + 1 + i - (n + 1)) + 1 := by omega
      rw [hpos, he, Nat.mul_add, Nat.mul_one]
      simp only
      omega
    · obtain ⟨-, rfl, rfl⟩ := by simpa only [Prod.mk.injEq] using h
      exact ⟨by omega, by simp, by simp only; omega⟩

lemma addRest_position {m m' : SparseMap} {h : Header} {c c' : Content} {n : ℕ}
    (hs : m.addRest h c = .ok (m', c', n)) :
    c'.position = c.position + blockSize * n ∧ c'.source.length ≤ c.source.length := by
  simp only [addRest] at hs
  split_ifs at hs
  · obtain ⟨-, hpos, hlen⟩ := addBlocks_position hs
    exact ⟨hpos, hlen⟩
  · obtain ⟨-, rfl, rfl⟩ := by simpa only [Except.ok.injEq, Prod.mk.injEq] using hs
    exact ⟨by simp, Nat.le_refl _⟩

lemma addRest_balanced {m m' : SparseMap} {h : Header} {c c' : Content} {n : ℕ}
    (hm : m.Balanced) (hs : m.addRest h c = .ok (m', c', n)) :
    m'.Balanced ∧ m'.total = m.total := by
  simp only [addRest] at hs
  split_ifs at hs
  · exact addBlocks_balanced hm hs
  · obtain ⟨rfl, -⟩ := by simpa only [Except.ok.injEq, Prod.mk.injEq] using hs
    exact ⟨hm, rfl⟩

end SparseMap

/-- What a sparse file consists of: the map in its header and behind it, its size, and that the two
agree with each other and with the size of the data. -/
lemma sparsePieces_iff {h : Header} {size full n : ℕ} {c c' : Content} {ps : List Piece} :
    sparsePieces h size c = .ok (ps, full, c', n) ↔
      h.form = .gnu ∧ ∃ m₁ m₂, (SparseMap.mk [] 0 size size).addAll 4 h.sparseEntries = .ok m₁ ∧
        m₁.addRest h c = .ok (m₂, c', n) ∧ readNumber h.sparseSize = .ok full ∧
        m₂.reached = full ∧ m₂.unclaimed = 0 ∧ ps = m₂.pieces.reverse := by
  by_cases hg : h.form = .gnu
  swap
  · simp [sparsePieces, hg]
  simp only [sparsePieces, hg, ne_eq, not_true_eq_false, if_false, true_and, bind_ok]
  constructor
  · rintro ⟨m₁, h₁, ⟨m₂, c₂, n₂⟩, h₂, full', h₃, hs⟩
    split_ifs at hs with hr hu
    simp only [Except.ok.injEq, Prod.mk.injEq] at hs
    obtain ⟨rfl, rfl, rfl, rfl⟩ := hs
    exact ⟨m₁, m₂, h₁, h₂, mapError_ok.mp h₃, hr, Nat.eq_zero_of_not_pos hu, rfl⟩
  · rintro ⟨m₁, m₂, h₁, h₂, h₃, h₄, h₅, rfl⟩
    refine ⟨m₁, h₁, (m₂, c', n), h₂, full, mapError_ok.mpr h₃, ?_⟩
    simp [h₄, h₅]

lemma sparsePieces_ok {h : Header} {size full n : ℕ} {c c' : Content} {ps : List Piece}
    (hs : sparsePieces h size c = .ok (ps, full, c', n)) :
    Piece.rest ∉ ps ∧ Piece.total ps = size ∧ c'.position = c.position + blockSize * n ∧
      c'.source.length ≤ c.source.length := by
  obtain ⟨-, m₁, m₂, h₁, h₂, -, -, hu, rfl⟩ := sparsePieces_iff.mp hs
  obtain ⟨hb₁, ht₁⟩ := SparseMap.addAll_balanced ⟨by simp, by simp [Piece.total], rfl⟩ h₁
  obtain ⟨hb₂, ht₂⟩ := SparseMap.addRest_balanced hb₁ h₂
  obtain ⟨hpos, hlen⟩ := SparseMap.addRest_position h₂
  have hsum := hb₂.sum
  simp only at ht₁
  exact ⟨by simpa using hb₂.bounded, by rw [Piece.total_reverse]; omega, hpos, hlen⟩

lemma sparsePieces_span {h : Header} {size full n : ℕ} {c c' : Content} {ps : List Piece}
    (hs : sparsePieces h size c = .ok (ps, full, c', n)) : Piece.span ps = full := by
  obtain ⟨-, m₁, m₂, h₁, h₂, -, hreached, -, rfl⟩ := sparsePieces_iff.mp hs
  have hb₁ := (SparseMap.addAll_balanced ⟨by simp, by simp [Piece.total], rfl⟩ h₁).1
  have hb₂ := (SparseMap.addRest_balanced hb₁ h₂).1
  rw [Piece.span_reverse, hb₂.span, hreached]

end LayerPick.Tar
