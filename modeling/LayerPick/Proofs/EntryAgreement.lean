import LayerPick.Proofs.Agreement

/-!
# Entries of archives that agree for a while

Two archives that are delivered alike up to some position have the same entries up to there. An
entry is the same, wherever its content ends, if its content starts before that position.
-/
namespace LayerPick.Tar

namespace SparseMap

lemma addBlocks_agree {k n n' tries tries' : ℕ} {m m' : SparseMap} {c c' c₁ : Content}
    (h : m.addBlocks c tries n = .ok (m', c₁, n')) (ha : c.Agree k c') (hk : c₁.position ≤ k)
    (ht : c'.source.length / blockSize < tries') :
    ∃ c₁', m.addBlocks c' tries' n = .ok (m', c₁', n') ∧ c₁.Agree k c₁' := by
  induction tries generalizing m c c' n tries' with
  | zero => simp [addBlocks] at h
  | succ tries ih =>
    obtain ⟨b, s, m₁, hb, hl, hm₁, h⟩ := addBlocks_ok.mp h
    have hle : c.position + blockSize ≤ c₁.position := by
      rcases h with ⟨-, h⟩ | ⟨-, h⟩
      · have hpos := (addBlocks_position h).2.1
        simp only at hpos
        omega
      · obtain ⟨-, rfl, -⟩ := by simpa only [Prod.mk.injEq] using h
        exact Nat.le_refl _
    obtain ⟨-, s', hb', hs⟩ := Source.take_agree_ok false ha.source (by omega) hb
    rw [Nat.sub_sub] at hs
    have hlen := Source.take_length false blockSize c'.source
    rw [hb'] at hlen
    have hdiv := Nat.div_le_div_right (c := blockSize)
      (show s'.length + blockSize ≤ c'.source.length by simp only at hlen; omega)
    rw [Nat.add_div_right _ (by decide)] at hdiv
    obtain ⟨i, rfl⟩ : ∃ i, tries' = i + 1 := Nat.exists_eq_succ_of_ne_zero (Nat.ne_zero_of_lt ht)
    have hagree : Content.Agree k ⟨c.pieces, s, c.position + blockSize⟩
        ⟨c'.pieces, s', c'.position + blockSize⟩ :=
      ⟨ha.pieces, by simp only [ha.position], hs⟩
    rcases h with ⟨hc, h⟩ | ⟨hc, h⟩
    · obtain ⟨c₁', h', ha'⟩ := ih h hagree (show s'.length / blockSize < i by omega)
      exact ⟨c₁', addBlocks_ok.mpr ⟨b, s', m₁, hb', hl, hm₁, .inl ⟨hc, h'⟩⟩, ha'⟩
    · obtain ⟨rfl, rfl, rfl⟩ := by simpa only [Prod.mk.injEq] using h
      exact ⟨_, addBlocks_ok.mpr ⟨b, s', m', hb', hl, hm₁, .inr ⟨hc, rfl⟩⟩, hagree⟩

lemma addRest_agree {k n : ℕ} {m m' : SparseMap} {h : Header} {c c' c₁ : Content}
    (hs : m.addRest h c = .ok (m', c₁, n)) (ha : c.Agree k c') (hk : c₁.position ≤ k) :
    ∃ c₁', m.addRest h c' = .ok (m', c₁', n) ∧ c₁.Agree k c₁' := by
  simp only [addRest] at hs ⊢
  split_ifs at hs ⊢
  · exact addBlocks_agree hs ha hk (Nat.lt_succ_self _)
  · obtain ⟨rfl, rfl, rfl⟩ := by simpa only [Except.ok.injEq, Prod.mk.injEq] using hs
    exact ⟨c', rfl, ha⟩

end SparseMap

lemma sparsePieces_agree {k size full n : ℕ} {h : Header} {c c' c₁ : Content} {ps : List Piece}
    (hs : sparsePieces h size c = .ok (ps, full, c₁, n)) (ha : c.Agree k c')
    (hk : c₁.position ≤ k) :
    ∃ c₁', sparsePieces h size c' = .ok (ps, full, c₁', n) ∧ c₁.Agree k c₁' := by
  obtain ⟨hg, m₁, m₂, h₁, h₂, h₃⟩ := sparsePieces_iff.mp hs
  obtain ⟨c₁', h₂', ha'⟩ := SparseMap.addRest_agree h₂ ha hk
  exact ⟨c₁', sparsePieces_iff.mpr ⟨hg, m₁, m₂, h₁, h₂', h₃⟩, ha'⟩

namespace Reader

/-- Readers of archives that are delivered alike up to the position `n`. -/
structure Agree (n : ℕ) (r r' : Reader) : Prop where
  content : r.content.Agree n r'.content
  next : r'.next = r.next
  isFile : r'.isFile = r.isFile

lemma Agree.proper {n : ℕ} {r r' : Reader} (h : r.Agree n r') (hr : r.Proper) : r'.Proper := by
  obtain ⟨⟨hp, hk, -⟩, hn, hf⟩ := h
  refine ⟨hf.trans hr.isStream, ?_, ?_⟩
  · have hb := hr.bounded
    simp only [Content.IsBounded, hp] at hb ⊢
    exact hb
  · have hreach := hr.reach
    simp only [Content.reach, Content.stored, hp, hk, hn] at hreach ⊢
    exact hreach

lemma skip_agree {n : ℕ} {r r' : Reader} {c : Content} (hr : r.Proper) (ha : r.Agree n r')
    (hn : r.next ≤ n) (h : r.skip = .ok c) :
    ∃ c', r'.skip = .ok c' ∧ c.source.Agree (n - r.next) c'.source := by
  obtain ⟨rfl, hf, hl⟩ := (skip_ok hr.isStream).mp h
  have hreach := hr.reach
  simp only [Content.reach] at hreach
  have hpos := ha.content.position
  obtain ⟨hd, hf', hs, -⟩ := Source.take_agree false ha.content.source
    (show r.next - r.content.position ≤ n - r.content.position by omega)
  have he : n - r.content.position - (r.next - r.content.position) = n - r.next := by omega
  rw [hl, he] at hs
  refine ⟨_, (skip_ok (ha.isFile.trans hr.isStream)).mpr ⟨rfl, ?_, ?_⟩, ?_⟩
  · rw [ha.next, hpos, hf', hf]
  · rw [ha.next, hpos, hd, hl]
  · rw [ha.next, hpos]
    exact hs

lemma nextBlock?_agree {n : ℕ} {r r' : Reader} {b : Bytes} {s : Source} (hr : r.Proper)
    (ha : r.Agree n r') (hn : r.next + blockSize ≤ n) (h : r.nextBlock? = .ok (some (b, s))) :
    ∃ s', r'.nextBlock? = .ok (some (b, s')) ∧ s.Agree (n - (r.next + blockSize)) s' := by
  obtain ⟨c, hc, ht, hl, hz⟩ := nextBlock?_some.mp h
  obtain ⟨c', hc', hs⟩ := skip_agree hr ha (by omega) hc
  obtain ⟨-, s', ht', hs'⟩ := Source.take_agree_ok false hs (by omega) ht
  rw [Nat.sub_sub] at hs'
  exact ⟨s', nextBlock?_some.mpr ⟨c', hc', ht', hl, hz⟩, hs'⟩

lemma nextMember?_agree {n size : ℕ} {r r' r₁ : Reader} {pax : Option Bytes} {h : Header}
    (hr : r.Proper) (ha : r.Agree n r') (hm : r.nextMember? pax = .ok (some (h, size, r₁)))
    (hn : r₁.content.position ≤ n) :
    ∃ r₁', r'.nextMember? pax = .ok (some (h, size, r₁')) ∧ r₁.Agree n r₁' := by
  obtain ⟨b, s, hb, hh, h₁, h₂, rfl⟩ := nextMember?_some.mp hm
  obtain ⟨s', hb', hs⟩ := nextBlock?_agree hr ha hn hb
  refine ⟨_, nextMember?_some.mpr ⟨b, s', hb', hh, h₁, by rw [ha.next]; exact h₂, rfl⟩, ?_⟩
  exact ⟨⟨rfl, by simp only [ha.next], hs⟩, by simp only [ha.next], ha.isFile⟩

lemma entryAt_agree {n size : ℕ} {r r' r₁ : Reader} {d : Described} {h : Header} {e : Entry}
    (ha : r.Agree n r') (he : entryAt d h size r = .ok (e, r₁)) (hn : r₁.content.position ≤ n) :
    ∃ r₁', entryAt d h size r' = .ok (e, r₁') ∧ r₁.Agree n r₁' := by
  simp only [entryAt] at he ⊢
  split_ifs at he ⊢
  · obtain ⟨⟨ps, full, c, k⟩, hp, he⟩ := bind_ok.mp he
    simp only [Except.ok.injEq, Prod.mk.injEq] at he
    obtain ⟨rfl, rfl⟩ := he
    obtain ⟨c', hp', hc⟩ := sparsePieces_agree hp ha.content hn
    refine ⟨_, bind_ok.mpr ⟨_, hp', by rw [ha.content.position]⟩, ?_⟩
    exact ⟨⟨rfl, hc.position, hc.source⟩, by simp only [ha.next], ha.isFile⟩
  · simp only [Except.ok.injEq, Prod.mk.injEq] at he
    obtain ⟨rfl, rfl⟩ := he
    exact ⟨r', by rw [ha.content.position], ha⟩

lemma nextFrom?_agree {n k : ℕ} {d : Described} {r r' r₁ : Reader} {e : Entry} (hr : r.Proper)
    (ha : r.Agree n r') (h : nextFrom? k d r = .ok (some (e, r₁)))
    (hn : r₁.content.position ≤ n) :
    ∃ r₁', nextFrom? k d r' = .ok (some (e, r₁')) ∧ r₁.Agree n r₁' := by
  induction k generalizing d r r' with
  | zero => simp [nextFrom?] at h
  | succ k ih =>
    obtain ⟨hd, size, r₂, hm, hcase⟩ := nextFrom?_some.mp h
    obtain ⟨hadv, hstored⟩ := nextMember?_advances hr hm
    rcases hcase with ⟨hdes, hcl, data, c, hdr, hx⟩ | ⟨hdes, he⟩
    · have hprop := hadv.proper.drained hdr
      have hadv' := (nextFrom?_advances hprop hx).position
      simp only at hadv'
      have hreach := hadv.proper.reach
      have hpos : r₂.content.position ≤ r₂.content.reach := Nat.le_add_right _ _
      obtain ⟨r₂', hm', ha₂⟩ := nextMember?_agree hr ha hm (by omega)
      obtain ⟨c', hdr', hc⟩ :=
        Content.drain_agree ha₂.content hadv.proper.bounded (by omega) hdr
      have hagree : Agree n { r₂ with content := c } { r₂' with content := c' } :=
        ⟨hc, ha₂.next, ha₂.isFile⟩
      obtain ⟨r₁', hx', ha₁⟩ := ih hprop hagree hx
      exact ⟨r₁', nextFrom?_some.mpr ⟨hd, size, r₂', hm', .inl ⟨hdes, hcl, data, c', hdr', hx'⟩⟩, ha₁⟩
    · have hle : r₂.content.position ≤ r₁.content.position := entryAt_position he
      obtain ⟨r₂', hm', ha₂⟩ := nextMember?_agree hr ha hm (hle.trans hn)
      obtain ⟨r₁', he', ha₁⟩ := entryAt_agree ha₂ he hn
      exact ⟨r₁', nextFrom?_some.mpr ⟨hd, size, r₂', hm', .inr ⟨hdes, he'⟩⟩, ha₁⟩

/-- An entry whose content starts before the position is found alike. -/
lemma next?_agree {n : ℕ} {r r' r₁ : Reader} {e : Entry} (hr : r.Proper) (ha : r.Agree n r')
    (h : r.next? = .ok (some (e, r₁))) (hn : r₁.content.position ≤ n) :
    ∃ r₁', r'.next? = .ok (some (e, r₁')) ∧ r₁.Agree n r₁' := nextFrom?_agree hr ha h hn

end Reader

end LayerPick.Tar
