import LayerPick.Proofs.EntryAgreement
import LayerPick.Proofs.ShortContent

/-!
# Archives that break off

Where an archive breaks off, a reader mostly notices: in the middle of a header, of content, or of
the zeros behind it. It does not where a header is due, since that is how an archive may end.
`Reader.RunsOut` tells the archives that end like this.

Let two archives agree up to where one of them ends, and let that one not run out. Whoever gets
through both of them without an error has come upon the same entries.
-/
namespace LayerPick

/-- The last that comes is a failure, which is not transient. -/
def Source.Sealed (s : Source) : Prop :=
  ∃ es f, s.events = es ++ [.fault f] ∧ f.transient = false

/-- Calls that do not fail have given all that was asked for, and the failure is still to come. -/
lemma Source.Sealed.take {s : Source} (h : s.Sealed) {p : Bool} {n : ℕ}
    (hf : (s.take p n).fault = none) :
    (s.take p n).data.length = n ∧ (s.take p n).rest.Sealed := by
  obtain ⟨events, d⟩ := s
  obtain ⟨es, f, rfl, htransient⟩ := h
  by_cases hzero : n = 0
  · subst hzero
    simp only [take_zero, List.length_nil, true_and]
    exact ⟨es, f, rfl, htransient⟩
  have hpos := Nat.pos_of_ne_zero hzero
  induction es generalizing n with
  | nil =>
    rw [List.nil_append, take_fault p f [] d hpos, htransient, Bool.and_false] at hf
    simp at hf
  | cons e es ih =>
    cases e with
    | fault g =>
      rw [List.cons_append, take_fault p g _ d hpos] at hf ⊢
      split_ifs at hf ⊢
      exact ih hf hzero hpos
    | bytes b l =>
      by_cases hb : n < b.length
      · rw [List.cons_append, take_bytes_of_lt p b l _ d hpos hb]
        exact ⟨by simp; omega, .bytes (b.drop n) l :: es, f, rfl, htransient⟩
      · rw [List.cons_append, take_bytes_of_le p b l _ d hpos (by omega)] at hf ⊢
        simp only [Taken.then] at hf ⊢
        by_cases hrest : n - b.length = 0
        · rw [hrest, take_zero]
          exact ⟨by simp; omega, es, f, rfl, htransient⟩
        · obtain ⟨hl, hs⟩ := ih hf hrest (Nat.pos_of_ne_zero hrest)
          exact ⟨by rw [List.length_append, hl]; omega, hs⟩

namespace Tar

/-- What is known of a source, and of how much has been taken from it, stays true when more is
taken. -/
def Kept (P : Source → ℕ → Prop) : Prop :=
  ∀ (p : Bool) (n : ℕ) (s : Source) (k : ℕ), P s k → (s.take p n).fault = none →
    P (s.take p n).rest (k + (s.take p n).data.length)

lemma kept_total (n : ℕ) : Kept fun s k => k + s.length ≤ n := by
  intro p m s k h _
  have hlen := Source.take_length p m s
  omega

lemma kept_sealed : Kept fun s _ => s.Sealed := fun _ _ _ _ h hf => (h.take hf).2

namespace Kept

variable {P : Source → ℕ → Prop} (hP : Kept P)

include hP

lemma drain {c c' : Content} {b : Bytes} (hc : c.IsBounded) (h : P c.source c.position)
    (hd : c.drain = .ok (b, c')) : P c'.source c'.position := by
  rcases c with ⟨ps, s, k⟩
  induction ps generalizing s k b with
  | nil =>
    obtain ⟨-, rfl⟩ := by simpa using hd
    exact h
  | cons p ps ih =>
    cases p with
    | rest => exact absurd (List.mem_cons_self ..) hc
    | gap n =>
      rw [Content.drain_gap] at hd
      rcases hx : Content.drain ⟨ps, s, k⟩ with f | ⟨b₁, c₁⟩ <;> rw [hx] at hd
      · simp at hd
      obtain ⟨-, rfl⟩ := by simpa using hd
      exact ih s k (hc.tail s k) h hx
    | stored n =>
      rw [Content.drain_stored] at hd
      cases hf : (s.take true n).fault with
      | some f => simp [hf] at hd
      | none =>
        simp only [hf] at hd
        rcases hx : Content.drain ⟨ps, (s.take true n).rest, k + (s.take true n).data.length⟩ with
          f | ⟨b₁, c₁⟩ <;> rw [hx] at hd
        · simp at hd
        obtain ⟨-, rfl⟩ := by simpa using hd
        exact ih _ _ (hc.tail _ _) (hP true n s k h hf) hx

lemma skip {r : Reader} {c : Content} (hr : r.Proper) (h : P r.content.source r.content.position)
    (hs : r.skip = .ok c) : P c.source r.next := by
  obtain ⟨rfl, hf, hl⟩ := (Reader.skip_ok hr.isStream).mp hs
  have hreach := hr.reach
  simp only [Content.reach] at hreach
  have hkept := hP false _ _ _ h hf
  rwa [hl, show r.content.position + (r.next - r.content.position) = r.next by omega] at hkept

lemma block {s s' : Source} {k : ℕ} {b : Bytes} (h : P s k)
    (ht : s.take false blockSize = ⟨b, s', none⟩) (hb : blockSize ≤ b.length) :
    P s' (k + blockSize) := by
  have hle := Source.take_data_le false blockSize s
  have hkept := hP false blockSize s k h (by rw [ht])
  rw [ht] at hle hkept
  simp only at hle hkept
  rwa [show b.length = blockSize by omega] at hkept

lemma nextMember? {r r' : Reader} {pax : Option Bytes} {h : Header} {size : ℕ} (hr : r.Proper)
    (hp : P r.content.source r.content.position)
    (hm : r.nextMember? pax = .ok (some (h, size, r'))) :
    P r'.content.source r'.content.position := by
  obtain ⟨b, s, hb, -, -, -, rfl⟩ := Reader.nextMember?_some.mp hm
  obtain ⟨c, hc, ht, hl, -⟩ := Reader.nextBlock?_some.mp hb
  exact hP.block (hP.skip hr hp hc) ht hl

lemma addBlocks {m m' : SparseMap} {c c' : Content} {tries n n' : ℕ}
    (h : P c.source c.position) (hs : m.addBlocks c tries n = .ok (m', c', n')) :
    P c'.source c'.position := by
  induction tries generalizing m c n with
  | zero => simp [SparseMap.addBlocks] at hs
  | succ tries ih =>
    obtain ⟨b, s, m₁, ht, hl, -, ⟨-, hs⟩ | ⟨-, hs⟩⟩ := SparseMap.addBlocks_ok.mp hs
    · exact ih (hP.block h ht hl) hs
    · obtain ⟨-, rfl, -⟩ := by simpa only [Prod.mk.injEq] using hs
      exact hP.block h ht hl

lemma entryAt {d : Described} {h : Header} {size : ℕ} {r r' : Reader} {e : Entry}
    (hp : P r.content.source r.content.position) (he : Reader.entryAt d h size r = .ok (e, r')) :
    P r'.content.source r'.content.position := by
  simp only [Reader.entryAt] at he
  split_ifs at he
  · obtain ⟨⟨ps, full, c, n⟩, hs, he⟩ := bind_ok.mp he
    obtain ⟨-, rfl⟩ := Prod.mk.inj (Except.ok.inj he)
    obtain ⟨-, m₁, m₂, -, hrest, -, -, -, -⟩ := sparsePieces_iff.mp hs
    simp only [SparseMap.addRest] at hrest
    split_ifs at hrest
    · have hkept := hP.addBlocks hp hrest
      exact hkept
    · obtain ⟨-, rfl, -⟩ := by simpa only [Except.ok.injEq, Prod.mk.injEq] using hrest
      exact hp
  · obtain ⟨-, rfl⟩ := Prod.mk.inj (Except.ok.inj he)
    exact hp

lemma nextFrom? {n : ℕ} {d : Described} {r r' : Reader} {e : Entry} (hr : r.Proper)
    (hp : P r.content.source r.content.position)
    (h : Reader.nextFrom? n d r = .ok (some (e, r'))) : P r'.content.source r'.content.position := by
  induction n generalizing d r with
  | zero => simp [Reader.nextFrom?] at h
  | succ n ih =>
    obtain ⟨hd, size, r₁, hm, hcase⟩ := Reader.nextFrom?_some.mp h
    have hproper := (Reader.nextMember?_advances hr hm).1.proper
    have hkept := hP.nextMember? hr hp hm
    rcases hcase with ⟨-, -, data, c, hdrain, hn⟩ | ⟨-, he⟩
    · exact ih (hproper.drained hdrain) (hP.drain hproper.bounded hkept hdrain) hn
    · exact hP.entryAt hkept he

end Kept

namespace Reader

variable {P : Source → ℕ → Prop} {r r' : Reader}

/-- What holds where the content under way ends. -/
def Holds (P : Source → ℕ → Prop) (r : Reader) : Prop :=
  ∀ b c, r.content.drain = .ok (b, c) → P c.source c.position

lemma Holds.at {c : Content} {b : Bytes} (h : r.Holds P)
    (hd : r.content.drain = Content.after b c.drain) : Holds P { r with content := c } := by
  intro b₁ c₁ hc
  refine h (b ++ b₁) c₁ ?_
  simp only at hc
  rw [hd, hc, Content.after_ok]

lemma Holds.next? (hP : Kept P) {e : Entry} (hr : r.Proper) (h : r.Holds P)
    (hx : r.next? = .ok (some (e, r'))) : P r'.content.source r'.content.position := by
  obtain ⟨b, c, hd, hx'⟩ := next?_drained hr hx
  exact hP.nextFrom? (hr.drained hd) (h b c hd) hx'

lemma Proper.holds (hP : Kept P) (hr : r.Proper) (h : P r.content.source r.content.position) :
    r.Holds P := fun _ _ hd => hP.drain hr.bounded h hd

lemma holds_ofSource {s : Source} (h : P s 0) : (ofSource s).Holds P := by
  intro b c hd
  obtain ⟨-, rfl⟩ := by simpa [ofSource] using hd
  exact h

/-- No byte is left where a header is due. -/
def IsBare (r : Reader) : Prop :=
  ∃ c s, r.skip = .ok c ∧ c.source.take false blockSize = ⟨[], s, none⟩

/-- Reading on from here, each content to its end, comes to where no byte is left and a header is
due. -/
inductive RunsOut : Reader → Prop
  | here {r : Reader} {b : Bytes} {c : Content} : r.content.drain = .ok (b, c) →
    IsBare { r with content := c } → RunsOut r
  | later {r r' : Reader} {b : Bytes} {c : Content} {e : Entry} : r.content.drain = .ok (b, c) →
    Reader.next? { r with content := c } = .ok (some (e, r')) → RunsOut r' → RunsOut r

/-- It does not matter how much of the content under way has been read. -/
lemma RunsOut.of_rest {c : Content} {b : Bytes} (hd : r.content.drain = Content.after b c.drain)
    (h : RunsOut { r with content := c }) : r.RunsOut := by
  cases h with
  | @here _ b₁ c₁ hc hbare =>
    have hd' : r.content.drain = .ok (b ++ b₁, c₁) := by
      rw [hd, show c.drain = _ from hc, Content.after_ok]
    exact .here hd' hbare
  | @later _ r' b₁ c₁ e hc hx h =>
    have hd' : r.content.drain = .ok (b ++ b₁, c₁) := by
      rw [hd, show c.drain = _ from hc, Content.after_ok]
    exact .later hd' hx h

lemma RunsOut.of_next? {e : Entry} (hr : r.Proper) (hx : r.next? = .ok (some (e, r')))
    (h : r'.RunsOut) : r.RunsOut := by
  obtain ⟨b, c, hd, hx'⟩ := next?_drained hr hx
  exact .later hd hx' h

/-- An archive that does not run out ends with a block of zeros. -/
lemma zeros_of_not_runsOut (hr : r.Proper) (hn : ¬r.RunsOut) (hx : r.next? = .ok none) :
    ∃ c b s, r.skip = .ok c ∧ c.source.take false blockSize = ⟨b, s, none⟩ ∧
      blockSize ≤ b.length ∧ b.all (· == 0) = true := by
  obtain ⟨hb, -⟩ := nextFrom?_none.mp hx
  obtain ⟨c, hc, hf, hcase⟩ := nextBlock?_none.mp hb
  rcases ht : c.source.take false blockSize with ⟨b, s, f⟩
  rw [ht] at hf hcase
  dsimp only at hf hcase
  subst hf
  rcases hcase with hempty | ⟨hl, hz⟩
  · exfalso
    obtain rfl := List.length_eq_zero_iff.mp hempty
    obtain ⟨b', c', hd, hs⟩ := skip_drain hr.isStream hr.bounded hr.reach hc
    exact hn (.here hd ⟨c, s, hs, ht⟩)
  · exact ⟨c, b, s, hc, ht, hl, hz⟩

lemma not_runsOut_of_sealed (hr : r.Proper) (h : r.Holds fun s _ => s.Sealed) : ¬r.RunsOut := by
  intro hrun
  induction hrun with
  | @here r b c hd hbare =>
    obtain ⟨c', s, hskip, ht⟩ := hbare
    have hsealed := kept_sealed.skip (hr.drained hd) (h b c hd) hskip
    have hlen := (hsealed.take (p := false) (n := blockSize) (by rw [ht])).1
    rw [ht] at hlen
    simp [blockSize] at hlen
  | @later r r' b c e hd hx _ ih =>
    have hproper := hr.drained hd
    have hnext := (next?_advances hproper hx).proper
    refine ih hnext (hnext.holds kept_sealed ?_)
    exact kept_sealed.nextFrom? hproper (h b c hd) hx

/-- The archives agree on `n` bytes, where `r` ends, and `r` does not run out. -/
structure EndsIn (n : ℕ) (r r' : Reader) : Prop where
  agree : r.Agree n r'
  total : r.Holds fun s k => k + s.length ≤ n
  noticed : ¬r.RunsOut

/-- What comes next in both archives, if neither fails there, is the same. -/
lemma EndsIn.next? {n : ℕ} (hr : r.Proper) (h : EndsIn n r r') {x : Option (Entry × Reader)}
    (hx : r.next? = .ok x) :
    ∃ x', r'.next? = .ok x' ∧ Option.Rel (fun u v => u.1 = v.1 ∧ EndsIn n u.2 v.2) x x' := by
  cases x with
  | none =>
    obtain ⟨c, b, s, hc, ht, hl, hz⟩ := zeros_of_not_runsOut hr h.noticed hx
    have htotal : r.next + c.source.length ≤ n := by
      obtain ⟨b', c', hd, hs⟩ := skip_drain hr.isStream hr.bounded hr.reach hc
      have hkept := (kept_total n).skip (hr.drained hd) (h.total b' c' hd) hs
      exact hkept
    have hlen := Source.take_length false blockSize c.source
    rw [ht] at hlen
    simp only at hlen
    obtain ⟨c', hc', hs⟩ := skip_agree hr h.agree (by omega) hc
    obtain ⟨-, s', ht', -⟩ := Source.take_agree_ok false hs (by omega) ht
    refine ⟨none, nextFrom?_none.mpr ⟨nextBlock?_none.mpr ⟨c', hc', ?_⟩, rfl⟩, .none⟩
    rw [ht']
    exact ⟨rfl, .inr ⟨hl, hz⟩⟩
  | some y =>
    obtain ⟨e, r₁⟩ := y
    have hproper := (next?_advances hr hx).proper
    have htotal := h.total.next? (kept_total n) hr hx
    obtain ⟨r₁', hx', hagree⟩ := next?_agree hr h.agree hx (by omega)
    refine ⟨_, hx', .some ⟨rfl, hagree, hproper.holds (kept_total n) htotal, ?_⟩⟩
    exact fun hrun => h.noticed (.of_next? hr hx hrun)

end Reader

end Tar

end LayerPick
