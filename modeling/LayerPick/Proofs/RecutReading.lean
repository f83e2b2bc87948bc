import LayerPick.Proofs.RecutStreams
import Mathlib.Data.Option.Basic

/-!
# Archives that are cut anew

An archive that is read from a stream that is cut anew has the same entries with the same content,
and where reading one fails, reading the other fails in the same way. The places that are free for
further failures must not be met on the way to an entry, but for the members that describe it:
calls for headers, for maps of sparse files and for what is skipped are not repeated, calls for the
content of a member are.
-/
namespace LayerPick

/-- The same failure, or results in relation. -/
inductive Outcomes {ε α β : Type} (R : α → β → Prop) : Except ε α → Except ε β → Prop
  | ok {a : α} {b : β} : R a b → Outcomes R (.ok a) (.ok b)
  | error (e : ε) : Outcomes R (.error e) (.error e)

namespace Outcomes

variable {ε α β γ δ : Type} {R : α → β → Prop} {S : γ → δ → Prop}

lemma refl {R : α → α → Prop} (h : ∀ a, R a a) (x : Except ε α) : Outcomes R x x := by
  cases x with
  | error e => exact .error e
  | ok a => exact .ok (h a)

lemma bind {x : Except ε α} {y : Except ε β} {f : α → Except ε γ} {g : β → Except ε δ}
    (h : Outcomes R x y) (hfg : ∀ a b, R a b → Outcomes S (f a) (g b)) :
    Outcomes S (x >>= f) (y >>= g) := by
  cases h with
  | error e => exact .error e
  | ok hab => exact hfg _ _ hab

lemma bind_same (x : Except ε α) {f : α → Except ε γ} {g : α → Except ε δ}
    (hfg : ∀ a, Outcomes S (f a) (g a)) : Outcomes S (x >>= f) (x >>= g) := by
  cases x with
  | error e => exact .error e
  | ok a => exact hfg a

lemma map {x : Except ε α} {y : Except ε β} {f : α → γ} {g : β → δ} (h : Outcomes R x y)
    (hfg : ∀ a b, R a b → S (f a) (g b)) : Outcomes S (x.map f) (y.map g) := by
  cases h with
  | error e => exact .error e
  | ok hab => exact .ok (hfg _ _ hab)

lemma mapError {ε' : Type} {x : Except ε α} {y : Except ε β} (h : Outcomes R x y) (f : ε → ε') :
    Outcomes R (x.mapError f) (y.mapError f) := by
  cases h with
  | error e => exact .error (f e)
  | ok hab => exact .ok hab

/-- What is done with the result may hang on where it comes from. -/
lemma bind_of {x : Except ε α} {y : Except ε β} {f : α → Except ε γ} {g : β → Except ε δ}
    (h : Outcomes R x y) (hfg : ∀ a b, x = .ok a → R a b → Outcomes S (f a) (g b)) :
    Outcomes S (x >>= f) (y >>= g) := by
  cases h with
  | error e => exact .error e
  | ok hab => exact hfg _ _ rfl hab

end Outcomes

section Spares

variable {ε α β : Type} {free : ℕ → Prop} {k k' : ℕ} {x : Except ε α} {f : α → Except ε β}
  {P : β → ℕ → Prop} {Q : α → ℕ → Prop}

/-- Where free places lie ahead of `k`, there is a result, and they lie behind it. -/
def Spares (free : ℕ → Prop) (k : ℕ) (x : Except ε α) (behind : α → ℕ → Prop) : Prop :=
  ∀ q, free q → k ≤ q → ∃ a, x = .ok a ∧ behind a q

lemma Spares.left (h : Spares free k (x >>= f) P)
    (hQ : ∀ a b q, x = .ok a → f a = .ok b → P b q → Q a q) : Spares free k x Q := by
  intro q hq hk
  obtain ⟨b, hb, hp⟩ := h q hq hk
  obtain ⟨a, ha, hf⟩ := Tar.bind_ok.mp hb
  exact ⟨a, ha, hQ a b q ha hf hp⟩

lemma Spares.right (h : Spares free k (x >>= f) P) {a : α} (hx : x = .ok a) (hk : k ≤ k') :
    Spares free k' (f a) P := by
  intro q hq hk'
  obtain ⟨b, hb, hp⟩ := h q hq (hk.trans hk')
  rw [hx, Tar.ok_bind] at hb
  exact ⟨b, hb, hp⟩

lemma Spares.clear {m : ℕ} (h : Spares free k x Q) (hm : ∀ a q, x = .ok a → Q a q → m ≤ q) :
    Token.Clear free k m := by
  intro q hq hk
  obtain ⟨a, ha, hp⟩ := h q hq hk
  exact hm a q ha hp

end Spares

namespace Tar

variable {free : ℕ → Prop}

/-- The same pieces, taken from sources of which one is the other cut anew. -/
structure Content.Recut (free : ℕ → Prop) (c c' : Content) : Prop where
  pieces : c.pieces = c'.pieces
  position : c.position = c'.position
  source : c.source.Recut free c.position c'.source

lemma Content.Recut.after {x y : Except Fault (Bytes × Content)} (b : Bytes)
    (h : Outcomes (fun u v => u.1 = v.1 ∧ u.2.Recut free v.2) x y) :
    Outcomes (fun u v => u.1 = v.1 ∧ u.2.Recut free v.2) (Content.after b x)
      (Content.after b y) :=
  h.map fun _ _ huv => ⟨by rw [huv.1], huv.2⟩

lemma Content.Recut.drain {c c' : Content} (h : c.Recut free c') :
    Outcomes (fun u v => u.1 = v.1 ∧ u.2.Recut free v.2) c.drain c'.drain := by
  rcases c with ⟨ps, s, k⟩
  rcases c' with ⟨ps', s', k'⟩
  obtain ⟨hp, hk, hs⟩ := h
  dsimp only at hp hk hs
  subst hp hk
  induction ps generalizing s s' k with
  | nil => exact .ok ⟨rfl, rfl, rfl, hs⟩
  | cons p ps ih =>
    cases p with
    | gap n =>
      rw [drain_gap, drain_gap]
      exact Recut.after _ (ih _ _ _ hs)
    | stored n =>
      have ht := hs.take (p := true) (n := n) (.inl rfl)
      rw [drain_stored, drain_stored, ← ht.fault, ← ht.data]
      cases (s.take true n).fault with
      | some f => exact .error f
      | none => exact Recut.after _ (ih _ _ _ ht.rest)
    | rest =>
      have ht := hs.drain
      rw [drain_rest, drain_rest, ← ht.fault, ← ht.data]
      cases (s.drain true).fault with
      | some f => exact .error f
      | none => exact Recut.after _ (ih _ _ _ ht.rest)

lemma Content.position_le_of_drain {c c' : Content} {b : Bytes} (h : c.drain = .ok (b, c')) :
    c.position ≤ c'.position := by
  rcases c with ⟨ps, s, k⟩
  induction ps generalizing s k b with
  | nil =>
    obtain ⟨-, rfl⟩ := by simpa using h
    exact Nat.le_refl _
  | cons p ps ih =>
    cases p with
    | gap n =>
      rw [drain_gap] at h
      obtain ⟨⟨b₁, c₁⟩, hd, hb⟩ := map_ok.mp h
      obtain ⟨-, rfl⟩ := Prod.mk.inj hb
      exact ih s k hd
    | stored n =>
      rw [drain_stored] at h
      split at h
      · obtain ⟨⟨b₁, c₁⟩, hd, hb⟩ := map_ok.mp h
        obtain ⟨-, rfl⟩ := Prod.mk.inj hb
        exact (Nat.le_add_right _ _).trans (ih _ _ hd)
      · simp at h
    | rest =>
      rw [drain_rest] at h
      split at h
      · obtain ⟨⟨b₁, c₁⟩, hd, hb⟩ := map_ok.mp h
        obtain ⟨-, rfl⟩ := Prod.mk.inj hb
        exact (Nat.le_add_right _ _).trans (ih _ _ hd)
      · simp at h

namespace SparseMap

lemma blockOf_recut {k : ℕ} {t t' : Source.Taken} (h : t.Recut free k t')
    (hl : t.data.length ≤ blockSize) :
    Outcomes (fun u v => u.1 = v.1 ∧ u.2.Recut free (k + blockSize) v.2) (blockOf t)
      (blockOf t') := by
  simp only [blockOf, ← h.fault, ← h.data]
  cases t.fault with
  | some f => exact .error _
  | none =>
    simp only
    split_ifs with h₀ h₁
    · exact .error _
    · exact .error _
    · have hlen : t.data.length = blockSize := by omega
      exact .ok ⟨rfl, hlen ▸ h.rest⟩

/-- The result lies before this place. -/
abbrev Before (u : SparseMap × Content × ℕ) (q : ℕ) : Prop := u.2.1.position ≤ q

lemma addBlocks_recut (tries n : ℕ) (m : SparseMap) {c c' : Content} (h : c.Recut free c')
    (hs : Spares free c.position (m.addBlocks c tries n) Before) :
    Outcomes (fun u v => u.1 = v.1 ∧ u.2.1.Recut free v.2.1 ∧ u.2.2 = v.2.2)
      (m.addBlocks c tries n) (m.addBlocks c' tries n) := by
  induction tries generalizing m c c' n with
  | zero => exact .error _
  | succ tries ih =>
    have hclear : Token.Clear free c.position (c.position + blockSize) := by
      refine hs.clear ?_
      rintro ⟨m', c₁, n'⟩ q hu hq
      obtain ⟨b, s, m₁, -, -, -, hu⟩ := addBlocks_ok.mp hu
      simp only [Before] at hq
      rcases hu with ⟨-, hu⟩ | ⟨-, hu⟩
      · have := (addBlocks_position hu).2.1
        simp only at this
        omega
      · obtain ⟨-, rfl, -⟩ := by simpa only [Prod.mk.injEq] using hu
        exact hq
    rw [addBlocks] at hs
    rw [addBlocks, addBlocks]
    have ht := h.source.take (p := false) (n := blockSize) (.inr hclear)
    refine (blockOf_recut ht (Source.take_data_le _ _ _)).bind_of ?_
    rintro ⟨b, s⟩ ⟨b', s'⟩ hb ⟨rfl, hsrc⟩
    replace hs := hs.right hb (Nat.le_add_right c.position blockSize)
    dsimp only at hs hsrc ⊢
    refine (Outcomes.refl (fun _ => rfl) (m.addAll 21 b)).bind_of ?_
    rintro m₁ _ hm rfl
    replace hs := hs.right hm (Nat.le_refl _)
    have hc : Content.Recut free ⟨c.pieces, s, c.position + blockSize⟩
        ⟨c'.pieces, s', c'.position + blockSize⟩ :=
      ⟨h.pieces, by simp only [h.position], hsrc⟩
    split_ifs at hs ⊢
    · exact ih (n + 1) m₁ hc hs
    · exact .ok ⟨rfl, hc, rfl⟩

lemma addRest_recut (m : SparseMap) (h : Header) {c c' : Content} (hc : c.Recut free c')
    (hs : Spares free c.position (m.addRest h c) Before) :
    Outcomes (fun u v => u.1 = v.1 ∧ u.2.1.Recut free v.2.1 ∧ u.2.2 = v.2.2)
      (m.addRest h c) (m.addRest h c') := by
  rw [addRest] at hs
  rw [addRest, addRest, hc.source.length]
  rw [hc.source.length] at hs
  split_ifs at hs ⊢
  · exact addBlocks_recut _ _ _ hc hs
  · exact .ok ⟨rfl, hc, rfl⟩

end SparseMap

lemma sparsePieces_recut (h : Header) (size : ℕ) {c c' : Content} (hc : c.Recut free c')
    (hs : Spares free c.position (sparsePieces h size c) fun u q => u.2.2.1.position ≤ q) :
    Outcomes (fun u v => u.1 = v.1 ∧ u.2.1 = v.2.1 ∧ u.2.2.1.Recut free v.2.2.1 ∧
      u.2.2.2 = v.2.2.2) (sparsePieces h size c) (sparsePieces h size c') := by
  rw [sparsePieces] at hs
  rw [sparsePieces, sparsePieces]
  split_ifs at hs ⊢
  · exact .error _
  refine (Outcomes.refl (fun _ => rfl) _).bind_of ?_
  rintro m _ hm rfl
  replace hs := hs.right hm (Nat.le_refl _)
  have hrest : Spares free c.position (m.addRest h c) SparseMap.Before := by
    refine hs.left ?_
    rintro ⟨m₁, c₁, n₁⟩ ⟨ps, full, c₂, n₂⟩ q - hu hq
    obtain ⟨full', -, hu⟩ := bind_ok.mp hu
    split_ifs at hu
    obtain ⟨-, -, rfl, -⟩ := by simpa only [Except.ok.injEq, Prod.mk.injEq] using hu
    exact hq
  refine (SparseMap.addRest_recut m h hc hrest).bind ?_
  rintro ⟨m₁, c₁, n₁⟩ ⟨m₂, c₂, n₂⟩ ⟨rfl, hc₁, rfl⟩
  refine .bind_same _ fun full => ?_
  dsimp only
  split_ifs
  · exact .error _
  · exact .error _
  · exact .ok ⟨rfl, rfl, hc₁, rfl⟩

namespace Reader

/-- Readers at the same place of archives of which one is the other cut anew. -/
structure Recut (free : ℕ → Prop) (r r' : Reader) : Prop where
  content : r.content.Recut free r'.content
  next : r.next = r'.next
  isStream : r'.isFile = false

lemma recut_ofSource {s s' : Source} (h : s.Recut free 0 s') :
    (ofSource s).Recut free (ofSource s') :=
  ⟨⟨rfl, rfl, h⟩, rfl, rfl⟩

variable {r r' : Reader}

lemma Recut.skip (h : r.Recut free r') (hr : r.Proper)
    (hs : Spares free r.content.position r.skip fun c q => c.position ≤ q) :
    Outcomes (Content.Recut free) r.skip r'.skip := by
  have hreach := hr.reach
  simp only [Content.reach] at hreach
  have hclear : Token.Clear free r.content.position
      (r.content.position + (r.next - r.content.position)) := by
    refine hs.clear fun c q hc hq => ?_
    obtain ⟨rfl, -⟩ := (skip_ok hr.isStream).mp hc
    simp only at hq
    omega
  have ht := h.content.source.take (p := false) (.inr hclear)
  simp only [Reader.skip, hr.isStream, h.isStream, ← h.next, ← h.content.position, ← ht.fault,
    ← ht.data, Bool.false_eq_true, if_false]
  cases (r.content.source.take false (r.next - r.content.position)).fault with
  | some f => exact .error _
  | none =>
    simp only
    split_ifs with hshort
    · exact .error _
    · have hle := Source.take_data_le false (r.next - r.content.position) r.content.source
      have hrest := ht.rest
      rw [show r.content.position +
        (r.content.source.take false (r.next - r.content.position)).data.length = r.next by omega]
        at hrest
      exact .ok ⟨rfl, rfl, hrest⟩

lemma headerBlock?_recut {k : ℕ} {t t' : Source.Taken} (h : t.Recut free k t')
    (hl : t.data.length ≤ blockSize) :
    Outcomes (Option.Rel fun u v => u.1 = v.1 ∧ u.2.Recut free (k + blockSize) v.2)
      (headerBlock? t) (headerBlock? t') := by
  simp only [headerBlock?, ← h.fault, ← h.data]
  cases t.fault with
  | some f => exact .error _
  | none =>
    simp only
    split_ifs with h₀ h₁ h₂
    · exact .ok .none
    · exact .error _
    · exact .ok .none
    · have hlen : t.data.length = blockSize := by omega
      exact .ok (.some ⟨rfl, hlen ▸ h.rest⟩)

/-- A block lies before this place. -/
abbrev BlockBefore (n : ℕ) : Option (Bytes × Source) → ℕ → Prop
  | none, _ => False
  | some _, q => n + blockSize ≤ q

lemma Recut.nextBlock? (h : r.Recut free r') (hr : r.Proper)
    (hs : Spares free r.content.position r.nextBlock? (BlockBefore r.next)) :
    Outcomes (Option.Rel fun u v => u.1 = v.1 ∧ u.2.Recut free (r.next + blockSize) v.2)
      r.nextBlock? r'.nextBlock? := by
  have hreach := hr.reach
  simp only [Content.reach] at hreach
  rw [Reader.nextBlock?] at hs
  rw [Reader.nextBlock?, Reader.nextBlock?]
  have hskip : Spares free r.content.position r.skip fun c q => c.position ≤ q := by
    refine hs.left ?_
    rintro c (_ | ⟨b, s⟩) q hc - hq
    · exact absurd hq id
    · obtain ⟨rfl, -⟩ := (skip_ok hr.isStream).mp hc
      exact Nat.le_of_add_right_le hq
  refine (h.skip hr hskip).bind_of fun c c' hc hcc => ?_
  obtain ⟨rfl, -⟩ := (skip_ok hr.isStream).mp hc
  have hclear : Token.Clear free r.next (r.next + blockSize) := by
    refine (hs.right hc (show r.content.position ≤ r.next by omega)).clear ?_
    rintro (_ | ⟨b, s⟩) q - hq
    · exact absurd hq id
    · exact hq
  exact headerBlock?_recut (hcc.source.take (.inr hclear)) (Source.take_data_le _ _ _)

/-- The content of a member lies before this place. -/
abbrev MemberBefore : Option (Header × ℕ × Reader) → ℕ → Prop
  | none, _ => False
  | some (_, _, r), q => r.content.position ≤ q

lemma Recut.nextMember? (h : r.Recut free r') (hr : r.Proper) (pax : Option Bytes)
    (hs : Spares free r.content.position (r.nextMember? pax) MemberBefore) :
    Outcomes (Option.Rel fun u v => u.1 = v.1 ∧ u.2.1 = v.2.1 ∧ u.2.2.Recut free v.2.2)
      (r.nextMember? pax) (r'.nextMember? pax) := by
  have hblock : Spares free r.content.position r.nextBlock? (BlockBefore r.next) := by
    intro q hq hk
    obtain ⟨_ | ⟨hd, size, r₁⟩, hm, hb⟩ := hs q hq hk
    · exact absurd hb id
    · obtain ⟨b, s, hnext, -, -, -, rfl⟩ := nextMember?_some.mp hm
      exact ⟨_, hnext, hb⟩
  rw [Reader.nextMember?, Reader.nextMember?]
  refine (h.nextBlock? hr hblock).bind ?_
  rintro _ _ (⟨hb⟩ | _)
  · rename_i u v
    obtain ⟨b, s⟩ := u
    obtain ⟨b', s'⟩ := v
    obtain ⟨rfl, hsrc⟩ := hb
    refine .bind_same _ fun x => ?_
    simp only [← h.next, hr.isStream, h.isStream]
    split_ifs
    · exact .error _
    · exact .ok (.some ⟨rfl, rfl, ⟨rfl, rfl, hsrc⟩, rfl, rfl⟩)
  · exact .ok .none

lemma Recut.entryAt (h : r.Recut free r') (d : Described) (hd : Header)
    (size : ℕ)
    (hs : Spares free r.content.position (entryAt d hd size r)
      fun u q => u.2.content.position ≤ q) :
    Outcomes (fun u v => u.1 = v.1 ∧ u.2.Recut free v.2) (entryAt d hd size r)
      (entryAt d hd size r') := by
  simp only [Reader.entryAt] at hs
  simp only [Reader.entryAt, ← h.content.position]
  split_ifs at hs ⊢
  · have hsparse : Spares free r.content.position (sparsePieces hd size r.content)
        fun u q => u.2.2.1.position ≤ q := by
      refine hs.left ?_
      rintro ⟨ps, full, c, n⟩ ⟨e, r₁⟩ q - hu hq
      obtain ⟨-, rfl⟩ := by simpa only [Except.ok.injEq, Prod.mk.injEq] using hu
      exact hq
    refine (sparsePieces_recut hd size h.content hsparse).bind ?_
    rintro ⟨ps, full, c, n⟩ ⟨ps', full', c', n'⟩ ⟨hps, hfull, hc, hn⟩
    dsimp only at hps hfull hc hn
    subst hps hfull hn
    exact .ok ⟨rfl, ⟨rfl, hc.position, hc.source⟩, by simp only [h.next], h.isStream⟩
  · exact .ok ⟨rfl, h⟩

/-- The content of an entry lies before this place. -/
abbrev EntryBefore : Option (Entry × Reader) → ℕ → Prop
  | none, _ => False
  | some (_, r), q => r.content.position ≤ q

lemma Recut.nextFrom? (h : r.Recut free r') (hr : r.Proper) (n : ℕ) (d : Described)
    (hs : Spares free r.content.position (nextFrom? n d r) EntryBefore) :
    Outcomes (Option.Rel fun u v => u.1 = v.1 ∧ u.2.Recut free v.2) (nextFrom? n d r)
      (nextFrom? n d r') := by
  induction n generalizing d r r' with
  | zero => exact .error _
  | succ n ih =>
    have hmember : Spares free r.content.position (r.nextMember? d.pax) MemberBefore := by
      intro q hq hk
      obtain ⟨_ | ⟨e, r₂⟩, hn, hb⟩ := hs q hq hk
      · exact absurd hb id
      obtain ⟨hd, size, r₁, hm, hcase⟩ := nextFrom?_some.mp hn
      refine ⟨_, hm, ?_⟩
      have ha := (nextMember?_advances hr hm).1
      rcases hcase with ⟨-, -, data, c, hdrain, hn⟩ | ⟨-, he⟩
      · have hbehind := (nextFrom?_advances (ha.proper.drained hdrain) hn).position
        have hreach := ha.proper.reach
        simp only [Content.reach] at hreach hbehind
        simp only [EntryBefore] at hb
        simp only [MemberBefore]
        omega
      · exact (entryAt_position he).trans hb
    rw [Reader.nextFrom?] at hs
    rw [Reader.nextFrom?, Reader.nextFrom?]
    refine (h.nextMember? hr d.pax hmember).bind_of ?_
    rintro _ _ hm (⟨hrel⟩ | _)
    · rename_i u v
      obtain ⟨hd, size, r₁⟩ := u
      obtain ⟨hd', size', r₁'⟩ := v
      obtain ⟨hhd, hsize, hr₁⟩ := hrel
      dsimp only at hhd hsize hr₁
      subst hhd hsize
      have ha := (nextMember?_advances hr hm).1
      have hreach := hr.reach
      have hbehind := ha.position
      simp only [Content.reach] at hreach
      replace hs := hs.right hm (show r.content.position ≤ r₁.content.position by omega)
      dsimp only at hs ⊢
      split_ifs at hs ⊢
      · cases hclash : d.clash? hd.kind with
        | some e => exact .error e
        | none =>
          rw [hclash] at hs
          refine (hr₁.content.drain.mapError _).bind_of ?_
          rintro ⟨b, c⟩ ⟨b', c'⟩ hdrain ⟨rfl, hc⟩
          have hdrain' := mapError_ok.mp hdrain
          refine ih (show Recut free { r₁ with content := c } { r₁' with content := c' } from
            ⟨hc, hr₁.next, hr₁.isStream⟩) (ha.proper.drained hdrain') _ ?_
          exact hs.right hdrain (Content.position_le_of_drain hdrain')
      · have hentry : Spares free r₁.content.position (Reader.entryAt d hd size r₁)
            fun u q => u.2.content.position ≤ q := by
          refine hs.left ?_
          rintro u x q - hu hq
          obtain rfl := Except.ok.inj hu
          exact hq
        exact (hr₁.entryAt d hd size hentry).bind
          fun _ _ huv => .ok (.some huv)
    · dsimp only
      split_ifs
      · exact .ok .none
      · exact .error _

/-- The next entries are the same, and what follows them is cut anew. -/
theorem Recut.next? (h : r.Recut free r') (hr : r.Proper)
    (hs : Spares free r.content.position r.next? EntryBefore) :
    Outcomes (Option.Rel fun u v => u.1 = v.1 ∧ u.2.Recut free v.2) r.next? r'.next? :=
  h.nextFrom? hr 4 {} hs

end Reader

end Tar

end LayerPick
