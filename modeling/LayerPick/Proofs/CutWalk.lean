import LayerPick.Proofs.CutArchive
import LayerPick.Proofs.FailureKinds

/-!
# Walks over layers that break off

Let each layer of an image be the same as in another image, or be paired with it: they agree up to
where one of the two ends, and that one does not run out. If neither walk fails, both have done the
same. For the content of an entry that is taken is all there on either side, and what comes next is
the same.
-/
namespace LayerPick

open Tar

/-- The two readers are the same, or agree up to where one of them ends, which does not run out. -/
def Tar.Reader.Paired (r r' : Reader) : Prop :=
  r = r' ∨ ∃ n, EndsIn n r r' ∨ EndsIn n r' r

/-- Two layers are described alike, and where both open, their archives are paired, or the second
one fails at its start. -/
def Layer.Paired (l l' : Layer) : Prop :=
  l.description = l'.description ∧ ∀ src src', l.openLayer = .ok src → l'.openLayer = .ok src' →
    (Reader.ofSource src).Paired (.ofSource src') ∨ ∃ err, (Reader.ofSource src').next? = .error err

/-- The two states differ in nothing but the streams behind the contents they have written. -/
def WalkState.SameBooks (s s' : WalkState) : Prop :=
  ∃ h, s' = s.withHistory h ∧ h.map Attempt.outline = s.archive.history.map Attempt.outline

/-- The two walks stand before layers with the same indices, and among entries that are paired. -/
inductive Stand.Beside : Stand → Stand → Prop
  | before {below below' : List (Layer × ℕ)} : below.map Prod.snd = below'.map Prod.snd →
    Beside (.before below) (.before below')
  | among {i : ℕ} {r r' : Reader} {below below' : List (Layer × ℕ)} : r.Paired r' →
    below.map Prod.snd = below'.map Prod.snd → Beside (.among i r below) (.among i r' below')

lemma WalkState.SameBooks.symm {s s' : WalkState} (h : s.SameBooks s') : s'.SameBooks s := by
  obtain ⟨hist, rfl, hh⟩ := h
  exact ⟨s.archive.history, rfl, hh.symm⟩

/-- Where neither reader fails, the next entry is the same. -/
lemma Tar.Reader.Paired.next? {r r' : Reader} (hr : r.Proper) (hr' : r'.Proper) (h : r.Paired r')
    {x x' : Option (Entry × Reader)} (hx : r.next? = .ok x) (hx' : r'.next? = .ok x') :
    Option.Rel (fun u v => u.1 = v.1 ∧ u.2.Paired v.2) x x' := by
  rcases h with rfl | ⟨n, h | h⟩
  · obtain rfl := Except.ok.inj (hx.symm.trans hx')
    cases x with
    | none => exact .none
    | some y => exact .some ⟨rfl, .inl rfl⟩
  · obtain ⟨y, hy, hrel⟩ := h.next? hr hx
    obtain rfl := Except.ok.inj (hy.symm.trans hx')
    cases hrel with
    | none => exact .none
    | some h => exact .some ⟨h.1, .inr ⟨n, .inl h.2⟩⟩
  · obtain ⟨y, hy, hrel⟩ := h.next? hr' hx'
    obtain rfl := Except.ok.inj (hy.symm.trans hx)
    cases hrel with
    | none => exact .none
    | some h => exact .some ⟨h.1.symm, .inr ⟨n, .inr h.2⟩⟩

lemma take_same {i : ℕ} {p : String} {e : Entry} {s s' s₁ : WalkState} {c c₁ : Content}
    (hs : s.SameBooks s') (ht : take i p e s c = (s₁, .ok c₁)) :
    ∃ s₁', take i p e s' c = (s₁', .ok c₁) ∧ s₁.SameBooks s₁' := by
  obtain ⟨h, rfl, hh⟩ := hs
  obtain ⟨rs, c₂, a, r, hc, ha, -⟩ := take_ok ht
  obtain ⟨d, hw, -⟩ := append_eq.mp ha
  obtain ⟨-, h₁, ht', hh₁⟩ := take_withHistory hc hc hw hw hh ht
  exact ⟨_, ht', h₁, rfl, hh₁⟩

/-- An entry that is all there where the archive ends is taken alike from the other archive. -/
lemma take_endsIn {n i : ℕ} {p : String} {e : Entry} {s s' s₁ : WalkState} {r r' : Reader}
    {c₁ : Content} (hr : r.Proper) (h : r.EndsIn n r') (hs : s.SameBooks s')
    (hwhole : ¬r.content.FallsShort r.content.span) (ht : take i p e s r.content = (s₁, .ok c₁)) :
    ∃ s₁' c₁', take i p e s' r'.content = (s₁', .ok c₁') ∧ s₁.SameBooks s₁' ∧
      Reader.EndsIn n { r with content := c₁ } { r' with content := c₁' } := by
  obtain ⟨hist, rfl, hh⟩ := hs
  have hreach : r.content.reach ≤ n := by
    simp only [Content.FallsShort, not_forall, not_lt] at hwhole
    obtain ⟨b, c', hd, hlen⟩ := hwhole
    have hlength := Content.drain_length hr.bounded hd
    have htotal := h.total b c' hd
    simp only at htotal
    omega
  obtain ⟨hl, b, hd⟩ := take_leaves hr.bounded ht
  obtain ⟨h₁, c₁', ht', hh₁, hagree⟩ := take_agree h.agree.content hr.bounded hreach hh ht
  refine ⟨_, c₁', ht', ⟨h₁, rfl, hh₁⟩, ⟨hagree, h.agree.next, h.agree.isFile⟩, h.total.at hd, ?_⟩
  exact fun hrun => h.noticed (hrun.of_rest hd)

/-- An entry that is all there on either side is taken alike, unless one of the walks fails at it. -/
lemma take_paired {i : ℕ} {p : String} {e : Entry} {s s' s₁ s₁' : WalkState} {r r' : Reader}
    {c₁ c₁' : Content} (hr : r.Proper) (hr' : r'.Proper) (h : r.Paired r') (hs : s.SameBooks s')
    (hwhole : ¬r.content.FallsShort r.content.span)
    (hwhole' : ¬r'.content.FallsShort r'.content.span)
    (ht : take i p e s r.content = (s₁, .ok c₁)) (ht' : take i p e s' r'.content = (s₁', .ok c₁')) :
    s₁.SameBooks s₁' ∧ Reader.Paired { r with content := c₁ } { r' with content := c₁' } := by
  rcases h with rfl | ⟨n, h | h⟩
  · obtain ⟨s₂, ht₂, hbooks⟩ := take_same hs ht
    obtain ⟨rfl, hc⟩ := Prod.mk.inj (ht₂.symm.trans ht')
    obtain rfl := Except.ok.inj hc
    exact ⟨hbooks, .inl rfl⟩
  · obtain ⟨s₂, c₂, ht₂, hbooks, hends⟩ := take_endsIn hr h hs hwhole ht
    obtain ⟨rfl, hc⟩ := Prod.mk.inj (ht₂.symm.trans ht')
    obtain rfl := Except.ok.inj hc
    exact ⟨hbooks, .inr ⟨n, .inl hends⟩⟩
  · obtain ⟨s₂, c₂, ht₂, hbooks, hends⟩ := take_endsIn hr' h hs.symm hwhole' ht'
    obtain ⟨rfl, hc⟩ := Prod.mk.inj (ht₂.symm.trans ht)
    obtain rfl := Except.ok.inj hc
    exact ⟨hbooks.symm, .inr ⟨n, .inr hends⟩⟩

section Walk

variable {o : Order} {layers layers' : List Layer} {d : Device} {label : String}

/-- Where a walk halts that does not fail, it does not fail. -/
lemma Reached.halts_none (hok : (walk o layers (.start o layers d label)).2 = none)
    {x : Stand × WalkState} (h : Reached o layers d label x) {z : WalkState × Option Failure}
    (hz : Halts o x z) : z.2 = none := by
  rw [← hok, walk_eq_iff.mpr ⟨x, h, hz⟩]

lemma Reached.opens (hok : (walk o layers (.start o layers d label)).2 = none) {l : Layer} {i : ℕ}
    {below : List (Layer × ℕ)} {s : WalkState}
    (h : Reached o layers d label (.before ((l, i) :: below), s)) (hd : o.isDone s = false)
    (hc : o.cancelled i = false) : ∃ src, l.openLayer = .ok src := by
  rcases hl : l.openLayer with f | src
  · have hfail := h.halts_none hok (.closed hd hc hl)
    simp at hfail
  · exact ⟨src, rfl⟩

lemma Reached.reads (hok : (walk o layers (.start o layers d label)).2 = none) {i : ℕ} {r : Reader}
    {below : List (Layer × ℕ)} {s : WalkState}
    (h : Reached o layers d label (.among i r below, s)) (hd : o.isDone s = false) :
    ∃ x, r.next? = .ok x := by
  rcases hn : r.next? with err | x
  · have hfail := h.halts_none hok (.undecodable hd hn)
    simp at hfail
  · exact ⟨x, rfl⟩

/-- A walk that does not fail takes the content of an entry it wants, and that is all there. -/
lemma Reached.takes (hok : (walk o layers (.start o layers d label)).2 = none) {i : ℕ}
    {e : Entry} {r r₁ : Reader} {p : String} {below : List (Layer × ℕ)} {s : WalkState}
    (h : Reached o layers d label (.among i r below, s)) (hd : o.isDone s = false)
    (hn : r.next? = .ok (some (e, r₁))) (hmatch : o.match? s.resolved e = some p) :
    ¬r₁.content.FallsShort r₁.content.span ∧
      ∃ s₁ c, LayerPick.take i p e s r₁.content = (s₁, .ok c) := by
  have hmeets : Meets o layers d label i e r₁.content :=
    ⟨r, r₁, below, s, p, h, hd, hn, hmatch, rfl⟩
  constructor
  · intro hshort
    rw [Reader.next?_span hn] at hshort
    obtain ⟨f, hf, -⟩ := hmeets.fatal hshort
    rw [hok] at hf
    simp at hf
  · rcases ht : LayerPick.take i p e s r₁.content with ⟨s₁, f | c⟩
    · have hfail := h.halts_none hok (.broken hd hn hmatch ht)
      simp at hfail
    · exact ⟨s₁, c, rfl⟩

/-- Where the second walk stands before a layer that is paired, it opens it and goes on among
entries that are paired. -/
lemma Reached.enter_beside (hok' : (walk o layers' (.start o layers' d label)).2 = none)
    {l l' : Layer} {i : ℕ} {below' : List (Layer × ℕ)} {s' : WalkState}
    (hx' : Reached o layers' d label (.before ((l', i) :: below'), s'))
    (hd : o.isDone s' = false) (hc : o.cancelled i = false) (hpair : l.Paired l') {src : Source}
    (ho : l.openLayer = .ok src) :
    ∃ src', l'.openLayer = .ok src' ∧ (Reader.ofSource src).Paired (.ofSource src') := by
  obtain ⟨src', ho'⟩ := hx'.opens hok' hd hc
  rcases hpair.2 src src' ho ho' with hpair | ⟨err, hn⟩
  · exact ⟨src', ho', hpair⟩
  · have hnext : Reached o layers' d label (.among i (.ofSource src') below', s'.entering i l') :=
      hx'.tail (.enter hd hc ho')
    obtain ⟨x, hx⟩ := hnext.reads hok' hd
    rw [hn] at hx
    simp at hx

/-- Where the second walk stands among entries that are paired, it comes to the same entry. -/
lemma Reached.next?_beside (hok' : (walk o layers' (.start o layers' d label)).2 = none) {i : ℕ}
    {r r' : Reader} {below' : List (Layer × ℕ)} {s' : WalkState}
    (hx' : Reached o layers' d label (.among i r' below', s')) (hd : o.isDone s' = false)
    (hr : r.Proper) (hpair : r.Paired r') {x : Option (Entry × Reader)} (hn : r.next? = .ok x) :
    ∃ x', r'.next? = .ok x' ∧ Option.Rel (fun u v => u.1 = v.1 ∧ u.2.Paired v.2) x x' := by
  obtain ⟨x', hn'⟩ := hx'.reads hok' hd
  exact ⟨x', hn', hpair.next? hr hx'.proper hn hn'⟩

variable (hlen : layers.length = layers'.length)
  (hok : (walk o layers (.start o layers d label)).2 = none)
  (hok' : (walk o layers' (.start o layers' d label)).2 = none)
  (hpaired : ∀ i ∈ (walk o layers (.start o layers d label)).1.opened, ∀ l l',
    layers[i]? = some l → layers'[i]? = some l' → l.Paired l')

include hlen hok hok' hpaired

lemma Moves.beside {x y x' : Stand × WalkState} (hx : Reached o layers d label x)
    (hm : Moves o layers.length x y) (hx' : Reached o layers' d label x') (hst : x.1.Beside x'.1)
    (hbooks : x.2.SameBooks x'.2) :
    ∃ y', Moves o layers'.length x' y' ∧ y.1.Beside y'.1 ∧ y.2.SameBooks y'.2 := by
  have hproper := hx.proper
  have hproper' := hx'.proper
  obtain ⟨st', s'⟩ := x'
  obtain ⟨h, hs', hh⟩ := hbooks
  dsimp only at hs' hst
  subst hs'
  cases hm with
  | @enter l i src below s hd hc ho =>
    cases hst with
    | @before _ below' hidx =>
      rcases below' with _ | ⟨⟨l', i'⟩, below'⟩
      · simp at hidx
      obtain ⟨hi, hbelow⟩ := List.cons.inj hidx
      dsimp only at hi
      subst hi
      have hnext : Reached o layers d label (.among i (.ofSource src) below, s.entering i l) :=
        hx.tail (.enter hd hc ho)
      have hopened : i ∈ (walk o layers (.start o layers d label)).1.opened :=
        hnext.opened.subset (by simp [WalkState.entering])
      have hpair := hpaired i hopened l l' hx.getElem? hx'.getElem?
      obtain ⟨src', ho', hreaders⟩ := hx'.enter_beside hok' hd hc hpair ho
      refine ⟨_, .enter hd hc ho', .among hreaders hbelow, h, ?_, hh⟩
      simp only [WalkState.entering, hpair.1]
      rfl
  | @pass i e r r₁ below s hd hn hmatch =>
    cases hst with
    | @among _ _ r' _ below' hpair hbelow =>
      obtain ⟨x', hn', hrel⟩ := hx'.next?_beside hok' hd hproper hpair hn
      cases hrel with
      | @some _ v hv =>
        obtain ⟨e', r₁'⟩ := v
        obtain ⟨rfl, hpair₁⟩ := hv
        exact ⟨_, .pass hd hn' hmatch, .among hpair₁ hbelow, h, rfl, hh⟩
  | @take i e r r₁ p c below s s₁ hd hn hmatch ht =>
    cases hst with
    | @among _ _ r' _ below' hpair hbelow =>
      obtain ⟨x', hn', hrel⟩ := hx'.next?_beside hok' hd hproper hpair hn
      cases hrel with
      | @some _ v hv =>
        obtain ⟨e', r₁'⟩ := v
        obtain ⟨rfl, hpair₁⟩ := hv
        obtain ⟨hwhole, -⟩ := hx.takes hok hd hn hmatch
        obtain ⟨hwhole', s₁', c', ht'⟩ := hx'.takes hok' hd hn' hmatch
        obtain ⟨hbooks₁, hpair₂⟩ := take_paired (Reader.next?_advances hproper hn).proper
          (Reader.next?_advances hproper' hn').proper hpair₁ ⟨h, rfl, hh⟩ hwhole hwhole' ht ht'
        exact ⟨_, .take hd hn' hmatch ht', .among hpair₂ hbelow, hbooks₁⟩
  | @leave i r below s hleave =>
    cases hst with
    | @among _ _ r' _ below' hpair hbelow =>
      have hleave' : o.isDone s = true ∨ r'.next? = .ok none := by
        rcases hd : o.isDone s with _ | _
        · right
          have hn := hleave.resolve_left (by rw [hd]; decide)
          obtain ⟨x', hn', hrel⟩ := hx'.next?_beside hok' hd hproper hpair hn
          cases hrel with
          | none => exact hn'
        · exact .inl rfl
      exact ⟨_, .leave hleave', .before hbelow, h, by rw [hlen]; rfl, hh⟩

lemma Reached.beside {x : Stand × WalkState} (hx : Reached o layers d label x) :
    ∃ x', Reached o layers' d label x' ∧ x.1.Beside x'.1 ∧ x.2.SameBooks x'.2 := by
  refine hx.invariant (P := fun x => ∃ x', Reached o layers' d label x' ∧ x.1.Beside x'.1 ∧
    x.2.SameBooks x'.2) ⟨_, .refl, .before ?_, [], ?_, rfl⟩ ?_
  · simp only [List.map_reverse, List.zipIdx_map_snd, hlen]
  · simp only [WalkState.start, Order.announcement, hlen]
    rfl
  · rintro x y hx hm ⟨x', hx', hst, hbooks⟩
    obtain ⟨y', hm', hst', hbooks'⟩ := hm.beside hlen hok hok' hpaired hx hx' hst hbooks
    exact ⟨y', hx'.tail hm', hst', hbooks'⟩

lemma walk_beside : ∃ s s', walk o layers (.start o layers d label) = (s, none) ∧
    walk o layers' (.start o layers' d label) = (s', none) ∧ s.SameBooks s' := by
  rcases hw : walk o layers (.start o layers d label) with ⟨s, failure⟩
  obtain ⟨x, hx, hz⟩ := walk_eq_iff.mp hw
  obtain ⟨⟨st', s₁'⟩, hx', hst, hbooks⟩ := hx.beside hlen hok hok' hpaired
  rw [hw] at hok
  dsimp only at hok
  subst hok
  cases hz with
  | ended =>
    cases hst with
    | @before _ below' hidx =>
      obtain rfl : below' = [] := by simpa using hidx.symm
      exact ⟨s, s₁', rfl, walk_eq_iff.mpr ⟨_, hx', .ended⟩, hbooks⟩
  | @done l i below s₁ hd =>
    cases hst with
    | @before _ below' hidx =>
      rcases below' with _ | ⟨⟨l', i'⟩, below'⟩
      · simp at hidx
      obtain ⟨hi, -⟩ := List.cons.inj hidx
      dsimp only at hi
      subst hi
      obtain ⟨h, he, hh⟩ := hbooks
      dsimp only at he
      subst he
      exact ⟨_, _, rfl, walk_eq_iff.mpr ⟨_, hx', .done hd⟩, h, rfl, hh⟩

end Walk

/-- Extractions that do not fail, from images whose layers are paired as far as they are opened, do
the same. -/
theorem extract_paired {layers layers' : List Layer} {files : List FileSpec} {cancelled : ℕ → Bool}
    {d : Device} {label : String} {e e' : Extraction} (hlen : layers.length = layers'.length)
    (hx : (extract ⟨.ok layers⟩ files cancelled (.ok d) label).outcome = .ok e)
    (hx' : (extract ⟨.ok layers'⟩ files cancelled (.ok d) label).outcome = .ok e')
    (hpaired : ∀ i ∈ (extract ⟨.ok layers⟩ files cancelled (.ok d) label).opened, ∀ l l',
      layers[i]? = some l → layers'[i]? = some l' → l.Paired l') :
    ∃ attempts, extract ⟨.ok layers'⟩ files cancelled (.ok d) label =
      { extract ⟨.ok layers⟩ files cancelled (.ok d) label with attempts := attempts } := by
  rw [extract_eq] at hx hx' hpaired ⊢
  rw [(conclude_frame ..).1] at hpaired
  obtain ⟨s, s', hw, hw', h, rfl, hh⟩ :=
    walk_beside hlen (conclude_ok hx).1 (conclude_ok hx').1 hpaired
  refine ⟨h.reverse, ?_⟩
  rw [extract_eq, hw, hw']
  exact conclude_withHistory files label s hlen.symm hh

end LayerPick
