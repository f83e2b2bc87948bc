import LayerPick.Proofs.CutLayers

/-!
# Gzip layers that are spoilt at their end

Behind the deflate data of a gzip file stand the checksum and the length of what they hold, and a
reader that comes to the end of the data finds out if these do not match. But whoever reads an
archive stops at the block of zeros that marks its end. So a gzip layer that has been gone through
is intact, or its archive is marked as ended: in that case whatever stands behind the mark, in the
data or in the trailer, is not looked at, and the extraction is the same if it is spoilt.
-/
namespace LayerPick

open Tar

namespace Gzip

/-- The deflate data of the first member are complete, and the checksum and the length behind them
are those of what they hold. -/
def IsIntact (b : Bytes) : Prop :=
  ∃ packed out bits, skipHeader b = .ok packed ∧ inflate packed = ⟨out, .ok bits⟩ ∧
    8 ≤ bits.align.rest.length ∧
    littleEndian (bits.align.rest.take 4) = (crc32 out.toList).toNat ∧
    littleEndian ((bits.align.rest.drop 4).take 4) = out.toList.length % UInt32.size

lemma checkTrailer_eq_none {data t : Bytes} :
    checkTrailer data t = none ↔ 8 ≤ t.length ∧ littleEndian (t.take 4) = (crc32 data).toNat ∧
      littleEndian ((t.drop 4).take 4) = data.length % UInt32.size := by
  unfold checkTrailer
  split_ifs with hl hsum
  · simp only [false_iff]
    omega
  · simp only [true_iff]
    exact ⟨by omega, hsum⟩
  · simp only [false_iff, not_and]
    exact fun _ hcrc hlen => hsum ⟨hcrc, hlen⟩

lemma error_read {b : Bytes} : (read b).error = none ↔ IsIntact b := by
  unfold IsIntact
  cases hskip : skipHeader b with
  | error err => simp [read, hskip]
  | ok packed =>
    rcases hinflate : inflate packed with ⟨out, (_ | _) | bits⟩
    · simp [read, hskip, hinflate]
    · simp [read, hskip, hinflate]
    · simp only [read, hskip, hinflate, checkTrailer_eq_none]
      constructor
      · exact fun h => ⟨packed, out, bits, rfl, hinflate, h⟩
      · rintro ⟨_, _, _, ⟨rfl⟩, hsame, h⟩
        rw [hinflate] at hsame
        obtain ⟨rfl, rfl⟩ := by simpa using hsame
        exact h

end Gzip

namespace Tar.Reader

variable {r r' : Reader}

/-- Where a header is due there is a block of zeros. -/
def IsMarked (r : Reader) : Prop :=
  ∃ c b s, r.skip = .ok c ∧ c.source.take false blockSize = ⟨b, s, none⟩ ∧
    blockSize ≤ b.length ∧ b.all (· == 0) = true

/-- Reading on from here, each content to its end, comes to a block of zeros where a header is
due. -/
inductive EndsMarked : Reader → Prop
  | here {r : Reader} {b : Bytes} {c : Content} : r.content.drain = .ok (b, c) →
    IsMarked { r with content := c } → EndsMarked r
  | later {r r' : Reader} {b : Bytes} {c : Content} {e : Entry} : r.content.drain = .ok (b, c) →
    Reader.next? { r with content := c } = .ok (some (e, r')) → EndsMarked r' → EndsMarked r

/-- Does reading on, in so many steps, come to a block of zeros where a header is due? -/
def endsMarkedWithin : ℕ → Reader → Bool
  | 0, _ => false
  | n + 1, r =>
    match r.content.drain with
    | .error _ => false
    | .ok (_, c) =>
      match Reader.next? { r with content := c } with
      | .error _ => false
      | .ok none =>
        match Reader.skip { r with content := c } with
        | .error _ => false
        | .ok c => !(c.source.take false blockSize).data.isEmpty
      | .ok (some (_, r')) => endsMarkedWithin n r'

/-- Where no header follows, the archive is marked as ended, or nothing is left of it. -/
lemma isMarked_or_isBare (h : r.next? = .ok none) : r.IsMarked ∨ r.IsBare := by
  obtain ⟨hb, -⟩ := nextFrom?_none.mp h
  obtain ⟨c, hc, hf, hcase⟩ := nextBlock?_none.mp hb
  rcases ht : c.source.take false blockSize with ⟨b, s, f⟩
  rw [ht] at hf hcase
  dsimp only at hf hcase
  subst hf
  rcases hcase with hempty | ⟨hl, hz⟩
  · obtain rfl := List.length_eq_zero_iff.mp hempty
    exact .inr ⟨c, s, hc, ht⟩
  · exact .inl ⟨c, b, s, hc, ht, hl, hz⟩

lemma IsMarked.next? (h : r.IsMarked) : r.next? = .ok none := by
  obtain ⟨c, b, s, hc, ht, hl, hz⟩ := h
  refine nextFrom?_none.mpr ⟨nextBlock?_none.mpr ⟨c, hc, ?_⟩, rfl⟩
  rw [ht]
  exact ⟨rfl, .inr ⟨hl, hz⟩⟩

lemma IsBare.next? (h : r.IsBare) : r.next? = .ok none := by
  obtain ⟨c, s, hc, ht⟩ := h
  refine nextFrom?_none.mpr ⟨nextBlock?_none.mpr ⟨c, hc, ?_⟩, rfl⟩
  rw [ht]
  exact ⟨rfl, .inl rfl⟩

lemma IsMarked.not_isBare (h : r.IsMarked) : ¬r.IsBare := by
  rintro ⟨c', s', hc', ht'⟩
  obtain ⟨c, b, s, hc, ht, hl, -⟩ := h
  obtain rfl := Except.ok.inj (hc.symm.trans hc')
  rw [ht'] at ht
  obtain ⟨rfl, -⟩ := by simpa using ht
  simp [blockSize] at hl

lemma endsMarked_of_within {n : ℕ} (h : r.endsMarkedWithin n = true) : r.EndsMarked := by
  induction n generalizing r with
  | zero => simp [endsMarkedWithin] at h
  | succ n ih =>
    rw [endsMarkedWithin] at h
    rcases hd : r.content.drain with f | ⟨b, c⟩ <;> simp only [hd] at h
    · simp at h
    rcases hx : Reader.next? { r with content := c } with err | _ | ⟨e, r'⟩ <;>
      simp only [hx] at h
    · simp at h
    · rcases isMarked_or_isBare hx with hmarked | ⟨c', s, hskip, ht⟩
      · exact .here hd hmarked
      · simp [hskip, ht] at h
    · exact .later hd hx (ih h)

/-- It does not matter how much of the content under way has been read. -/
lemma EndsMarked.of_rest {c : Content} {b : Bytes}
    (hd : r.content.drain = Content.after b c.drain) (h : EndsMarked { r with content := c }) :
    r.EndsMarked := by
  have hdrain {b₁ : Bytes} {c₁ : Content} (hc : c.drain = .ok (b₁, c₁)) :
      r.content.drain = .ok (b ++ b₁, c₁) := by
    rw [hd, hc, Content.after_ok]
  cases h with
  | here hc hmarked => exact .here (hdrain hc) hmarked
  | later hc hx h => exact .later (hdrain hc) hx h

lemma EndsMarked.of_next? {e : Entry} (hr : r.Proper) (hx : r.next? = .ok (some (e, r')))
    (h : r'.EndsMarked) : r.EndsMarked := by
  obtain ⟨b, c, hd, hx'⟩ := next?_drained hr hx
  exact .later hd hx' h

lemma EndsMarked.not_runsOut (h : r.EndsMarked) : ¬r.RunsOut := by
  induction h with
  | @here r b c hd hmarked =>
    intro hrun
    cases hrun with
    | here hd' hbare =>
      obtain ⟨rfl, rfl⟩ := by simpa [hd] using hd'
      exact hmarked.not_isBare hbare
    | later hd' hx _ =>
      obtain ⟨rfl, rfl⟩ := by simpa [hd] using hd'
      rw [hmarked.next?] at hx
      simp at hx
  | @later r r' b c e hd hx _ ih =>
    intro hrun
    cases hrun with
    | here hd' hbare =>
      obtain ⟨rfl, rfl⟩ := by simpa [hd] using hd'
      rw [hbare.next?] at hx
      simp at hx
    | later hd' hx' hrun =>
      obtain ⟨rfl, rfl⟩ := by simpa [hd] using hd'
      rw [hx] at hx'
      obtain ⟨-, rfl⟩ := by simpa using hx'
      exact ih hrun

lemma runsOut_or_endsMarked (hr : r.Proper) (hx : r.next? = .ok none) :
    r.RunsOut ∨ r.EndsMarked := by
  obtain ⟨b, c, hd, hx'⟩ := next?_drained hr hx
  rcases isMarked_or_isBare hx' with hmarked | hbare
  · exact .inr (.here hd hmarked)
  · exact .inl (.here hd hbare)

end Tar.Reader

section Walk

variable {o : Order} {layers : List Layer} {d : Device} {label : String}

/-- The walk has left the layer with this index, because all files were written or because the
archive in it had come to its end. -/
def Left (o : Order) (layers : List Layer) (d : Device) (label : String) (k : ℕ) : Prop :=
  ∃ r below s, Reached o layers d label (.among k r below, s) ∧
    (o.isDone s = true ∨ r.next? = .ok none)

lemma Reached.left {x : Stand × WalkState} (h : Reached o layers d label x) :
    ∀ k ∈ x.2.opened, (∃ r below, x.1 = .among k r below) ∨ Left o layers d label k := by
  refine h.invariant (P := fun x => ∀ k ∈ x.2.opened, (∃ r below, x.1 = .among k r below) ∨
    Left o layers d label k) (by simp [WalkState.start]) ?_
  intro x y hx hm ih k hk
  cases hm with
  | @enter l i src below s _ _ _ =>
    rcases List.mem_append.mp hk with hk | hk
    · rcases ih k hk with ⟨r, below, hst⟩ | hleft
      · simp at hst
      · exact .inr hleft
    · obtain rfl := List.mem_singleton.mp hk
      exact .inl ⟨_, _, rfl⟩
  | pass _ _ _ =>
    rcases ih k hk with ⟨r, below, hst⟩ | hleft
    · obtain ⟨rfl, -, -⟩ := Stand.among.inj hst
      exact .inl ⟨_, _, rfl⟩
    · exact .inr hleft
  | take _ _ _ ht =>
    rw [(take_frames ht).opened] at hk
    rcases ih k hk with ⟨r, below, hst⟩ | hleft
    · obtain ⟨rfl, -, -⟩ := Stand.among.inj hst
      exact .inl ⟨_, _, rfl⟩
    · exact .inr hleft
  | leave hleave =>
    rcases ih k hk with ⟨r, below, hst⟩ | hleft
    · obtain ⟨rfl, rfl, rfl⟩ := Stand.among.inj hst
      exact .inr ⟨_, _, _, hx, hleave⟩
    · exact .inr hleft

/-- What the archive ends in where the walk is, it ends in from its start. -/
lemma Reached.fromStart {P : Reader → Prop} (hrest : ∀ {r : Reader} {b : Bytes} {c : Content},
      r.content.drain = Content.after b c.drain → P { r with content := c } → P r)
    (hnext : ∀ {r r' : Reader} {e : Entry}, r.Proper → r.next? = .ok (some (e, r')) → P r' → P r)
    {x : Stand × WalkState} (h : Reached o layers d label x) {k : ℕ} {r : Reader}
    {below : List (Layer × ℕ)} (hst : x.1 = .among k r below) (hr : P r) :
    ∃ l src, layers[k]? = some l ∧ l.openLayer = .ok src ∧ P (.ofSource src) := by
  refine h.invariant (P := fun x => ∀ k r below, x.1 = .among k r below → P r →
    ∃ l src, layers[k]? = some l ∧ l.openLayer = .ok src ∧ P (.ofSource src)) (by simp) ?_
    k r below hst hr
  intro x y hx hm ih k r below hst hr
  cases hm with
  | enter _ _ ho =>
    obtain ⟨rfl, rfl, rfl⟩ := Stand.among.inj hst
    exact ⟨_, _, hx.getElem?, ho, hr⟩
  | pass _ hn _ =>
    obtain ⟨rfl, rfl, rfl⟩ := Stand.among.inj hst
    exact ih _ _ _ rfl (hnext hx.proper hn hr)
  | take _ hn _ ht =>
    obtain ⟨rfl, rfl, rfl⟩ := Stand.among.inj hst
    obtain ⟨-, b, hd⟩ := take_leaves (Reader.next?_advances hx.proper hn).proper.bounded ht
    exact ih _ _ _ rfl (hnext hx.proper hn (hrest hd hr))
  | leave _ => simp at hst

/-- A layer that the walk has gone through to its end runs out, or is marked as ended. -/
lemma Reached.ends {k : ℕ} {r : Reader} {below : List (Layer × ℕ)} {s : WalkState}
    (h : Reached o layers d label (.among k r below, s)) (hn : r.next? = .ok none) :
    ∃ l src, layers[k]? = some l ∧ l.openLayer = .ok src ∧
      ((Reader.ofSource src).RunsOut ∨ (Reader.ofSource src).EndsMarked) :=
  h.fromStart (P := fun r => r.RunsOut ∨ r.EndsMarked)
    (fun hd => Or.imp (Reader.RunsOut.of_rest hd) (Reader.EndsMarked.of_rest hd))
    (fun hr hx => Or.imp (Reader.RunsOut.of_next? hr hx) (Reader.EndsMarked.of_next? hr hx)) rfl
    (Reader.runsOut_or_endsMarked h.proper hn)

end Walk

lemma isIntact_of_runsOut {b : Bytes} (h : (Reader.ofSource (gunzip (.ofBytes b))).RunsOut) :
    Gzip.IsIntact b := by
  rw [← Gzip.error_read]
  by_contra herr
  exact Reader.not_runsOut_of_sealed (Reader.proper_ofSource _)
    (Reader.holds_ofSource (sealed_gunzip herr)) h

/-- The second reader is the first one, or agrees with it up to its end, which the first one does
not overlook. Whatever the first one comes to, the second one comes to. -/
def Tar.Reader.Follows (r r' : Reader) : Prop := r = r' ∨ ∃ n, r.EndsIn n r'

/-- Two layers are described alike, and if the first one opens, so does the second, and follows
it. -/
def Layer.Follows (l l' : Layer) : Prop :=
  l.description = l'.description ∧ ∀ src, l.openLayer = .ok src →
    ∃ src', l'.openLayer = .ok src' ∧ (Reader.ofSource src).Follows (.ofSource src')

/-- The second walk stands before layers with the same indices, or among entries that follow those
of the first. -/
inductive Stand.Follows : Stand → Stand → Prop
  | before {below below' : List (Layer × ℕ)} : below.map Prod.snd = below'.map Prod.snd →
    Follows (.before below) (.before below')
  | among {i : ℕ} {r r' : Reader} {below below' : List (Layer × ℕ)} : r.Follows r' →
    below.map Prod.snd = below'.map Prod.snd → Follows (.among i r below) (.among i r' below')

lemma Tar.Reader.Follows.next? {r r' : Reader} (hr : r.Proper) (h : r.Follows r')
    {x : Option (Entry × Reader)} (hx : r.next? = .ok x) :
    ∃ x', r'.next? = .ok x' ∧ Option.Rel (fun u v => u.1 = v.1 ∧ u.2.Follows v.2) x x' := by
  rcases h with rfl | ⟨n, h⟩
  · refine ⟨x, hx, ?_⟩
    cases x with
    | none => exact .none
    | some y => exact .some ⟨rfl, .inl rfl⟩
  · obtain ⟨x', hx', hrel⟩ := h.next? hr hx
    refine ⟨x', hx', ?_⟩
    cases hrel with
    | none => exact .none
    | some h => exact .some ⟨h.1, .inr ⟨n, h.2⟩⟩

lemma take_follows {i : ℕ} {p : String} {e : Entry} {s s' s₁ : WalkState} {r r' : Reader}
    {c₁ : Content} (hr : r.Proper) (h : r.Follows r') (hs : s.SameBooks s')
    (hwhole : ¬r.content.FallsShort r.content.span) (ht : take i p e s r.content = (s₁, .ok c₁)) :
    ∃ s₁' c₁', take i p e s' r'.content = (s₁', .ok c₁') ∧ s₁.SameBooks s₁' ∧
      Reader.Follows { r with content := c₁ } { r' with content := c₁' } := by
  rcases h with rfl | ⟨n, h⟩
  · obtain ⟨s₁', ht', hbooks⟩ := take_same hs ht
    exact ⟨s₁', c₁, ht', hbooks, .inl rfl⟩
  · obtain ⟨s₁', c₁', ht', hbooks, hends⟩ := take_endsIn hr h hs hwhole ht
    exact ⟨s₁', c₁', ht', hbooks, .inr ⟨n, hends⟩⟩

section Walk

variable {o : Order} {layers layers' : List Layer} {d : Device} {label : String}
  (hlen : layers.length = layers'.length)
  (hok : (walk o layers (.start o layers d label)).2 = none)
  (hfollows : ∀ i ∈ (walk o layers (.start o layers d label)).1.opened, ∀ l l',
    layers[i]? = some l → layers'[i]? = some l' → l.Follows l')

include hlen hok hfollows

/-- A move of a walk that does not fail is one of the walk that follows it. -/
lemma Moves.follow {x y x' : Stand × WalkState} (hx : Reached o layers d label x)
    (hm : Moves o layers.length x y) (hx' : Reached o layers' d label x')
    (hst : x.1.Follows x'.1) (hbooks : x.2.SameBooks x'.2) :
    ∃ y', Moves o layers'.length x' y' ∧ y.1.Follows y'.1 ∧ y.2.SameBooks y'.2 := by
  have hproper := hx.proper
  obtain ⟨st', s'⟩ := x'
  obtain ⟨h, hs', hh⟩ := hbooks
  dsimp only at hs' hst
  subst hs'
  cases hm with
  | @enter l i src below s hd hc ho =>
    cases hst with
    | @before _ below' hidx =>
      rcases below' with _ | ⟨⟨l', i'⟩, below'⟩
      · simp at hidx
      obtain ⟨hi, hbelow⟩ := List.cons.inj hidx
      dsimp only at hi
      subst hi
      have hnext : Reached o layers d label (.among i (.ofSource src) below, s.entering i l) :=
        hx.tail (.enter hd hc ho)
      have hopened : i ∈ (walk o layers (.start o layers d label)).1.opened :=
        hnext.opened.subset (by simp [WalkState.entering])
      obtain ⟨hdescription, hopens⟩ := hfollows i hopened l l' hx.getElem? hx'.getElem?
      obtain ⟨src', ho', hreaders⟩ := hopens src ho
      refine ⟨_, .enter hd hc ho', .among hreaders hbelow, h, ?_, hh⟩
      simp only [WalkState.entering, hdescription]
      rfl
  | @pass i e r r₁ below s hd hn hmatch =>
    cases hst with
    | @among _ _ r' _ below' hreaders hbelow =>
      obtain ⟨x', hn', hrel⟩ := hreaders.next? hproper hn
      cases hrel with
      | @some _ v hv =>
        obtain ⟨e', r₁'⟩ := v
        obtain ⟨rfl, hreaders₁⟩ := hv
        exact ⟨_, .pass hd hn' hmatch, .among hreaders₁ hbelow, h, rfl, hh⟩
  | @take i e r r₁ p c below s s₁ hd hn hmatch ht =>
    cases hst with
    | @among _ _ r' _ below' hreaders hbelow =>
      obtain ⟨x', hn', hrel⟩ := hreaders.next? hproper hn
      cases hrel with
      | @some _ v hv =>
        obtain ⟨e', r₁'⟩ := v
        obtain ⟨rfl, hreaders₁⟩ := hv
        obtain ⟨hwhole, -⟩ := hx.takes hok hd hn hmatch
        obtain ⟨s₁', c', ht', hbooks₁, hreaders₂⟩ := take_follows
          (Reader.next?_advances hproper hn).proper hreaders₁ ⟨h, rfl, hh⟩ hwhole ht
        exact ⟨_, .take hd hn' hmatch ht', .among hreaders₂ hbelow, hbooks₁⟩
  | @leave i r below s hleave =>
    cases hst with
    | @among _ _ r' _ below' hreaders hbelow =>
      have hleave' : o.isDone s = true ∨ r'.next? = .ok none := by
        refine hleave.imp_right fun hn => ?_
        obtain ⟨x', hn', hrel⟩ := hreaders.next? hproper hn
        cases hrel with
        | none => exact hn'
      exact ⟨_, .leave hleave', .before hbelow, h, by rw [hlen]; rfl, hh⟩

lemma Reached.follow {x : Stand × WalkState} (hx : Reached o layers d label x) :
    ∃ x', Reached o layers' d label x' ∧ x.1.Follows x'.1 ∧ x.2.SameBooks x'.2 := by
  refine hx.invariant (P := fun x => ∃ x', Reached o layers' d label x' ∧ x.1.Follows x'.1 ∧
    x.2.SameBooks x'.2) ⟨_, .refl, .before ?_, [], ?_, rfl⟩ ?_
  · simp only [List.map_reverse, List.zipIdx_map_snd, hlen]
  · simp only [WalkState.start, Order.announcement, hlen]
    rfl
  · rintro x y hx hm ⟨x', hx', hst, hbooks⟩
    obtain ⟨y', hm', hst', hbooks'⟩ := hm.follow hlen hok hfollows hx hx' hst hbooks
    exact ⟨y', hx'.tail hm', hst', hbooks'⟩

lemma walk_follow : ∃ s s', walk o layers (.start o layers d label) = (s, none) ∧
    walk o layers' (.start o layers' d label) = (s', none) ∧ s.SameBooks s' := by
  rcases hw : walk o layers (.start o layers d label) with ⟨s, failure⟩
  obtain ⟨x, hx, hz⟩ := walk_eq_iff.mp hw
  obtain ⟨⟨st', s₁'⟩, hx', hst, hbooks⟩ := hx.follow hlen hok hfollows
  rw [hw] at hok
  dsimp only at hok
  subst hok
  cases hz with
  | ended =>
    cases hst with
    | @before _ below' hidx =>
      obtain rfl : below' = [] := by simpa using hidx.symm
      exact ⟨s, s₁', rfl, walk_eq_iff.mpr ⟨_, hx', .ended⟩, hbooks⟩
  | @done l i below s₁ hd =>
    cases hst with
    | @before _ below' hidx =>
      rcases below' with _ | ⟨⟨l', i'⟩, below'⟩
      · simp at hidx
      obtain ⟨hi, -⟩ := List.cons.inj hidx
      dsimp only at hi
      subst hi
      obtain ⟨h, he, hh⟩ := hbooks
      dsimp only at he
      subst he
      exact ⟨_, _, rfl, walk_eq_iff.mpr ⟨_, hx', .done hd⟩, h, rfl, hh⟩

end Walk

/-- What is extracted without a failure is extracted alike from layers that follow those that were
opened. -/
lemma extract_follow {layers layers' : List Layer} {files : List FileSpec} {cancelled : ℕ → Bool}
    {d : Device} {label : String} {e : Extraction} (hlen : layers.length = layers'.length)
    (hx : (extract ⟨.ok layers⟩ files cancelled (.ok d) label).outcome = .ok e)
    (hfollows : ∀ i ∈ (extract ⟨.ok layers⟩ files cancelled (.ok d) label).opened, ∀ l l',
      layers[i]? = some l → layers'[i]? = some l' → l.Follows l') :
    ∃ attempts, extract ⟨.ok layers'⟩ files cancelled (.ok d) label =
      { extract ⟨.ok layers⟩ files cancelled (.ok d) label with attempts := attempts } := by
  rw [extract_eq] at hx hfollows ⊢
  rw [(conclude_frame ..).1] at hfollows
  obtain ⟨s, s', hw, hw', h, rfl, hh⟩ := walk_follow hlen (conclude_ok hx).1 hfollows
  refine ⟨h.reverse, ?_⟩
  rw [extract_eq, hw, hw']
  exact conclude_withHistory files label s hlen.symm hh

/-- `s'` has what `s` has, or both have gzip files with the same data, which hold an archive that is
marked as ended. -/
def SameDataIn (s s' : BlobStore) (name : String) : Prop :=
  s'.openBlob name = s.openBlob name ∨
    ∃ b b', s.openBlob name = .ok (.ofBytes b) ∧ s'.openBlob name = .ok (.ofBytes b') ∧
      Gzip.isGzip b = true ∧ Gzip.isGzip b' = true ∧ (Gzip.read b').data = (Gzip.read b).data ∧
      (Reader.ofSource (gunzip (.ofBytes b))).EndsMarked

lemma follows_gunzip {b b' : Bytes} (hdata : (Gzip.read b').data = (Gzip.read b).data)
    (h : (Reader.ofSource (gunzip (.ofBytes b))).EndsMarked) :
    (Reader.ofSource (gunzip (.ofBytes b))).Follows (.ofSource (gunzip (.ofBytes b'))) := by
  refine .inr ⟨(Gzip.read b).data.length, ⟨⟨rfl, rfl, ?_⟩, rfl, rfl⟩, Reader.holds_ofSource ?_,
    h.not_runsOut⟩
  · rw [gunzip_ofBytes, gunzip_ofBytes b', hdata]
    exact agree_begins List.prefix_rfl ..
  · rw [gunzip_ofBytes, Nat.zero_add]
    cases (Gzip.read b).error <;> simp [Source.length, Source.data, Event.data]

lemma SameDataIn.follows {s s' : BlobStore} {name : String} (h : SameDataIn s s' name) :
    Layer.Follows ⟨name, do unpackedBlob name (← s.openBlob name)⟩
      ⟨name, do unpackedBlob name (← s'.openBlob name)⟩ := by
  refine ⟨rfl, fun src ho => ?_⟩
  rcases h with heq | ⟨b, b', hb, hb', hgzip, hgzip', hdata, hmarked⟩
  · exact ⟨src, by rwa [heq], .inl rfl⟩
  · simp only [hb, hb', Tar.ok_bind, unpackedBlob_ofBytes, hgzip, hgzip', if_true] at ho ⊢
    obtain rfl := Except.ok.inj ho
    exact ⟨_, rfl, follows_gunzip hdata hmarked⟩

lemma getElem?_blobLayers {s : BlobStore} {names : List String} {k : ℕ} {l : Layer} :
    (blobLayers s names)[k]? = some l ↔ ∃ name, names[k]? = some name ∧
      (⟨name, do unpackedBlob name (← s.openBlob name)⟩ : Layer) = l := by
  simp [blobLayers]

/-- A gzip layer that an extraction without a failure has opened is intact, unless all files were
written before the end of its archive, or its archive is marked as ended. And where it is so marked,
it makes no difference what stands behind the data of the archive: with another checksum or another
length, or cut off there, the same is extracted. -/
theorem extract_gzip {img : LocalImage} {t : FileTree} {files : List FileSpec}
    {cancelled : ℕ → Bool} {d : Device} {label : String} {e : Extraction}
    (hx : (extract (img.image t) files cancelled (.ok d) label).outcome = .ok e) :
    let o := Order.ofFiles files cancelled
    let s := img.store.blobs t
    let x := extract (img.image t) files cancelled (.ok d) label
    (∀ k ∈ x.opened,
        (∃ r below w, Reached o (blobLayers s img.layers) d label (.among k r below, w) ∧
          o.isDone w = true) ∨
        ∀ name b, img.layers[k]? = some name → s.openBlob name = .ok (.ofBytes b) →
          Gzip.isGzip b = true →
            Gzip.IsIntact b ∨ (Reader.ofSource (gunzip (.ofBytes b))).EndsMarked) ∧
      ∀ s' : BlobStore,
        (∀ k ∈ x.opened, ∀ name, img.layers[k]? = some name → SameDataIn s s' name) →
        ∃ attempts, extract ⟨.ok (blobLayers s' img.layers)⟩ files cancelled (.ok d) label =
          { x with attempts := attempts } := by
  intro o s x
  constructor
  · intro k hk
    rcases hw : walk o (blobLayers s img.layers) (.start o (blobLayers s img.layers) d label) with
      ⟨w, failure⟩
    have hx' : x = conclude files (blobLayers s img.layers) label w failure := by
      rw [show x = _ from extract_eq (blobLayers s img.layers) files cancelled d label, hw]
    have hfailure : failure = none := by
      rw [show extract (img.image t) files cancelled (.ok d) label = x from rfl, hx'] at hx
      exact (conclude_ok hx).1
    subst hfailure
    obtain ⟨below, w₁, hreached, ⟨log, rfl⟩, -⟩ := walk_ok hw
    rw [hx', (conclude_frame ..).1] at hk
    rcases hreached.left k hk with ⟨r, below', hst⟩ | ⟨r, below', w, hr, hdone | hn⟩
    · simp at hst
    · exact .inl ⟨r, below', w, hr, hdone⟩
    · right
      intro name b hname hb hgzip
      obtain ⟨l, src, hl, ho, hends⟩ := hr.ends hn
      obtain ⟨name', hname', rfl⟩ := getElem?_blobLayers.mp hl
      obtain rfl := Option.some.inj (hname.symm.trans hname')
      simp only [hb, Tar.ok_bind, unpackedBlob_ofBytes, hgzip, if_true] at ho
      obtain rfl := Except.ok.inj ho
      exact hends.imp_left isIntact_of_runsOut
  · intro s' hsame
    refine extract_follow (by simp [blobLayers]) hx fun k hk l l' hl hl' => ?_
    obtain ⟨name, hname, rfl⟩ := getElem?_blobLayers.mp hl
    obtain ⟨name', hname', rfl⟩ := getElem?_blobLayers.mp hl'
    obtain rfl := Option.some.inj (hname.symm.trans hname')
    exact (hsame k hk name hname).follows

/-- An archive with the file `usr/bin/foo` and a block of zeros behind it. -/
def markedArchive : Bytes :=
  (bareHeader "usr/bin/foo" 5).toBytes ++ [104, 101, 108, 108, 111] ++ zeros 507 ++ zeros 512

/-- A gzip file that stores some data, with any trailer. -/
def storedWith (data trailer : Bytes) : Bytes :=
  [0x1f, 0x8b, 8, 0, 0, 0, 0, 0, 0, 255] ++
    (Gzip.storedBlocks (data.length / Gzip.maxStored) data ++ trailer)

lemma read_storedWith (data trailer : Bytes) :
    Gzip.read (storedWith data trailer) = ⟨data, Gzip.checkTrailer data trailer⟩ := by
  have hskip : Gzip.skipHeader (storedWith data trailer) =
      .ok (Gzip.storedBlocks (data.length / Gzip.maxStored) data ++ trailer) := by
    simp [Gzip.skipHeader, storedWith, Gzip.isGzip, Gzip.hasFlag]
  simp only [Gzip.read, hskip, Gzip.inflate_stored, Gzip.Bits.align, Gzip.Bits.ofBytes]

/-- An image in a folder, with one layer. -/
def folderImage : LocalImage := ⟨"image", .layout "image", ["layer"]⟩

/-- The files of that image, if the layer has these bytes. -/
def folderFiles (b : Bytes) : FileTree :=
  (FileTree.empty.put ["work", "image"] .folder).put ["work", "image", "layer"] (.file b)

/-- What is extracted from it, if two files are looked for. -/
def folderRun (b : Bytes) : Extracted :=
  extract (folderImage.image (folderFiles b)) [⟨"/usr/bin/foo", "."⟩, ⟨"/usr/bin/bar", "."⟩]
    (fun _ => false) (.ok .accepting) "out"

lemma openBlob_folderFiles (b : Bytes) :
    (folderImage.store.blobs (folderFiles b)).openBlob "layer" = .ok (.ofBytes b) := rfl

lemma blobLayers_storedWith (data trailer : Bytes) :
    blobLayers (folderImage.store.blobs (folderFiles (storedWith data trailer)))
        folderImage.layers =
      [⟨"layer", .ok ⟨.bytes data none :: ((Gzip.checkTrailer data trailer).map fun e =>
        Event.fault (unpackingFault none e)).toList, none⟩⟩] := by
  have hgzip : Gzip.isGzip (storedWith data trailer) = true := rfl
  simp only [blobLayers, folderImage, List.map_cons, List.map_nil]
  rw [show LocalStore.blobs (.layout "image") _ = folderImage.store.blobs _ from rfl,
    openBlob_folderFiles, Tar.ok_bind, unpackedBlob_ofBytes, if_pos hgzip, gunzip_ofBytes,
    read_storedWith]

lemma checkTrailer_markedArchive :
    Gzip.checkTrailer markedArchive (zeros 8) = some .wrongChecksum := by
  have hlen : markedArchive.length = 1536 := by decide +kernel
  have hzero : Gzip.littleEndian (((zeros 8).drop 4).take 4) = 0 := by decide
  rw [Gzip.checkTrailer, if_neg (by decide), if_neg]
  rintro ⟨-, h⟩
  rw [hzero, hlen] at h
  simp [UInt32.size] at h

/-- A layer with a trailer that does not match is gone through to its end, in search of a file that
is not there, and the other file is extracted. -/
theorem extract_gzip_stale :
    let b := storedWith markedArchive (zeros 8)
    (Gzip.isGzip b = true ∧ ¬Gzip.IsIntact b) ∧
      (folderRun b).outcome = .ok ⟨[⟨"/usr/bin/foo", "."⟩], [], 1, "out"⟩ ∧
      (folderRun b).opened = [0] ∧
      (folderRun b).attempts.map (fun a => (a.path, a.content.bytes, a.result)) =
        [("usr/bin/foo", [104, 101, 108, 108, 111], .complete 5)] := by
  intro b
  have hb : Gzip.read b = ⟨markedArchive, some .wrongChecksum⟩ := by
    rw [read_storedWith, checkTrailer_markedArchive]
  refine ⟨⟨rfl, ?_⟩, ?_⟩
  · rw [← Gzip.error_read, hb]
    simp
  · simp only [folderRun, LocalImage.image, b, blobLayers_storedWith, checkTrailer_markedArchive]
    decide +kernel

def rightTrailer : Bytes :=
  Gzip.toLittleEndian 4 (Gzip.crc32 markedArchive).toNat ++
    Gzip.toLittleEndian 4 (markedArchive.length % UInt32.size)

lemma read_rightTrailer :
    Gzip.read (storedWith markedArchive rightTrailer) = ⟨markedArchive, none⟩ := by
  rw [read_storedWith, rightTrailer, Gzip.checkTrailer_written]

lemma endsMarked_markedArchive :
    (Reader.ofSource (gunzip (.ofBytes (storedWith markedArchive rightTrailer)))).EndsMarked := by
  refine Reader.endsMarked_of_within (n := 2) ?_
  rw [gunzip_ofBytes, read_rightTrailer]
  decide +kernel

lemma sameDataIn_folderFiles :
    SameDataIn (folderImage.store.blobs (folderFiles (storedWith markedArchive rightTrailer)))
      (folderImage.store.blobs (folderFiles (storedWith markedArchive (zeros 8)))) "layer" := by
  refine .inr ⟨_, _, openBlob_folderFiles _, openBlob_folderFiles _, rfl, rfl, ?_,
    endsMarked_markedArchive⟩
  rw [read_rightTrailer, read_storedWith]

/-- The file is extracted from a layer that is intact, and so it is from one with another
trailer. -/
theorem extract_gzip_marked :
    (folderRun (storedWith markedArchive rightTrailer)).outcome =
        .ok ⟨[⟨"/usr/bin/foo", "."⟩], [], 1, "out"⟩ ∧
      ∃ attempts, folderRun (storedWith markedArchive (zeros 8)) =
        { folderRun (storedWith markedArchive rightTrailer) with attempts := attempts } := by
  unfold folderRun
  have hx : (extract (folderImage.image (folderFiles (storedWith markedArchive rightTrailer)))
      [⟨"/usr/bin/foo", "."⟩, ⟨"/usr/bin/bar", "."⟩] (fun _ => false) (.ok .accepting)
      "out").outcome = .ok ⟨[⟨"/usr/bin/foo", "."⟩], [], 1, "out"⟩ := by
    simp only [LocalImage.image, blobLayers_storedWith]
    rw [rightTrailer, Gzip.checkTrailer_written]
    decide +kernel
  have hsame := (extract_gzip hx).2
    (folderImage.store.blobs (folderFiles (storedWith markedArchive (zeros 8)))) fun _ _ name h => by
      obtain rfl : name = "layer" := List.mem_singleton.mp (List.mem_of_getElem? h)
      exact sameDataIn_folderFiles
  exact ⟨hx, hsame⟩

end LayerPick
