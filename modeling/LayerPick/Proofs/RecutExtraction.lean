import LayerPick.Proofs.FailureKinds
import LayerPick.Proofs.RecutWriting

/-!
# Extraction from streams that are cut anew

How the streams of layers are cut into portions does not show in an extraction, and neither do
transient failures in content that is being copied. The walks over both images go side by side:
they stand at the same places, in states that differ in the portions only.

The walk is free to wait at the places that it copies from. That no other call meets these places
follows from the walk going forward only: what it has once passed does not lie ahead again.
-/
namespace LayerPick

open Tar Relation

variable {o : Order} {total : ℕ} {layers : List Layer} {d : Device} {label : String}

lemma Moves.unique : Relator.RightUnique (Moves o total) := by
  intro x y z h h'
  cases h with
  | enter hd hc ho =>
    cases h' with
    | enter _ _ ho' =>
      obtain rfl := Except.ok.inj (ho.symm.trans ho')
      rfl
  | pass hd hn hm =>
    cases h' with
    | pass _ hn' _ =>
      obtain ⟨-, rfl⟩ := Prod.mk.inj (Option.some.inj (Except.ok.inj (hn.symm.trans hn')))
      rfl
    | take _ hn' hm' _ =>
      obtain ⟨rfl, -⟩ := Prod.mk.inj (Option.some.inj (Except.ok.inj (hn.symm.trans hn')))
      simp [hm] at hm'
    | leave hl => simp [hd, hn] at hl
  | take hd hn hm ht =>
    cases h' with
    | pass _ hn' hm' =>
      obtain ⟨rfl, -⟩ := Prod.mk.inj (Option.some.inj (Except.ok.inj (hn.symm.trans hn')))
      simp [hm] at hm'
    | take _ hn' hm' ht' =>
      obtain ⟨rfl, rfl⟩ := Prod.mk.inj (Option.some.inj (Except.ok.inj (hn.symm.trans hn')))
      obtain rfl := Option.some.inj (hm.symm.trans hm')
      obtain ⟨rfl, hc⟩ := Prod.mk.inj (ht.symm.trans ht')
      obtain rfl := Except.ok.inj hc
      rfl
    | leave hl => simp [hd, hn] at hl
  | leave hl =>
    cases h' with
    | pass hd hn _ => simp [hd, hn] at hl
    | take hd hn _ _ => simp [hd, hn] at hl
    | leave _ => rfl

/-- Behind an entry the walk stands no earlier than before it, and behind its content if its header
takes its path. -/
lemma take_forward {i : ℕ} {p : String} {e : Entry} {s s' : WalkState} {c c' : Content}
    (hd : s.archive.device.Accepts) (hc : c.IsBounded) (hspan : c.span = e.size)
    (hsize : e.size ≠ 0) (h : LayerPick.take i p e s c = (s', .ok c')) :
    s'.archive.device.Accepts ∧ c.position ≤ c'.position ∧
      ((placePath e.header p).2.2 = none → c'.position = c.reach) := by
  obtain ⟨records, c₁, a, r, hr, ha, h⟩ := take_ok h
  obtain ⟨d₁, hw, rfl⟩ := append_eq.mp ha
  obtain ⟨hd₁, hresult⟩ := writeEntry_accepting hd hw
  have hcontent := carriedRecords_content hr
  rcases h with ⟨rfl, rfl⟩ | ⟨m, rfl, rfl⟩
  · refine ⟨hd₁, ?_⟩
    obtain ⟨b, hdrain, hb⟩ := explains_writeEntry (carriedRecords_leaves hc hr).1.bounded hw
    rcases hcontent with rfl | ⟨b₁, hdrain₁⟩
    · have hlen := Content.drain_length hc hdrain
      exact ⟨Content.position_le_of_drain hdrain, fun _ => by omega⟩
    · rw [(Content.drain_leaves hc hdrain₁).2] at hdrain
      obtain ⟨rfl, -⟩ := Prod.mk.inj (Except.ok.inj hdrain)
      exact absurd (by simpa using hb) hsize
  · refine ⟨hd₁, ?_⟩
    rcases hresult with ⟨err, hfront, -, -⟩ | ⟨-, hno, -⟩
    · obtain ⟨d₂, hall, -⟩ := hd.writeAll (frontCalls e.header p records).1
      rw [writeEntry_eq, hall, hfront] at hw
      obtain ⟨-, rfl, -⟩ := by simpa only [Prod.mk.injEq] using hw
      rw [frontCalls_snd] at hfront
      refine ⟨?_, fun hp => absurd (hp.symm.trans hfront) (by simp)⟩
      rcases hcontent with rfl | ⟨b₁, hdrain₁⟩
      · exact Nat.le_refl _
      · exact Content.position_le_of_drain hdrain₁
    · exact absurd rfl (hno m)

/-- The stand is past this place of the layer with this index. -/
def Stand.Past (i q : ℕ) : Stand → Prop
  | .before below => i ∉ below.map Prod.snd
  | .among j r below => i ∉ below.map Prod.snd ∧ (i = j → q < r.content.position)

/-- A move does not lead back, as long as the device takes everything. -/
lemma Moves.past {x y : Stand × WalkState} (h : Moves o total x y) (hx : x.1.Proper)
    (hd : x.2.archive.device.Accepts) :
    y.2.archive.device.Accepts ∧ ∀ i q, x.1.Past i q → y.1.Past i q := by
  cases h with
  | enter _ _ _ =>
    refine ⟨hd, fun i q hp => ?_⟩
    simp only [Stand.Past, List.map_cons, List.mem_cons, not_or] at hp ⊢
    exact ⟨hp.2, fun he => absurd he hp.1⟩
  | pass _ hn _ =>
    have ha := Reader.next?_advances hx hn
    have hpos := ha.position
    have hreach := Reader.Proper.reach hx
    simp only [Content.reach] at hreach
    exact ⟨hd, fun i q hp => ⟨hp.1, fun he => by have := hp.2 he; omega⟩⟩
  | take _ hn hm ht =>
    have ha := Reader.next?_advances hx hn
    have hpos := ha.position
    have hreach := Reader.Proper.reach hx
    simp only [Content.reach] at hreach
    have hsize := (Entry.isWanted_iff.mp (match?_some.mp hm).1).2.1
    obtain ⟨hd', hle, -⟩ := take_forward hd ha.proper.bounded (Reader.next?_span hn) hsize ht
    refine ⟨hd', fun i q hp => ⟨hp.1, fun he => ?_⟩⟩
    have := hp.2 he
    simp only
    omega
  | leave _ => exact ⟨hd, fun i q hp => hp.1⟩

lemma Stand.Past.kept {x y : Stand × WalkState} {i q : ℕ} (hp : x.1.Past i q)
    (h : ReflTransGen (Moves o total) x y) (hx : x.1.Proper) (hd : x.2.archive.device.Accepts) :
    y.1.Past i q := by
  induction h using ReflTransGen.head_induction_on with
  | refl => exact hp
  | head hm _ ih =>
    obtain ⟨hd', hp'⟩ := hm.past hx hd
    exact ih (hp' i q hp) (hm.proper hx) hd'

lemma Reached.accepts {x : Stand × WalkState} (h : Reached o layers d label x) (hd : d.Accepts) :
    x.2.archive.device.Accepts :=
  h.invariant (P := fun x => x.2.archive.device.Accepts) hd fun _ _ hx hm ih =>
    (hm.past hx.proper ih).1

lemma Reached.not_mem_below {i : ℕ} {r : Reader} {below : List (Layer × ℕ)} {s : WalkState}
    (h : Reached o layers d label (.among i r below, s)) : i ∉ below.map Prod.snd := by
  obtain ⟨above, l, seen, hall, -⟩ := h.covered
  have hnodup : (layers.zipIdx.reverse.map Prod.snd).Nodup := by
    rw [List.map_reverse, List.nodup_reverse, List.zipIdx_map_snd]
    exact List.nodup_range'
  rw [hall, List.map_append, List.map_cons] at hnodup
  exact (List.nodup_cons.mp hnodup.of_append_right).1

/-- This place of the layer with this index lies in the content of an entry that the walk writes. -/
def CopiesAt (o : Order) (layers : List Layer) (d : Device) (label : String) (i q : ℕ) : Prop :=
  ∃ e c, Meets o layers d label i e c ∧ (placePath e.header e.place).2.2 = none ∧
    c.position ≤ q ∧ q < c.reach

/-- Places that the walk copies from lie behind the next header. -/
lemma Reached.spares {i : ℕ} {r : Reader} {below : List (Layer × ℕ)} {s : WalkState}
    {free : ℕ → Prop} (h : Reached o layers d label (.among i r below, s)) (hd : d.Accepts)
    (hfree : ∀ q, free q → CopiesAt o layers d label i q) :
    Spares free r.content.position r.next? Reader.EntryBefore := by
  intro q hq hk
  obtain ⟨e₁, c₁, ⟨r₁, r₁', below₁, s₁, p, h₁, hdone₁, hn₁, hm₁, rfl⟩, hplaced, hle, hlt⟩ :=
    hfree q hq
  have ha₁ := Reader.next?_advances h₁.proper hn₁
  have hnot : ¬ Stand.Past i q (.among i r₁ below₁) := by
    intro hp
    have hpast := hp.2 rfl
    have hpos := ha₁.position
    have hreach := Reader.Proper.reach (r := r₁) h₁.proper
    simp only [Content.reach] at hreach
    omega
  have hbelow := h.not_mem_below
  rcases ReflTransGen.total_of_right_unique Moves.unique h h₁ with hto | hfrom
  · -- The place has not been met: if it lay before the next entry, the walk would pass it now.
    rcases hto.cases_head with heq | ⟨y, hm, hrest⟩
    · simp only [Prod.mk.injEq, Stand.among.injEq] at heq
      obtain ⟨⟨-, rfl, -⟩, -⟩ := heq
      exact ⟨_, hn₁, hle⟩
    have hkept : ∀ hp : y.1.Past i q, False := fun hp =>
      hnot (hp.kept hrest (hm.proper h.proper) (hm.past h.proper (h.accepts hd)).1)
    cases hm with
    | pass _ hn _ =>
      refine ⟨_, hn, ?_⟩
      by_contra hlt'
      exact hkept ⟨hbelow, fun _ => by simpa using hlt'⟩
    | take _ hn hm ht =>
      refine ⟨_, hn, ?_⟩
      by_contra hlt'
      have ha := Reader.next?_advances h.proper hn
      have hsize := (Entry.isWanted_iff.mp (match?_some.mp hm).1).2.1
      obtain ⟨-, hle', -⟩ := take_forward (h.accepts hd) ha.proper.bounded (Reader.next?_span hn)
        hsize ht
      exact hkept ⟨hbelow, fun _ => (Nat.lt_of_not_le hlt').trans_le hle'⟩
    | leave _ => exact (hkept hbelow).elim
  · -- The place has been met: then its content has been copied, and the walk is past it.
    rcases hfrom.cases_head with heq | ⟨y, hm, hrest⟩
    · simp only [Prod.mk.injEq, Stand.among.injEq] at heq
      obtain ⟨⟨-, rfl, -⟩, -⟩ := heq
      exact ⟨_, hn₁, hle⟩
    have hkept : ∀ hp : y.1.Past i q, False := fun hp => by
      have hpast := (hp.kept hrest (hm.proper h₁.proper)
        (hm.past h₁.proper (h₁.accepts hd)).1).2 rfl
      omega
    cases hm with
    | pass _ hn hm =>
      obtain ⟨rfl, -⟩ := Prod.mk.inj (Option.some.inj (Except.ok.inj (hn.symm.trans hn₁)))
      simp [hm₁] at hm
    | take _ hn hm ht =>
      obtain ⟨rfl, rfl⟩ := Prod.mk.inj (Option.some.inj (Except.ok.inj (hn.symm.trans hn₁)))
      obtain ⟨hw, -, rfl⟩ := match?_some.mp hm
      obtain ⟨-, -, hend⟩ := take_forward (h₁.accepts hd) ha₁.proper.bounded
        (Reader.next?_span hn₁) (Entry.isWanted_iff.mp hw).2.1 ht
      exact (hkept ⟨h₁.not_mem_below, fun _ => by simpa only [hend hplaced] using hlt⟩).elim
    | leave hl => simp [hdone₁, hn₁] at hl

/-- The two layers are described alike, and fail to open alike or have streams of which the second
is cut anew. -/
structure Layer.Recut (free : ℕ → Prop) (l l' : Layer) : Prop where
  description : l.description = l'.description
  openLayer : Outcomes (Source.Recut free 0) l.openLayer l'.openLayer

lemma Layer.Recut.refl (free : ℕ → Prop) (l : Layer) : l.Recut free l :=
  ⟨rfl, .refl (Source.Recut.refl free 0) _⟩

/-- Layers with their indices, cut anew one by one. -/
abbrev RecutBelow (free : ℕ → ℕ → Prop) : List (Layer × ℕ) → List (Layer × ℕ) → Prop :=
  List.Forall₂ fun x x' => x.1.Recut (free x.2) x'.1 ∧ x.2 = x'.2

/-- The stands are the same, and what lies ahead is cut anew. -/
inductive Stand.Recut (free : ℕ → ℕ → Prop) : Stand → Stand → Prop
  | before {below below' : List (Layer × ℕ)} : RecutBelow free below below' →
    Recut free (.before below) (.before below')
  | among {i : ℕ} {r r' : Reader} {below below' : List (Layer × ℕ)} : r.Recut (free i) r' →
    RecutBelow free below below' → Recut free (.among i r below) (.among i r' below')

structure SideBySide (free : ℕ → ℕ → Prop) (x x' : Stand × WalkState) : Prop where
  stand : x.1.Recut free x'.1
  state : x.2.Alike x'.2

section SideBySide

variable {free : ℕ → ℕ → Prop} {x x' : Stand × WalkState}

variable (hfree : ∀ i q, free i q → CopiesAt o layers d label i q) (hd : d.Accepts)

include hfree hd

lemma Reached.next?_recut {i : ℕ} {r r' : Reader} {below : List (Layer × ℕ)} {s : WalkState}
    (hx : Reached o layers d label (.among i r below, s)) (hr : r.Recut (free i) r') :
    Outcomes (Option.Rel fun u v => u.1 = v.1 ∧ u.2.Recut (free i) v.2) r.next? r'.next? :=
  hr.next? hx.proper (hx.spares hd (hfree i))

lemma SideBySide.moves {y : Stand × WalkState} (h : SideBySide free x x')
    (hx : Reached o layers d label x) (hm : Moves o total x y) :
    ∃ y', Moves o total x' y' ∧ SideBySide free y y' := by
  obtain ⟨st', s'⟩ := x'
  obtain ⟨hst, hs⟩ := h
  cases hm with
  | @enter l i src below s hdone hc ho =>
    cases hst with
    | @before _ below' hbelow =>
      cases hbelow with
      | @cons _ x' _ below' hl hbelow =>
        obtain ⟨l', i'⟩ := x'
        obtain ⟨hl, rfl⟩ := hl
        have hopen := hl.openLayer
        simp only [ho] at hopen
        rcases ho' : l'.openLayer with f | src' <;> rw [ho'] at hopen <;> cases hopen
        rename_i hsrc
        exact ⟨_, .enter (hs.isDone o ▸ hdone) hc ho',
          ⟨.among (Reader.recut_ofSource hsrc) hbelow, hs.entering i hl.description⟩⟩
  | @pass i e r r₁ below s hdone hn hmatch =>
    cases hst with
    | @among _ _ r' _ below' hr hbelow =>
      have hnext := hx.next?_recut hfree hd hr
      rw [hn] at hnext
      rcases hn' : r'.next? with err | _ | ⟨e', r₁'⟩ <;> rw [hn'] at hnext <;> cases hnext <;>
        rename_i hrel <;> cases hrel
      rename_i hrel
      obtain ⟨rfl, hr₁⟩ := hrel
      exact ⟨_, .pass (hs.isDone o ▸ hdone) hn' (hs.resolved ▸ hmatch), ⟨.among hr₁ hbelow, hs⟩⟩
  | @take i e r r₁ p c below s s₁ hdone hn hmatch ht =>
    cases hst with
    | @among _ _ r' _ below' hr hbelow =>
      have hnext := hx.next?_recut hfree hd hr
      rw [hn] at hnext
      rcases hn' : r'.next? with err | _ | ⟨e', r₁'⟩ <;> rw [hn'] at hnext <;> cases hnext <;>
        rename_i hrel <;> cases hrel
      rename_i hrel
      obtain ⟨rfl, hr₁⟩ := hrel
      have htake := take_recut i p e hs hr₁.content
      rw [ht] at htake
      rcases ht' : LayerPick.take i p e s' r₁'.content with ⟨s₁', f | c'⟩ <;>
        rw [ht'] at htake <;> obtain ⟨hs₁, hc⟩ := htake <;> cases hc
      rename_i hc
      exact ⟨_, .take (hs.isDone o ▸ hdone) hn' (hs.resolved ▸ hmatch) ht',
        ⟨.among ⟨hc, hr₁.next, hr₁.isStream⟩ hbelow, hs₁⟩⟩
  | @leave i r below s hl =>
    cases hst with
    | @among _ _ r' _ below' hr hbelow =>
      refine ⟨_, .leave ?_, ⟨.before hbelow, hs.leaving total⟩⟩
      rw [← hs.isDone o]
      by_cases hdone : o.isDone s = true
      · exact .inl hdone
      have hnext := hx.next?_recut hfree hd hr
      rw [hl.resolve_left hdone] at hnext
      rcases hn' : r'.next? with err | _ | ⟨e', r₁'⟩ <;> rw [hn'] at hnext <;> cases hnext
      · exact .inr rfl
      · rename_i hrel
        cases hrel

/-- Where one walk halts, so does the other, and they give the same. -/
lemma SideBySide.halts {z : WalkState × Option Failure} (h : SideBySide free x x')
    (hx : Reached o layers d label x) (hz : Halts o x z) : ∃ z', Halts o x' z' ∧ Walked.Alike z z' := by
  obtain ⟨st', s'⟩ := x'
  obtain ⟨hst, hs⟩ := h
  cases hz with
  | ended =>
    cases hst with
    | before hbelow =>
      cases hbelow
      exact ⟨_, .ended, ⟨hs, rfl⟩⟩
  | @done l i below s hdone =>
    cases hst with
    | before hbelow =>
      cases hbelow with
      | @cons _ x' _ below' hl hbelow =>
        obtain ⟨l', i'⟩ := x'
        obtain ⟨hl, rfl⟩ := hl
        exact ⟨_, .done (hs.isDone o ▸ hdone), ⟨hs.say _ _, rfl⟩⟩
  | @cancelled l i below s hdone hc =>
    cases hst with
    | before hbelow =>
      cases hbelow with
      | @cons _ x' _ below' hl hbelow =>
        obtain ⟨l', i'⟩ := x'
        obtain ⟨hl, rfl⟩ := hl
        exact ⟨_, .cancelled (hs.isDone o ▸ hdone) hc, ⟨hs, rfl⟩⟩
  | @closed l i f below s hdone hc ho =>
    cases hst with
    | before hbelow =>
      cases hbelow with
      | @cons _ x' _ below' hl hbelow =>
        obtain ⟨l', i'⟩ := x'
        obtain ⟨hl, rfl⟩ := hl
        have hopen := hl.openLayer
        simp only [ho] at hopen
        rcases ho' : l'.openLayer with f' | src' <;> rw [ho'] at hopen <;> cases hopen
        exact ⟨_, .closed (hs.isDone o ▸ hdone) hc ho',
          ⟨(hs.entering i hl.description).countLayer,
            congrArg (fun t => some (f.within (.openLayer i t))) hl.description⟩⟩
  | @undecodable i r err below s hdone hn =>
    cases hst with
    | @among _ _ r' _ below' hr hbelow =>
      have hnext := hx.next?_recut hfree hd hr
      rw [hn] at hnext
      rcases hn' : r'.next? with err' | x <;> rw [hn'] at hnext <;> cases hnext
      exact ⟨_, .undecodable (hs.isDone o ▸ hdone) hn', ⟨hs.countLayer, rfl⟩⟩
  | @broken i e r r₁ p f below s s₁ hdone hn hmatch ht =>
    cases hst with
    | @among _ _ r' _ below' hr hbelow =>
      have hnext := hx.next?_recut hfree hd hr
      rw [hn] at hnext
      rcases hn' : r'.next? with err | _ | ⟨e', r₁'⟩ <;> rw [hn'] at hnext <;> cases hnext <;>
        rename_i hrel <;> cases hrel
      rename_i hrel
      obtain ⟨rfl, hr₁⟩ := hrel
      have htake := take_recut i p e hs hr₁.content
      rw [ht] at htake
      rcases ht' : LayerPick.take i p e s' r₁'.content with ⟨s₁', f' | c'⟩ <;>
        rw [ht'] at htake <;> obtain ⟨hs₁, hc⟩ := htake <;> cases hc
      exact ⟨_, .broken (hs.isDone o ▸ hdone) hn' (hs.resolved ▸ hmatch) ht', ⟨hs₁.countLayer, rfl⟩⟩

end SideBySide

variable {layers' : List Layer} {free : ℕ → ℕ → Prop}

lemma Reached.recut (hfree : ∀ i q, free i q → CopiesAt o layers d label i q) (hd : d.Accepts)
    (hlen : layers.length = layers'.length)
    (hlayers : RecutBelow free layers.zipIdx.reverse layers'.zipIdx.reverse)
    {x : Stand × WalkState} (hx : Reached o layers d label x) :
    ∃ x', Reached o layers' d label x' ∧ SideBySide free x x' := by
  induction hx with
  | refl =>
    refine ⟨_, .refl, .before hlayers, ?_⟩
    simp only [WalkState.start, Order.announcement, hlen]
    exact ⟨⟨⟨hd, hd, rfl⟩, rfl, rfl⟩, rfl⟩
  | tail hx hm ih =>
    obtain ⟨x', hx', hbeside⟩ := ih
    obtain ⟨y', hm', hy⟩ := hbeside.moves hfree hd hx hm
    exact ⟨y', hx'.tail (hlen ▸ hm'), hy⟩

lemma walk_recut (hfree : ∀ i q, free i q → CopiesAt o layers d label i q) (hd : d.Accepts)
    (hlen : layers.length = layers'.length)
    (hlayers : RecutBelow free layers.zipIdx.reverse layers'.zipIdx.reverse) :
    Walked.Alike (walk o layers (.start o layers d label))
      (walk o layers' (.start o layers' d label)) := by
  obtain ⟨x, hx, hz⟩ := walk_halts o layers d label
  obtain ⟨x', hx', hbeside⟩ := hx.recut hfree hd hlen hlayers
  obtain ⟨z', hz', halike⟩ := hbeside.halts hfree hd hx hz
  rw [walk_eq_iff.mpr ⟨x', hx', hz'⟩]
  exact halike

/-- Layers that are cut anew, free to wait where the walk copies, give extractions that are
alike. -/
lemma extract_layers_recut {files : List FileSpec} {cancelled : ℕ → Bool}
    (hfree : ∀ i q, free i q → CopiesAt (.ofFiles files cancelled) layers d label i q)
    (hd : d.Accepts)
    (hlayers : List.Forall₂ (fun x x' => x.1.Recut (free x.2) x'.1 ∧ x.2 = x'.2) layers.zipIdx
      layers'.zipIdx) :
    (extract ⟨.ok layers⟩ files cancelled (.ok d) label).Alike
      (extract ⟨.ok layers'⟩ files cancelled (.ok d) label) := by
  have hlen : layers.length = layers'.length := by simpa using hlayers.length_eq
  have hwalk := walk_recut hfree hd hlen (List.forall₂_reverse_iff.mpr hlayers)
  rw [extract_eq, extract_eq, ← hwalk.failure]
  exact conclude_alike files hlen label hwalk.state _

/-- Images whose layers are cut anew, without further failures, give extractions that are alike. -/
lemma extract_alike (hl : List.Forall₂ (Layer.Recut fun _ => False) layers layers')
    (files : List FileSpec) (cancelled : ℕ → Bool) {d : Device} (hd : d.Accepts) (label : String) :
    (extract ⟨.ok layers⟩ files cancelled (.ok d) label).Alike
      (extract ⟨.ok layers'⟩ files cancelled (.ok d) label) := by
  refine extract_layers_recut (fun (_ _ : ℕ) (h : False) => h.elim) hd ?_
  rw [List.forall₂_iff_get]
  refine ⟨by simp [hl.length_eq], fun i h₁ h₂ => ?_⟩
  simp only [List.get_eq_getElem, List.getElem_zipIdx, Nat.zero_add, and_true]
  exact (List.forall₂_iff_get.mp hl).2 i (by simpa using h₁) (by simpa using h₂)

/-- How the streams of layers are cut into portions does not show. Replace any layer's stream by one
that delivers the same bytes, meets the same failures and the same end or defect, in portions of any
other sizes, and that may fail further calls, any number of them and each one transiently, at places
that the walk copies the content of an entry from. On a device that takes every call the extraction
stays as it is: the same files or the same failure, the same layers opened, the same attempts and
messages, and the same bytes written. -/
theorem extract_recut {image image' : Image} (files : List FileSpec) (cancelled : ℕ → Bool)
    {d : Device} (hd : d.Accepts) (label : String)
    (h : Outcomes (fun layers layers' : List Layer => layers.length = layers'.length ∧
      ∀ i l l', layers[i]? = some l → layers'[i]? = some l' →
        Layer.Recut (CopiesAt (.ofFiles files cancelled) layers d label i) l l')
      image.layers image'.layers) :
    (extract image files cancelled (.ok d) label).Alike
      (extract image' files cancelled (.ok d) label) := by
  obtain ⟨x⟩ := image
  obtain ⟨x'⟩ := image'
  cases h with
  | error f => exact ⟨rfl, rfl, rfl, rfl, rfl⟩
  | @ok layers layers' hlayers =>
    obtain ⟨hlen, hlayers⟩ := hlayers
    refine extract_layers_recut (fun _ _ => id) hd ?_
    rw [List.forall₂_iff_get]
    refine ⟨by simp [hlen], fun i h₁ h₂ => ?_⟩
    simp only [List.get_eq_getElem, List.getElem_zipIdx, Nat.zero_add, and_true]
    exact hlayers i _ _ (List.getElem?_eq_getElem _) (List.getElem?_eq_getElem _)

/-- A layer that breaks off in the content of a file, and the same one byte by byte and with a call
that is interrupted in that content. -/
theorem extract_recut_broken :
    let whole : Bytes := (bareHeader "usr/bin/foo" 12).toBytes ++ [104, 101, 108, 108, 111]
    let l : Layer := ⟨"foo", .ok ⟨[.bytes whole none], some "disk error"⟩⟩
    let l' : Layer := ⟨"foo", .ok ⟨[.bytes (whole.take 514) (some 1), .fault ⟨true, "interrupted"⟩,
      .bytes (whole.drop 514) (some 1)], some "disk error"⟩⟩
    let x (l : Layer) := extract ⟨.ok [l]⟩ [⟨"/usr/bin/foo", "."⟩] (fun _ => false) (.ok .accepting)
      "out"
    (x l).Alike (x l') := by
  intro whole l l' x
  let o := Order.ofFiles [⟨"/usr/bin/foo", "."⟩] fun _ => false
  let src : Source := ⟨[.bytes whole none], some "disk error"⟩
  let s : WalkState := (WalkState.start o [l] .accepting "out").entering 0 l
  have hreached : Reached o [l] .accepting "out" (.among 0 (.ofSource src) [], s) :=
    .single (.enter rfl rfl rfl)
  have hrun : ((Reader.ofSource src).next?.toOption.bind fun y => y.map fun y =>
      (o.match? s.resolved y.1, (placePath y.1.header y.1.place).2.2.isNone, y.2.content.position,
        y.2.content.reach)) = some (some "usr/bin/foo", true, 512, 524) := by
    decide +kernel
  rcases hx : (Reader.ofSource src).next? with err | _ | ⟨e, r'⟩
  · rw [hx] at hrun
    simp [Except.toOption] at hrun
  · rw [hx] at hrun
    simp [Except.toOption] at hrun
  simp only [hx, Except.toOption, Option.bind_some, Option.map_some, Option.some.injEq,
    Prod.mk.injEq] at hrun
  obtain ⟨hmatch, hplaced, hposition, hend⟩ := hrun
  have hcopies : CopiesAt o [l] .accepting "out" 0 514 :=
    ⟨e, r'.content, ⟨_, r', [], s, _, hreached, rfl, hx, hmatch, rfl⟩,
      Option.isNone_iff_eq_none.mp hplaced, by omega, by omega⟩
  refine extract_recut _ _ Device.accepts_accepting "out"
    (.ok ⟨by simp only [List.length_singleton], ?_⟩)
  intro i a a' ha ha'
  obtain ⟨rfl, rfl⟩ : i = 0 ∧ l = a := by
    cases i with
    | zero => exact ⟨rfl, Option.some.inj ha⟩
    | succ i => simp at ha
  obtain rfl : l' = a' := Option.some.inj ha'
  have hlen : 514 ≤ whole.length := by decide +kernel
  exact ⟨rfl, .ok (Source.recut_interrupted ((Nat.zero_add 514).symm ▸ hcopies) hlen rfl)⟩

end LayerPick
