import LayerPick.Proofs.EntryAgreement
import LayerPick.Proofs.HeaderFields
import LayerPick.Proofs.WalkSteps
import Mathlib.Data.List.Forall2
import Mathlib.Data.List.Nodup

/-!
# Stopping early

The walk ends as soon as the last file is written. What lies below in the image, and what lies
behind the content of that file in its layer, has not been looked at by then. So two images that
agree up to there give the same extraction: the same outcome, the same layers opened, the same
bytes written, the same messages.

The two runs are kept side by side. Their states differ in nothing but the streams behind the
contents that the archive was given; `WalkState.withHistory` puts one history in place of another.
-/
namespace LayerPick

open Tar

/-- An attempt without the stream that its content is read from. -/
def Attempt.outline (a : Attempt) : Header × String × List Pax.Record × Copied :=
  (a.header, a.path, a.records, a.result)

lemma countP_isWritten {as bs : List Attempt} (h : as.map Attempt.outline = bs.map Attempt.outline) :
    as.countP Attempt.isWritten = bs.countP Attempt.isWritten := by
  have hwritten : Attempt.isWritten = (fun x : Header × String × List Pax.Record × Copied =>
      Attempt.isWritten ⟨⟨x.1, x.2.1, x.2.2.1, .ofSource (.ofBytes [])⟩, x.2.2.2⟩) ∘
        Attempt.outline := rfl
  rw [hwritten, ← List.countP_map, ← List.countP_map, h]

def WalkState.withHistory (s : WalkState) (h : List Attempt) : WalkState :=
  { s with archive := { s.archive with history := h } }

/-- Two layers are alike up to the position `n` of their archives. -/
def Layer.AgreeUpTo (n : ℕ) (l l' : Layer) : Prop :=
  l.description = l'.description ∧
    ∃ s s', l.openLayer = .ok s ∧ l'.openLayer = .ok s' ∧ s.Agree n s'

lemma carriedRecords_agree {n : ℕ} {e : Entry} {c c' c₁ : Content} {rs : List Pax.Record}
    (ha : c.Agree n c') (hb : c.IsBounded) (hr : c.reach ≤ n)
    (h : e.carriedRecords c = .ok (rs, c₁)) :
    ∃ c₁', e.carriedRecords c' = .ok (rs, c₁') ∧ c₁.Agree n c₁' := by
  simp only [Entry.carriedRecords] at h ⊢
  split at h
  · obtain ⟨rs', hrs, h⟩ := bind_ok.mp h
    simp only [pure_eq, Except.ok.injEq, Prod.mk.injEq] at h
    obtain ⟨rfl, rfl⟩ := h
    exact ⟨c', bind_ok.mpr ⟨_, hrs, rfl⟩, ha⟩
  · split_ifs at h ⊢
    · obtain ⟨⟨b, c₂⟩, hd, h⟩ := bind_ok.mp h
      obtain ⟨rs', hrs, h⟩ := bind_ok.mp h
      simp only [pure_eq, Except.ok.injEq, Prod.mk.injEq] at h
      obtain ⟨rfl, rfl⟩ := h
      obtain ⟨c₂', hd', ha'⟩ := Content.drain_agree ha hb hr (mapError_ok.mp hd)
      exact ⟨c₂', bind_ok.mpr ⟨_, mapError_ok.mpr hd', bind_ok.mpr ⟨_, hrs, rfl⟩⟩, ha'⟩
    · simp only [Except.ok.injEq, Prod.mk.injEq] at h
      obtain ⟨rfl, rfl⟩ := h
      exact ⟨c', rfl, ha⟩

lemma settle_withHistory (i n : ℕ) (p : String) (s : WalkState) (h : List Attempt)
    (c c' : Content) (r : Copied) :
    settle i p n (s.withHistory h) c' r =
      ((settle i p n s c r).1.withHistory h, (settle i p n s c r).2.map fun _ => c') := by
  cases r with
  | complete k =>
    simp only [settle]
    split_ifs <;> rfl
  | refused m => rfl
  | unreadable m => rfl

lemma take_withHistory {i : ℕ} {p : String} {e : Entry} {s s₁ : WalkState}
    {c c' c₁ c₂ c₂' c₃ c₃' : Content} {rs : List Pax.Record} {d : Device} {r : Copied}
    {h : List Attempt} (hc : e.carriedRecords c = .ok (rs, c₂))
    (hc' : e.carriedRecords c' = .ok (rs, c₂'))
    (hw : writeEntry s.archive.device e.header p rs c₂ = (d, c₃, r))
    (hw' : writeEntry s.archive.device e.header p rs c₂' = (d, c₃', r))
    (hh : h.map Attempt.outline = s.archive.history.map Attempt.outline)
    (ht : take i p e s c = (s₁, .ok c₁)) :
    c₁ = c₃ ∧ ∃ h₁, take i p e (s.withHistory h) c' = (s₁.withHistory h₁, .ok c₃') ∧
      h₁.map Attempt.outline = s₁.archive.history.map Attempt.outline := by
  have happ' : (s.withHistory h).archive.append e.header p rs c₂' =
      (⟨d, s.archive.label, ⟨⟨e.header, p, rs, c₂'⟩, r⟩ :: h⟩, c₃', r) :=
    append_eq.mpr ⟨d, hw', rfl⟩
  rw [take_eq hc (append_eq.mpr ⟨d, hw, rfl⟩)] at ht
  have hasked : (s.withHistory h).asked p ⟨d, s.archive.label, ⟨⟨e.header, p, rs, c₂'⟩, r⟩ :: h⟩ =
      (s.asked p ⟨d, s.archive.label, ⟨⟨e.header, p, rs, c₂⟩, r⟩ :: s.archive.history⟩).withHistory
        (⟨⟨e.header, p, rs, c₂'⟩, r⟩ :: h) := rfl
  refine ⟨(settle_ok.mp ht).1, ⟨⟨e.header, p, rs, c₂'⟩, r⟩ :: h, ?_, ?_⟩
  · rw [take_eq hc' happ', hasked, settle_withHistory, ht]
    rfl
  · obtain ⟨-, ⟨-, rfl⟩ | ⟨m, -, rfl⟩⟩ := settle_ok.mp ht <;>
      simp only [WalkState.say, WalkState.countFile, WalkState.warn, WalkState.asked,
        List.map_cons, hh, Attempt.outline]

/-- An entry whose content ends before the position is taken alike. -/
lemma take_agree {n i : ℕ} {p : String} {e : Entry} {s s₁ : WalkState} {c c' c₁ : Content}
    {h : List Attempt} (ha : c.Agree n c') (hb : c.IsBounded) (hr : c.reach ≤ n)
    (hh : h.map Attempt.outline = s.archive.history.map Attempt.outline)
    (ht : take i p e s c = (s₁, .ok c₁)) :
    ∃ h₁ c₁', take i p e (s.withHistory h) c' = (s₁.withHistory h₁, .ok c₁') ∧
      h₁.map Attempt.outline = s₁.archive.history.map Attempt.outline ∧ c₁.Agree n c₁' := by
  rcases hc : e.carriedRecords c with err | ⟨rs, c₂⟩
  · simp [take, hc] at ht
  obtain ⟨⟨hb₂, hr₂, -⟩, -⟩ := carriedRecords_leaves hb hc
  obtain ⟨c₂', hc', ha₂⟩ := carriedRecords_agree ha hb hr hc
  obtain ⟨d, c₃, c₃', r, hw, hw', ha₃⟩ :=
    writeEntry_agree s.archive.device e.header p rs ha₂ hb₂ (hr₂.trans hr)
  obtain ⟨rfl, h₁, ht', hh₁⟩ := take_withHistory hc hc' hw hw' hh ht
  exact ⟨h₁, c₃', ht', hh₁, ha₃⟩

/-- The entry after which the walk is done has been written whole, from where its content starts. -/
lemma take_finishes {o : Order} {i : ℕ} {p : String} {e : Entry} {s s₁ : WalkState}
    {c c₁ : Content} (hm : o.match? s.resolved e = some p) (hc : c.IsBounded)
    (hnot : o.isDone s = false) (ht : take i p e s c = (s₁, .ok c₁)) (hdone : o.isDone s₁ = true) :
    ∃ rs, s₁.archive.history = ⟨⟨e.header, p, rs, c⟩, .complete e.size⟩ :: s.archive.history := by
  obtain ⟨rs, c₂, a, r, hr, ha, h⟩ := take_ok ht
  obtain ⟨d, hw, rfl⟩ := append_eq.mp ha
  rcases h with ⟨rfl, rfl⟩ | ⟨m, -, rfl⟩
  · refine ⟨rs, ?_⟩
    rcases carriedRecords_content hr with rfl | ⟨b, hd⟩
    · rfl
    -- what has been read to its end has nothing left to be written, but the entry is not empty
    · have hend := (Content.drain_leaves hc hd).2
      obtain ⟨b', hb', hsize⟩ := explains_writeEntry (carriedRecords_leaves hc hr).1.bounded hw
      obtain ⟨rfl, -⟩ := Prod.mk.inj (Except.ok.inj (hend.symm.trans hb'))
      exact absurd hsize (Entry.isWanted_iff.mp (match?_some.mp hm).1).2.1
  · have hsame : o.isDone s = true := hdone
    simp [hsame] at hnot

/-- The last entry that is written lies behind where the walk stands. -/
lemma walkEntries_last {o : Order} {i k : ℕ} {s s' : WalkState} {r : Reader} (hr : r.Proper)
    (hnot : o.isDone s = false) (h : walkEntries o i k s r = (s', none))
    (hdone : o.isDone s' = true) :
    ∃ a t, s'.archive.history = a :: t ∧ r.next + blockSize ≤ a.content.position := by
  induction k generalizing s r with
  | zero =>
    obtain ⟨rfl, -⟩ := Prod.mk.inj h
    simp [hdone] at hnot
  | succ k ih =>
    simp only [walkEntries] at h
    rcases hx : r.next? with err | _ | ⟨e, r₁⟩ <;> rw [hx] at h
    · simp at h
    · obtain ⟨rfl, -⟩ := Prod.mk.inj h
      simp [hdone] at hnot
    have ha := Reader.next?_advances hr hx
    have hpos := ha.position
    have hreach := ha.proper.reach
    simp only [Content.reach] at hreach
    rcases hm : o.match? s.resolved e with _ | p <;> simp only [hm] at h
    · obtain ⟨a, t, hist, hle⟩ := ih ha.proper hnot h
      exact ⟨a, t, hist, by omega⟩
    · rcases ht : take i p e s r₁.content with ⟨s₁, f | c₁⟩ <;> simp only [ht] at h
      · simp at h
      split_ifs at h with hd
      · obtain ⟨rfl, -⟩ := Prod.mk.inj h
        obtain ⟨rs, hist⟩ := take_finishes hm ha.proper.bounded hnot ht hd
        exact ⟨_, _, hist, hpos⟩
      · obtain ⟨a, t, hist, hle⟩ := ih (ha.proper.at (take_leaves ha.proper.bounded ht).1)
          (Bool.not_eq_true _ ▸ hd) h
        exact ⟨a, t, hist, by simp only at hle; omega⟩

/-- Two archives that are delivered alike up to the end of the last entry that is written are gone
through alike. -/
lemma walkEntries_agree {o : Order} {i k k' n : ℕ} {s s' : WalkState} {r r' : Reader}
    {h : List Attempt} (hr : r.Proper) (ha : r.Agree n r') (hk : r'.mostEntries ≤ k')
    (hh : h.map Attempt.outline = s.archive.history.map Attempt.outline)
    (hnot : o.isDone s = false) (hw : walkEntries o i k s r = (s', none))
    (hdone : o.isDone s' = true)
    (hlast : ∀ a t, s'.archive.history = a :: t → a.content.reach ≤ n) :
    ∃ h', walkEntries o i k' (s.withHistory h) r' = (s'.withHistory h', none) ∧
      h'.map Attempt.outline = s'.archive.history.map Attempt.outline := by
  induction k generalizing k' s r r' h with
  | zero =>
    obtain ⟨rfl, -⟩ := Prod.mk.inj hw
    simp [hdone] at hnot
  | succ k ih =>
    have hpos' : 0 < r'.mostEntries := Nat.succ_pos _
    obtain ⟨j, rfl⟩ : ∃ j, k' = j + 1 := ⟨k' - 1, by omega⟩
    simp only [walkEntries] at hw ⊢
    rcases hx : r.next? with err | _ | ⟨e, r₁⟩ <;> rw [hx] at hw
    · simp at hw
    · obtain ⟨rfl, -⟩ := Prod.mk.inj hw
      simp [hdone] at hnot
    have hadv := Reader.next?_advances hr hx
    have hreach := hadv.proper.reach
    simp only [Content.reach] at hreach
    rcases hm : o.match? s.resolved e with _ | p <;> simp only [hm] at hw
    · obtain ⟨a, t, hist, hle⟩ := walkEntries_last hadv.proper hnot hw hdone
      have hn := hlast a t hist
      simp only [Content.reach] at hn
      obtain ⟨r₁', hx', ha₁⟩ := Reader.next?_agree hr ha hx (by omega)
      have hmost := (Reader.next?_advances (ha.proper hr) hx').mostEntries_lt
      simp only [hx', WalkState.withHistory, hm]
      exact ih hadv.proper ha₁ (by omega) hh hnot hw
    · rcases ht : take i p e s r₁.content with ⟨s₁, f | c₁⟩ <;> simp only [ht] at hw
      · simp at hw
      have hn : r₁.content.reach ≤ n := by
        split_ifs at hw with hd
        · obtain ⟨rfl, -⟩ := Prod.mk.inj hw
          obtain ⟨rs, hist⟩ := take_finishes hm hadv.proper.bounded hnot ht hd
          exact hlast _ _ hist
        · obtain ⟨a, t, hist, hle⟩ := walkEntries_last
            (hadv.proper.at (take_leaves hadv.proper.bounded ht).1) (Bool.not_eq_true _ ▸ hd) hw hdone
          have hn := hlast a t hist
          simp only [Content.reach] at hn hle ⊢
          omega
      obtain ⟨r₁', hx', ha₁⟩ := Reader.next?_agree hr ha hx (by simp only [Content.reach] at hn; omega)
      have hadv' := Reader.next?_advances (ha.proper hr) hx'
      have hmost := hadv'.mostEntries_lt
      obtain ⟨h₁, c₁', ht', hh₁, hc₁⟩ := take_agree ha₁.content hadv.proper.bounded hn hh ht
      have hm' : o.match? (s.withHistory h).resolved e = some p := hm
      have hd' : o.isDone (s₁.withHistory h₁) = o.isDone s₁ := rfl
      simp only [hx', hm', ht', hd']
      split_ifs at hw ⊢ with hd
      · obtain ⟨rfl, -⟩ := Prod.mk.inj hw
        exact ⟨h₁, rfl, hh₁⟩
      · have hlen := (take_leaves hadv'.proper.bounded ht').1.length
        have hmost' : Reader.mostEntries { r₁' with content := c₁' } ≤ j :=
          (Nat.add_le_add_right (Nat.div_le_div_right hlen) 1).trans (show r₁'.mostEntries ≤ j by omega)
        exact ih (hadv.proper.at (take_leaves hadv.proper.bounded ht).1)
          ⟨hc₁, ha₁.next, ha₁.isFile⟩ hmost' hh₁ (Bool.not_eq_true _ ▸ hd) hw

lemma walkLayer_agree {o : Order} {i n : ℕ} {l l' : Layer} {s s' : WalkState}
    (hl : l.AgreeUpTo n l') (hnot : o.isDone s = false) (h : walkLayer o i l s = (s', none))
    (hdone : o.isDone s' = true) (hlast : ∀ a t, s'.archive.history = a :: t → a.content.reach ≤ n) :
    ∃ h', walkLayer o i l' s = (s'.withHistory h', none) ∧
      h'.map Attempt.outline = s'.archive.history.map Attempt.outline := by
  obtain ⟨hdesc, src, src', ho, ho', hsrc⟩ := hl
  simp only [walkLayer, ho, ho', ← hdesc] at h ⊢
  have ha : (Reader.ofSource src).Agree n (Reader.ofSource src') :=
    ⟨⟨rfl, rfl, by simpa [Reader.ofSource] using hsrc⟩, rfl, rfl⟩
  exact walkEntries_agree (Reader.proper_ofSource src) ha (Nat.le_succ _) (by rfl)
    (by exact hnot) h hdone hlast

lemma walkLayers_opened (o : Order) (total : ℕ) (ls : List (Layer × ℕ)) (s : WalkState) :
    ∃ j ≤ ls.length, (walkLayers o total ls s).1.opened = s.opened ++ (ls.map Prod.snd).take j ∧
      (walkLayers o total ls s).1.visited = s.visited + j := by
  induction ls generalizing s with
  | nil => exact ⟨0, Nat.le_refl _, by simp [walkLayers], rfl⟩
  | cons x ls ih =>
    obtain ⟨l, i⟩ := x
    obtain ⟨hop, hvis, -⟩ := walkLayer_frame o i l s
    simp only [walkLayers]
    split_ifs
    · exact ⟨0, Nat.zero_le _, by simp [WalkState.say], rfl⟩
    · exact ⟨0, Nat.zero_le _, by simp, rfl⟩
    · rcases hw : walkLayer o i l s with ⟨s₁, _ | f⟩ <;> rw [hw] at hop hvis <;> simp only at hop hvis ⊢
      · obtain ⟨j, hj, hopened, hvisited⟩ := ih (s₁.countLayer.say .info
          ("Scanned layers: " ++ toString s₁.countLayer.visited ++ "/" ++ toString total))
        refine ⟨j + 1, by simpa using hj, ?_, ?_⟩
        · rw [hopened]
          simp [WalkState.say, WalkState.countLayer, hop]
        · rw [hvisited]
          simp only [WalkState.say, WalkState.countLayer, hvis]
          omega
      · exact ⟨1, by simp, by simp [WalkState.countLayer, hop], by simp [WalkState.countLayer, hvis]⟩

lemma walkLayers_opens {o : Order} {total i : ℕ} {l : Layer} {ls : List (Layer × ℕ)}
    {s s' : WalkState} (hnot : o.isDone s = false)
    (h : walkLayers o total ((l, i) :: ls) s = (s', none)) :
    ∃ j, s'.opened = s.opened ++ i :: (ls.map Prod.snd).take j := by
  have hop := (walkLayer_frame o i l s).1
  simp only [walkLayers, hnot, Bool.false_eq_true, if_false] at h
  split_ifs at h
  · simp at h
  rcases hw : walkLayer o i l s with ⟨s₁, _ | f⟩ <;> rw [hw] at h hop <;> simp only at h hop
  · obtain ⟨j, -, hopened, -⟩ := walkLayers_opened o total ls (s₁.countLayer.say .info
      ("Scanned layers: " ++ toString s₁.countLayer.visited ++ "/" ++ toString total))
    rw [h] at hopened
    exact ⟨j, by simpa [WalkState.say, WalkState.countLayer, hop] using hopened⟩
  · simp at h

lemma walkLayers_of_isDone {o : Order} (total : ℕ) (ls ls' : List (Layer × ℕ)) {s : WalkState}
    (hdone : o.isDone s = true) (hidx : ls.map Prod.snd = ls'.map Prod.snd) :
    ∃ log, walkLayers o total ls s = ({ s with log := log }, none) ∧
      ∀ h, walkLayers o total ls' (s.withHistory h) =
        (WalkState.withHistory { s with log := log } h, none) := by
  rcases ls with _ | ⟨⟨l, i⟩, ls⟩ <;> rcases ls' with _ | ⟨⟨l', i'⟩, ls'⟩
  · exact ⟨s.log, rfl, fun h => rfl⟩
  · simp at hidx
  · simp at hidx
  · obtain ⟨rfl, -⟩ := List.cons.inj hidx
    refine ⟨_, by simp only [walkLayers, hdone, if_true]; rfl, fun h => ?_⟩
    have hdone' : o.isDone (s.withHistory h) = true := hdone
    simp only [walkLayers, hdone', if_true]
    rfl

/-- If the last layer that is opened lies before the ones to be walked, the walk is done. -/
lemma isDone_of_last {o : Order} {total i : ℕ} {ls : List (Layer × ℕ)} {s s' : WalkState}
    (h : walkLayers o total ls s = (s', none)) (hdone : o.isDone s' = true)
    (hlast : s'.opened.getLast? = some i) (hi : i ∉ ls.map Prod.snd) : o.isDone s = true := by
  by_contra hnot
  rcases ls with _ | ⟨⟨l, k⟩, ls⟩
  · obtain ⟨rfl, -⟩ := Prod.mk.inj h
    exact hnot hdone
  · obtain ⟨j, hop⟩ := walkLayers_opens (Bool.not_eq_true _ ▸ hnot) h
    rw [hop, List.getLast?_append_of_ne_nil _ (List.cons_ne_nil _ _)] at hlast
    have hmem := List.mem_of_getLast? hlast
    refine hi ?_
    rcases List.mem_cons.mp hmem with rfl | hmem
    · exact List.mem_cons_self ..
    · exact List.mem_cons_of_mem _ (List.mem_of_mem_take hmem)

/-- The layers of two images from which all files are written: they are the same, except that the
last one opened need only be alike up to the end of the last entry the archive was given. -/
def SameAbove (s : WalkState) (x y : Layer × ℕ) : Prop :=
  x.2 = y.2 ∧ (x.1 = y.1 ∨ ∃ a, s.opened.getLast? = some x.2 ∧
    s.archive.attempts.getLast? = some a ∧ x.1.AgreeUpTo a.content.reach y.1)

lemma walkLayers_agree {o : Order} {total : ℕ} {xs xs' ys ys' : List (Layer × ℕ)}
    {s₀ s : WalkState} (hw : walkLayers o total xs s₀ = (s, none)) (hdone : o.isDone s = true)
    (hrel : List.Forall₂ (SameAbove s) xs xs') (hnodup : (xs.map Prod.snd).Nodup)
    (hys : ys.map Prod.snd = ys'.map Prod.snd) :
    ∃ log h, walkLayers o total (xs ++ ys) s₀ = ({ s with log := log }, none) ∧
      walkLayers o total (xs' ++ ys') s₀ = (WalkState.withHistory { s with log := log } h, none) ∧
      h.map Attempt.outline = s.archive.history.map Attempt.outline := by
  induction hrel generalizing s₀ with
  | nil =>
    obtain ⟨rfl, -⟩ := Prod.mk.inj hw
    obtain ⟨log, h₁, h₂⟩ := walkLayers_of_isDone total ys ys' hdone hys
    exact ⟨log, s₀.archive.history, h₁, h₂ s₀.archive.history, rfl⟩
  | @cons x y xs xs' hxy hrel ih =>
    obtain ⟨l, i⟩ := x
    obtain ⟨l', i'⟩ := y
    obtain ⟨hi, hl⟩ := hxy
    simp only at hi hl
    subst hi
    have hidx : (xs ++ ys).map Prod.snd = (xs' ++ ys').map Prod.snd := by
      have hmap : xs.map Prod.snd = xs'.map Prod.snd := by
        clear ih hw hnodup
        induction hrel with
        | nil => rfl
        | cons h _ ih => simp only [List.map_cons, h.1, ih]
      rw [List.map_append, List.map_append, hmap, hys]
    obtain ⟨hni, hnodup⟩ := List.nodup_cons.mp hnodup
    simp only [List.cons_append, walkLayers] at hw ⊢
    split_ifs at hw ⊢ with hd hc
    · obtain ⟨rfl, -⟩ := Prod.mk.inj hw
      exact ⟨_, s₀.archive.history, rfl, rfl, rfl⟩
    · simp at hw
    rcases hwl : walkLayer o i l s₀ with ⟨s₁, _ | f⟩ <;> simp only [hwl] at hw
    swap
    · simp at hw
    rcases hl with rfl | ⟨a, hlastopen, hlastatt, hagree⟩
    · simp only [hwl]
      exact ih hw hnodup
    · have hdone₁ : o.isDone s₁ = true := isDone_of_last (s := s₁.countLayer.say .info
        ("Scanned layers: " ++ toString s₁.countLayer.visited ++ "/" ++ toString total))
        hw hdone hlastopen hni
      obtain ⟨log₀, hrun, -⟩ := walkLayers_of_isDone total xs xs (s := s₁.countLayer.say .info
        ("Scanned layers: " ++ toString s₁.countLayer.visited ++ "/" ++ toString total)) hdone₁ rfl
      obtain ⟨rfl, -⟩ := Prod.mk.inj (hrun.symm.trans hw)
      have hlast : ∀ b t, s₁.archive.history = b :: t → b.content.reach ≤ a.content.reach := by
        intro b t hist
        have hattempts : s₁.archive.attempts.getLast? = some a := hlastatt
        rw [Archive.attempts, hist, List.getLast?_reverse] at hattempts
        obtain rfl : b = a := by simpa using hattempts
        exact Nat.le_refl _
      obtain ⟨h, hwl', hh⟩ := walkLayer_agree hagree (Bool.not_eq_true _ ▸ hd) hwl hdone₁ hlast
      obtain ⟨log, h₁, h₂⟩ := walkLayers_of_isDone total _ _ (s := s₁.countLayer.say .info
        ("Scanned layers: " ++ toString s₁.countLayer.visited ++ "/" ++ toString total)) hdone₁ hidx
      refine ⟨log, h, ?_, ?_, hh⟩
      · exact h₁
      · simp only [hwl']
        exact h₂ h

/-- The walk over the layers from index `k` on, those below left away. -/
def walkAbove (o : Order) (k : ℕ) (layers : List Layer) (s : WalkState) :
    WalkState × Option Failure :=
  walkLayers o layers.length (layers.zipIdx.drop k).reverse s

/-- Two images are the same from the layer with index `k` on, except that the last layer opened need
only be alike up to the end of the last entry that the archive was given. -/
def AgreeAbove (k : ℕ) (s : WalkState) (layers layers' : List Layer) : Prop :=
  layers'.length = layers.length ∧ ∀ i, k ≤ i → layers'[i]? = layers[i]? ∨
    ∃ l l' a, layers[i]? = some l ∧ layers'[i]? = some l' ∧ s.opened.getLast? = some i ∧
      s.archive.attempts.getLast? = some a ∧ l.AgreeUpTo a.content.reach l'

lemma zipIdx_split (k : ℕ) (layers : List Layer) :
    layers.zipIdx.reverse = (layers.zipIdx.drop k).reverse ++ (layers.zipIdx.take k).reverse := by
  rw [← List.reverse_append, List.take_append_drop]

lemma AgreeAbove.forall₂ {k : ℕ} {s : WalkState} {layers layers' : List Layer}
    (h : AgreeAbove k s layers layers') :
    List.Forall₂ (SameAbove s) (layers.zipIdx.drop k).reverse (layers'.zipIdx.drop k).reverse := by
  obtain ⟨hlen, h⟩ := h
  rw [List.forall₂_reverse_iff, List.forall₂_iff_get]
  refine ⟨by simp [hlen], fun i h₁ h₂ => ?_⟩
  simp only [List.length_drop, List.length_zipIdx] at h₁ h₂
  have h₁' : layers[k + i]? = some layers[k + i] := List.getElem?_eq_getElem (by omega)
  have h₂' : layers'[k + i]? = some layers'[k + i] := List.getElem?_eq_getElem (by omega)
  simp only [SameAbove, List.get_eq_getElem, List.getElem_drop, List.getElem_zipIdx, Nat.zero_add,
    true_and]
  rcases h (k + i) (Nat.le_add_right _ _) with heq | ⟨l, l', a, hl, hl', hopen, hatt, hagree⟩
  · rw [h₁', h₂'] at heq
    exact .inl (Option.some.inj heq).symm
  · obtain rfl := Option.some.inj (h₁'.symm.trans hl)
    obtain rfl := Option.some.inj (h₂'.symm.trans hl')
    exact .inr ⟨a, hopen, hatt, hagree⟩

/-- The outcome of an extraction does not tell histories apart that have the same outlines. -/
lemma conclude_withHistory (files : List FileSpec) {layers layers' : List Layer} (label : String)
    (s : WalkState) {h : List Attempt} (hlen : layers'.length = layers.length)
    (hh : h.map Attempt.outline = s.archive.history.map Attempt.outline) :
    conclude files layers' label (s.withHistory h) none =
      { conclude files layers label s none with attempts := h.reverse } := by
  have hcount := countP_isWritten hh
  simp only [conclude, WalkState.withHistory, Archive.finish, Archive.attempts]
  rcases s.archive.device.write trailer with ⟨d, _ | m⟩ <;>
    simp only [WalkState.say, Archive.entries, hcount, hlen]

/-- The layers that are opened are the topmost ones, each of them once, and if nothing is asked for
there are none. -/
lemma extract_opened (layers : List Layer) (files : List FileSpec) (cancelled : ℕ → Bool)
    (d : Device) (label : String) :
    let x := extract ⟨.ok layers⟩ files cancelled (.ok d) label
    x.opened = (List.range layers.length).reverse.take x.opened.length ∧
      (∀ e, x.outcome = .ok e → e.visited = x.opened.length) ∧ (files = [] → x.opened = []) := by
  intro x
  have hx : x = _ := extract_eq layers files cancelled d label
  obtain ⟨j, hj, hopened, hvisited⟩ := walkLayers_opened (.ofFiles files cancelled) layers.length
    layers.zipIdx.reverse (.start (.ofFiles files cancelled) layers d label)
  rw [← walk] at hopened hvisited
  have hrange : layers.zipIdx.reverse.map Prod.snd = (List.range layers.length).reverse := by
    rw [List.map_reverse, List.zipIdx_map_snd, List.range_eq_range']
  simp only [List.length_reverse, List.length_zipIdx] at hj
  have hop : x.opened = (List.range layers.length).reverse.take j := by
    rw [hx, (conclude_frame ..).1, hopened, hrange]
    rfl
  have hlen : x.opened.length = j := by
    rw [hop, List.length_take, List.length_reverse, List.length_range]
    omega
  refine ⟨by rw [hlen, ← hop], ?_, ?_⟩
  · intro e he
    rw [hx] at he
    rw [(conclude_ok he).2, hlen]
    exact hvisited.trans (Nat.zero_add j)
  · rintro rfl
    have hdone : (Order.ofFiles [] cancelled).isDone
        (.start (.ofFiles [] cancelled) layers d label) = true := rfl
    obtain ⟨log, hrun, -⟩ := walkLayers_of_isDone layers.length layers.zipIdx.reverse
      layers.zipIdx.reverse hdone rfl
    rw [hx, (conclude_frame ..).1, walk, hrun]
    rfl

/-- What is left of the walk over a whole image when the upper layers have all files. -/
lemma walk_stops {o : Order} {k : ℕ} {layers layers' : List Layer} {s₀ s : WalkState}
    (hw : walkAbove o k layers s₀ = (s, none)) (hdone : o.isDone s = true)
    (h : AgreeAbove k s layers layers') :
    ∃ log hist, walk o layers s₀ = ({ s with log := log }, none) ∧
      walk o layers' s₀ = (WalkState.withHistory { s with log := log } hist, none) ∧
      hist.map Attempt.outline = s.archive.history.map Attempt.outline := by
  have hnodup : ((layers.zipIdx.drop k).reverse.map Prod.snd).Nodup := by
    rw [List.map_reverse, List.nodup_reverse, List.map_drop, List.zipIdx_map_snd]
    exact (List.nodup_range').sublist (List.drop_sublist ..)
  have hys : (layers.zipIdx.take k).reverse.map Prod.snd =
      (layers'.zipIdx.take k).reverse.map Prod.snd := by
    simp only [List.map_reverse, List.map_take, List.zipIdx_map_snd, h.1]
  simp only [walk, zipIdx_split k layers, zipIdx_split k layers', h.1]
  exact walkLayers_agree hw hdone h.forall₂ hnodup hys

/-- The layers that are opened are the topmost ones, each of them once, and none if nothing is asked
for. If all files are written from the layers with index `k` or more, then no layer below is opened,
the outcome is success with all files and no warning, unless the device refuses the end of the
archive, and an image that is the same from `k` on gives the same outcome, opens the same layers,
writes the same bytes and says the same. It need not even be the same in what follows in the last
layer behind the content of the last entry. -/
theorem extract_early_stop (layers : List Layer) (files : List FileSpec) (cancelled : ℕ → Bool)
    (d : Device) (label : String) :
    let o := Order.ofFiles files cancelled
    let x := extract ⟨.ok layers⟩ files cancelled (.ok d) label
    (x.opened = (List.range layers.length).reverse.take x.opened.length ∧
        (∀ e, x.outcome = .ok e → e.visited = x.opened.length) ∧ (files = [] → x.opened = [])) ∧
      ∀ (k : ℕ) (s : WalkState) (layers' : List Layer),
        walkAbove o k layers (.start o layers d label) = (s, none) →
        (∀ f ∈ files, ∃ a ∈ s.archive.attempts, a.path = f.target ∧ a.isWritten = true) →
        AgreeAbove k s layers layers' →
        let x' := extract ⟨.ok layers'⟩ files cancelled (.ok d) label
        (∀ i ∈ x.opened, k ≤ i) ∧
          x.outcome = (match (s.archive.device.write trailer).2 with
            | none => .ok ⟨files, [], x.opened.length, label⟩
            | some m => .error ⟨[.finishArchive, .writeTrailer label], .stream m⟩) ∧
          x'.outcome = x.outcome ∧ x'.opened = x.opened ∧ x'.device = x.device ∧
          x'.log = x.log ∧ x'.attempts.map Attempt.outline = x.attempts.map Attempt.outline := by
  intro o x
  refine ⟨extract_opened layers files cancelled d label, ?_⟩
  intro k s layers' hw hall hagree x'
  have hs : s.Consistent o := walkLayers_consistent (consistent_start o layers d label) hw
  have hdone : o.isDone s = true := by
    refine hs.isDone_of_written (nodup_eraseDups _) fun t ht => ?_
    obtain ⟨f, hf, rfl⟩ := List.mem_map.mp (List.mem_eraseDups.mp ht)
    exact hall f hf
  obtain ⟨log, hist, h₁, h₂, hh⟩ := walk_stops hw hdone hagree
  have hx : x = conclude files layers label { s with log := log } none := by
    rw [show x = _ from extract_eq layers files cancelled d label, h₁]
  have hstart : WalkState.start o layers' d label = .start o layers d label := by
    simp only [WalkState.start, Order.announcement, hagree.1]
  have hx' : x' = { x with attempts := hist.reverse } := by
    rw [show x' = _ from extract_eq layers' files cancelled d label, hstart, h₂, hx]
    exact conclude_withHistory files label _ hagree.1 hh
  refine ⟨?_, ?_, by rw [hx'], by rw [hx'], by rw [hx'], by rw [hx'], ?_⟩
  · intro i hi
    have hopened : x.opened = s.opened := by rw [hx, (conclude_frame ..).1]
    obtain ⟨j, -, hop, -⟩ := walkLayers_opened o layers.length (layers.zipIdx.drop k).reverse
      (.start o layers d label)
    rw [← walkAbove, hw] at hop
    rw [hopened, show s.opened = _ from hop] at hi
    have hmem : i ∈ (layers.zipIdx.drop k).reverse.map Prod.snd := List.mem_of_mem_take hi
    rw [List.map_reverse, List.mem_reverse, List.map_drop, List.zipIdx_map_snd, List.drop_range',
      List.mem_range'_1] at hmem
    omega
  · have hfound : s.resolved.found files = files := by
      refine List.filter_eq_self.mpr fun f hf => ?_
      have ht : f.target ∈ o.targets := List.mem_eraseDups.mpr (List.mem_map_of_mem hf)
      simpa [Resolved.contains] using hs.mem_of_isDone hdone ht
    have hlabel : s.archive.label = label := by
      have h := walkLayers_label o layers.length (layers.zipIdx.drop k).reverse
        (.start o layers d label)
      rw [← walkAbove, hw] at h
      exact h
    have hout : x.outcome = _ := (congrArg Extracted.outcome hx).trans (conclude_success ..)
    simp only [hfound, hlabel, hs.warnings_of_isDone hdone] at hout
    rcases hm : (s.archive.device.write trailer).2 with _ | m <;> simp only [hm] at hout ⊢
    · rw [hout, ← (extract_opened layers files cancelled d label).2.1 _ hout]
    · exact hout
  · rw [hx', hx, (conclude_frame ..).2.1, List.map_reverse, hh, Archive.attempts, List.map_reverse]

/-- A layer that holds the file `a`, whose stream fails behind the content of the file. -/
def cutLayer : Layer :=
  ⟨"top", .ok ⟨[.bytes ((bareHeader "a" 2).toBytes ++ [111, 107]) none,
    .fault ⟨false, "connection reset"⟩], none⟩⟩

def wholeLayer : Layer :=
  ⟨"top", .ok (.ofBytes ((bareHeader "a" 2).toBytes ++ [111, 107] ++ zeros 510 ++ trailer))⟩

/-- A file in the upper one of two layers is extracted, although the upper layer breaks off behind
it and the lower one does not open. -/
theorem extract_early_stop_cut :
    let x := extract ⟨.ok [⟨"base", .ok (.ofBytes [1, 2, 3])⟩, wholeLayer]⟩ [⟨"/a", "."⟩]
      (fun _ => false) (.ok .accepting) "out"
    let x' := extract ⟨.ok [⟨"base", .error (.of .notImage)⟩, cutLayer]⟩ [⟨"/a", "."⟩]
      (fun _ => false) (.ok .accepting) "out"
    x'.outcome = x.outcome ∧ x'.opened = x.opened ∧ x'.device = x.device := by
  intro x x'
  rcases hw : walkAbove (.ofFiles [⟨"/a", "."⟩] fun _ => false) 1
      [⟨"base", .ok (.ofBytes [1, 2, 3])⟩, wholeLayer]
      (.start (.ofFiles [⟨"/a", "."⟩] fun _ => false)
        [⟨"base", .ok (.ofBytes [1, 2, 3])⟩, wholeLayer] .accepting "out") with ⟨s, failure⟩
  have hall : ∃ a ∈ s.archive.attempts, a.path = FileSpec.target ⟨"/a", "."⟩ ∧
      a.isWritten = true := by
    rw [show s = _ from (congrArg Prod.fst hw).symm]
    decide +kernel
  have hlast : s.opened.getLast? = some 1 ∧
      s.archive.attempts.getLast?.map (fun a => a.content.reach) = some 514 := by
    rw [show s = _ from (congrArg Prod.fst hw).symm]
    decide +kernel
  obtain rfl : failure = none := by
    rw [show failure = _ from (congrArg Prod.snd hw).symm]
    decide +kernel
  have hagree : AgreeAbove 1 s [⟨"base", .ok (.ofBytes [1, 2, 3])⟩, wholeLayer]
      [⟨"base", .error (.of .notImage)⟩, cutLayer] := by
    refine ⟨by simp, fun i hi => ?_⟩
    rcases i with _ | _ | i
    · omega
    · obtain ⟨a, ha, hreach⟩ := Option.map_eq_some_iff.mp hlast.2
      refine .inr ⟨wholeLayer, cutLayer, a, rfl, rfl, hlast.1, ha, rfl, _, _, rfl, rfl, ?_⟩
      rw [hreach]
      exact .within none _ _ (by decide +kernel) (by decide +kernel) (by decide +kernel)
    · exact .inl (by simp)
  obtain ⟨-, -, h₁, h₂, h₃, -⟩ := (extract_early_stop
    [⟨"base", .ok (.ofBytes [1, 2, 3])⟩, wholeLayer] [⟨"/a", "."⟩] (fun _ => false)
    .accepting "out").2 1 s [⟨"base", .error (.of .notImage)⟩, cutLayer] hw
    (fun f hf => by obtain rfl := List.mem_singleton.mp hf; exact hall) hagree
  exact ⟨h₁, h₂, h₃⟩

end LayerPick
