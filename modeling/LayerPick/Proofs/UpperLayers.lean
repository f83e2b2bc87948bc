import LayerPick.Proofs.Bookkeeping

/-!
# Walks over the upper layers

The upper layers of an image make an image of their own. As long as the walk over that one goes on,
the walk over the whole image does the same: it stands before the same layers, with others below
them, and the two states differ only in the numbers of the layers and in what is said.

So if the upper layers leave a file to be looked for, the whole walk comes to the next layer with
what they have left. If it cannot get into that layer, then that is what the archive is ended with.
-/
namespace LayerPick

open Tar Relation

/-- The same layers, further up. -/
def raised (n : ℕ) (below : List (Layer × ℕ)) : List (Layer × ℕ) :=
  below.map fun x => (x.1, x.2 + n)

/-- The stand in an image that has `n` more layers at its bottom. -/
def Stand.onto (n : ℕ) (more : List (Layer × ℕ)) : Stand → Stand
  | .before below => .before (raised n below ++ more)
  | .among i r below => .among (i + n) r (raised n below ++ more)

/-- The warning, from a layer further up. -/
def Warning.raised (n : ℕ) (w : Warning) : Warning := { w with layer := w.layer + n }

/-- The second state is the first one with the layers numbered anew. What is said may differ. -/
structure WalkState.Raised (n : ℕ) (s s' : WalkState) : Prop where
  archive : s'.archive = s.archive
  resolved : s'.resolved = s.resolved
  found : s'.found = s.found
  warnings : s'.warnings = s.warnings.map (Warning.raised n)
  visited : s'.visited = s.visited
  opened : s'.opened = s.opened.map (· + n)

/-- Why the walk does not get into a layer that it comes to. -/
def blocked (cancelled : ℕ → Bool) (i : ℕ) (l : Layer) : Option Failure :=
  if cancelled i then some (.of (.cancelled i))
  else match l.openLayer with
    | .error f => some (f.within (.openLayer i l.description))
    | .ok _ => none

lemma blocked_message {cancelled : ℕ → Bool} {i : ℕ} {l : Layer} {f : Failure}
    (h : blocked cancelled i l = some f) :
    f.messages.head? = some (if cancelled i then "Extraction cancelled before layer " ++ toString i
      else "Failed to read layer " ++ toString i ++ " contents (" ++ l.description ++ ")") := by
  unfold blocked at h
  split_ifs at h ⊢
  · obtain rfl := Option.some.inj h
    rfl
  · rcases ho : l.openLayer with g | src <;> rw [ho] at h
    · obtain rfl := Option.some.inj h
      rfl
    · simp at h

section Moves

variable {files : List FileSpec} {above cancelled : ℕ → Bool} {n : ℕ} {s s' : WalkState}

lemma WalkState.Raised.isDone (hs : s.Raised n s') :
    (Order.ofFiles files cancelled).isDone s' = (Order.ofFiles files above).isDone s := by
  simp only [Order.isDone, Order.ofFiles, hs.found]

lemma WalkState.Raised.match? (hs : s.Raised n s') (e : Entry) :
    (Order.ofFiles files cancelled).match? s'.resolved e =
      (Order.ofFiles files above).match? s.resolved e := by
  rw [hs.resolved]
  rfl

lemma WalkState.Raised.take (hs : s.Raised n s') {i : ℕ} {p : String} {e : Entry} {s₁ : WalkState}
    {c c₁ : Content} (ht : take i p e s c = (s₁, .ok c₁)) :
    ∃ s₁', LayerPick.take (i + n) p e s' c = (s₁', .ok c₁) ∧ s₁.Raised n s₁' := by
  obtain ⟨rs, c₂, a, r, hr, ha, h⟩ := take_ok ht
  have ha' : s'.archive.append e.header p rs c₂ = (a, c₁, r) := by rw [hs.archive, ha]
  rw [take_eq hr ha']
  rcases h with ⟨rfl, rfl⟩ | ⟨m, rfl, rfl⟩
  · refine ⟨_, settle_ok.mpr ⟨rfl, .inl ⟨rfl, rfl⟩⟩, rfl, ?_, ?_, hs.warnings, hs.visited, hs.opened⟩
    · exact congrArg (Resolved.insert · p) hs.resolved
    · exact congrArg (· + 1) hs.found
  · refine ⟨_, settle_ok.mpr ⟨rfl, .inr ⟨m, rfl, rfl⟩⟩, rfl, ?_, hs.found, ?_, hs.visited, hs.opened⟩
    · exact congrArg (Resolved.insert · p) hs.resolved
    · simp only [WalkState.say, WalkState.warn, WalkState.asked, WalkState.claim, hs.warnings,
        List.map_append, List.map_cons, List.map_nil, Warning.raised]

lemma Moves.onto {total total' : ℕ} {more : List (Layer × ℕ)} {x y : Stand × WalkState}
    (hgo : ∀ i, n ≤ i → cancelled i = false) (hm : Moves (.ofFiles files above) total x y)
    (hs : x.2.Raised n s') :
    ∃ s₁', Moves (.ofFiles files cancelled) total' (x.1.onto n more, s') (y.1.onto n more, s₁') ∧
      y.2.Raised n s₁' := by
  cases hm with
  | @enter l i src below s hd _ ho =>
    refine ⟨_, .enter (hs.isDone.trans hd) (hgo _ (Nat.le_add_left ..)) ho, ?_⟩
    refine ⟨hs.archive, hs.resolved, hs.found, hs.warnings, hs.visited, ?_⟩
    simp only [WalkState.entering, hs.opened, List.map_append, List.map_cons, List.map_nil]
  | pass hd hn hmatch =>
    exact ⟨s', .pass (hs.isDone.trans hd) hn ((hs.match? _).trans hmatch), hs⟩
  | take hd hn hmatch ht =>
    obtain ⟨s₁', ht', hs'⟩ := hs.take ht
    exact ⟨s₁', .take (hs.isDone.trans hd) hn ((hs.match? _).trans hmatch) ht', hs'⟩
  | leave hl =>
    refine ⟨_, .leave (hl.imp_left hs.isDone.trans), ?_⟩
    refine ⟨hs.archive, hs.resolved, hs.found, hs.warnings, ?_, hs.opened⟩
    exact congrArg (· + 1) hs.visited

end Moves

section Walk

variable {layers : List Layer} {files : List FileSpec} {above cancelled : ℕ → Bool} {d : Device}
  {label : String} {n : ℕ}

lemma zipIdx_raised (hn : n ≤ layers.length) :
    layers.zipIdx.reverse =
      raised n (layers.drop n).zipIdx.reverse ++ (layers.take n).zipIdx.reverse := by
  have hlen : (layers.take n).length = n := by rw [List.length_take, Nat.min_eq_left hn]
  conv_lhs => rw [← List.take_append_drop n layers]
  rw [List.zipIdx_append, hlen, Nat.zero_add, List.zipIdx_eq_map_add (l := layers.drop n),
    List.reverse_append, raised, List.map_reverse]
  simp only [Nat.add_comm n]

lemma zipIdx_take_succ {k : ℕ} {l : Layer} (hl : layers[k]? = some l) :
    (layers.take (k + 1)).zipIdx.reverse = (l, k) :: (layers.take k).zipIdx.reverse := by
  obtain ⟨hk, -⟩ := List.getElem?_eq_some_iff.mp hl
  rw [List.take_add_one, hl, Option.toList_some, List.zipIdx_append, List.length_take,
    Nat.min_eq_left hk.le, Nat.zero_add]
  simp

/-- Wherever the walk over the upper layers comes, the walk over all layers comes to stand likewise,
if it is not cancelled before that. -/
lemma Reached.onto (hn : n ≤ layers.length) (hgo : ∀ i, n ≤ i → cancelled i = false) {x : Stand × WalkState}
    (hx : Reached (.ofFiles files above) (layers.drop n) d label x) :
    ∃ s', Reached (.ofFiles files cancelled) layers d label
      (x.1.onto n (layers.take n).zipIdx.reverse, s') ∧ x.2.Raised n s' := by
  refine hx.invariant (P := fun x => ∃ s', Reached (.ofFiles files cancelled) layers d label
      (x.1.onto n (layers.take n).zipIdx.reverse, s') ∧ x.2.Raised n s') ?_ ?_
  · refine ⟨.start (.ofFiles files cancelled) layers d label, ?_, rfl, rfl, rfl, rfl, rfl, rfl⟩
    rw [Stand.onto, ← zipIdx_raised hn]
    exact .refl
  · rintro x y - hm ⟨s', hx', hs⟩
    obtain ⟨s₁', hm', hs'⟩ := hm.onto hgo hs
    exact ⟨s₁', hx'.tail hm', hs'⟩

/-- If the walk over the upper layers leaves a file to be looked for, the whole walk ends where it
cannot get into the next layer, with the archive that the upper layers have left. -/
lemma walk_blocked (above : ℕ → Bool) {k : ℕ} {l : Layer} {s : WalkState} {f : Failure} (hl : layers[k]? = some l)
    (hgo : ∀ i, k < i → cancelled i = false)
    (hw : walk (.ofFiles files above) (layers.drop (k + 1))
      (.start (.ofFiles files above) (layers.drop (k + 1)) d label) = (s, none))
    (hmissing : (Order.ofFiles files above).isDone s = false)
    (hf : blocked cancelled k l = some f) :
    ∃ s', walk (.ofFiles files cancelled) layers (.start (.ofFiles files cancelled) layers d label) =
        (s', some f) ∧ s'.archive = s.archive ∧
      s'.opened = s.opened.map (· + (k + 1)) ++ if cancelled k then [] else [k] := by
  obtain ⟨below, s₁, hreached, ⟨log, rfl⟩, hstop⟩ := walk_ok hw
  have hopen : (Order.ofFiles files above).isDone s₁ = false := hmissing
  obtain rfl : below = [] := hstop.resolve_right (by rw [hopen]; decide)
  obtain ⟨s', hx, hs⟩ : ∃ s', Reached (.ofFiles files cancelled) layers d label
      (Stand.onto (k + 1) (layers.take (k + 1)).zipIdx.reverse (.before []), s') ∧
        s₁.Raised (k + 1) s' :=
    hreached.onto (List.getElem?_eq_some_iff.mp hl).1 hgo
  rw [Stand.onto, zipIdx_take_succ hl] at hx
  have hopen' : (Order.ofFiles files cancelled).isDone s' = false := hs.isDone.trans hopen
  unfold blocked at hf
  split_ifs at hf ⊢ with hc
  · obtain rfl := Option.some.inj hf
    refine ⟨s', walk_eq_iff.mpr ⟨_, hx, .cancelled hopen' hc⟩, hs.archive, ?_⟩
    rw [hs.opened, List.append_nil]
  · rcases ho : l.openLayer with g | src <;> rw [ho] at hf
    · obtain rfl := Option.some.inj hf
      refine ⟨_, walk_eq_iff.mpr ⟨_, hx, .closed hopen' (Bool.not_eq_true _ ▸ hc) ho⟩,
        hs.archive, ?_⟩
      simp only [WalkState.countLayer, WalkState.entering, hs.opened]
    · simp at hf

end Walk

lemma Reached.written_of_isDone {files : List FileSpec} {cancelled : ℕ → Bool}
    {layers : List Layer} {d : Device} {label : String} {st : Stand} {s : WalkState}
    (h : Reached (.ofFiles files cancelled) layers d label (st, s))
    (hdone : (Order.ofFiles files cancelled).isDone s = true) {f : FileSpec} (hf : f ∈ files) :
    ∃ a ∈ s.archive.attempts, a.path = f.target ∧ a.isWritten = true := by
  have ht : f.target ∈ (Order.ofFiles files cancelled).targets :=
    List.mem_eraseDups.mpr (List.mem_map_of_mem hf)
  have hcount := h.count_eq_one (h.consistent.mem_of_isDone hdone ht)
  rw [h.consistent.warnings_of_isDone hdone, List.map_nil, List.count_nil] at hcount
  obtain ⟨a, ha, hpath⟩ := List.mem_map.mp (List.count_pos_iff.mp (by omega :
    0 < ((s.archive.attempts.filter Attempt.isWritten).map fun a => a.path).count f.target))
  obtain ⟨ha, hw⟩ := List.mem_filter.mp ha
  exact ⟨a, ha, hpath, hw⟩

/-- Let the extraction from the layers above the one with index `k` succeed and leave a file
unwritten. If the extraction from the whole image is not cancelled before those layers, and cannot
get into layer `k`, because it is cancelled there or the layer does not open, then it fails with
just that, which names the layer. No layer below is opened, and what the archive was asked to take
and what is on the device, the zeros at the end included, is what the upper layers have left. -/
theorem extract_blocked (layers : List Layer) (files : List FileSpec) (above cancelled : ℕ → Bool)
    (d : Device) (label : String) {k : ℕ} {l : Layer} {e : Extraction} {f : Failure}
    (hl : layers[k]? = some l)
    (hupper : (extract ⟨.ok (layers.drop (k + 1))⟩ files above (.ok d) label).outcome = .ok e)
    (hmissing : ∃ g ∈ files,
      ∀ a ∈ (extract ⟨.ok (layers.drop (k + 1))⟩ files above (.ok d) label).attempts,
        a.path = g.target → a.isWritten = false)
    (hgo : ∀ i, k < i → cancelled i = false) (hf : blocked cancelled k l = some f) :
    let x := extract ⟨.ok layers⟩ files cancelled (.ok d) label
    let upper := extract ⟨.ok (layers.drop (k + 1))⟩ files above (.ok d) label
    (x.outcome = .error f ∧
        f.messages.head? = some (if cancelled k then
          "Extraction cancelled before layer " ++ toString k
        else "Failed to read layer " ++ toString k ++ " contents (" ++ l.description ++ ")")) ∧
      (x.opened = upper.opened.map (· + (k + 1)) ++ (if cancelled k then [] else [k]) ∧
        ∀ i ∈ x.opened, k ≤ i) ∧
      x.attempts = upper.attempts ∧ x.device = upper.device ∧
      ∃ tar, x.device.map Device.output = some (tar ++ zeros 1024) := by
  intro x upper
  have hu : upper = _ := extract_eq (layers.drop (k + 1)) files above d label
  rcases hz : walk (.ofFiles files above) (layers.drop (k + 1))
    (.start (.ofFiles files above) (layers.drop (k + 1)) d label) with ⟨s, failure⟩
  rw [hz] at hu
  have hok : (conclude files (layers.drop (k + 1)) label s failure).outcome = .ok e :=
    (congrArg Extracted.outcome hu).symm.trans hupper
  obtain rfl := (conclude_ok hok).1
  have hopen : (Order.ofFiles files above).isDone s = false := by
    rw [← Bool.not_eq_true]
    intro hdone
    obtain ⟨below, s₁, hreached, ⟨log, rfl⟩, -⟩ := walk_ok hz
    obtain ⟨g, hg, hno⟩ := hmissing
    obtain ⟨a, ha, hpath, hw⟩ := hreached.written_of_isDone hdone hg
    have hattempts : upper.attempts = s₁.archive.attempts := by rw [hu, (conclude_frame ..).2.1]
    have hno' := hno a (hattempts.symm ▸ ha) hpath
    simp [hw] at hno'
  obtain ⟨s', hw', harchive, hopened⟩ := walk_blocked above hl hgo hz hopen hf
  have hx : x = conclude files layers label s' (some f) := by
    rw [show x = _ from extract_eq layers files cancelled d label, hw']
  have hop : x.opened = upper.opened.map (· + (k + 1)) ++ (if cancelled k then [] else [k]) := by
    rw [hx, hu, (conclude_frame ..).1, (conclude_frame ..).1, hopened]
  refine ⟨⟨by rw [hx, conclude_failure], blocked_message hf⟩, ⟨hop, ?_⟩, ?_, ?_, ?_⟩
  · intro i hi
    rw [hop, List.mem_append] at hi
    rcases hi with hi | hi
    · obtain ⟨j, -, rfl⟩ := List.mem_map.mp hi
      omega
    · split_ifs at hi
      · simp at hi
      · exact (List.mem_singleton.mp hi).ge
  · rw [hx, hu, (conclude_frame ..).2.1, (conclude_frame ..).2.1, harchive]
  · rw [hx, hu, (conclude_frame ..).2.2, (conclude_frame ..).2.2, harchive]
  · rw [conclude_success] at hok
    rcases hwrite : s.archive.device.write trailer with ⟨d', _ | m⟩ <;> rw [hwrite] at hok
    · refine ⟨s.archive.device.output, ?_⟩
      have hout := Device.output_write hwrite
      rw [if_pos rfl] at hout
      have hfinish : s'.archive.finish = (d', none) := by
        rw [harchive, Archive.finish, hwrite]
      rw [hx, (conclude_frame ..).2.2, hfinish, Option.map_some, hout]
      rfl
    · simp at hok

/-- Of three layers the topmost holds one of two files. When the extraction is cancelled before the
layer in the middle, that file is in the archive, and the layers below have not been opened. -/
theorem extract_blocked_foo :
    let x := extract ⟨.ok [fooLayer, ⟨"middle", .error (.of .notImage)⟩, fooLayer]⟩
      [⟨"/usr/bin/foo", "."⟩, ⟨"/usr/bin/bar", "."⟩] (fun i => i == 1) (.ok .accepting) "out"
    let upper := extract ⟨.ok [fooLayer]⟩ [⟨"/usr/bin/foo", "."⟩, ⟨"/usr/bin/bar", "."⟩]
      (fun _ => false) (.ok .accepting) "out"
    x.outcome = .error (.of (.cancelled 1)) ∧ x.opened = [2] ∧ x.device = upper.device := by
  intro x upper
  have hrun : upper.outcome = .ok ⟨[⟨"/usr/bin/foo", "."⟩], [], 1, "out"⟩ ∧ upper.opened = [0] ∧
      ∀ a ∈ upper.attempts, a.path = FileSpec.target ⟨"/usr/bin/bar", "."⟩ →
        a.isWritten = false := by
    decide +kernel
  obtain ⟨hok, hopened, hno⟩ := hrun
  obtain ⟨⟨hout, -⟩, ⟨hop, -⟩, -, hdevice, -⟩ := extract_blocked
    [fooLayer, ⟨"middle", .error (.of .notImage)⟩, fooLayer]
    [⟨"/usr/bin/foo", "."⟩, ⟨"/usr/bin/bar", "."⟩] (fun _ => false) (fun i => i == 1) .accepting
    "out" (k := 1) (f := .of (.cancelled 1)) rfl hok
    ⟨_, List.mem_cons_of_mem _ (List.mem_singleton.mpr rfl), hno⟩
    (fun i hi => by simp; omega) rfl
  have hraised : upper.opened.map (· + 2) ++ [] = [2] := by rw [hopened]; rfl
  exact ⟨hout, hop.trans hraised, hdevice⟩

end LayerPick
