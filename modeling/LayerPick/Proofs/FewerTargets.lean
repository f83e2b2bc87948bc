import LayerPick.Proofs.Bookkeeping
import LayerPick.Proofs.FileKinds
import LayerPick.Proofs.StoredPaths

/-!
# Asking for fewer files

What the archive is asked to take for a file does not depend on which other files are looked for. Of
what shows for many files, that which lies under the paths of a few is what shows for these alone. So
if nothing is refused, an extraction of a few files has written just the part that belongs to them.
It goes no deeper either: where the upper layers have something for each of the many, they have so
for the few.

How the paths are spelled, in which order the files come, and how often, makes no difference at all.
-/
namespace LayerPick

open Tar

/-- An entry is looked for among a few files just if it lies under the path of one of them and is
looked for among many. -/
lemma Tar.Entry.isWanted_fewer {few many : List String} (hsub : few ⊆ many) (e : Entry) :
    e.isWanted few = true ↔ e.isWanted many = true ∧ e.place ∈ few := by
  rw [Entry.isWanted_iff, Entry.isWanted_iff]
  constructor
  · rintro ⟨hk, hs, hne, hstay, ht⟩
    exact ⟨⟨hk, hs, hne, hstay, hsub ht⟩, ht⟩
  · rintro ⟨⟨hk, hs, hne, hstay, -⟩, ht⟩
    exact ⟨hk, hs, hne, hstay, ht⟩

/-- What shows under some of the paths is what shows if only these are looked for. -/
lemma unclaimed_fewer {few many claimed claimed' : List String} (hsub : few ⊆ many)
    (hclaimed : ∀ t ∈ few, t ∈ claimed ↔ t ∈ claimed') (es : List (Entry × Content)) :
    unclaimed few claimed es =
      (unclaimed many claimed' es).filter fun y => decide (y.1.place ∈ few) := by
  induction es generalizing claimed claimed' with
  | nil => rfl
  | cons y es ih =>
    have hwanted := Entry.isWanted_fewer hsub y.1
    by_cases hshows : y.1.isWanted many = true ∧ y.1.place ∉ claimed'
    · obtain ⟨hw, hp⟩ := hshows
      rw [unclaimed_take y es hw hp]
      by_cases hfew : y.1.place ∈ few
      · rw [unclaimed_take y es (hwanted.mpr ⟨hw, hfew⟩) fun h => hp ((hclaimed _ hfew).mp h),
          List.filter_cons_of_pos (by simpa using hfew), ih fun t ht => ?_]
        rw [List.mem_cons, List.mem_cons, hclaimed t ht]
      · have hskip : y.1.isWanted few = false :=
          Bool.not_eq_true _ ▸ fun h => hfew (hwanted.mp h).2
        rw [unclaimed_skip y es (.inl hskip), List.filter_cons_of_neg (by simpa using hfew),
          ih fun t ht => ?_]
        have hne : t ≠ y.1.place := fun h => hfew (h ▸ ht)
        rw [List.mem_cons, or_iff_right hne, hclaimed t ht]
    · have hskip : y.1.isWanted many = false ∨ y.1.place ∈ claimed' := by
        by_cases hw : y.1.isWanted many = true
        · exact .inr (not_not.mp fun hp => hshows ⟨hw, hp⟩)
        · exact .inl (Bool.not_eq_true _ ▸ hw)
      have hskip' : y.1.isWanted few = false ∨ y.1.place ∈ claimed := by
        by_cases hw : y.1.isWanted few = true
        · obtain ⟨hmany, hfew⟩ := hwanted.mp hw
          exact .inr ((hclaimed _ hfew).mpr (hskip.resolve_left (by simp [hmany])))
        · exact .inl (Bool.not_eq_true _ ▸ hw)
      rw [unclaimed_skip y es hskip, unclaimed_skip y es hskip', ih hclaimed]

lemma filterMap_requestFor? (paths : List String) (ys : List (Entry × Content)) :
    (ys.filter fun y => decide (y.1.place ∈ paths)).filterMap requestFor? =
      (ys.filterMap requestFor?).filter fun q => decide (q.path ∈ paths) := by
  rw [List.filterMap_filter, List.filter_filterMap]
  refine List.filterMap_congr fun y _ => ?_
  cases hq : requestFor? y with
  | none => simp
  | some q => simp [Option.filter, (requestFor?_some hq).2]

lemma targets_subset {few many : List FileSpec} (hsub : ∀ f ∈ few, ∃ g ∈ many, g.target = f.target) :
    few.map FileSpec.target ⊆ many.map FileSpec.target := by
  intro t ht
  obtain ⟨f, hf, rfl⟩ := List.mem_map.mp ht
  obtain ⟨g, hg, hgf⟩ := hsub f hf
  exact hgf ▸ List.mem_map_of_mem hg

lemma overlay_fewer {few many : List FileSpec} (layers : List Layer)
    (hsub : ∀ f ∈ few, ∃ g ∈ many, g.target = f.target) :
    overlay few layers =
      (overlay many layers).filter fun q => decide (q.path ∈ few.map FileSpec.target) := by
  unfold overlay
  rw [unclaimed_fewer (targets_subset hsub) (fun _ _ => Iff.rfl), filterMap_requestFor?]

def Stand.below : Stand → List (Layer × ℕ)
  | .before below => below
  | .among _ _ below => below

/-- One of these layers has an entry that is looked for under this path. -/
def Offers (targets : List String) (ls : List (Layer × ℕ)) (t : String) : Prop :=
  ∃ x ∈ ls, ∃ y ∈ x.1.entries, y.1.isWanted targets = true ∧ y.1.place = t

/-- Where layers have something for each of many files, they have so for a few of them. -/
lemma Offers.fewer {few many : List String} {ls : List (Layer × ℕ)} {t : String} (hsub : few ⊆ many)
    (ht : t ∈ few) (h : Offers many ls t) : Offers few ls t := by
  obtain ⟨x, hx, y, hy, hw, rfl⟩ := h
  exact ⟨x, hx, y, hy, (Entry.isWanted_fewer hsub y.1).mpr ⟨hw, ht⟩, rfl⟩

lemma Offers.mono {targets : List String} {ls ls' : List (Layer × ℕ)} {t : String} (hsub : ls ⊆ ls')
    (h : Offers targets ls t) : Offers targets ls' t := by
  obtain ⟨x, hx, h⟩ := h
  exact ⟨x, hsub hx, h⟩

section Walk

variable {o : Order} {layers : List Layer} {d : Device} {label : String} {x : Stand × WalkState}

lemma Reached.offers (h : Reached o layers d label x) :
    ∃ above, layers.zipIdx.reverse = above ++ x.1.below ∧
      ∀ t ∈ x.2.resolved.paths, Offers o.targets above t := by
  refine h.invariant (P := fun x => ∃ above, layers.zipIdx.reverse = above ++ x.1.below ∧
    ∀ t ∈ x.2.resolved.paths, Offers o.targets above t)
    ⟨[], rfl, by simp [WalkState.start, Resolved.empty]⟩ ?_
  rintro x y hreached hm ⟨above, hall, hclaimed⟩
  cases hm with
  | @enter l i src below s _ _ _ =>
    refine ⟨above ++ [(l, i)], ?_, fun t ht => (hclaimed t ht).mono (List.subset_append_left ..)⟩
    rw [hall, List.append_assoc, List.singleton_append]
    rfl
  | pass _ _ _ => exact ⟨above, hall, hclaimed⟩
  | leave _ => exact ⟨above, hall, hclaimed⟩
  | @take i e r r' p c below s s' _ hn hmatch ht =>
    refine ⟨above, hall, fun t htaken => ?_⟩
    obtain ⟨hw, -, rfl⟩ := match?_some.mp hmatch
    rcases (take_paths ht t).mp htaken with rfl | hp
    · obtain ⟨above', l, seen, hall', hl, -⟩ := hreached.covered
      obtain rfl : above' ++ [(l, i)] = above := by
        apply (List.append_left_inj below).mp
        rw [List.append_assoc, List.singleton_append, ← hall', hall]
        rfl
      rw [Reader.entries_next hreached.proper hn] at hl
      exact ⟨(l, i), by simp, (e, r'.content), by simp [hl], hw, rfl⟩
    · exact hclaimed t hp

/-- When nothing has been refused and all paths are claimed, the walk is done. -/
lemma WalkState.Consistent.isDone_of_claimed {s : WalkState} (hs : s.Consistent o)
    (ho : o.targets.Nodup) (hw : s.warnings = []) (h : ∀ t ∈ o.targets, t ∈ s.resolved.paths) :
    o.isDone s = true := by
  have hcount := hs.counted
  rw [hw, List.length_nil, Nat.add_zero] at hcount
  have hle := (ho.subperm h).length_le
  have hge := (s.resolved.nodup.subperm hs.wanted).length_le
  simp only [Order.isDone, beq_iff_eq]
  omega

/-- As long as nothing is refused, the walk comes to a layer only if those above leave a path open. -/
lemma Reached.open (ho : o.targets.Nodup) (h : Reached o layers d label x)
    (hw : x.2.warnings = []) {above below : List (Layer × ℕ)}
    (hall : layers.zipIdx.reverse = above ++ below) (hlt : x.1.below.length < below.length) :
    ∃ t ∈ o.targets, ¬Offers o.targets above t := by
  revert hw
  revert hlt
  refine h.invariant (P := fun x => x.1.below.length < below.length → x.2.warnings = [] →
    ∃ t ∈ o.targets, ¬Offers o.targets above t) ?_ ?_
  · intro hlt
    rw [hall, Stand.below, List.length_append] at hlt
    omega
  · intro x y hreached hm ih
    cases hm with
    | pass _ _ _ => exact ih
    | leave _ => exact ih
    | take _ _ _ ht =>
      intro hlt hw
      refine ih hlt ?_
      obtain ⟨hsame, -⟩ | ⟨w, a, hmore, -⟩ := take_warnings ht
      · exact hsame ▸ hw
      · simp [hmore] at hw
    | @enter l i src below' s hd _ _ =>
      intro hlt hw
      by_cases hlt' : below'.length + 1 < below.length
      · exact ih (by simpa [Stand.below] using hlt') hw
      obtain ⟨above', hall', hclaims⟩ := hreached.covered
      obtain rfl : above = above' := by
        refine (List.append_inj (hall.symm.trans hall') ?_).1
        have hlen := congrArg List.length (hall.symm.trans hall')
        simp only [List.length_append, List.length_cons, Stand.below] at hlen hlt
        omega
      by_contra hno
      push Not at hno
      have hdone : o.isDone s = true := by
        refine hreached.consistent.isDone_of_claimed ho hw fun t ht => ?_
        obtain ⟨z, hz, y, hy, hwanted, rfl⟩ := hno t ht
        exact hclaims z hz y hy hwanted
      rw [hd] at hdone
      simp at hdone

/-- As long as nothing is refused, all attempts have written their entries. -/
lemma Reached.allWritten {st : Stand} {s : WalkState} (h : Reached o layers d label (st, s))
    (hw : s.warnings = []) : ∀ a ∈ s.archive.attempts, a.isWritten = true := by
  have htells := h.tells
  rw [hw, List.forall₂_nil_left_iff] at htells
  intro a ha
  by_contra hno
  have hmem : a ∈ s.archive.failed := List.mem_filter.mpr ⟨ha, by simpa using hno⟩
  rw [htells] at hmem
  simp at hmem

lemma Reached.completed (h : Reached o layers d label x) :
    ∀ a ∈ x.2.archive.attempts, a.isWritten = true → a = a.toRequest.completed := by
  refine h.invariant (P := fun x => ∀ a ∈ x.2.archive.attempts, a.isWritten = true →
    a = a.toRequest.completed) (by simp [WalkState.start, Archive.new, Archive.attempts]) ?_
  intro x y hx hm ih
  cases hm with
  | enter _ _ _ => exact ih
  | pass _ _ _ => exact ih
  | leave _ => exact ih
  | @take i e r r' p c below s s' _ _ _ ht =>
    obtain ⟨records, c₁, -, harchive, -⟩ := take_append ht
    intro a ha hwritten
    rw [harchive, Archive.attempts_append] at ha
    rcases List.mem_append.mp ha with ha | ha
    · exact ih a ha hwritten
    obtain rfl := List.mem_singleton.mp ha
    rcases hwrite : writeEntry s.archive.device e.header p records c₁ with ⟨d₁, c₂, n | m | m⟩ <;>
      rw [hwrite] at hwritten
    · obtain ⟨-, b, hb, rfl, -⟩ := output_complete hwrite
      simp only [Request.completed, Content.bytes_of_drain hb]
    · simp [Attempt.isWritten] at hwritten
    · simp [Attempt.isWritten] at hwritten

/-- Without a refusal, what was asked of the archive determines what it was asked and how that
ended. -/
lemma Reached.attempts_eq {st : Stand} {s : WalkState} (h : Reached o layers d label (st, s))
    (hw : s.warnings = []) : s.archive.attempts = s.requests.map Request.completed := by
  rw [WalkState.requests, List.map_map]
  refine (List.map_id _).symm.trans (List.map_congr_left fun a ha => ?_)
  exact h.completed a ha (h.allWritten hw a ha)

end Walk

section Extract

variable {layers : List Layer} {files few many : List FileSpec} {cancelled cancelled' : ℕ → Bool}
  {d : Device} {label label' : String} {x x' : Extracted} {e e' : Extraction}

/-- What an extraction gives that succeeds, seen from where its walk has come to a halt. -/
lemma extract_halt (hx : extract ⟨.ok layers⟩ files cancelled (.ok d) label = x)
    (he : x.outcome = .ok e) :
    ∃ below s, Reached (.ofFiles files cancelled) layers d label (.before below, s) ∧
      (below = [] ∨ (Order.ofFiles files cancelled).isDone s = true) ∧
      s.requests = overlay files layers ∧ x.attempts = s.archive.attempts ∧
      x.device = some s.archive.finish.1 ∧
      e = ⟨s.resolved.found files, s.warnings, s.visited, label⟩ := by
  rcases hz : walk (.ofFiles files cancelled) layers
    (.start (.ofFiles files cancelled) layers d label) with ⟨s, failure⟩
  have hconclude : x = conclude files layers label s failure := by
    rw [← hx, extract_eq layers files cancelled d label, hz]
  rw [hconclude] at he
  obtain ⟨rfl, rfl⟩ := conclude_ok he
  have hrequests := (walk_overlay hz).1
  obtain ⟨below, s₁, hreached, ⟨log, rfl⟩, hstop⟩ := walk_ok hz
  refine ⟨below, s₁, hreached, hstop, hrequests, ?_, ?_, rfl⟩
  · rw [hconclude, (conclude_frame ..).2.1]
  · rw [hconclude, (conclude_frame ..).2.2]

/-- An extraction without a refusal leaves what it has attempted, and the end of the archive. -/
lemma extract_smooth (hx : extract ⟨.ok layers⟩ files cancelled (.ok .accepting) label = x)
    (he : x.outcome = .ok e) (hw : e.warnings = []) :
    x.attempts = (overlay files layers).map Request.completed ∧
      x.device.map Device.output = some (footprints x.attempts ++ trailer) := by
  obtain ⟨below, s, hreached, -, hrequests, hattempts, hdevice, rfl⟩ := extract_halt hx he
  refine ⟨by rw [hattempts, hreached.attempts_eq hw, hrequests], ?_⟩
  have hintact := hreached.isIntact
  obtain ⟨d', hwrite, -, hout⟩ := hintact.accepts.write trailer
  have hfinish : s.archive.finish = (d', none) := by simp only [Archive.finish, hwrite]
  rw [hdevice, hfinish, Option.map_some, hout, hintact.output, hattempts]

/-- Without a refusal, fewer files are found in no more layers. -/
lemma extract_shallow (hsub : ∀ f ∈ few, ∃ g ∈ many, g.target = f.target)
    (hx : extract ⟨.ok layers⟩ few cancelled (.ok d) label = x) (he : x.outcome = .ok e)
    (hw : e.warnings = [])
    (hx' : extract ⟨.ok layers⟩ many cancelled' (.ok d) label' = x') (he' : x'.outcome = .ok e') :
    e.visited ≤ e'.visited := by
  obtain ⟨below, s, hreached, -, -, -, -, rfl⟩ := extract_halt hx he
  obtain ⟨below', s', hreached', hstop', -, -, -, rfl⟩ := extract_halt hx' he'
  have hvisited := hreached.visited
  have hvisited' := hreached'.visited
  simp only [Stand.ahead, List.length_map] at hvisited hvisited'
  by_contra hlt
  simp only [not_le] at hlt
  have hshort : below.length < below'.length := by omega
  have hdone' : (Order.ofFiles many cancelled').isDone s' = true := by
    refine hstop'.resolve_left fun hnil => ?_
    simp [hnil] at hshort
  obtain ⟨above, hall, hoffers⟩ := hreached'.offers
  obtain ⟨t, ht, hno⟩ := hreached.open (nodup_eraseDups _) hw hall hshort
  have hfew : (Order.ofFiles few cancelled).targets ⊆ (Order.ofFiles many cancelled').targets :=
    fun t ht => List.mem_eraseDups.mpr (targets_subset hsub (List.mem_eraseDups.mp ht))
  exact hno ((hoffers t (hreached'.consistent.mem_of_isDone hdone' (hfew ht))).fewer hfew ht)

end Extract

/-- Two orders that the walk cannot tell apart. -/
structure Order.Alike (o o' : Order) : Prop where
  isDone : ∀ s, o'.isDone s = o.isDone s
  match? : ∀ r e, o'.match? r e = o.match? r e
  cancelled : o'.cancelled = o.cancelled

section Alike

variable {o o' : Order}

lemma walkEntries_eq_of_alike (h : o.Alike o') (i n : ℕ) (s : WalkState) (r : Reader) :
    walkEntries o' i n s r = walkEntries o i n s r := by
  induction n generalizing s r with
  | zero => rfl
  | succ n ih => simp only [walkEntries, h.match?, h.isDone, ih]

lemma walkLayers_eq_of_alike (h : o.Alike o') (total : ℕ) (ls : List (Layer × ℕ)) (s : WalkState) :
    walkLayers o' total ls s = walkLayers o total ls s := by
  induction ls generalizing s with
  | nil => rfl
  | cons x ls ih =>
    simp only [walkLayers, walkLayer, h.isDone, h.cancelled, walkEntries_eq_of_alike h, ih]

end Alike

/-- Files with the same paths make the same order, whatever else they are. -/
lemma Order.alike_ofFiles {few many : List FileSpec}
    (hsub : ∀ f ∈ few, ∃ g ∈ many, g.target = f.target)
    (hsup : ∀ g ∈ many, ∃ f ∈ few, f.target = g.target) (cancelled : ℕ → Bool) :
    (ofFiles few cancelled).targets.length = (ofFiles many cancelled).targets.length ∧
      (ofFiles few cancelled).Alike (ofFiles many cancelled) := by
  have hmem : ∀ t, t ∈ (ofFiles few cancelled).targets ↔ t ∈ (ofFiles many cancelled).targets := by
    intro t
    simp only [ofFiles, List.mem_eraseDups]
    exact ⟨fun h => targets_subset hsub h, fun h => targets_subset hsup h⟩
  have hlen : (ofFiles few cancelled).targets.length = (ofFiles many cancelled).targets.length :=
    ((List.perm_ext_iff_of_nodup (nodup_eraseDups _) (nodup_eraseDups _)).mpr hmem).length_eq
  refine ⟨hlen, fun s => ?_, fun r e => ?_, rfl⟩
  · simp only [isDone, hlen]
  · simp only [Order.match?, hmem]

/-- What an extraction leaves behind depends on the files only through their paths, apart from the
list of those that were found. -/
lemma extract_respelled (layers : List Layer) {few many : List FileSpec}
    (hsub : ∀ f ∈ few, ∃ g ∈ many, g.target = f.target)
    (hsup : ∀ g ∈ many, ∃ f ∈ few, f.target = g.target) (cancelled : ℕ → Bool) (d : Device)
    (label : String) :
    let x := extract ⟨.ok layers⟩ few cancelled (.ok d) label
    let x' := extract ⟨.ok layers⟩ many cancelled (.ok d) label
    x.device = x'.device ∧ x.attempts = x'.attempts ∧ x.opened = x'.opened ∧ x.log = x'.log ∧
      x.outcome.map (fun e => (e.warnings, e.visited, e.archive)) =
        x'.outcome.map fun e => (e.warnings, e.visited, e.archive) := by
  obtain ⟨hlen, halike⟩ := Order.alike_ofFiles hsub hsup cancelled
  have hstart : WalkState.start (.ofFiles many cancelled) layers d label =
      .start (.ofFiles few cancelled) layers d label := by
    simp only [WalkState.start, Order.announcement, hlen]
  rw [extract_eq, extract_eq, walk, walk, hstart, walkLayers_eq_of_alike halike]
  rcases walkLayers (.ofFiles few cancelled) layers.length layers.zipIdx.reverse
    (.start (.ofFiles few cancelled) layers d label) with ⟨s, _ | f⟩ <;>
    rcases hfinish : s.archive.finish with ⟨d', _ | g⟩ <;>
    simp only [conclude, hfinish, Except.map, and_self]

/-- Let each of a few files lie under the path of one of many. If both extractions succeed without
warnings, on devices that take everything, the attempts for the few are those for the many that lie
under the paths of the few, in order and byte by byte; what is on the devices is what the attempts
have left there. The few are found in no more layers, and those of them are found whose paths the
many have had written.

If the many lie under the paths of the few in turn, then the two extractions leave the same behind,
whatever comes of them and whatever the device refuses. -/
theorem extract_fewer (layers : List Layer) {few many : List FileSpec}
    (hsub : ∀ f ∈ few, ∃ g ∈ many, g.target = f.target) :
    (∀ (cancelled cancelled' : ℕ → Bool) (label label' : String) (e e' : Extraction),
      let x := extract ⟨.ok layers⟩ few cancelled (.ok .accepting) label
      let x' := extract ⟨.ok layers⟩ many cancelled' (.ok .accepting) label'
      x.outcome = .ok e → e.warnings = [] → x'.outcome = .ok e' → e'.warnings = [] →
        (x.attempts = x'.attempts.filter (fun a => decide (a.path ∈ few.map FileSpec.target)) ∧
          x.device.map Device.output = some (x.attempts.flatMap Attempt.footprint ++ trailer) ∧
          x'.device.map Device.output = some (x'.attempts.flatMap Attempt.footprint ++ trailer)) ∧
        e.visited ≤ e'.visited ∧
        e.locations = few.filter fun f => decide (f.target ∈ x'.attempts.map fun a => a.path)) ∧
    ((∀ g ∈ many, ∃ f ∈ few, f.target = g.target) →
      ∀ (cancelled : ℕ → Bool) (d : Device) (label : String),
        let x := extract ⟨.ok layers⟩ few cancelled (.ok d) label
        let x' := extract ⟨.ok layers⟩ many cancelled (.ok d) label
        x.device = x'.device ∧ x.attempts = x'.attempts ∧ x.opened = x'.opened ∧ x.log = x'.log ∧
          x.outcome.map (fun e => (e.warnings, e.visited, e.archive)) =
            x'.outcome.map fun e => (e.warnings, e.visited, e.archive)) := by
  refine ⟨?_, extract_respelled layers hsub⟩
  intro cancelled cancelled' label label' e e' x x' he hw he' hw'
  obtain ⟨hattempts, hout⟩ := extract_smooth (x := x) rfl he hw
  obtain ⟨hattempts', hout'⟩ := extract_smooth (x := x') rfl he' hw'
  have hpart : x.attempts =
      x'.attempts.filter fun a => decide (a.path ∈ few.map FileSpec.target) := by
    rw [hattempts, hattempts', List.filter_map, overlay_fewer layers hsub]
    rfl
  refine ⟨⟨hpart, hout, hout'⟩, extract_shallow hsub rfl he hw rfl he', ?_⟩
  obtain ⟨below, s, hreached, -, -, hs, -, rfl⟩ := extract_halt (x := x) rfl he
  refine List.filter_congr fun f hf => ?_
  have hclaimed : f.target ∈ s.resolved.paths ↔ f.target ∈ x.attempts.map fun a => a.path := by
    rw [hs, hreached.consistent.attempted, List.mem_reverse]
  have hsame : f.target ∈ x.attempts.map (fun a => a.path) ↔
      f.target ∈ x'.attempts.map fun a => a.path := by
    simp only [hpart, List.mem_map, List.mem_filter, decide_eq_true_eq]
    constructor
    · rintro ⟨a, ⟨ha, -⟩, hpath⟩
      exact ⟨a, ha, hpath⟩
    · rintro ⟨a, ha, hpath⟩
      exact ⟨a, ⟨ha, f, hf, hpath.symm⟩, hpath⟩
  simp only [Resolved.contains, hclaimed, hsame]

/-- A file in the upper one of two layers is extracted alike alone and together with one in the
lower layer, and so it is if it is asked for twice and in another spelling. -/
theorem extract_fewer_foo :
    let few : List FileSpec := [⟨"usr//bin/./foo", "."⟩, ⟨"/usr/bin/foo", "bin"⟩]
    let many : List FileSpec := [⟨"/a", "."⟩, ⟨"/usr/bin/foo", "."⟩]
    let x := extract ⟨.ok [wholeLayer, fooLayer]⟩ few (fun _ => false) (.ok .accepting) "out"
    let x' := extract ⟨.ok [wholeLayer, fooLayer]⟩ many (fun _ => false) (.ok .accepting) "out"
    x.attempts = x'.attempts.filter (fun a => decide (a.path ∈ few.map FileSpec.target)) ∧
      x.attempts.map (fun a => a.path) = ["usr/bin/foo"] ∧
      x'.attempts.map (fun a => a.path) = ["usr/bin/foo", "a"] := by
  intro few many x x'
  have hrun : x.outcome = .ok ⟨few, [], 1, "out"⟩ ∧ x'.outcome = .ok ⟨many, [], 2, "out"⟩ ∧
      x.attempts.map (fun a => a.path) = ["usr/bin/foo"] ∧
      x'.attempts.map (fun a => a.path) = ["usr/bin/foo", "a"] := by
    decide +kernel
  obtain ⟨he, he', hpaths, hpaths'⟩ := hrun
  have hsub : ∀ f ∈ few, ∃ g ∈ many, g.target = f.target := by
    decide +kernel
  obtain ⟨⟨hpart, -⟩, -⟩ := (extract_fewer [wholeLayer, fooLayer] hsub).1 (fun _ => false)
    (fun _ => false) "out" "out" _ _ he rfl he' rfl
  exact ⟨hpart, hpaths, hpaths'⟩

end LayerPick
