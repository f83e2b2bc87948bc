import LayerPick.Proofs.FailureKinds

/-!
# Which entries count as files

An entry takes part in the overlay unless it is a folder or announces no content. What else it is
makes no difference to the walk: a link or a device that announces content is copied like a file,
and hides what lies under the same path below it.

So whether files alone are extracted can be read off the entries that show. As long as those are
files, the others might as well be missing from the layers. And if an entry that is no file shows, an
extraction that succeeds has asked the archive to take it.
-/
namespace LayerPick

open Tar

/-- The entries that show of an image, each with its content unread. -/
def shown (files : List FileSpec) (layers : List Layer) : List (Entry × Content) :=
  unclaimed (files.map FileSpec.target) [] (layers.reverse.flatMap Layer.entries)

/-- The entries that would show if the layers held nothing but entries of some kinds. -/
def shownFiles (isFile : Kind → Bool) (files : List FileSpec) (layers : List Layer) :
    List (Entry × Content) :=
  unclaimed (files.map FileSpec.target) []
    ((layers.reverse.flatMap Layer.entries).filter fun y => isFile y.1.header.kind)

/-- The entries from the stand on, each with its content unread. -/
def Stand.entries : Stand → List (Entry × Content)
  | .before below => below.flatMap fun x => x.1.entries
  | .among _ r below => r.entries ++ below.flatMap fun x => x.1.entries

/-- These requests were made for these entries, one for each. -/
def MadeFor : List Request → List (Entry × Content) → Prop :=
  List.Forall₂ fun q y => requestFor? y = some q

lemma unclaimed_filter {targets claimed : List String} {es : List (Entry × Content)}
    {isFile : Kind → Bool}
    (h : ∀ y ∈ unclaimed targets claimed es, isFile y.1.header.kind = true) :
    unclaimed targets claimed (es.filter fun y => isFile y.1.header.kind) =
      unclaimed targets claimed es := by
  induction es generalizing claimed with
  | nil => rfl
  | cons y es ih =>
    by_cases hshows : y.1.isWanted targets = true ∧ y.1.place ∉ claimed
    · obtain ⟨hw, hp⟩ := hshows
      rw [unclaimed_take y es hw hp] at h ⊢
      obtain ⟨hy, hes⟩ := List.forall_mem_cons.mp h
      rw [List.filter_cons_of_pos (by exact hy), unclaimed_take _ _ hw hp, ih hes]
    · have hskip : y.1.isWanted targets = false ∨ y.1.place ∈ claimed := by
        by_cases hw : y.1.isWanted targets = true
        · exact .inr (not_not.mp fun hp => hshows ⟨hw, hp⟩)
        · exact .inl (Bool.not_eq_true _ ▸ hw)
      rw [unclaimed_skip y es hskip] at h ⊢
      cases hy : isFile y.1.header.kind with
      | true => rw [List.filter_cons_of_pos (by exact hy), unclaimed_skip _ _ hskip, ih h]
      | false => rw [List.filter_cons_of_neg (by simp [hy]), ih h]

/-- A request takes over the header of its entry, and is stored where the entry belongs. -/
lemma requestFor?_some {y : Entry × Content} {q : Request} (h : requestFor? y = some q) :
    q.header = y.1.header ∧ q.path = y.1.place := by
  unfold requestFor? at h
  cases hr : y.1.carriedRecords y.2 with
  | error err => simp [hr] at h
  | ok x =>
    simp only [hr, Option.some.injEq] at h
    rw [← h]
    exact ⟨rfl, rfl⟩

lemma MadeFor.kinds {qs : List Request} {es : List (Entry × Content)} {isFile : Kind → Bool}
    (h : MadeFor qs es) :
    (∀ q ∈ qs, isFile q.header.kind = true) ↔ ∀ y ∈ es, isFile y.1.header.kind = true := by
  induction h with
  | nil => simp
  | cons hq _ ih => rw [List.forall_mem_cons, List.forall_mem_cons, ih, (requestFor?_some hq).1]

lemma MadeFor.paths {qs : List Request} {es : List (Entry × Content)} (h : MadeFor qs es) :
    qs.map Request.path = es.map fun y => y.1.place := by
  induction h with
  | nil => rfl
  | cons hq _ ih => rw [List.map_cons, List.map_cons, ih, (requestFor?_some hq).2]

lemma MadeFor.filterMap {qs : List Request} {es : List (Entry × Content)} (h : MadeFor qs es) :
    es.filterMap requestFor? = qs := by
  induction h with
  | nil => rfl
  | cons hq _ ih => rw [List.filterMap_cons_some hq, ih]

lemma MadeFor.snoc {qs : List Request} {q : Request} {es : List (Entry × Content)}
    {y : Entry × Content} (h : MadeFor qs es) (hq : requestFor? y = some q) :
    MadeFor (qs ++ [q]) (es ++ [y]) :=
  List.rel_append h (.cons hq .nil)

section Walk

variable {o : Order} {layers : List Layer} {d : Device} {label : String}

/-- What an entry that is taken adds to the requests, also if the walk fails at it. -/
lemma take_requests {i : ℕ} {p : String} {e : Entry} {s s' : WalkState} {c : Content}
    {res : Except Failure Content} (hp : p = e.place) (h : take i p e s c = (s', res)) :
    s'.requests = s.requests ∧ (∃ f, res = .error f) ∨
      ∃ q, requestFor? (e, c) = some q ∧ s'.requests = s.requests ++ [q] := by
  subst hp
  cases res with
  | error f =>
    rcases take_error h with ⟨err, -, rfl, -⟩ | ⟨records, c₁, a, c', r, hr, ha, rfl, -⟩
    · exact .inl ⟨rfl, f, rfl⟩
    · obtain ⟨d, -, rfl⟩ := append_eq.mp ha
      refine .inr ⟨⟨e.header, e.place, records, c₁⟩, by simp [requestFor?, hr], ?_⟩
      simp [WalkState.requests, WalkState.asked, Archive.attempts]
  | ok c₂ =>
    obtain ⟨records, c₁, a, r, hr, ha, hend⟩ := take_ok h
    obtain ⟨d, -, rfl⟩ := append_eq.mp ha
    refine .inr ⟨⟨e.header, e.place, records, c₁⟩, by simp [requestFor?, hr], ?_⟩
    obtain ⟨-, rfl⟩ | ⟨m, -, rfl⟩ := hend
    · simp [WalkState.requests, WalkState.say, WalkState.countFile, WalkState.asked,
        Archive.attempts]
    · simp [WalkState.requests, WalkState.say, WalkState.warn, WalkState.asked,
        Archive.attempts]

/-- What has been asked for and what shows from the stand on make up all that shows. -/
def Picks (o : Order) (layers : List Layer) (x : Stand × WalkState) : Prop :=
  ∃ picked, MadeFor x.2.requests picked ∧
    unclaimed o.targets [] (layers.reverse.flatMap Layer.entries) =
      picked ++ unclaimed o.targets x.2.resolved.paths x.1.entries

lemma Moves.picks {x y : Stand × WalkState} (hm : Moves o layers.length x y)
    (hx : Reached o layers d label x) (h : Picks o layers x) : Picks o layers y := by
  obtain ⟨picked, hmade, hall⟩ := h
  have hproper := hx.proper
  cases hm with
  | @enter l i src below s _ _ ho =>
    refine ⟨picked, hmade, hall.trans ?_⟩
    simp only [Stand.entries, List.flatMap_cons, Layer.entries, ho]
    rfl
  | @pass i e r r' below s _ hn hmatch =>
    refine ⟨picked, hmade, hall.trans ?_⟩
    simp only [Stand.entries, Reader.entries_next hproper hn, List.cons_append]
    rw [unclaimed_skip (e, r'.content) _ (match?_none.mp hmatch)]
  | @take i e r r' p c below s s' _ hn hmatch ht =>
    obtain ⟨hw, hp, rfl⟩ := match?_some.mp hmatch
    obtain ⟨-, f, hf⟩ | ⟨q, hq, hreq⟩ := take_requests rfl ht
    · simp at hf
    refine ⟨picked ++ [(e, r'.content)], ?_, hall.trans ?_⟩
    · rw [hreq]
      exact hmade.snoc hq
    · have hpaths : s'.resolved.paths = e.place :: s.resolved.paths := by
        obtain ⟨records, c₁, a, r, -, -, ⟨-, rfl⟩ | ⟨m, -, rfl⟩⟩ := take_ok ht <;>
          exact insert_paths hp
      have hrest := take_entries (Reader.next?_advances hproper hn).proper ht
      simp only [Stand.entries, Reader.entries_next hproper hn, List.cons_append]
      rw [unclaimed_take (e, r'.content) _ hw hp, hrest, hpaths, List.append_assoc,
        List.singleton_append]
  | @leave i r below s hleave =>
    refine ⟨picked, hmade, hall.trans ?_⟩
    simp only [Stand.entries]
    rcases hleave with hdone | hn
    · have hclaimed : ∀ t ∈ o.targets, t ∈ s.resolved.paths :=
        fun t ht => hx.consistent.mem_of_isDone hdone ht
      rw [unclaimed_done _ hclaimed, unclaimed_done _ (by exact hclaimed)]
    · rw [Reader.entries_next hproper hn, List.nil_append]
      rfl

lemma Reached.picks {x : Stand × WalkState} (h : Reached o layers d label x) :
    Picks o layers x := by
  refine h.invariant ⟨[], .nil, ?_⟩ fun x y hx hm => hm.picks hx
  have hentries : (layers.zipIdx.reverse.flatMap fun y => y.1.entries) =
      layers.reverse.flatMap Layer.entries := by
    rw [← List.flatMap_map, List.map_reverse, List.zipIdx_map_fst]
  rw [List.nil_append, Stand.entries, hentries]
  rfl

/-- A walk asks for entries that show, in order and without a gap, and for all of them unless it
fails. -/
lemma walk_picks {z : WalkState × Option Failure} (h : walk o layers (.start o layers d label) = z) :
    ∃ picked, MadeFor z.1.requests picked ∧
      picked <+: unclaimed o.targets [] (layers.reverse.flatMap Layer.entries) ∧
      (z.2 = none → picked = unclaimed o.targets [] (layers.reverse.flatMap Layer.entries)) := by
  obtain ⟨x, hx, hz⟩ := walk_eq_iff.mp h
  obtain ⟨picked, hmade, hall⟩ := hx.picks
  rw [hall]
  cases hz with
  | ended => exact ⟨picked, hmade, List.prefix_append .., by simp [Stand.entries]⟩
  | done hd =>
    refine ⟨picked, hmade, List.prefix_append .., ?_⟩
    simp [unclaimed_done _ fun t ht => hx.consistent.mem_of_isDone hd (t := t) ht]
  | cancelled _ _ => exact ⟨picked, hmade, List.prefix_append .., by simp⟩
  | closed _ _ _ => exact ⟨picked, hmade, List.prefix_append .., by simp⟩
  | undecodable _ _ => exact ⟨picked, hmade, List.prefix_append .., by simp⟩
  | @broken i e r r' p f below s s' _ hn hmatch ht =>
    obtain ⟨hw, hp, rfl⟩ := match?_some.mp hmatch
    obtain ⟨hreq, -⟩ | ⟨q, hq, hreq⟩ := take_requests rfl ht
    · refine ⟨picked, ?_, List.prefix_append .., by simp⟩
      exact hreq ▸ hmade
    · refine ⟨picked ++ [(e, r'.content)], ?_, ?_, by simp⟩
      · exact hreq ▸ hmade.snoc hq
      · simp only [Stand.entries, Reader.entries_next hx.proper hn, List.cons_append]
        rw [unclaimed_take (e, r'.content) _ hw hp]
        simp

end Walk

/-- Files alone are extracted just if the entries that show are files. As long as they are, whatever
an extraction asks its archive to take is a file, and is asked for as if the layers held files alone:
other entries neither are written nor claim their paths. If the extraction succeeds, it is all the
files that show then, and otherwise an entry that is no file has been asked for.

What counts as a file is left open; the walk knows nothing of it. -/
theorem extract_kinds (layers : List Layer) (files : List FileSpec) (cancelled : ℕ → Bool)
    (d : Device) (label : String) (isFile : Kind → Bool) :
    let x := extract ⟨.ok layers⟩ files cancelled (.ok d) label
    ((∀ y ∈ shown files layers, isFile y.1.header.kind = true) →
        (∀ a ∈ x.attempts, isFile a.header.kind = true) ∧
          x.attempts.map Attempt.toRequest <+:
            (shownFiles isFile files layers).filterMap requestFor?) ∧
      ∀ e, x.outcome = .ok e →
        ((∀ y ∈ shown files layers, isFile y.1.header.kind = true) ↔
          (∀ a ∈ x.attempts, isFile a.header.kind = true) ∧
            x.attempts.map Attempt.toRequest =
              (shownFiles isFile files layers).filterMap requestFor? ∧
            e.locations = files.filter fun f =>
              decide (f.target ∈ (shownFiles isFile files layers).map fun y => y.1.place)) := by
  intro x
  rcases hw : walk (.ofFiles files cancelled) layers
    (.start (.ofFiles files cancelled) layers d label) with ⟨s, failure⟩
  have hx : x = conclude files layers label s failure := by
    rw [show x = _ from extract_eq layers files cancelled d label, hw]
  have hattempts : x.attempts = s.archive.attempts := by
    rw [hx]
    exact (conclude_frame ..).2.1
  obtain ⟨picked, hmade, hfirst, hall⟩ := walk_picks hw
  have hshown : unclaimed (Order.ofFiles files cancelled).targets []
      (layers.reverse.flatMap Layer.entries) = shown files layers := by
    simp only [Order.ofFiles, unclaimed_eraseDups]
    rfl
  rw [hshown] at hfirst hall
  have hkinds : (∀ a ∈ x.attempts, isFile a.header.kind = true) ↔
      ∀ y ∈ picked, isFile y.1.header.kind = true := by
    rw [← hmade.kinds, hattempts]
    simp [WalkState.requests]
  have hrequests : x.attempts.map Attempt.toRequest = picked.filterMap requestFor? := by
    rw [hmade.filterMap, hattempts]
    rfl
  have hsame : (∀ y ∈ shown files layers, isFile y.1.header.kind = true) →
      shownFiles isFile files layers = shown files layers := unclaimed_filter
  constructor
  · intro h
    rw [hkinds, hrequests, hsame h]
    exact ⟨fun y hy => h y (hfirst.subset hy), hfirst.filterMap _⟩
  · intro e he
    rw [hx] at he
    obtain ⟨rfl, rfl⟩ := conclude_ok he
    obtain rfl := hall rfl
    have hclaimed := (walkLayers_consistent (consistent_start ..) hw).attempted
    have hpaths : s.resolved.paths.reverse = (shown files layers).map fun y => y.1.place := by
      rw [← hmade.paths, ← hclaimed, WalkState.requests, List.map_map]
      rfl
    rw [hkinds, hrequests]
    constructor
    · intro h
      rw [hsame h, ← hpaths]
      refine ⟨h, rfl, List.filter_congr fun f _ => ?_⟩
      simp [Resolved.contains]
    · exact And.left

/-- A layer that holds the link `usr/bin/foo` with a size. -/
def linkLayer (size : ℕ) (content : Bytes) : Layer :=
  let h : Header := { bareHeader "usr/bin/foo" size with kindByte := 50 }
  ⟨"link", .ok (.ofBytes (h.withChecksum.toBytes ++ content ++ trailer))⟩

/-- A link that announces nothing does not hide the file below it. -/
theorem extract_kinds_bareLink :
    let x := extract ⟨.ok [fooLayer, linkLayer 0 []]⟩ [⟨"/usr/bin/foo", "."⟩] (fun _ => false)
      (.ok .accepting) "out"
    (∀ a ∈ x.attempts, decide (a.header.kind = .regular) = true) ∧
      ∃ e, x.outcome = .ok e ∧ e.locations = [⟨"/usr/bin/foo", "."⟩] := by
  intro x
  let isFile : Kind → Bool := fun k => decide (k = .regular)
  let layers := [fooLayer, linkLayer 0 []]
  have hrun : x.outcome = .ok ⟨[⟨"/usr/bin/foo", "."⟩], [], 2, "out"⟩ := by
    decide +kernel
  have hshown : ∀ y ∈ shown [⟨"/usr/bin/foo", "."⟩] layers, isFile y.1.header.kind = true := by
    decide +kernel
  have h := extract_kinds layers [⟨"/usr/bin/foo", "."⟩] (fun _ => false) .accepting "out" isFile
  exact ⟨(h.1 hshown).1, _, hrun, rfl⟩

/-- A link that announces content is extracted in place of the file below it. -/
theorem extract_sizedLink :
    let x := extract ⟨.ok [fooLayer, linkLayer 5 ([111, 116, 104, 101, 114] ++ zeros 507)]⟩
      [⟨"/usr/bin/foo", "."⟩] (fun _ => false) (.ok .accepting) "out"
    x.outcome = .ok ⟨[⟨"/usr/bin/foo", "."⟩], [], 1, "out"⟩ ∧
      x.attempts.map (fun a => (a.path, a.header.kind, a.result)) =
        [("usr/bin/foo", .symbolicLink, .complete 5)] ∧
      fooLayer.entries.map (fun y => (y.1.place, y.1.header.kind, y.1.size)) =
        [("usr/bin/foo", .regular, 5)] := by
  decide +kernel

end LayerPick
