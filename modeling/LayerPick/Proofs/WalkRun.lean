import LayerPick.Proofs.WalkSteps
import Mathlib.Data.Prod.Lex
import Mathlib.Logic.Relation

/-!
# The walk, move by move

A walk stands before a layer or among the entries of one. A move brings it from one such stand to
the next: into a layer, past an entry, over an entry that is taken, or out of the layer. It comes to
a halt where no move is left, at the end of the layers, with all files written, or at a failure.

`walk_eq_iff` says that the walk is just that. What holds before and after each move therefore holds
wherever the walk comes, and what it gives in the end can be read off where it halts.
-/
namespace LayerPick

open Tar Relation

/-- Where a walk stands. -/
inductive Stand
  /-- Before these layers, the next one first. -/
  | before (below : List (Layer × ℕ))
  /-- Among the entries of the layer with this index. -/
  | among (index : ℕ) (r : Reader) (below : List (Layer × ℕ))

def WalkState.entering (s : WalkState) (i : ℕ) (l : Layer) : WalkState :=
  { s.say .debug ("Scanning layer " ++ toString i ++ " (" ++ l.description ++ ")") with
    opened := s.opened ++ [i] }

def WalkState.leaving (s : WalkState) (total : ℕ) : WalkState :=
  s.countLayer.say .info ("Scanned layers: " ++ toString s.countLayer.visited ++ "/" ++
    toString total)

variable {o : Order} {total : ℕ}

inductive Moves (o : Order) (total : ℕ) : Stand × WalkState → Stand × WalkState → Prop
  | enter {l : Layer} {i : ℕ} {src : Source} {below : List (Layer × ℕ)} {s : WalkState} :
    o.isDone s = false → o.cancelled i = false → l.openLayer = .ok src →
    Moves o total (.before ((l, i) :: below), s)
      (.among i (.ofSource src) below, s.entering i l)
  | pass {i : ℕ} {e : Entry} {r r' : Reader} {below : List (Layer × ℕ)} {s : WalkState} :
    o.isDone s = false → r.next? = .ok (some (e, r')) → o.match? s.resolved e = none →
    Moves o total (.among i r below, s) (.among i r' below, s)
  | take {i : ℕ} {e : Entry} {r r' : Reader} {p : String} {c : Content}
    {below : List (Layer × ℕ)} {s s' : WalkState} :
    o.isDone s = false → r.next? = .ok (some (e, r')) → o.match? s.resolved e = some p →
    take i p e s r'.content = (s', .ok c) →
    Moves o total (.among i r below, s) (.among i { r' with content := c } below, s')
  | leave {i : ℕ} {r : Reader} {below : List (Layer × ℕ)} {s : WalkState} :
    o.isDone s = true ∨ r.next? = .ok none →
    Moves o total (.among i r below, s) (.before below, s.leaving total)

/-- Where a walk halts, and what it gives there. -/
inductive Halts (o : Order) : Stand × WalkState → WalkState × Option Failure → Prop
  | ended {s : WalkState} : Halts o (.before [], s) (s, none)
  | done {l : Layer} {i : ℕ} {below : List (Layer × ℕ)} {s : WalkState} : o.isDone s = true →
    Halts o (.before ((l, i) :: below), s)
      (s.say .debug ("All targets resolved, skipping " ++ toString (i + 1) ++ " deeper layers"),
        none)
  | cancelled {l : Layer} {i : ℕ} {below : List (Layer × ℕ)} {s : WalkState} :
    o.isDone s = false → o.cancelled i = true →
    Halts o (.before ((l, i) :: below), s) (s, some (.of (.cancelled i)))
  | closed {l : Layer} {i : ℕ} {f : Failure} {below : List (Layer × ℕ)} {s : WalkState} :
    o.isDone s = false → o.cancelled i = false → l.openLayer = .error f →
    Halts o (.before ((l, i) :: below), s)
      ((s.entering i l).countLayer, some (f.within (.openLayer i l.description)))
  | undecodable {i : ℕ} {r : Reader} {err : ReadError} {below : List (Layer × ℕ)}
    {s : WalkState} : o.isDone s = false → r.next? = .error err →
    Halts o (.among i r below, s) (s.countLayer, some ⟨[.readLayerEntry i], .tar err⟩)
  | broken {i : ℕ} {e : Entry} {r r' : Reader} {p : String} {f : Failure}
    {below : List (Layer × ℕ)} {s s' : WalkState} :
    o.isDone s = false → r.next? = .ok (some (e, r')) → o.match? s.resolved e = some p →
    take i p e s r'.content = (s', .error f) →
    Halts o (.among i r below, s) (s'.countLayer, some f)

/-- What is left of the walk from a stand on. -/
def Stand.resume (o : Order) (total : ℕ) : Stand × WalkState → WalkState × Option Failure
  | (.before below, s) => walkLayers o total below s
  | (.among i r below, s) =>
    match if o.isDone s then (s, none) else walkEntries o i (r.mostEntries + 1) s r with
    | (s, some f) => (s.countLayer, some f)
    | (s, none) => walkLayers o total below (s.leaving total)

/-- The reader of a stand is at or behind the content of an entry. -/
def Stand.Proper : Stand → Prop
  | .before _ => True
  | .among _ r _ => r.Proper

lemma walkEntries_stable {i n m : ℕ} {s : WalkState} {r : Reader} (hr : r.Proper)
    (hn : r.mostEntries < n) (hm : r.mostEntries < m) :
    walkEntries o i n s r = walkEntries o i m s r := by
  induction n generalizing m s r with
  | zero => omega
  | succ n ih =>
    obtain ⟨m, rfl⟩ : ∃ k, m = k + 1 := ⟨m - 1, by omega⟩
    simp only [walkEntries]
    rcases hx : r.next? with err | _ | ⟨e, r'⟩ <;> simp only
    have ha := Reader.next?_advances hr hx
    have hlt := ha.mostEntries_lt
    rcases o.match? s.resolved e with _ | p <;> simp only
    · exact ih ha.proper (by omega) (by omega)
    rcases ht : take i p e s r'.content with ⟨s₁, f | c⟩ <;> simp only
    split_ifs
    · rfl
    have hl := (take_leaves ha.proper.bounded ht).1
    have hle : Reader.mostEntries { r' with content := c } ≤ r'.mostEntries :=
      Nat.add_le_add_right (Nat.div_le_div_right hl.length) 1
    exact ih (ha.proper.at hl) (by omega) (by omega)

lemma take_mostEntries {i : ℕ} {p : String} {e : Entry} {s s' : WalkState} {r : Reader}
    {c : Content} (hr : r.Proper) (ht : take i p e s r.content = (s', .ok c)) :
    Reader.Proper { r with content := c } ∧
      Reader.mostEntries { r with content := c } ≤ r.mostEntries := by
  have hl := (take_leaves hr.bounded ht).1
  exact ⟨hr.at hl, Nat.add_le_add_right (Nat.div_le_div_right hl.length) 1⟩

lemma Moves.proper {x y : Stand × WalkState} (h : Moves o total x y) (hx : x.1.Proper) :
    y.1.Proper := by
  cases h with
  | enter _ _ _ => exact Reader.proper_ofSource _
  | pass _ hn _ => exact (Reader.next?_advances hx hn).proper
  | take _ hn _ ht => exact (take_mostEntries (Reader.next?_advances hx hn).proper ht).1
  | leave _ => trivial

lemma Moves.resume {x y : Stand × WalkState} (h : Moves o total x y) (hx : x.1.Proper) :
    Stand.resume o total x = Stand.resume o total y := by
  cases h with
  | @enter l i src below s hd hc ho =>
    have hd' : o.isDone (s.entering i l) = false := hd
    simp only [Stand.resume, walkLayers, hd, hc, walkLayer, ho, hd', Bool.false_eq_true, if_false]
    rfl
  | @pass i e r r' below s hd hn hm =>
    have ha := Reader.next?_advances hx hn
    have hlt := ha.mostEntries_lt
    simp only [Stand.resume, hd, Bool.false_eq_true, if_false]
    rw [walkEntries]
    simp only [hn, hm]
    rw [walkEntries_stable ha.proper hlt (Nat.lt_succ_self _)]
  | @take i e r r' p c below s s' hd hn hm ht =>
    have ha := Reader.next?_advances hx hn
    have hlt := ha.mostEntries_lt
    obtain ⟨hr', hle⟩ := take_mostEntries ha.proper ht
    simp only [Stand.resume, hd, Bool.false_eq_true, if_false]
    rw [walkEntries]
    simp only [hn, hm, ht]
    rw [walkEntries_stable hr' (show _ < r.mostEntries by omega) (Nat.lt_succ_self _)]
  | @leave i r below s hl =>
    by_cases hd : o.isDone s = true
    · simp only [Stand.resume, hd, if_true]
    · rcases hl with hl | hl
      · exact absurd hl hd
      · simp only [Stand.resume, walkEntries, hl, hd]
        rfl

lemma Halts.resume {x : Stand × WalkState} {y : WalkState × Option Failure} (h : Halts o x y) :
    Stand.resume o total x = y := by
  cases h with
  | ended => rfl
  | done hd => simp only [Stand.resume, walkLayers, hd, if_true]
  | cancelled hd hc =>
    simp only [Stand.resume, walkLayers, hd, hc, Bool.false_eq_true, if_false, if_true]
  | closed hd hc ho =>
    simp only [Stand.resume, walkLayers, walkLayer, hd, hc, ho, Bool.false_eq_true, if_false]
    rfl
  | undecodable hd hn =>
    simp only [Stand.resume, walkEntries, hd, hn, Bool.false_eq_true, if_false]
  | broken hd hn hm ht =>
    simp only [Stand.resume, walkEntries, hd, hn, hm, ht, Bool.false_eq_true, if_false]

/-- How far a stand is from the end: layers first, then entries. -/
def Stand.distance : Stand → ℕ ×ₗ ℕ
  | .before below => toLex (below.length, 0)
  | .among _ r below => toLex (below.length, r.mostEntries + 1)

lemma Moves.distance_lt {x y : Stand × WalkState} (h : Moves o total x y) (hx : x.1.Proper) :
    y.1.distance < x.1.distance := by
  cases h with
  | enter _ _ _ => exact Prod.Lex.toLex_lt_toLex.mpr (.inl (by simp))
  | pass _ hn _ =>
    have hlt := (Reader.next?_advances hx hn).mostEntries_lt
    exact Prod.Lex.toLex_lt_toLex.mpr (.inr ⟨rfl, by simpa using hlt⟩)
  | take _ hn _ ht =>
    have ha := Reader.next?_advances hx hn
    have hlt := ha.mostEntries_lt
    have hle := (take_mostEntries ha.proper ht).2
    exact Prod.Lex.toLex_lt_toLex.mpr (.inr ⟨rfl, by simp only; omega⟩)
  | leave _ => exact Prod.Lex.toLex_lt_toLex.mpr (.inr ⟨rfl, by simp⟩)

lemma Stand.progress (o : Order) (total : ℕ) (x : Stand × WalkState) :
    (∃ y, Halts o x y) ∨ ∃ y, Moves o total x y := by
  obtain ⟨_ | ⟨i, r, below⟩, s⟩ := x
  · rename_i below
    rcases below with _ | ⟨⟨l, i⟩, below⟩
    · exact .inl ⟨_, .ended⟩
    cases hd : o.isDone s with
    | true => exact .inl ⟨_, .done hd⟩
    | false =>
      cases hc : o.cancelled i with
      | true => exact .inl ⟨_, .cancelled hd hc⟩
      | false =>
        cases ho : l.openLayer with
        | error f => exact .inl ⟨_, .closed hd hc ho⟩
        | ok src => exact .inr ⟨_, .enter hd hc ho⟩
  · cases hd : o.isDone s with
    | true => exact .inr ⟨_, .leave (.inl hd)⟩
    | false =>
      rcases hn : r.next? with err | _ | ⟨e, r'⟩
      · exact .inl ⟨_, .undecodable hd hn⟩
      · exact .inr ⟨_, .leave (.inr hn)⟩
      · cases hm : o.match? s.resolved e with
        | none => exact .inr ⟨_, .pass hd hn hm⟩
        | some p =>
          rcases ht : LayerPick.take i p e s r'.content with ⟨s₁, f | c⟩
          · exact .inl ⟨_, .broken hd hn hm ht⟩
          · exact .inr ⟨_, .take hd hn hm ht⟩

lemma Stand.halts (o : Order) (total : ℕ) {x : Stand × WalkState} (hx : x.1.Proper) :
    ∃ y z, ReflTransGen (Moves o total) x y ∧ Halts o y z := by
  induction hd : x.1.distance using WellFoundedLT.induction generalizing x with
  | ind d ih =>
    rcases Stand.progress o total x with ⟨z, hz⟩ | ⟨y, hy⟩
    · exact ⟨x, z, .refl, hz⟩
    · obtain ⟨y', z, hmoves, hz⟩ := ih _ (hd ▸ hy.distance_lt hx) (hy.proper hx) rfl
      exact ⟨y', z, .head hy hmoves, hz⟩

lemma Moves.attempts_kept {x y : Stand × WalkState} (h : Moves o total x y) :
    x.2.archive.attempts <+: y.2.archive.attempts := by
  cases h with
  | enter _ _ _ => exact List.prefix_refl _
  | pass _ _ _ => exact List.prefix_refl _
  | take _ _ _ ht => exact take_attempts_kept ht
  | leave _ => exact List.prefix_refl _

lemma Halts.attempts_kept {x : Stand × WalkState} {z : WalkState × Option Failure}
    (h : Halts o x z) : x.2.archive.attempts <+: z.1.archive.attempts := by
  cases h with
  | broken _ _ _ ht => exact (take_attempts_kept ht :)
  | _ => exact List.prefix_refl _

/-- The walk over these layers comes to stand here. -/
def Reached (o : Order) (layers : List Layer) (d : Device) (label : String) :
    Stand × WalkState → Prop :=
  ReflTransGen (Moves o layers.length)
    (.before layers.zipIdx.reverse, .start o layers d label)

section Reached

variable {layers : List Layer} {d : Device} {label : String} {x : Stand × WalkState}

/-- What holds at the start and is kept by each move holds wherever the walk comes. -/
lemma Reached.invariant {P : Stand × WalkState → Prop} (h : Reached o layers d label x)
    (hstart : P (.before layers.zipIdx.reverse, .start o layers d label))
    (hmove : ∀ x y, Reached o layers d label x → Moves o layers.length x y → P x → P y) :
    P x := by
  induction h with
  | refl => exact hstart
  | tail hx hy ih => exact hmove _ _ hx hy ih

lemma Reached.proper (h : Reached o layers d label x) : x.1.Proper :=
  h.invariant (P := fun x => x.1.Proper) trivial fun _ _ _ hm hx => hm.proper hx

lemma Reached.resume (h : Reached o layers d label x) :
    Stand.resume o layers.length x = walk o layers (.start o layers d label) :=
  h.invariant (P := fun x => Stand.resume o layers.length x = _) rfl
    fun _ _ hx hm ih => (hm.resume hx.proper).symm.trans ih

/-- The walk gives what it gives where it halts. -/
theorem walk_eq_iff {z : WalkState × Option Failure} :
    walk o layers (.start o layers d label) = z ↔
      ∃ x, Reached o layers d label x ∧ Halts o x z := by
  constructor
  · rintro rfl
    obtain ⟨y, z, hmoves, hz⟩ := Stand.halts o layers.length
      (x := (.before layers.zipIdx.reverse, .start o layers d label)) trivial
    have hy : Reached o layers d label y := hmoves
    rw [← hy.resume, hz.resume]
    exact ⟨y, hy, hz⟩
  · rintro ⟨x, hx, hz⟩
    rw [← hx.resume, hz.resume]

lemma walk_halts (o : Order) (layers : List Layer) (d : Device) (label : String) :
    ∃ x, Reached o layers d label x ∧ Halts o x (walk o layers (.start o layers d label)) :=
  walk_eq_iff.mp rfl

/-- What is kept whenever the walk says something, opens a layer, counts one, or takes an entry. -/
structure KeptByWalks (P : WalkState → Prop) : Prop where
  say {s : WalkState} (l : Log.Level) (m : String) : P s → P (s.say l m)
  opening {s : WalkState} (i : ℕ) : P s → P { s with opened := s.opened ++ [i] }
  countLayer {s : WalkState} : P s → P s.countLayer
  take {i : ℕ} {p : String} {e : Entry} {s s' : WalkState} {c : Content}
    {z : Except Failure Content} : LayerPick.take i p e s c = (s', z) → P s → P s'

/-- What is kept all the way holds of what the walk gives, wherever it halts. -/
lemma KeptByWalks.walk {P : WalkState → Prop} (h : KeptByWalks P)
    (hstart : P (.start o layers d label)) : P (walk o layers (.start o layers d label)).1 := by
  obtain ⟨x, hx, hz⟩ := walk_halts o layers d label
  have hs : P x.2 := by
    refine hx.invariant (P := fun x => P x.2) hstart fun x y _ hm hs => ?_
    cases hm with
    | enter _ _ _ => exact h.opening _ (h.say _ _ hs)
    | pass _ _ _ => exact hs
    | take _ _ _ ht => exact h.take ht hs
    | leave _ => exact h.say _ _ (h.countLayer hs)
  generalize LayerPick.walk o layers (.start o layers d label) = z at hz
  cases hz with
  | ended => exact hs
  | done _ => exact h.say _ _ hs
  | cancelled _ _ => exact hs
  | closed _ _ _ => exact h.countLayer (h.opening _ (h.say _ _ hs))
  | undecodable _ _ => exact h.countLayer hs
  | broken _ _ _ ht => exact h.countLayer (h.take ht hs)

/-- A walk without a failure ends before a layer: behind the last one, or with all files written. -/
lemma walk_ok {s : WalkState} (h : walk o layers (.start o layers d label) = (s, none)) :
    ∃ below s₁, Reached o layers d label (.before below, s₁) ∧
      (∃ log, s = { s₁ with log := log }) ∧ (below = [] ∨ o.isDone s₁ = true) := by
  obtain ⟨x, hx, hz⟩ := walk_eq_iff.mp h
  cases hz with
  | ended => exact ⟨[], s, hx, ⟨s.log, rfl⟩, .inl rfl⟩
  | done hd => exact ⟨_, _, hx, ⟨_, rfl⟩, .inr hd⟩

lemma Reached.consistent (h : Reached o layers d label x) : x.2.Consistent o := by
  refine h.invariant (P := fun x => x.2.Consistent o) (consistent_start o layers d label) ?_
  intro x y _ hm hs
  cases hm with
  | enter _ _ _ => exact ⟨hs.attempted, hs.wanted, hs.found, hs.counted⟩
  | pass _ _ _ => exact hs
  | take _ _ hm ht => exact take_consistent hs hm ht
  | leave _ => exact ⟨hs.attempted, hs.wanted, hs.found, hs.counted⟩

lemma Reached.attempts_kept (h : Reached o layers d label x) :
    x.2.archive.attempts <+: (walk o layers (.start o layers d label)).1.archive.attempts := by
  obtain ⟨y, z, hmoves, hz⟩ := Stand.halts o layers.length h.proper
  have hy : Reached o layers d label y := ReflTransGen.trans h hmoves
  rw [walk_eq_iff.mpr ⟨y, hy, hz⟩]
  refine List.IsPrefix.trans ?_ hz.attempts_kept
  clear hz hy
  induction hmoves with
  | refl => exact List.prefix_refl _
  | tail _ hm ih => exact ih.trans hm.attempts_kept

end Reached

end LayerPick
