import LayerPick.Proofs.NormalNames
import Mathlib.Data.List.Induction
import Mathlib.Data.List.Infix
import Mathlib.Order.Bounds.Basic

/-!
# Where a path leads

A path is walked component by component. What a walk has come to is a spot: so many levels above its
start, and from there down some names. Names are pushed and popped, and only a walk that has no name
left to pop goes up a level, unless it started at the root. The normal form of a path is the
shortest way to the spot it leads to, one `..` for each level and then the names; so paths from the
same start have the same normal form just if they lead to the same spot.
-/
namespace LayerPick.Path

/-- A row without `..` is what stands behind the `..` in front of it. -/
lemma climbs_before {ns : List Name} (h : parentName ∉ ns) :
    ns.takeWhile (· = parentName) = [] ∧ ns.dropWhile (· = parentName) = ns := by
  cases ns with
  | nil => exact ⟨rfl, rfl⟩
  | cons n ns =>
    have hn : n ≠ parentName := fun he => h (he ▸ List.mem_cons_self ..)
    simp [hn]

/-- A spot, seen from the start of a walk: some levels above it, and then down these names. -/
@[ext]
structure Spot where
  above : ℕ
  names : List Name
  descends : parentName ∉ names
  deriving DecidableEq, Repr

namespace Spot

def start : Spot := ⟨0, [], List.not_mem_nil⟩

/-- Walks on by one component. There is nothing above the root. -/
def go (fromRoot : Bool) (s : Spot) (c : Name) : Spot :=
  if c = [] ∨ c = selfName then s
  else if hc : c = parentName then
    if s.names ≠ [] then
      ⟨s.above, s.names.dropLast, fun h => s.descends (List.dropLast_subset s.names h)⟩
    else if fromRoot then s
    else ⟨s.above + 1, s.names, s.descends⟩
  else ⟨s.above, s.names ++ [c], by simpa [s.descends] using Ne.symm hc⟩

/-- The shortest way from the start to the spot. -/
def way (s : Spot) : List Name := List.replicate s.above parentName ++ s.names

lemma names_eq (s : Spot) : s.names = s.way.dropWhile (· = parentName) := by
  rw [way, List.dropWhile_append_of_pos (by simp), (climbs_before s.descends).2]

lemma above_eq (s : Spot) : s.above = s.way.count parentName := by
  rw [way, List.count_append, List.count_replicate_self, List.count_eq_zero.mpr s.descends,
    Nat.add_zero]

/-- There is one shortest way to a spot, and it leads nowhere else. -/
lemma way_injective : Function.Injective way := by
  intro s s' h
  have habove : s.above = s'.above := by rw [above_eq, above_eq, h]
  have hnames : s.names = s'.names := by rw [names_eq, names_eq, h]
  exact Spot.ext habove hnames

/-- A step of the walk in terms of spots. Nothing is above the root, so the spot is none that is. -/
lemma walk_way {fromRoot : Bool} {s : Spot} (hroot : fromRoot = true → s.above = 0) (c : Name) :
    walk fromRoot s.way.reverse c = (s.go fromRoot c).way.reverse ∧
      (fromRoot = true → (s.go fromRoot c).above = 0) := by
  unfold walk go
  by_cases hstay : c = [] ∨ c = selfName
  · simp only [if_pos hstay]
    exact ⟨trivial, hroot⟩
  by_cases hup : c = parentName
  · simp only [if_neg hstay, if_pos hup, dif_pos hup]
    rcases List.eq_nil_or_concat s.names with hnil | ⟨ns, n, hconcat⟩
    · have hway : s.way.reverse = List.replicate s.above parentName := by
        rw [way, hnil, List.append_nil, List.reverse_replicate]
      cases fromRoot with
      | true => simp [hway, hroot rfl, hnil]
      | false =>
        rw [hway]
        simp only [hnil, ne_eq, not_true, if_false, Bool.false_eq_true, way, List.append_nil,
          List.reverse_replicate, false_implies, and_true]
        cases s.above <;> simp [List.replicate_succ]
    · have hn : n ≠ parentName := fun he => s.descends (by simp [hconcat, he])
      have hway : s.way.reverse =
          n :: (List.replicate s.above parentName ++ ns).reverse := by
        simp [way, hconcat]
      simp only [hway, if_neg hn, hconcat, List.concat_eq_append, ne_eq, List.append_eq_nil_iff,
        List.cons_ne_self, and_false, not_false_iff, if_true, List.dropLast_concat]
      exact ⟨rfl, hroot⟩
  · simp only [if_neg hstay, if_neg hup, dif_neg hup]
    exact ⟨by simp [way], hroot⟩

lemma foldl_walk_way (fromRoot : Bool) (cs : List Name) {s : Spot}
    (hroot : fromRoot = true → s.above = 0) :
    cs.foldl (walk fromRoot) s.way.reverse = (cs.foldl (go fromRoot) s).way.reverse ∧
      (fromRoot = true → (cs.foldl (go fromRoot) s).above = 0) := by
  induction cs generalizing s with
  | nil => exact ⟨rfl, hroot⟩
  | cons c cs ih =>
    obtain ⟨hstep, hroot'⟩ := walk_way hroot c
    rw [List.foldl_cons, hstep]
    exact ih hroot'

lemma foldl_go_parents (k : ℕ) {s : Spot} (hs : s.names = []) :
    ((List.replicate k parentName).foldl (go false) s).above = s.above + k ∧
      ((List.replicate k parentName).foldl (go false) s).names = [] := by
  induction k generalizing s with
  | zero => exact ⟨rfl, hs⟩
  | succ k ih =>
    have hup : s.go false parentName = ⟨s.above + 1, s.names, s.descends⟩ := by
      simp [go, hs, parentName, selfName]
    obtain ⟨habove, hnames⟩ := ih (s := s.go false parentName) (by rw [hup, hs])
    rw [List.replicate_succ, List.foldl_cons, habove, hnames, hup]
    exact ⟨Nat.add_right_comm .., rfl⟩

lemma foldl_go_row {ns : List Name} (h : ∀ n ∈ ns, IsPlain n) (hc : parentName ∉ ns)
    (fromRoot : Bool) (s : Spot) :
    (ns.foldl (go fromRoot) s).above = s.above ∧
      (ns.foldl (go fromRoot) s).names = s.names ++ ns := by
  induction ns generalizing s with
  | nil => simp
  | cons n ns ih =>
    have hn := h n (List.mem_cons_self ..)
    have hne : n ≠ parentName := fun he => hc (he ▸ List.mem_cons_self ..)
    have hdown : (s.go fromRoot n).above = s.above ∧ (s.go fromRoot n).names = s.names ++ [n] := by
      simp [go, hn.ne_nil, hn.ne_self, hne]
    obtain ⟨habove, hnames⟩ := ih (fun m hm => h m (List.mem_cons_of_mem _ hm))
      (fun hm => hc (List.mem_cons_of_mem _ hm)) (s.go fromRoot n)
    rw [List.foldl_cons, habove, hnames, hdown.1, hdown.2]
    simp

lemma foldl_go_way {s : Spot} (h : ∀ n ∈ s.way, IsPlain n) :
    s.way.foldl (go false) start = s := by
  obtain ⟨habove, hnames⟩ := foldl_go_parents s.above (s := start) rfl
  obtain ⟨habove', hnames'⟩ := foldl_go_row (fun n hn => h n (List.mem_append_right _ hn))
    s.descends false ((List.replicate s.above parentName).foldl (go false) start)
  rw [way, List.foldl_append]
  ext1
  · rw [habove', habove]
    exact Nat.zero_add _
  · rw [hnames', hnames]
    rfl

lemma go_names {s s' : Spot} (h : s.names = s'.names) (fromRoot fromRoot' : Bool) (c : Name) :
    (s.go fromRoot c).names = (s'.go fromRoot' c).names := by
  unfold go
  split_ifs <;> simp_all

lemma foldl_go_names (cs : List Name) {s s' : Spot} (h : s.names = s'.names)
    (fromRoot fromRoot' : Bool) :
    (cs.foldl (go fromRoot) s).names = (cs.foldl (go fromRoot') s').names := by
  induction cs generalizing s s' with
  | nil => exact h
  | cons c cs ih => exact ih (go_names h fromRoot fromRoot' c)

end Spot

/-- Where a path leads. -/
def spot (p : String) : Spot := (split p).foldl (Spot.go (rooted p)) .start

lemma foldl_walk_split (p : String) :
    (split p).foldl (walk (rooted p)) [] = (spot p).way.reverse ∧
      (rooted p = true → (spot p).above = 0) :=
  Spot.foldl_walk_way (rooted p) (split p) (s := .start) fun _ => rfl

/-- The normal form is the shortest way. -/
theorem normalNames_eq_way (p : String) : normalNames p = (spot p).way := by
  rw [normalNames, (foldl_walk_split p).1, List.reverse_reverse]

lemma normalize_eq_join_way (p : String) : normalize p = join (spot p).way := by
  rw [normalize, normalNames_eq_way]

lemma way_isPlain (p : String) : ∀ n ∈ (spot p).way, IsPlain n := by
  rw [← normalNames_eq_way]
  exact normalNames_isPlain p

lemma above_of_rooted {p : String} (hp : rooted p = true) : (spot p).above = 0 :=
  (foldl_walk_split p).2 hp

/-- The shortest way to a spot is a normal form. -/
theorem normalNames_join_way {s : Spot} (h : ∀ n ∈ s.way, IsPlain n) :
    normalNames (join s.way) = s.way := by
  by_cases hne : s.way = []
  · rw [hne]
    rfl
  · rw [normalNames_eq_way, spot, split_join h hne, rooted_join h, Spot.foldl_go_way h]

lemma normalize_join {ns : List Name} (h : ∀ n ∈ ns, IsPlain n) (hc : parentName ∉ ns) :
    normalize (join ns) = join ns := by
  have hway : Spot.way ⟨0, ns, hc⟩ = ns := rfl
  rw [normalize, ← hway, normalNames_join_way (by rwa [hway])]

/-- A normal form is its own normal form. -/
theorem normalize_normalize (p : String) : normalize (normalize p) = normalize p := by
  rw [normalize_eq_join_way p, normalize, normalNames_join_way (way_isPlain p)]

/-- A normal form leads out of the tree just if the spot is above the start. -/
theorem escapes_normalize (p : String) :
    escapes (normalize p) = true ↔ 0 < (spot p).above := by
  have hplain := way_isPlain p
  rw [normalize_eq_join_way]
  rcases hs : spot p with ⟨_ | k, ns, hns⟩
  · simp only [hs, Spot.way, List.replicate_zero, List.nil_append] at hplain ⊢
    simp [escapes_join hplain hns]
  · simp only [Spot.way, List.replicate_succ, List.cons_append, Nat.succ_pos, iff_true]
    cases h : List.replicate k parentName ++ ns with
    | nil => decide
    | cons n ns =>
      rw [join_cons_cons]
      simp [escapes, parentName, List.isPrefixOf]

lemma above_of_stays {p : String} (he : escapes (normalize p) = false) : (spot p).above = 0 := by
  have := mt (escapes_normalize p).mpr (Bool.eq_false_iff.mp he)
  omega

/-- A normal path that does not escape holds no name that climbs. -/
theorem not_climbs_of_stays {p : String} (he : escapes (normalize p) = false) :
    parentName ∉ normalNames p := by
  rw [normalNames_eq_way, Spot.way, above_of_stays he, List.replicate_zero, List.nil_append]
  exact (spot p).descends

lemma rooted_root (p : String) : rooted ("/" ++ p) = true := by
  simp [rooted, String.toList_append]

lemma split_root (p : String) : split ("/" ++ p) = [] :: split p := by
  rw [split, String.toList_append]
  exact splitOn_append [] p.toList

lemma spot_root {p : String} (hp : rooted p = false) :
    (spot ("/" ++ p)).above = 0 ∧ (spot ("/" ++ p)).names = (spot p).names := by
  refine ⟨above_of_rooted (rooted_root p), ?_⟩
  rw [spot, split_root, rooted_root, List.foldl_cons, spot, hp]
  exact Spot.foldl_go_names _ (by rfl) _ _

/-- A relative path from the root is its normal form without the names that climb. -/
lemma normalize_root {p : String} (hp : rooted p = false) :
    normalize ("/" ++ p) = join ((normalNames p).dropWhile (· = parentName)) := by
  obtain ⟨habove, hnames⟩ := spot_root hp
  rw [normalize, normalNames_eq_way, normalNames_eq_way, ← Spot.names_eq, Spot.way, habove, hnames]
  rfl

/-- The component is the name of something. -/
def IsOrdinary (c : Name) : Prop := c ≠ [] ∧ c ≠ selfName ∧ c ≠ parentName

instance : DecidablePred IsOrdinary := fun _ => inferInstanceAs (Decidable (_ ∧ _ ∧ _))

/-- How many more components climb than descend. -/
def rise (cs : List Name) : ℤ := cs.count parentName - cs.countP (IsOrdinary ·)

lemma rise_append (cs ds : List Name) : rise (cs ++ ds) = rise cs + rise ds := by
  simp only [rise, List.count_append, List.countP_append]
  omega

namespace Spot

/-- How far above the start the spot lies, going by levels alone. -/
def height (s : Spot) : ℤ := s.above - s.names.length

lemma go_false (s : Spot) (c : Name) :
    (s.go false c).height = s.height + rise [c] ∧
      ((s.go false c).above : ℤ) = max (s.height + rise [c]) s.above := by
  unfold go
  by_cases hstay : c = [] ∨ c = selfName
  · have hrise : rise [c] = 0 := by rcases hstay with rfl | rfl <;> decide
    simp only [if_pos hstay, hrise, height]
    omega
  by_cases hup : c = parentName
  · have hrise : rise [c] = 1 := by rw [hup]; decide
    simp only [if_neg hstay, dif_pos hup, hrise]
    by_cases hnames : s.names = []
    · simp only [hnames, ne_eq, not_true, if_false, Bool.false_eq_true, height, List.length_nil]
      omega
    · have hlength := List.length_pos_of_ne_nil hnames
      simp only [ne_eq, hnames, not_false_iff, if_true, height, List.length_dropLast]
      omega
  · have hrise : rise [c] = -1 := by
      have hordinary : IsOrdinary c := ⟨fun h => hstay (.inl h), fun h => hstay (.inr h), hup⟩
      simp [rise, hup, hordinary]
    simp only [if_neg hstay, dif_neg hup, hrise, height, List.length_append, List.length_singleton]
    omega

lemma foldl_go_height (cs : List Name) : (cs.foldl (go false) start).height = rise cs := by
  induction cs using List.reverseRecOn with
  | nil => decide
  | append_singleton cs c ih =>
    rw [List.foldl_append, List.foldl_cons, List.foldl_nil, (go_false _ c).1, ih, rise_append]

/-- The levels above the start are the greatest rise of a beginning of the walk. -/
theorem above_isGreatest (cs : List Name) :
    IsGreatest {k | ∃ ds, ds <+: cs ∧ rise ds = k} ((cs.foldl (go false) start).above : ℤ) := by
  induction cs using List.reverseRecOn with
  | nil => simp [start, rise]
  | append_singleton cs c ih =>
    have hset : {k | ∃ ds, ds <+: cs ++ [c] ∧ rise ds = k} =
        insert (rise (cs ++ [c])) {k | ∃ ds, ds <+: cs ∧ rise ds = k} := by
      ext k
      simp only [Set.mem_ofPred_eq, Set.mem_insert_iff, List.prefix_concat_iff, or_and_right,
        exists_or, exists_eq_left]
      exact or_congr_left eq_comm
    rw [hset, List.foldl_append, List.foldl_cons, List.foldl_nil, (go_false _ c).2, foldl_go_height,
      ← rise_append]
    exact ih.insert _

end Spot

end LayerPick.Path
