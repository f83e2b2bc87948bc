import LayerPick.Path.Components
import Mathlib.Data.List.Basic
import Mathlib.Tactic.SplitIfs

/-!
# The names of a normal form

A normal form is a row of plain names with separators between them: none of them is empty, holds a
separator, or is `.`. Taken apart again, such a row gives its names back, one component for each,
and its parent is the row without its last name.
-/
namespace LayerPick.Path

structure IsPlain (n : Name) : Prop where
  ne_nil : n ≠ []
  ne_self : n ≠ selfName
  separator : '/' ∉ n

lemma not_mem_splitOn {α : Type*} [BEq α] [LawfulBEq α] {a : α} (xs : List α) :
    ∀ l ∈ xs.splitOn a, a ∉ l := by
  induction xs with
  | nil => simp
  | cons x xs ih =>
    intro l hl
    rw [List.splitOn_cons_eq_if_modifyHead] at hl
    by_cases hx : x = a
    · rw [if_pos (by simpa using hx), List.mem_cons] at hl
      rcases hl with rfl | hl
      · simp
      · exact ih l hl
    · rw [if_neg (by simpa using hx)] at hl
      obtain ⟨m, ms, hm⟩ := List.exists_cons_of_ne_nil (List.splitOn_ne_nil a xs)
      rw [hm, List.modifyHead_cons, List.mem_cons] at hl
      rw [hm] at ih
      rcases hl with rfl | hl
      · have hmem := ih m (List.mem_cons_self ..)
        simp only [List.mem_cons, not_or]
        exact ⟨fun h => hx h.symm, hmem⟩
      · exact ih l (List.mem_cons_of_mem _ hl)

/-- What stands before a separator and what stands behind it are taken apart on their own. -/
lemma splitOn_append (xs ys : List Char) :
    (xs ++ '/' :: ys).splitOn '/' = xs.splitOn '/' ++ ys.splitOn '/' := by
  induction xs with
  | nil => simp [List.splitOn_cons_eq_if_modifyHead]
  | cons x xs ih =>
    rw [List.cons_append, List.splitOn_cons_eq_if_modifyHead, List.splitOn_cons_eq_if_modifyHead, ih]
    split_ifs
    · rfl
    · obtain ⟨m, ms, hm⟩ := List.exists_cons_of_ne_nil (List.splitOn_ne_nil '/' xs)
      rw [hm]
      rfl

lemma isPlain_parentName : IsPlain parentName := ⟨by decide, by decide, by decide⟩

lemma walk_isPlain {fromRoot : Bool} {inner : List Name} {c : Name}
    (hi : ∀ n ∈ inner, IsPlain n) (hc : '/' ∉ c) : ∀ n ∈ walk fromRoot inner c, IsPlain n := by
  have hparent : ∀ n ∈ parentName :: inner, IsPlain n := by
    intro n hn
    rcases List.mem_cons.mp hn with rfl | hn
    · exact isPlain_parentName
    · exact hi n hn
  unfold walk
  by_cases h₁ : c = [] ∨ c = selfName
  · rw [if_pos h₁]
    exact hi
  rw [if_neg h₁]
  by_cases h₂ : c = parentName
  · rw [if_pos h₂]
    cases inner with
    | nil => cases fromRoot <;> simp [isPlain_parentName]
    | cons d outer =>
      by_cases hd : d = parentName
      · cases fromRoot with
        | true => simpa [hd] using hi
        | false => simpa [hd] using hparent
      · simp only [hd, if_false]
        exact fun n hn => hi n (List.mem_cons_of_mem _ hn)
  · rw [if_neg h₂]
    intro n hn
    rcases List.mem_cons.mp hn with rfl | hn
    · exact ⟨fun h => h₁ (.inl h), fun h => h₁ (.inr h), hc⟩
    · exact hi n hn

lemma foldl_walk_isPlain (fromRoot : Bool) (cs inner : List Name) (hi : ∀ n ∈ inner, IsPlain n)
    (hc : ∀ c ∈ cs, '/' ∉ c) : ∀ n ∈ cs.foldl (walk fromRoot) inner, IsPlain n := by
  induction cs generalizing inner with
  | nil => exact hi
  | cons c cs ih =>
    exact ih _ (walk_isPlain hi (hc c (List.mem_cons_self ..)))
      fun d hd => hc d (List.mem_cons_of_mem _ hd)

/-- A normal form consists of plain names. -/
theorem normalNames_isPlain (p : String) : ∀ n ∈ normalNames p, IsPlain n := by
  intro n hn
  exact foldl_walk_isPlain _ _ [] (by simp) (not_mem_splitOn _) n (List.mem_reverse.mp hn)

section Row

variable {ns : List Name}

lemma split_join (h : ∀ n ∈ ns, IsPlain n) (hne : ns ≠ []) : split (join ns) = ns := by
  unfold split join
  rw [String.toList_ofList]
  exact List.splitOn_intercalate '/' (fun n hn => (h n hn).separator) hne

/-- The first character of a row is no separator, so the row is relative. -/
lemma rooted_join (h : ∀ n ∈ ns, IsPlain n) : rooted (join ns) = false := by
  unfold rooted join
  rw [String.toList_ofList]
  cases ns with
  | nil => rfl
  | cons n ns =>
    have hn := h n (List.mem_cons_self ..)
    obtain ⟨c, cs, rfl⟩ := List.exists_cons_of_ne_nil hn.ne_nil
    have hc : c ≠ '/' := fun hc => hn.separator (hc ▸ List.mem_cons_self ..)
    cases ns <;> simpa [List.intercalate, List.intersperse] using hc

def component (n : Name) : Component := if n = parentName then .up else .name n

lemma component?_of_isPlain {n : Name} (h : IsPlain n) (first : Bool) :
    component? first n = some (component n) := by
  unfold component? component
  rw [if_neg h.ne_nil, if_neg h.ne_self]
  split_ifs <;> rfl

lemma laterComponents_of_isPlain (h : ∀ n ∈ ns, IsPlain n) :
    laterComponents ns = ns.map component := by
  unfold laterComponents
  induction ns with
  | nil => rfl
  | cons n ns ih =>
    rw [List.filterMap_cons, component?_of_isPlain (h n (List.mem_cons_self ..)), List.map_cons,
      ih fun m hm => h m (List.mem_cons_of_mem _ hm)]

/-- A row has one component for each name. -/
theorem components_join (h : ∀ n ∈ ns, IsPlain n) :
    components (join ns) = ns.map component := by
  cases ns with
  | nil => rfl
  | cons n ns =>
    have hn := component?_of_isPlain (h n (List.mem_cons_self ..)) true
    have hns := laterComponents_of_isPlain fun m hm => h m (List.mem_cons_of_mem _ hm)
    simp [components, split_join h (by simp), rooted_join h, hn, hns]

lemma join_cons_cons (n m : Name) (ns : List Name) :
    join (n :: m :: ns) = String.ofList (n ++ '/' :: List.intercalate ['/'] (m :: ns)) := by
  simp [join, List.intercalate, List.intersperse]

lemma join_append (ks : List Name) {ms : List Name} (hk : ks ≠ []) (hm : ms ≠ []) :
    join (ks ++ ms) = join ks ++ "/" ++ join ms := by
  apply String.toList_injective
  unfold join
  induction ks with
  | nil => exact absurd rfl hk
  | cons k ks ih =>
    cases ks with
    | nil =>
      obtain ⟨m, ms, rfl⟩ := List.exists_cons_of_ne_nil hm
      simp [List.intercalate, List.intersperse]
    | cons l ks =>
      have := ih (by simp)
      simp only [String.toList_ofList, String.toList_append, List.cons_append,
        List.intercalate_cons_cons, List.append_assoc] at this ⊢
      rw [this]

lemma endsInSeparator_join (h : ∀ n ∈ ns, IsPlain n) : endsInSeparator (join ns) = false := by
  unfold endsInSeparator join
  rw [String.toList_ofList]
  induction ns with
  | nil => rfl
  | cons n ns ih =>
    have hn := h n (List.mem_cons_self ..)
    cases ns with
    | nil =>
      have hlast : n.getLast? ≠ some '/' := fun hl => hn.separator (List.mem_of_getLast? hl)
      simpa [List.intercalate, List.intersperse] using hlast
    | cons m ms =>
      have := ih fun k hk => h k (List.mem_cons_of_mem _ hk)
      have hne : List.intercalate ['/'] (m :: ms) ≠ [] := by
        obtain ⟨c, cs, hc⟩ := List.exists_cons_of_ne_nil (h m (by simp)).ne_nil
        cases ms <;> simp [List.intercalate, List.intersperse, hc]
      rw [List.intercalate_cons_cons, List.getLast?_append_of_ne_nil _ hne]
      exact this

lemma trimEnd_of_isPlain (h : ∀ n ∈ ns, IsPlain n) : trimEnd ns = ns := by
  match ns with
  | [] => rfl
  | [n] => simp [trimEnd, component?_of_isPlain (h n (by simp))]
  | n :: m :: ns => simp [trimEnd, component?_of_isPlain (h n (by simp))]

/-- The parent of a row is the row without its last name. -/
theorem parent?_join (h : ∀ n ∈ ns, IsPlain n) (hne : ns ≠ []) :
    parent? (join ns) = some (join ns.dropLast) := by
  obtain ⟨ks, n, rfl⟩ : ∃ ks n, ns = ks ++ [n] :=
    ⟨ns.dropLast, ns.getLast hne, (List.dropLast_append_getLast hne).symm⟩
  have hr : ∀ m ∈ n :: ks.reverse, IsPlain m := by
    intro m hm
    exact h m (by simpa [or_comm] using hm)
  have hks : ∀ m ∈ ks.reverse, IsPlain m := fun m hm => hr m (List.mem_cons_of_mem _ hm)
  simp only [parent?, split_join h hne, List.reverse_append, List.reverse_cons, List.reverse_nil,
    List.nil_append, List.cons_append, trimEnd_of_isPlain hr, trimEnd_of_isPlain hks,
    rooted_join h, List.dropLast_concat]
  cases hrev : ks.reverse with
  | nil =>
    have : ks = [] := by simpa using hrev
    rw [this]
    rfl
  | cons k ms =>
    simp only
    rw [← hrev, List.reverse_reverse]

lemma escapes_join (h : ∀ n ∈ ns, IsPlain n) (hc : parentName ∉ ns) :
    escapes (join ns) = false := by
  by_cases hne : ns = []
  · subst hne
    rfl
  have hsplit := split_join h hne
  rw [escapes, Bool.or_eq_false_iff, beq_eq_false_iff_ne, Bool.eq_false_iff]
  constructor
  · intro hup
    rw [hup] at hsplit
    exact hc (hsplit ▸ List.mem_cons_self ..)
  · intro hup
    obtain ⟨r, hr⟩ := List.isPrefixOf_iff_prefix.mp hup
    rw [split, ← hr] at hsplit
    apply hc
    rw [← hsplit]
    simp [List.splitOn_cons_eq_if_modifyHead, parentName]

end Row

end LayerPick.Path
