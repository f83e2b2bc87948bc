import LayerPick.Proofs.LatestEntries
import Mathlib.Data.Set.Finite.Basic

/-!
# Chains of links

From a name one link leads to the next. Such a chain ends in a file, or where no entry has the name,
or it runs in a circle. A look-up asks for eight names, so it comes along seven links: a chain of
fewer than eight links to a file is served, every other is not.
-/
namespace LayerPick

open Tar

namespace Tar

section Chains

variable {stands : String → Option Binding} {n k : ℕ} {name m : String} {data : Bytes}

lemma linked_add (stands : String → Option Binding) (n k : ℕ) (name : String) :
    linked stands (n + k) name = (linked stands n name).bind (linked stands k) := by
  induction n generalizing name with
  | zero => rw [Nat.zero_add]; rfl
  | succ n ih =>
    rw [Nat.add_right_comm, linked, linked]
    rcases stands name with _ | _ | target
    · rfl
    · rfl
    · exact ih target

lemma linked_from (h : linked stands n name = some m) (k : ℕ) :
    linked stands (n + k) name = linked stands k m := by
  rw [linked_add, h, Option.bind_some]

lemma linked_isSome_of_le (hk : k ≤ n) (h : (linked stands n name).isSome) :
    (linked stands k name).isSome := by
  obtain ⟨d, rfl⟩ := Nat.exists_eq_add_of_le hk
  rw [linked_add] at h
  exact Option.isSome_of_isSome_bind h

lemma linked_one (h : ∀ target, stands m ≠ some (.link target)) : linked stands 1 m = none := by
  rw [linked]
  rcases hs : stands m with _ | _ | target
  · rfl
  · rfl
  · exact absurd hs (h target)

/-- Following links comes to a file just if there is one on the way. -/
lemma follow_eq_some :
    follow stands k name = some data ↔
      ∃ n < k, ∃ m, linked stands n name = some m ∧ stands m = some (.file data) := by
  induction k generalizing name with
  | zero => simp [follow]
  | succ k ih =>
    rw [follow]
    rcases hs : stands name with _ | found | target <;> simp only
    · simp only [reduceCtorEq, false_iff, not_exists, not_and]
      rintro (_ | n) - m hm
      · obtain rfl := Option.some.inj hm
        simp [hs]
      · simp [linked, hs] at hm
    · constructor
      · rintro h
        obtain rfl := Option.some.inj h
        exact ⟨0, Nat.succ_pos k, name, rfl, hs⟩
      · rintro ⟨_ | n, -, m, hm, hfile⟩
        · obtain rfl := Option.some.inj hm
          exact (Binding.file.inj (Option.some.inj (hs.symm.trans hfile))) ▸ rfl
        · simp [linked, hs] at hm
    · rw [ih]
      constructor
      · rintro ⟨n, hn, m, hm, hfile⟩
        exact ⟨n + 1, Nat.succ_lt_succ hn, m, by rw [linked, hs]; exact hm, hfile⟩
      · rintro ⟨_ | n, hn, m, hm, hfile⟩
        · obtain rfl := Option.some.inj hm
          simp [hs] at hfile
        · rw [linked, hs] at hm
          exact ⟨n, Nat.lt_of_succ_lt_succ hn, m, hm, hfile⟩

lemma follow_none_of_le (hle : n ≤ k) (h : follow stands k name = none) :
    follow stands n name = none := by
  rw [Option.eq_none_iff_forall_not_mem] at h ⊢
  rintro data hdata
  obtain ⟨i, hi, hfile⟩ := follow_eq_some.mp hdata
  exact h data (follow_eq_some.mpr ⟨i, Nat.lt_of_lt_of_le hi hle, hfile⟩)

lemma linked_ends (h : linked stands n name = some m)
    (hend : ∀ target, stands m ≠ some (.link target)) {m' : String}
    (h' : linked stands k name = some m') : k ≤ n := by
  by_contra hlt
  have hsome : (linked stands (n + 1) name).isSome :=
    linked_isSome_of_le (Nat.lt_of_not_le hlt) (h' ▸ rfl)
  rw [linked_from h, linked_one hend] at hsome
  simp at hsome

lemma follow_file (h : linked stands n name = some m) (hfile : stands m = some (.file data)) :
    follow stands k name = if n < k then some data else none := by
  have hend : ∀ target, stands m ≠ some (.link target) := by simp [hfile]
  split_ifs with hlt
  · exact follow_eq_some.mpr ⟨n, hlt, m, h, hfile⟩
  · rw [Option.eq_none_iff_forall_not_mem]
    rintro data' hdata'
    obtain ⟨n', hn', m', hm', hfile'⟩ := follow_eq_some.mp hdata'
    have hle := linked_ends hm' (by simp [hfile']) h
    omega

lemma follow_missing (h : linked stands n name = some m) (hmissing : stands m = none) :
    follow stands k name = none := by
  rw [Option.eq_none_iff_forall_not_mem]
  rintro data hdata
  obtain ⟨n', -, m', hm', hfile⟩ := follow_eq_some.mp hdata
  have hle := linked_ends h (by simp [hmissing]) hm'
  have hge := linked_ends hm' (by simp [hfile]) h
  obtain rfl : n' = n := Nat.le_antisymm hle hge
  obtain rfl := Option.some.inj (hm'.symm.trans h)
  simp [hmissing] at hfile

lemma linked_again (h : linked stands (k + 1) m = some m) (j : ℕ) :
    linked stands (j * (k + 1)) m = some m := by
  induction j with
  | zero => rw [Nat.zero_mul]; rfl
  | succ j ih => rw [Nat.succ_mul, linked_from ih, h]

/-- Nothing is found where links run in a circle. -/
lemma follow_circle {l : ℕ} (h : linked stands n name = some m)
    (hagain : linked stands (n + k + 1) name = some m) : follow stands l name = none := by
  rw [Option.eq_none_iff_forall_not_mem]
  rintro data hdata
  obtain ⟨n', -, m', hm', hfile⟩ := follow_eq_some.mp hdata
  -- Far enough along the circle one is behind the file.
  have hround : linked stands (k + 1) m = some m := by rw [← linked_from h]; exact hagain
  have hfar : linked stands (n + (n' + 1) * (k + 1)) name = some m := by
    rw [linked_from h, linked_again hround]
  have hle := linked_ends hm' (by simp [hfile]) hfar
  have hmul : n' + 1 ≤ (n' + 1) * (k + 1) := Nat.le_mul_of_pos_right _ (Nat.succ_pos k)
  omega

/-- A chain ends in a file, or in a name without an entry, or it runs in a circle. -/
lemma linked_cases (hfinite : {target | ∃ m, stands m = some (.link target)}.Finite)
    (name : String) :
    (∃ n m data, linked stands n name = some m ∧ stands m = some (.file data)) ∨
      (∃ n m, linked stands n name = some m ∧ stands m = none) ∨
      ∃ n k m, linked stands n name = some m ∧ linked stands (n + k + 1) name = some m := by
  by_cases hends : ∃ n, linked stands n name = none
  · obtain ⟨n, hn, hfirst⟩ := Nat.findX hends
    cases n with
    | zero => simp [linked] at hn
    | succ n =>
      obtain ⟨m, hm⟩ := Option.ne_none_iff_exists'.mp (hfirst n (Nat.lt_succ_self n))
      rw [linked_from hm, linked] at hn
      rcases hs : stands m with _ | data | target
      · exact .inr (.inl ⟨n, m, hm, hs⟩)
      · exact .inl ⟨n, m, data, hm, hs⟩
      · simp [hs, linked] at hn
  · -- The names on the way are not all different, since there are not so many.
    have hsome : ∀ n, ∃ m, linked stands n name = some m := fun n =>
      Option.ne_none_iff_exists'.mp fun hn => hends ⟨n, hn⟩
    have hmaps : Set.MapsTo (fun n => linked stands n name) Set.univ
        (some '' insert name {target | ∃ m, stands m = some (.link target)}) := by
      rintro (_ | n) -
      · exact ⟨name, Set.mem_insert _ _, rfl⟩
      · obtain ⟨m, hm⟩ := hsome n
        obtain ⟨m', hm'⟩ := hsome (n + 1)
        refine ⟨m', Set.mem_insert_of_mem _ ⟨m, ?_⟩, hm'.symm⟩
        rw [linked_from hm, linked] at hm'
        rcases hs : stands m with _ | _ | target
        · simp [hs] at hm'
        · simp [hs] at hm'
        · rw [hs] at hm'
          exact congrArg _ (congrArg _ (Option.some.inj hm'))
    obtain ⟨i, -, j, -, hne, heq⟩ :=
      Set.infinite_univ.exists_ne_map_eq_of_mapsTo hmaps ((hfinite.insert name).image some)
    obtain ⟨m, hm⟩ := hsome i
    obtain ⟨m', hm'⟩ := hsome j
    obtain rfl : m = m' := Option.some.inj (hm.symm.trans (heq.trans hm'))
    rcases Nat.lt_or_gt_of_ne hne with hlt | hlt
    · obtain ⟨k, rfl⟩ := Nat.exists_eq_add_of_lt hlt
      exact .inr (.inr ⟨i, k, m, hm, hm'⟩)
    · obtain ⟨k, rfl⟩ := Nat.exists_eq_add_of_lt hlt
      exact .inr (.inr ⟨j, k, m, hm', hm⟩)

end Chains

section Once

variable {bs : List (String × Binding)}

lemma finite_targets (bs : List (String × Binding)) :
    {target | ∃ m, latest bs m = some (.link target)}.Finite := by
  refine ((List.finite_toSet (bs.map Prod.snd)).preimage
    fun _ _ _ _ h => Binding.link.inj h).subset ?_
  rintro target ⟨m, hm⟩
  show Binding.link target ∈ bs.map Prod.snd
  exact List.mem_map_of_mem (mem_of_latest hm)

/-- Where no name occurs twice, no link is hidden. -/
lemma not_hidesLink (honce : (bs.map Prod.fst).Nodup) (name : String) : ¬HidesLink bs name := by
  rintro ⟨⟨target, hlink⟩, data, hfile⟩
  have h := (TarIndex.lookup_iff honce).mpr (mem_of_latest hlink)
  have h' := (TarIndex.lookup_iff honce).mpr hfile
  simp [h] at h'

end Once

end Tar

namespace Tarball

variable {t : FileTree} {path : String} {o : Opened} {xs : List (Entry × Bytes)}

/-- Let a tarball be opened in which no two entries put something under the same name. A file to
which fewer links lead than names are looked up is served, and one to which more links lead is not;
nothing is served where the links lead to a name without an entry, or run in a circle. Each chain of
links comes to one of these. -/
theorem serves_linked (h : (openAt t path).outcome = .ok o) (hxs : o.HasEntries t xs)
    (honce : ((bindings xs).map Prod.fst).Nodup) (name : String) :
    let stands := latest (bindings xs)
    let start := Path.normalize name
    (∀ n m data, linked stands n start = some m → stands m = some (.file data) →
      (n < TarIndex.maxLookups → (o.store t).Serves name (some data)) ∧
        (TarIndex.maxLookups ≤ n → (o.store t).Serves name none)) ∧
    (∀ n m, linked stands n start = some m → stands m = none → (o.store t).Serves name none) ∧
    (∀ n k m, linked stands n start = some m → linked stands (n + k + 1) start = some m →
      (o.store t).Serves name none) ∧
    ((∃ n m data, linked stands n start = some m ∧ stands m = some (.file data)) ∨
      (∃ n m, linked stands n start = some m ∧ stands m = none) ∨
      ∃ n k m, linked stands n start = some m ∧ linked stands (n + k + 1) start = some m) := by
  intro stands start
  have hserves := serves_follow h hxs name
  rw [follow_congr fun _ m _ => filesFirst_eq_latest.mpr (not_hidesLink honce m)] at hserves
  refine ⟨fun n m data hm hfile => ?_, fun n m hm hmissing => ?_, fun n k m hm hagain => ?_,
    linked_cases (finite_targets _) start⟩
  · rw [follow_file hm hfile] at hserves
    exact ⟨fun hlt => by rwa [if_pos hlt] at hserves,
      fun hle => by rwa [if_neg (Nat.not_lt_of_le hle)] at hserves⟩
  · rwa [follow_missing hm hmissing] at hserves
  · rwa [follow_circle hm hagain] at hserves

/-- A file, and `n` links of which each leads to the one before. -/
def chainOf (n : ℕ) : List (String × Binding) :=
  ("0", .file [1]) :: (List.range n).map fun i => (toString (i + 1), .link (toString i))

lemma opened_chainOf_eight :
    ∃ o xs, (openAt (imageFile (archiveWith (chainOf 8))) "image").outcome = .ok o ∧
      o.HasEntries (imageFile (archiveWith (chainOf 8))) xs ∧ bindings xs = chainOf 8 :=
  opened_imageFile 10 bindings (by decide +kernel) (by decide +kernel)

lemma once_chainOf_eight : ((chainOf 8).map Prod.fst).Nodup := by
  decide +kernel

/-- Seven links are followed. -/
theorem serves_linked_seven :
    let t := imageFile (archiveWith (chainOf 8))
    ∃ o, (openAt t "image").outcome = .ok o ∧ (o.store t).Serves "7" (some [1]) := by
  intro t
  obtain ⟨o, xs, ho, hxs, hbs⟩ := opened_chainOf_eight
  have hchain := serves_linked ho hxs (hbs ▸ once_chainOf_eight) "7"
  rw [hbs] at hchain
  exact ⟨o, ho, (hchain.1 7 "0" [1] (by decide +kernel) (by decide +kernel)).1 (by decide)⟩

/-- Eight links are not followed, though eight names are looked up. -/
theorem not_serves_eight :
    let t := imageFile (archiveWith (chainOf 8))
    ∃ o xs, (openAt t "image").outcome = .ok o ∧ o.HasEntries t xs ∧ bindings xs = chainOf 8 ∧
      ((bindings xs).map Prod.fst).Nodup ∧ TarIndex.maxLookups = 8 ∧
      linked (latest (chainOf 8)) 8 (Path.normalize "8") = some "0" ∧
      latest (chainOf 8) "0" = some (.file [1]) ∧ (o.store t).Serves "8" none := by
  intro t
  obtain ⟨o, xs, ho, hxs, hbs⟩ := opened_chainOf_eight
  refine ⟨o, xs, ho, hxs, hbs, hbs ▸ once_chainOf_eight, rfl, by decide +kernel, by decide +kernel,
    ?_⟩
  rw [serves_iff ho hxs, hbs]
  decide +kernel

end Tarball

end LayerPick
