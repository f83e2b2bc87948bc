import LayerPick.Proofs.PathSpots

/-!
# Reduced paths

The normal forms are the paths of one shape: no component is empty or `.`, and `..` stands in front
only. A path of this shape spells the shortest way to a spot, so it is its own normal form, and two
paths have the same normal form just if they lead to the same spot.
-/
namespace LayerPick.Path

/-- The shape of a normal form: the empty path, or components of which none is empty or `.`, with
`..` only as a run in front. -/
structure IsReduced (q : String) : Prop where
  named : q ≠ "" → ∀ n ∈ split q, n ≠ [] ∧ n ≠ selfName
  climbsFirst : ∃ k ns, split q = List.replicate k parentName ++ ns ∧ parentName ∉ ns

lemma join_split (p : String) : join (split p) = p := by
  rw [join, split, List.intercalate_splitOn, String.ofList_toList]

/-- Taken apart again, the shortest way has its levels in front, and none behind. -/
lemma split_join_way {s : Spot} (h : ∀ n ∈ s.way, IsPlain n) :
    ∃ ns, split (join s.way) = List.replicate s.above parentName ++ ns ∧ parentName ∉ ns := by
  by_cases hne : s.way = []
  · have habove : s.above = 0 := by simpa using (List.append_eq_nil_iff.mp hne).1
    rw [hne, habove]
    exact ⟨split (join []), rfl, by decide⟩
  · exact ⟨s.names, split_join h hne, s.descends⟩

lemma isReduced_join_way {s : Spot} (h : ∀ n ∈ s.way, IsPlain n) : IsReduced (join s.way) := by
  refine ⟨fun hne n hn => ?_, s.above, split_join_way h⟩
  have hway : s.way ≠ [] := fun hempty => hne (by rw [hempty]; rfl)
  rw [split_join h hway] at hn
  exact ⟨(h n hn).ne_nil, (h n hn).ne_self⟩

lemma IsReduced.eq_join_way {q : String} (hq : IsReduced q) :
    ∃ s : Spot, (∀ n ∈ s.way, IsPlain n) ∧ q = join s.way := by
  by_cases hne : q = ""
  · exact ⟨.start, by simp [Spot.way, Spot.start], hne⟩
  · obtain ⟨k, ns, hsplit, hns⟩ := hq.climbsFirst
    refine ⟨⟨k, ns, hns⟩, fun n hn => ?_, ?_⟩
    · have hmem : n ∈ split q := hsplit ▸ hn
      obtain ⟨hnil, hself⟩ := hq.named hne n hmem
      exact ⟨hnil, hself, not_mem_splitOn _ n hmem⟩
    · rw [Spot.way, ← hsplit, join_split]

lemma isReduced_normalize (p : String) : IsReduced (normalize p) := by
  rw [normalize_eq_join_way]
  exact isReduced_join_way (way_isPlain p)

lemma IsReduced.normalize_eq {q : String} (hq : IsReduced q) : normalize q = q := by
  obtain ⟨s, hplain, rfl⟩ := hq.eq_join_way
  rw [normalize, normalNames_join_way hplain]

/-- A path that leads to no level above its start has a normal form without `..`. -/
lemma parentName_not_mem {p : String} (hp : (spot p).above = 0) :
    parentName ∉ split (normalize p) := by
  obtain ⟨ns, hsplit, hns⟩ := split_join_way (way_isPlain p)
  rwa [normalize_eq_join_way, hsplit, hp, List.replicate_zero, List.nil_append]

lemma parentName_not_mem_of_rooted {p : String} (hp : rooted p = true) :
    parentName ∉ split (normalize p) :=
  parentName_not_mem (above_of_rooted hp)

lemma normalize_eq_iff {p q : String} : normalize p = normalize q ↔ spot p = spot q := by
  rw [normalize_eq_join_way, normalize_eq_join_way]
  refine ⟨fun h => Spot.way_injective ?_, fun h => by rw [h]⟩
  rw [← normalNames_join_way (way_isPlain p), ← normalNames_join_way (way_isPlain q), h]

/-- Normal forms are canonical, and free of `..` for paths from the root; the paths that are their
own normal form are just the canonical ones, so that the second go changes nothing; and paths with
the same normal form are those that lead to the same spot. -/
theorem normalize_canonical (p q : String) :
    IsReduced (normalize p) ∧ (rooted p = true → parentName ∉ split (normalize p)) ∧
      (normalize p = p ↔ IsReduced p) ∧ normalize (normalize p) = normalize p ∧
      (normalize p = normalize q ↔ spot p = spot q) := by
  refine ⟨isReduced_normalize p, parentName_not_mem_of_rooted, ⟨fun h => ?_, ?_⟩,
    normalize_normalize p, normalize_eq_iff⟩
  · exact h ▸ isReduced_normalize p
  · exact IsReduced.normalize_eq

/-- Two ways from the root to one file, one of which climbs too far. -/
theorem normalize_canonical_rooted :
    let p := "/../usr//lib/../bin/./foo"
    let q := "/usr/bin/foo/"
    rooted p = true ∧ parentName ∉ split (normalize p) ∧ normalize p = normalize q := by
  intro p q
  have hp : rooted p = true := by decide
  have hspot : spot p = spot q := by decide
  obtain ⟨-, hrooted, -, -, hsame⟩ := normalize_canonical p q
  exact ⟨hp, hrooted hp, hsame.mpr hspot⟩

end LayerPick.Path
