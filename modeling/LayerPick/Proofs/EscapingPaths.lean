import LayerPick.Proofs.TargetSpellings

/-!
# Paths that lead out

Whether a path leads out of the tree is read off the first component of its normal form. That first
look is enough: a name is popped before a `..` is kept, and a `..` that is kept is never popped, so
the normal form has in front one `..` for each level that the walk has ever been above its start. A
relative path leads out just if some beginning of it climbs more often than it descends, and a path
from the root never does.
-/
namespace LayerPick.Path

/-- The number of components in front of a path that climb. -/
def leadingClimbs (q : String) : ℕ := ((split q).takeWhile (· = parentName)).length

lemma leadingClimbs_normalize (p : String) : leadingClimbs (normalize p) = (spot p).above := by
  obtain ⟨ns, hsplit, hns⟩ := split_join_way (way_isPlain p)
  rw [leadingClimbs, normalize_eq_join_way, hsplit, List.takeWhile_append_of_pos (by simp),
    (climbs_before hns).1, List.append_nil, List.length_replicate]

/-- A path from the root never leads out, and a relative one just if it climbs at some point. -/
lemma escapes_normalize_iff {p : String} :
    escapes (normalize p) = true ↔ rooted p = false ∧ Climbs p := by
  rw [escapes_normalize]
  cases hp : rooted p with
  | true => simp [above_of_rooted hp]
  | false => simp [climbs_iff hp]

/-- The components that climb in front are as many as the most by which a beginning climbs. -/
lemma leadingClimbs_isGreatest {p : String} (hp : rooted p = false) :
    IsGreatest {k | ∃ cs, cs <+: split p ∧ rise cs = k} (leadingClimbs (normalize p) : ℤ) := by
  rw [leadingClimbs_normalize, spot, hp]
  exact Spot.above_isGreatest (split p)

/-- A normal form leads out of the tree just if the path is relative and some beginning of it has
more components that climb than names; otherwise nothing in the normal form climbs. The normal form
of a relative path begins with as many `..` as the most by which they outnumber the names in a
beginning of the path. -/
theorem normalize_climbs (p : String) :
    (escapes (normalize p) = true ↔ rooted p = false ∧ Climbs p) ∧
      (escapes (normalize p) = false → parentName ∉ split (normalize p)) ∧
      (rooted p = false →
        IsGreatest {k | ∃ cs, cs <+: split p ∧ rise cs = k} (leadingClimbs (normalize p) : ℤ)) := by
  refine ⟨escapes_normalize_iff, fun hstays => ?_, leadingClimbs_isGreatest⟩
  exact parentName_not_mem (above_of_stays hstays)

/-- A path that is two levels above its start before it descends, and one that comes back to its
start and climbs no further. -/
theorem normalize_climbs_twice :
    let p := "usr/../..//a/../.././etc"
    let q := "usr/..lib/../../etc"
    rooted p = false ∧ escapes (normalize p) = true ∧
      IsGreatest {k | ∃ cs, cs <+: split p ∧ rise cs = k} 2 ∧
      escapes (normalize q) = false ∧ parentName ∉ split (normalize q) := by
  intro p q
  have hp : rooted p = false := by decide
  have hclimbs : Climbs p := ⟨(split p).take 3, List.take_prefix .., by decide⟩
  have hkept : leadingClimbs (normalize p) = 2 := by decide
  have hstays : escapes (normalize q) = false := by decide
  obtain ⟨hescapes, -, hgreatest⟩ := normalize_climbs p
  have htwo := hgreatest hp
  rw [hkept] at htwo
  exact ⟨hp, hescapes.mpr ⟨hp, hclimbs⟩, htwo, hstays, (normalize_climbs q).2.1 hstays⟩

end LayerPick.Path
