import LayerPick.Proofs.ReducedPaths
import LayerPick.Proofs.HeaderFields
import LayerPick.Proofs.TextEncoding
import LayerPick.Proofs.WalkSteps

/-!
# Targets and entries

A target is declared with a separator in front and read without it, so that a path from the root is
read as a relative one. That makes a difference only if the relative path climbs above its start:
then the target leads out of the tree, and nothing is ever found under it. All other targets have
the normal form of an entry with the same path, and so have the usual ways to spell them.
-/
namespace LayerPick

namespace Path

/-- Some beginning of the path has more components that climb than components that descend. -/
def Climbs (p : String) : Prop :=
  ∃ cs, cs <+: split p ∧ cs.countP (IsOrdinary ·) < cs.count parentName

lemma climbs_iff {p : String} (hp : rooted p = false) : Climbs p ↔ 0 < (spot p).above := by
  have hmost := Spot.above_isGreatest (split p)
  rw [← hp, ← spot] at hmost
  constructor
  · rintro ⟨cs, hcs, hlt⟩
    have hle : rise cs ≤ (spot p).above := hmost.2 ⟨cs, hcs, rfl⟩
    unfold rise at hle
    omega
  · intro habove
    obtain ⟨cs, hcs, hrise⟩ := hmost.1
    refine ⟨cs, hcs, ?_⟩
    unfold rise at hrise
    omega

/-- The path starts with a single separator, and what is behind it climbs above its start. -/
def ClimbsFromRoot (p : String) : Prop := ∃ r, p = "/" ++ r ∧ rooted r = false ∧ Climbs r

lemma target_root (r : String) : target ("/" ++ r) = normalize r := by
  simp [target, String.toList_append]

lemma target_of_relative {p : String} (hp : rooted p = false) : target p = normalize p := by
  unfold target
  split
  · next r hr => simp [rooted, hr] at hp
  · rfl

lemma eq_root_append {p : String} (hp : rooted p = true) : ∃ r, p = "/" ++ r := by
  obtain ⟨r, hr⟩ : ∃ r, p.toList = '/' :: r := by simpa [rooted, List.head?_eq_some_iff] using hp
  refine ⟨.ofList r, String.toList_injective ?_⟩
  simp [hr, String.toList_append]

lemma normalize_root_rooted {r : String} (hr : rooted r = true) :
    normalize ("/" ++ r) = normalize r := by
  rw [normalize_eq_join_way, normalize_eq_join_way, spot, split_root, rooted_root, List.foldl_cons,
    spot, hr]
  rfl

/-- A relative path from the root has the same normal form just if it does not climb. -/
lemma normalize_root_relative {r : String} (hr : rooted r = false) :
    normalize ("/" ++ r) = normalize r ↔ ¬ Climbs r := by
  obtain ⟨habove, hnames⟩ := spot_root hr
  rw [normalize_eq_iff, climbs_iff hr, Nat.pos_iff_ne_zero, not_not]
  exact ⟨fun h => h ▸ habove, fun h => Spot.ext (habove.trans h.symm) hnames⟩

/-- Targets are normal forms of entries but for those that climb from the root. -/
lemma target_eq_normalize {p : String} : target p = normalize p ↔ ¬ ClimbsFromRoot p := by
  by_cases hp : rooted p = true
  · obtain ⟨r, rfl⟩ := eq_root_append hp
    have hsingle : ClimbsFromRoot ("/" ++ r) ↔ rooted r = false ∧ Climbs r := by
      refine ⟨fun ⟨r', hr', h⟩ => ?_, fun h => ⟨r, rfl, h⟩⟩
      obtain rfl : r = r' := by simpa using hr'
      exact h
    rw [target_root, eq_comm, hsingle]
    cases hr : rooted r with
    | true => simp [normalize_root_rooted hr]
    | false => simpa using normalize_root_relative hr
  · rw [Bool.not_eq_true] at hp
    refine iff_of_true (target_of_relative hp) ?_
    rintro ⟨r, rfl, -⟩
    exact absurd ((rooted_root r).symm.trans hp) (by decide)

lemma ClimbsFromRoot.escapes {p : String} (hp : ClimbsFromRoot p) :
    escapes (target p) = true := by
  obtain ⟨r, rfl, hr, hclimbs⟩ := hp
  rw [target_root, escapes_normalize]
  exact (climbs_iff hr).mp hclimbs

/-- The usual ways to spell a relative path. -/
def spellings (q : String) : List String := [q, "/" ++ q, "./" ++ q, "//" ++ q]

structure IsInside (q : String) : Prop where
  relative : rooted q = false
  stays : ¬ Climbs q
  nonempty : normalize q ≠ ""

lemma rooted_self (q : String) : rooted ("./" ++ q) = false := by
  simp [rooted, String.toList_append]

lemma normalize_self {q : String} (hq : rooted q = false) :
    normalize ("./" ++ q) = normalize q := by
  have hsplit : split ("./" ++ q) = selfName :: split q := by
    rw [split, String.toList_append]
    exact splitOn_append ['.'] q.toList
  rw [normalize_eq_iff, spot, hsplit, rooted_self, List.foldl_cons, spot, hq]
  rfl

lemma double_root (q : String) : "//" ++ q = "/" ++ ("/" ++ q) :=
  String.toList_injective (by simp [String.toList_append])

section Spelling

variable {q t : String} (hq : IsInside q) (ht : t ∈ spellings q)

include hq ht

/-- All spellings have one normal form, as entries and as targets. -/
lemma IsInside.normal_forms : normalize t = normalize q ∧ target t = normalize q := by
  have hroot : normalize ("/" ++ q) = normalize q :=
    (normalize_root_relative hq.relative).mpr hq.stays
  simp only [spellings, List.mem_cons, List.not_mem_nil, or_false] at ht
  rcases ht with rfl | rfl | rfl | rfl
  · exact ⟨rfl, target_of_relative hq.relative⟩
  · exact ⟨hroot, target_root q⟩
  · have hself := normalize_self hq.relative
    exact ⟨hself, (target_of_relative (rooted_self q)).trans hself⟩
  · rw [double_root, target_root, normalize_root_rooted (rooted_root q)]
    exact ⟨hroot, hroot⟩

omit ht in
lemma IsInside.escapes : escapes (normalize q) = false := by
  rw [← Bool.not_eq_true, escapes_normalize, ← climbs_iff hq.relative]
  exact hq.stays

end Spelling

end Path

open LayerPick.Path

/-- An entry is matched by a target if they have the same normal form and it is in the tree. -/
lemma match?_target {files : List FileSpec} {f : FileSpec} {r : Resolved} {e : Tar.Entry}
    (cancelled : ℕ → Bool) (hf : f ∈ files) (hkind : e.header.kind ≠ .folder) (hsize : e.size ≠ 0)
    (hplace : e.place = f.target) (hne : f.target ≠ "") (hstays : escapes f.target = false)
    (hfree : f.target ∉ r.paths) :
    (Order.ofFiles files cancelled).match? r e = some f.target := by
  have htarget : f.target ∈ (Order.ofFiles files cancelled).targets :=
    List.mem_eraseDups.mpr (List.mem_map_of_mem hf)
  rw [match?_some, Tar.Entry.isWanted_iff, hplace]
  exact ⟨⟨hkind, hsize, hne, hstays, htarget⟩, hfree, rfl⟩

lemma match?_ne_of_escapes {p : String} (hp : escapes p = true) (o : Order) (r : Resolved)
    (e : Tar.Entry) : o.match? r e ≠ some p := by
  intro h
  obtain ⟨hwanted, -, rfl⟩ := match?_some.mp h
  obtain ⟨-, -, -, hstays, -⟩ := Tar.Entry.isWanted_iff.mp hwanted
  exact Bool.false_ne_true (hstays.symm.trans hp)

/-- A target has the normal form of an entry with the same path, unless it starts with a single
separator and climbs above its start behind it; such a target leads out of the tree, and no entry
matches it. Where a path leads to something in the tree, all its spellings as a target match an
entry in any of its spellings, if that is no folder, holds something, and has not been claimed. -/
theorem target_meets_entry (p q : String) :
    (target p = normalize p ↔ ¬ ClimbsFromRoot p) ∧
      (ClimbsFromRoot p → escapes (target p) = true ∧
        ∀ (o : Order) (r : Resolved) (e : Tar.Entry), o.match? r e ≠ some (target p)) ∧
      (IsInside q → ∀ t ∈ spellings q, ∀ s ∈ spellings q, ∀ (files : List FileSpec) (label : String)
        (cancelled : ℕ → Bool) (r : Resolved) (e : Tar.Entry), ⟨t, label⟩ ∈ files →
          Utf8.decodeLossy e.path = s → e.header.kind ≠ .folder → e.size ≠ 0 → target t ∉ r.paths →
            (Order.ofFiles files cancelled).match? r e = some (target t)) := by
  refine ⟨target_eq_normalize, fun hp => ⟨hp.escapes, match?_ne_of_escapes hp.escapes⟩, ?_⟩
  intro hq t ht s hs files label cancelled r e hf hpath hkind hsize hfree
  have htarget : FileSpec.target ⟨t, label⟩ = normalize q := (hq.normal_forms ht).2
  have hplace : e.place = normalize q := by
    rw [Tar.Entry.place, hpath]
    exact (hq.normal_forms hs).1
  refine match?_target cancelled hf hkind hsize (hplace.trans htarget.symm) ?_ ?_ hfree
  · rw [htarget]
    exact hq.nonempty
  · rw [htarget]
    exact hq.escapes

/-- A target that climbs from the root, and an entry that is matched under another spelling. -/
theorem target_meets_entry_foo :
    let p := "/usr/../../etc/passwd"
    let q := "usr/lib/../bin/foo"
    let e : Tar.Entry := ⟨Tar.bareHeader ("./" ++ q) 5, 5, 512, none, none, none⟩
    ClimbsFromRoot p ∧ escapes (target p) = true ∧ IsInside q ∧ target ("//" ++ q) = "usr/bin/foo" ∧
      (Order.ofFiles [⟨"//" ++ q, "."⟩] fun _ => false).match? .empty e = some "usr/bin/foo" := by
  intro p q e
  have hclimbs : ClimbsFromRoot p := by
    refine ⟨"usr/../../etc/passwd", by decide, by decide, (split "usr/../../etc/passwd").take 3,
      List.take_prefix .., by decide⟩
  have hinside : IsInside q :=
    ⟨by decide, (climbs_iff (by decide)).not.mpr (by decide), by decide⟩
  have htarget : target ("//" ++ q) = "usr/bin/foo" := by decide
  obtain ⟨-, hexceptional, hmatches⟩ := target_meets_entry p q
  refine ⟨hclimbs, (hexceptional hclimbs).1, hinside, htarget, ?_⟩
  rw [← htarget]
  exact hmatches hinside _ (by simp [spellings]) ("./" ++ q) (by simp [spellings]) _ _ _ _ e
    (List.mem_singleton_self _) (by decide +kernel) (by decide +kernel) (by decide)
    (by simp [Resolved.empty])

end LayerPick
