import LayerPick.Proofs.NormalNames
import LayerPick.Proofs.StatedPlatforms
import Mathlib.Data.String.Basic

/-!
# Platforms as texts

A platform is written as a row of two or three components with separators between them. None of them
is empty, and none holds a separator itself. Just such texts are read, and writing and reading
platforms undo each other.
-/
namespace LayerPick.Platform

structure IsComponent (c : String) : Prop where
  nonempty : c ≠ ""
  separator : '/' ∉ c.toList

def components (p : Platform) : List String := p.os :: p.architecture :: p.variant.toList

/-- The platform can be told from its text. -/
def IsNamed (p : Platform) : Prop := ∀ c ∈ p.components, IsComponent c

lemma text_eq (p : Platform) : p.text = "/".intercalate p.components := by
  rcases p with ⟨os, arch, _ | v⟩ <;> simp [text, components, String.append_assoc]

lemma splitOn_intercalate {cs : List String} (hcs : ∀ c ∈ cs, '/' ∉ c.toList) (hne : cs ≠ []) :
    ("/".intercalate cs).toList.splitOn '/' = cs.map String.toList := by
  rw [String.toList_intercalate]
  refine List.splitOn_intercalate '/' ?_ (by simpa using hne)
  simpa using hcs

lemma eq_intercalate {s : String} {cs : List String}
    (h : s.toList.splitOn '/' = cs.map String.toList) : s = "/".intercalate cs := by
  apply String.toList_injective
  rw [String.toList_intercalate, ← h]
  exact (List.intercalate_splitOn '/').symm

/-- A platform is read off the parts of a text, if none of these is empty. -/
lemma parse_eq_ok {s : String} {p : Platform} :
    parse s = .ok p ↔
      (∀ c ∈ s.toList.splitOn '/', c ≠ []) ∧
        s.toList.splitOn '/' = p.components.map String.toList := by
  have hany : (s.toList.splitOn '/').any List.isEmpty = true ↔
      ¬∀ c ∈ s.toList.splitOn '/', c ≠ [] := by
    simp
  unfold parse
  generalize s.toList.splitOn '/' = parts at hany ⊢
  by_cases hempty : parts.any List.isEmpty = true
  · simp [hempty, hany.mp hempty]
  · have hparts := not_not.mp (hany.not.mp hempty)
    rcases p with ⟨os, arch, _ | v⟩ <;>
      rcases parts with _ | ⟨a, _ | ⟨b, _ | ⟨c, _ | ⟨d, more⟩⟩⟩⟩ <;>
      simp [hempty, hparts, components, String.ofList_eq]

lemma parse_iff {s : String} {p : Platform} : parse s = .ok p ↔ p.IsNamed ∧ p.text = s := by
  rw [parse_eq_ok, text_eq]
  constructor
  · rintro ⟨hne, hparts⟩
    refine ⟨fun c hc => ?_, (eq_intercalate hparts).symm⟩
    have hmem : c.toList ∈ s.toList.splitOn '/' := hparts ▸ List.mem_map_of_mem hc
    exact ⟨fun h => hne _ hmem (by rw [h]; rfl), Path.not_mem_splitOn _ _ hmem⟩
  · rintro ⟨hnamed, rfl⟩
    have hparts := splitOn_intercalate (fun c hc => (hnamed c hc).separator)
      (List.cons_ne_nil p.os _)
    refine ⟨fun c hc => ?_, hparts⟩
    obtain ⟨n, hn, rfl⟩ := List.mem_map.mp (hparts ▸ hc)
    exact fun h => (hnamed n hn).nonempty (String.toList_injective h)

lemma exists_parse {s : String} :
    (∃ p, parse s = .ok p) ↔ ∃ cs : List String, (cs.length = 2 ∨ cs.length = 3) ∧
      (∀ c ∈ cs, IsComponent c) ∧ s = "/".intercalate cs := by
  constructor
  · rintro ⟨p, hp⟩
    obtain ⟨hnamed, rfl⟩ := parse_iff.mp hp
    refine ⟨p.components, ?_, hnamed, p.text_eq⟩
    rcases p with ⟨os, arch, _ | v⟩
    · exact .inl rfl
    · exact .inr rfl
  · rintro ⟨cs, hlength, hcs, rfl⟩
    obtain ⟨p, rfl⟩ : ∃ p : Platform, p.components = cs := by
      rcases hlength with h | h
      · obtain ⟨os, arch, rfl⟩ := List.length_eq_two.mp h
        exact ⟨⟨os, arch, none⟩, rfl⟩
      · obtain ⟨os, arch, v, rfl⟩ := List.length_eq_three.mp h
        exact ⟨⟨os, arch, some v⟩, rfl⟩
    exact ⟨p, parse_iff.mpr ⟨hcs, p.text_eq⟩⟩

lemma matchesParts_variant {p : Platform} {os architecture : String} {variant : Option String} :
    p.matchesParts os architecture variant = true ↔
      ({ p with variant := none } : Platform).matchesParts os architecture variant = true ∧
        ∀ v, p.variant = some v → variant = some v := by
  rw [matchesParts_iff, matchesParts_iff]
  constructor
  · rintro ⟨hos, harch, hvariant⟩
    exact ⟨⟨hos, harch, by simp⟩, hvariant⟩
  · rintro ⟨⟨hos, harch, -⟩, hvariant⟩
    exact ⟨hos, harch, hvariant⟩

/-- A text is read as a platform just if it is a row of two or three components. The platform that
is read has that text, and one whose components can be told apart is read from its text. Asking for
a variant narrows down what matches: whatever matches with it matches without it. -/
theorem parse_text :
    (∀ s, (∃ p, parse s = .ok p) ↔ ∃ cs : List String, (cs.length = 2 ∨ cs.length = 3) ∧
      (∀ c ∈ cs, IsComponent c) ∧ s = "/".intercalate cs) ∧
    (∀ s p, parse s = .ok p → p.text = s) ∧
    (∀ p : Platform, p.IsNamed → parse p.text = .ok p) ∧
    ∀ p : Platform,
      (∀ o : Oci.Offer, p.matchesOffer o = true ↔
        ({ p with variant := none } : Platform).matchesOffer o = true ∧
          ∀ v, p.variant = some v → o.variant = some v) ∧
      ∀ c : Oci.Config, p.matchesConfig c = true ↔
        ({ p with variant := none } : Platform).matchesConfig c = true ∧
          ∀ v, p.variant = some v → c.variant = some v := by
  refine ⟨fun _ => exists_parse, fun s p h => (parse_iff.mp h).2,
    fun p h => parse_iff.mpr ⟨h, rfl⟩, fun p => ⟨fun o => ?_, fun c => ?_⟩⟩
  · exact matchesParts_variant
  · exact matchesParts_variant

/-- A platform with a variant is read from its text, and written as it was read. What is offered for
it is offered for the platform without the variant. -/
theorem parse_text_arm :
    let p : Platform := ⟨"linux", "arm", some "v7"⟩
    let o : Oci.Offer := ⟨"arm", "linux", none, none, some "v7", none⟩
    p.IsNamed ∧ parse "linux/arm/v7" = .ok p ∧ p.text = "linux/arm/v7" ∧
      p.matchesOffer o = true ∧ (⟨"linux", "arm", none⟩ : Platform).matchesOffer o = true := by
  intro p o
  have hnamed : p.IsNamed := by
    intro c hc
    rcases (by simpa [p, components] using hc : c = "linux" ∨ c = "arm" ∨ c = "v7") with
      rfl | rfl | rfl
    all_goals exact ⟨by decide, by decide⟩
  have hmatches : p.matchesOffer o = true := by decide
  obtain ⟨-, hwritten, hread, hvariant⟩ := parse_text
  have hparse : parse "linux/arm/v7" = .ok p := hread p hnamed
  exact ⟨hnamed, hparse, hwritten _ p hparse, hmatches, (((hvariant p).1 o).mp hmatches).1⟩

end LayerPick.Platform
