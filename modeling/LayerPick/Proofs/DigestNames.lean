import LayerPick.Oci.Digest
import LayerPick.Proofs.PathSpots

/-!
# The names of blobs

The blob of a digest is named `blobs/algorithm/value`. The algorithm is a row of words and the value
holds neither a separator nor a dot, so the three parts are plain names, none of which climbs: the
name is normal as it stands and stays in the image.
-/
namespace LayerPick.Oci

/-- A row of words with single separators between them. -/
inductive IsWords : List Char → Prop
  | word {w : List Char} : w ≠ [] → (∀ c ∈ w, isWordChar c = true) → IsWords w
  | more {w rest : List Char} {c : Char} : w ≠ [] → (∀ d ∈ w, isWordChar d = true) →
    isWordSeparator c = true → IsWords rest → IsWords (w ++ c :: rest)

lemma isWords_of_isAlgorithmFrom {cs w : List Char} (hw : ∀ c ∈ w, isWordChar c = true)
    (h : isAlgorithmFrom (!w.isEmpty) cs = true) : IsWords (w ++ cs) := by
  induction cs generalizing w with
  | nil =>
    rw [List.append_nil]
    exact .word (by simpa [isAlgorithmFrom] using h) hw
  | cons c cs ih =>
    rw [isAlgorithmFrom] at h
    by_cases hc : isWordChar c = true
    · rw [if_pos hc] at h
      have hopen : (!(w ++ [c]).isEmpty) = true := by simp
      have := ih (w := w ++ [c]) (by simpa [or_imp, forall_and] using ⟨hw, hc⟩) (hopen ▸ h)
      simpa using this
    · rw [if_neg hc, Bool.and_eq_true, Bool.and_eq_true] at h
      obtain ⟨⟨hne, hsep⟩, hrest⟩ := h
      exact .more (by simpa using hne) hw hsep (ih (w := []) (by simp) hrest)

namespace Digest

variable (d : Digest)

lemma isWords_algorithm : IsWords d.algorithm :=
  isWords_of_isAlgorithmFrom (w := []) (by simp) d.algorithm_valid

lemma isEncodedChar_ne {c : Char} (h : isEncodedChar c = true) : c ≠ '/' ∧ c ≠ '.' := by
  constructor <;> rintro rfl <;> exact absurd h (by decide)

lemma isHexChar_ne {c : Char} (h : isHexChar c = true) : c ≠ '/' ∧ c ≠ '.' := by
  constructor <;> rintro rfl <;> exact absurd h (by decide)

/-- The value of a digest is not empty and holds neither a separator nor a dot. -/
lemma value_plain : d.value ≠ [] ∧ '/' ∉ d.value ∧ '.' ∉ d.value := by
  have h := d.value_valid
  rw [isEncoded] at h
  have hall : d.value ≠ [] ∧ ∀ c ∈ d.value, c ≠ '/' ∧ c ≠ '.' := by
    split at h
    · next n hn =>
      rw [Bool.and_eq_true, beq_iff_eq, List.all_eq_true] at h
      refine ⟨?_, fun c hc => isHexChar_ne (h.2 c hc)⟩
      intro hnil
      rw [hnil, List.length_nil] at h
      rw [← h.1] at hn
      simp only [registeredLength?] at hn
      split_ifs at hn <;> simp at hn
    · rw [Bool.and_eq_true, List.all_eq_true] at h
      exact ⟨by simpa using h.1, fun c hc => isEncodedChar_ne (h.2 c hc)⟩
  exact ⟨hall.1, fun hc => (hall.2 _ hc).1 rfl, fun hc => (hall.2 _ hc).2 rfl⟩

end Digest

lemma IsWords.plain {cs : List Char} (h : IsWords cs) :
    (∃ c rest, cs = c :: rest ∧ isWordChar c = true) ∧ '/' ∉ cs := by
  have hstart {w : List Char} (hne : w ≠ []) (hw : ∀ c ∈ w, isWordChar c = true) :
      (∃ c rest, w = c :: rest ∧ isWordChar c = true) ∧ '/' ∉ w := by
    obtain ⟨c, rest, rfl⟩ := List.exists_cons_of_ne_nil hne
    exact ⟨⟨c, rest, rfl, hw c (List.mem_cons_self ..)⟩,
      fun hmem => absurd (hw _ hmem) (by decide)⟩
  induction h with
  | word hne hw => exact hstart hne hw
  | @more w rest c hne hw hc _ ih =>
    obtain ⟨⟨d, ds, rfl, hd⟩, hslash⟩ := hstart hne hw
    refine ⟨⟨d, ds ++ c :: rest, rfl, hd⟩, ?_⟩
    have hsep : c ≠ '/' := by
      rintro rfl
      exact absurd hc (by decide)
    intro hmem
    rcases List.mem_append.mp hmem with h | h
    · exact hslash h
    · rcases List.mem_cons.mp h with h | h
      · exact hsep h.symm
      · exact ih.2 h

namespace Digest

open LayerPick.Path

variable (d : Digest)

def blobParts : List Name := ["blobs".toList, d.algorithm, d.value]

lemma blobName_eq : d.blobName = join d.blobParts := by
  apply String.toList_injective
  simp [blobName, join, blobParts, List.intercalate, List.intersperse]

lemma blobParts_plain : (∀ n ∈ d.blobParts, IsPlain n) ∧ parentName ∉ d.blobParts := by
  obtain ⟨⟨c, rest, hc, hword⟩, hslash⟩ := d.isWords_algorithm.plain
  obtain ⟨hne, hsep, hdot⟩ := d.value_plain
  have hstart : c ≠ '.' := by
    rintro rfl
    exact absurd hword (by decide)
  have hvalue : ∀ n : Name, '.' ∈ n → d.value ≠ n := fun n hn he => hdot (he ▸ hn)
  constructor
  · intro n hn
    simp only [blobParts, List.mem_cons, List.not_mem_nil, or_false] at hn
    rcases hn with rfl | rfl | rfl
    · exact ⟨by decide, by decide, by decide⟩
    · refine ⟨by simp [hc], ?_, hslash⟩
      rw [hc]
      exact fun he => hstart (List.cons.inj he).1
    · exact ⟨hne, hvalue _ (by decide), hsep⟩
  · simp only [blobParts, List.mem_cons, List.not_mem_nil, or_false, not_or]
    refine ⟨by decide, ?_, (hvalue _ (by decide)).symm⟩
    rw [hc]
    exact fun he => hstart (List.cons.inj he).1.symm

/-- The name of a blob is normal. -/
theorem normalize_blobName : normalize d.blobName = d.blobName := by
  rw [blobName_eq]
  exact normalize_join d.blobParts_plain.1 d.blobParts_plain.2

/-- The name of a blob stays in the image. -/
theorem escapes_blobName : escapes d.blobName = false := by
  rw [blobName_eq]
  exact escapes_join d.blobParts_plain.1 d.blobParts_plain.2

end Digest

end LayerPick.Oci
