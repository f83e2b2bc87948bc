import LayerPick.Proofs.TextEncoding
import LayerPick.Tar.Number
import Mathlib.Data.List.TakeWhile

/-!
# Numbers as digits and back

`Nat.toDigits` writes the digits of a number, and `Numeral.read?` reads them back, with zeros in
front or without. Header fields hold such digits in base 8 with a NUL behind them; a number that
needs more room is written in binary. Either way it is read back from the field.
-/
namespace LayerPick

namespace Numeral

/-- A digit of a base of at most ten. -/
def IsDigit (base : ℕ) (c : Char) : Prop := '0' ≤ c ∧ c.toNat < '0'.toNat + base

lemma IsDigit.digit? {base : ℕ} {c : Char} (h : IsDigit base c) :
    digit? base c = some (c.toNat - '0'.toNat) := if_pos h

lemma IsDigit.toNat {base : ℕ} {c : Char} (h : IsDigit base c) :
    48 ≤ c.toNat ∧ c.toNat < 48 + base := ⟨h.1, h.2⟩

lemma isDigit_zero {base : ℕ} (hb : 0 < base) : IsDigit base '0' := by
  unfold IsDigit
  exact ⟨by decide, by omega⟩

lemma isDigit_digitChar : ∀ n < 10, ∀ base ≤ 10, n < base → IsDigit base n.digitChar := by
  unfold IsDigit
  decide

lemma isDigit_toDigits {base : ℕ} (hb : 1 < base) (hb' : base ≤ 10) (n : ℕ) :
    ∀ c ∈ Nat.toDigits base n, IsDigit base c := by
  induction n using Nat.strongRecOn with
  | ind n ih =>
    intro c hc
    by_cases hn : n < base
    · rw [Nat.toDigits_of_lt_base hn, List.mem_singleton] at hc
      rw [hc]
      exact isDigit_digitChar n (by omega) base hb' hn
    · have hm : n % base < base := Nat.mod_lt n (by omega)
      rw [Nat.toDigits_of_base_le hb (Nat.not_lt.mp hn), List.mem_append,
        List.mem_singleton] at hc
      rcases hc with hc | hc
      · exact ih (n / base) (Nat.div_lt_self (by omega) hb) c hc
      · rw [hc]
        exact isDigit_digitChar _ (by omega) base hb' hm

lemma isDigit_padded {base : ℕ} (hb : 1 < base) (hb' : base ≤ 10) (k n : ℕ) :
    ∀ c ∈ List.replicate k '0' ++ Nat.toDigits base n, IsDigit base c := by
  intro c hc
  rcases List.mem_append.mp hc with hc | hc
  · rw [List.eq_of_mem_replicate hc]
    exact isDigit_zero (by omega)
  · exact isDigit_toDigits hb hb' n c hc

/-- Digits are read as the number that they write, if it has no more than 64 bits. -/
lemma digits?_eq {base : ℕ} {cs : List Char} (h : ∀ c ∈ cs, IsDigit base c) (n : ℕ) :
    digits? base n cs =
      if Nat.ofDigitChars base cs n < bound then some (Nat.ofDigitChars base cs n) else none := by
  induction cs generalizing n with
  | nil => simp [digits?]
  | cons c cs ih =>
    have hc := (h c (List.mem_cons_self ..)).digit?
    have hcs := ih fun d hd => h d (List.mem_cons_of_mem _ hd)
    simp only [digits?, hc, Option.bind_eq_bind, Option.bind_some, hcs, Nat.ofDigitChars_cons,
      Nat.mul_comm n base]

lemma ofDigitChars_padded {base : ℕ} (hb : 1 < base) (hb' : base ≤ 10) (k n : ℕ) :
    Nat.ofDigitChars base (List.replicate k '0' ++ Nat.toDigits base n) 0 = n := by
  rw [Nat.ofDigitChars_append, Nat.ofDigitChars_replicate_zero, Nat.mul_zero,
    Nat.ofDigitChars_toDigits hb hb']

/-- A number is read back from its digits. -/
theorem read?_padded {base : ℕ} (hb : 1 < base) (hb' : base ≤ 10) (k : ℕ) {n : ℕ}
    (hn : n < bound) : read? base (List.replicate k '0' ++ Nat.toDigits base n) = some n := by
  have hd := isDigit_padded hb hb' k n
  have hv := ofDigitChars_padded hb hb' k n
  cases hcs : List.replicate k '0' ++ Nat.toDigits base n with
  | nil => simp at hcs
  | cons c cs =>
    rw [hcs] at hd hv
    have hplus : c ≠ '+' := by
      rintro rfl
      exact absurd (hd '+' (List.mem_cons_self ..)).1 (by decide)
    have hu : unsigned (c :: cs) = c :: cs := by
      unfold unsigned
      split
      · next h => exact absurd (List.cons.inj h).1 hplus
      · rfl
    simp only [read?, hu, digits?_eq hd, hv, if_pos hn]

end Numeral

lemma Blank.isBlank_digit : ∀ n < 128, 48 ≤ n → Blank.isBlank (Char.ofNat n) = false := by
  decide

lemma Blank.trim_digits {base : ℕ} (hb : base ≤ 10) {cs : List Char}
    (h : ∀ c ∈ cs, Numeral.IsDigit base c) : Blank.trim cs = cs := by
  have hblank : ∀ ds : List Char, (∀ c ∈ ds, c ∈ cs) → ds.dropWhile Blank.isBlank = ds := by
    intro ds hds
    cases ds with
    | nil => rfl
    | cons d ds =>
      have hd := (h d (hds d (List.mem_cons_self ..))).toNat
      have hf := Blank.isBlank_digit d.toNat (by omega) hd.1
      rw [Char.ofNat_toNat] at hf
      simp [List.dropWhile, hf]
  unfold Blank.trim
  rw [hblank cs fun c hc => hc, hblank cs.reverse fun c hc => List.mem_reverse.mp hc,
    List.reverse_reverse]

namespace Tar

def digitBytes (cs : List Char) : Bytes := cs.map fun c => UInt8.ofNat c.toNat

lemma digitBytes_eq_encode {base : ℕ} (hb : base ≤ 10) {cs : List Char}
    (h : ∀ c ∈ cs, Numeral.IsDigit base c) : digitBytes cs = Utf8.encode (String.ofList cs) := by
  rw [Utf8.encode_ascii]
  · rfl
  · intro c hc
    have hd := (h c hc).toNat
    omega

/-- The bytes of digits are digits, so none of them ends a text or a numeral. -/
lemma mem_digitBytes {base : ℕ} (hb : base ≤ 10) {cs : List Char}
    (h : ∀ c ∈ cs, Numeral.IsDigit base c) {b : UInt8} (hm : b ∈ digitBytes cs) :
    48 ≤ b.toNat ∧ b.toNat < 58 := by
  obtain ⟨c, hc, rfl⟩ := List.mem_map.mp hm
  have hd := (h c hc).toNat
  simp only [UInt8.toNat_ofNat']
  omega

lemma upToNul_append_zero {b : Bytes} (h : (0 : UInt8) ∉ b) (r : Bytes) :
    upToNul (b ++ 0 :: r) = b := by
  unfold upToNul
  rw [List.takeWhile_append_of_pos]
  · simp
  · intro x hx
    simp only [decide_eq_true_eq]
    rintro rfl
    exact h hx

lemma upToNul_of_not_mem {b : Bytes} (h : (0 : UInt8) ∉ b) : upToNul b = b := by
  unfold upToNul
  rw [List.takeWhile_eq_self_iff]
  intro x hx
  simp only [decide_eq_true_eq]
  rintro rfl
  exact h hx

lemma octalField_eq {width n : ℕ} (hn : (Nat.toDigits 8 n).length < width) :
    ∃ k, octalField width n = digitBytes (List.replicate k '0' ++ Nat.toDigits 8 n) ++ [0] ∧
      k + (Nat.toDigits 8 n).length = width - 1 := by
  have hl : (Nat.toDigits 8 n).length ≤ width - 1 := Nat.le_sub_one_of_lt hn
  refine ⟨width - 1 - (Nat.toDigits 8 n).length, ?_, by omega⟩
  simp [octalField, digitBytes, Nat.sub_eq_zero_of_le hl]

lemma length_octalField {width n : ℕ} (hn : (Nat.toDigits 8 n).length < width) :
    (octalField width n).length = width := by
  obtain ⟨k, hk, hl⟩ := octalField_eq hn
  simp [hk, digitBytes]
  omega

/-- A number is read back from the octal digits in its field. -/
theorem readOctal_octalField {width n : ℕ} (hn : (Nat.toDigits 8 n).length < width)
    (hb : n < Numeral.bound) : readOctal (octalField width n) = .ok n := by
  obtain ⟨k, hk, -⟩ := octalField_eq hn
  have hd := Numeral.isDigit_padded (by decide) (show 8 ≤ 10 by decide) k n
  have hz : (0 : UInt8) ∉ digitBytes (List.replicate k '0' ++ Nat.toDigits 8 n) := by
    intro hm
    have := (mem_digitBytes (by decide) hd hm).1
    simp at this
  have hu : upToNul (octalField width n) =
      Utf8.encode (String.ofList (List.replicate k '0' ++ Nat.toDigits 8 n)) := by
    rw [hk, upToNul_append_zero hz, digitBytes_eq_encode (by decide) hd]
  have hr : Numeral.read? 8 (Blank.trim (List.replicate k '0' ++ Nat.toDigits 8 n)) = some n := by
    rw [Blank.trim_digits (by decide) hd]
    exact Numeral.read?_padded (by decide) (by decide) k hb
  simp only [readOctal, hu, Utf8.decode?_encode, String.toList_ofList, hr]

lemma readNumber_octalField {width n : ℕ} (hn : (Nat.toDigits 8 n).length < width)
    (hb : n < Numeral.bound) : readNumber (octalField width n) = .ok n := by
  rw [← readOctal_octalField hn hb]
  obtain ⟨k, hk, -⟩ := octalField_eq hn
  have hd := Numeral.isDigit_padded (by decide) (show 8 ≤ 10 by decide) k n
  cases hf : digitBytes (List.replicate k '0' ++ Nat.toDigits 8 n) with
  | nil => simp [digitBytes] at hf
  | cons b r =>
    have hm := mem_digitBytes (by decide) hd (hf ▸ List.mem_cons_self ..)
    have hlt : b < 0x80 := by
      rw [UInt8.lt_iff_toNat_lt]
      exact Nat.lt_trans hm.2 (by decide)
    rw [hk, hf]
    simp [readNumber, hlt]

lemma binaryField_twelve (n : ℕ) :
    binaryField 12 n =
      0x80 :: 0 :: 0 :: 0 :: (List.range 8).map fun i => UInt8.ofNat (n >>> (8 * (7 - i))) :=
  rfl

lemma bigEndian_bytes {n : ℕ} (hn : n < Numeral.bound) :
    bigEndian ((List.range 8).map fun i => UInt8.ofNat (n >>> (8 * (7 - i)))) = n := by
  unfold Numeral.bound UInt64.size at hn
  simp [bigEndian, List.range, List.range.loop, Nat.shiftRight_eq_div_pow]
  omega

/-- A number of 64 bits is read back from a field of twelve bytes. -/
theorem readNumber_numberField {n : ℕ} (hn : n < Numeral.bound) :
    readNumber (numberField 12 n) = .ok n := by
  unfold numberField
  by_cases h : (Nat.toDigits 8 n).length < 12
  · rw [if_pos h]
    exact readNumber_octalField h hn
  · rw [if_neg h, binaryField_twelve]
    simp only [readNumber]
    rw [if_neg (by decide), if_neg (by simp)]
    simp only [List.length_cons, List.length_map, List.length_range, Nat.reduceAdd, Nat.reduceSub,
      List.drop_succ_cons, List.drop_zero]
    rw [bigEndian_bytes hn]

lemma length_numberField (n : ℕ) : (numberField 12 n).length = 12 := by
  unfold numberField
  by_cases h : (Nat.toDigits 8 n).length < 12
  · rw [if_pos h]
    exact length_octalField h
  · rw [if_neg h, binaryField_twelve]
    simp

end Tar

end LayerPick
