import LayerPick.Proofs.MemberReading
import LayerPick.Proofs.NumberFields

/-!
# PAX records as lines and back

The length in front of a line counts the line with its own digits, and the digits do not grow
beyond what was counted for them. So the lines that `Pax.encode` writes are read back as the records
they were made of, as long as no newline and no `=` stands where it would end something.

The records that follow an entry out of an archive are of this kind, and reading them again gives
them back.
-/
namespace LayerPick.Tar

namespace Pax

/-- The number of digits is the least one that suffices for the length with these digits. -/
lemma lineLength_eq (rest : ℕ) {tries digits : ℕ} (hpos : 0 < digits)
    (hmost : (Nat.toDigits 10 (rest + (digits + tries))).length ≤ digits + tries)
    (hleast : digits = 1 ∨ digits - 1 < (Nat.toDigits 10 (rest + (digits - 1))).length) :
    ∃ k, lineLength rest tries digits = rest + k ∧ 0 < k ∧
      (Nat.toDigits 10 (rest + k)).length ≤ k ∧
      (k = 1 ∨ k - 1 < (Nat.toDigits 10 (rest + (k - 1))).length) := by
  induction tries generalizing digits with
  | zero => exact ⟨digits, rfl, hpos, hmost, hleast⟩
  | succ tries ih =>
    by_cases h : (Nat.toDigits 10 (rest + digits)).length ≤ digits
    · exact ⟨digits, by simp [lineLength, h], hpos, h, hleast⟩
    · obtain ⟨k, hk, hrest⟩ := ih (Nat.succ_pos digits)
        (by rwa [Nat.succ_add, Nat.add_succ] at *) (.inr (by simpa using h))
      exact ⟨k, by simpa [lineLength, h] using hk, hrest⟩

lemma length_toDigits_le (n : ℕ) : (Nat.toDigits 10 (n + (1 + n))).length ≤ 1 + n := by
  rw [Nat.length_toDigits_le_iff (by decide) (by omega)]
  induction n with
  | zero => decide
  | succ n ih =>
    rw [← Nat.add_assoc 1 n 1, Nat.pow_succ]
    omega

lemma lineLength_digits (rest : ℕ) :
    lineLength rest rest 1 = rest + (Nat.toDigits 10 (lineLength rest rest 1)).length := by
  obtain ⟨k, hk, hpos, hle, hleast⟩ :=
    lineLength_eq rest (Nat.succ_pos 0) (length_toDigits_le rest) (.inl rfl)
  have hge : k ≤ (Nat.toDigits 10 (rest + k)).length := by
    rcases hleast with rfl | hleast
    · exact Nat.length_toDigits_pos
    · by_contra hc
      have hk₁ : 0 < k - 1 := by
        have := @Nat.length_toDigits_pos 10 (rest + k)
        omega
      -- Fewer digits would have sufficed for the smaller number as well.
      have hlt := (Nat.length_toDigits_le_iff (by decide) hk₁).mp
        (show (Nat.toDigits 10 (rest + k)).length ≤ k - 1 by omega)
      have hle' := (Nat.length_toDigits_le_iff (by decide) hk₁).mpr
        (Nat.lt_of_le_of_lt (show rest + (k - 1) ≤ rest + k by omega) hlt)
      omega
  rw [hk]
  omega

structure Record.IsLine (r : Record) : Prop where
  key_equals : (61 : UInt8) ∉ r.key
  key_newline : (10 : UInt8) ∉ r.key
  value_newline : (10 : UInt8) ∉ r.value

/-- The length that stands in front of a line. -/
def Record.count (r : Record) : ℕ :=
  lineLength (3 + r.key.length + r.value.length) (3 + r.key.length + r.value.length) 1

/-- A line without its newline. -/
def Record.body (r : Record) : Bytes :=
  digitBytes (Nat.toDigits 10 r.count) ++ 32 :: (r.key ++ 61 :: r.value)

lemma Record.line_eq (r : Record) : r.line = r.body ++ [10] := by
  simp [line, body, digitBytes, count]

lemma Record.length_body (r : Record) : r.body.length + 1 = r.count := by
  have hc : r.count = 3 + r.key.length + r.value.length + (Nat.toDigits 10 r.count).length :=
    lineLength_digits _
  simp only [body, digitBytes, List.length_append, List.length_map, List.length_cons]
  omega

lemma not_mem_digits (z n : ℕ) {b : UInt8} (hb : b.toNat < 48) :
    b ∉ digitBytes (List.replicate z '0' ++ Nat.toDigits 10 n) := by
  intro hm
  have := (mem_digitBytes (Nat.le_refl 10)
    (Numeral.isDigit_padded (by decide) (Nat.le_refl 10) z n) hm).1
  omega

lemma Record.IsLine.newline {r : Record} (h : r.IsLine) : (10 : UInt8) ∉ r.body := by
  intro hm
  simp only [body, List.mem_append, List.mem_cons] at hm
  rcases hm with hm | hm | hm | hm | hm
  · exact not_mem_digits 0 r.count (by decide) hm
  · exact absurd hm (by decide)
  · exact h.key_newline hm
  · exact absurd hm (by decide)
  · exact h.value_newline hm

lemma map_digitBytes {cs : List Char} (h : ∀ c ∈ cs, Numeral.IsDigit 10 c) :
    (digitBytes cs).map (fun b => Char.ofNat b.toNat) = cs := by
  rw [digitBytes, List.map_map]
  conv_rhs => rw [← List.map_id cs]
  refine List.map_congr_left fun c hc => ?_
  have hd := (h c hc).toNat
  have hb : (UInt8.ofNat c.toNat).toNat = c.toNat := by
    simp only [UInt8.toNat_ofNat']
    omega
  simp [hb]

lemma takeWhile_dropWhile {x : UInt8} {a : Bytes} (h : x ∉ a) (b : Bytes) :
    (a ++ x :: b).takeWhile (· ≠ x) = a ∧ (a ++ x :: b).dropWhile (· ≠ x) = x :: b := by
  have ha : ∀ y ∈ a, (decide (y ≠ x)) = true := by
    intro y hy
    simp only [decide_eq_true_eq]
    rintro rfl
    exact h hy
  rw [List.takeWhile_append_of_pos ha, List.dropWhile_append_of_pos ha]
  simp

/-- The length that a line says is read off it, with zeros in front or without. -/
lemma read?_count (z : ℕ) {n : ℕ} (hn : n < Numeral.bound) (rest : Bytes) :
    let line := digitBytes (List.replicate z '0' ++ Nat.toDigits 10 n) ++ 32 :: rest
    Numeral.read? 10 ((line.takeWhile (· ≠ 32)).map fun b => Char.ofNat b.toNat) = some n ∧
      line.dropWhile (· ≠ 32) = 32 :: rest := by
  intro line
  obtain ⟨htake, hdrop⟩ := takeWhile_dropWhile (not_mem_digits z n (b := 32) (by decide)) rest
  have hdigits := Numeral.isDigit_padded (by decide) (Nat.le_refl 10) z n
  refine ⟨?_, hdrop⟩
  rw [htake, map_digitBytes hdigits]
  exact Numeral.read?_padded (by decide) (Nat.le_refl 10) z hn

lemma record?_miscounted (z : ℕ) {n : ℕ} (hn : n < Numeral.bound) {rest : Bytes}
    (hlen : n ≠ (digitBytes (List.replicate z '0' ++ Nat.toDigits 10 n) ++
      32 :: rest).length + 1) :
    record? (digitBytes (List.replicate z '0' ++ Nat.toDigits 10 n) ++ 32 :: rest) = none := by
  obtain ⟨hread, hdrop⟩ := read?_count z hn rest
  simp only [record?, hdrop, hread]
  rw [if_pos hlen]

lemma Record.record?_counted {r : Record} (he : (61 : UInt8) ∉ r.key) (z : ℕ) {n : ℕ}
    (hn : n < Numeral.bound)
    (hlen : n = (digitBytes (List.replicate z '0' ++ Nat.toDigits 10 n) ++
      32 :: (r.key ++ 61 :: r.value)).length + 1) :
    record? (digitBytes (List.replicate z '0' ++ Nat.toDigits 10 n) ++
      32 :: (r.key ++ 61 :: r.value)) = some r := by
  obtain ⟨hread, hdrop⟩ := read?_count z hn (r.key ++ 61 :: r.value)
  obtain ⟨hkey, hvalue⟩ := takeWhile_dropWhile he r.value
  simp only [record?, hdrop, hread, hkey, hvalue]
  rw [if_neg (not_not.mpr hlen)]

lemma Record.IsLine.record? {r : Record} (h : r.IsLine) (hb : r.body.length + 1 < Numeral.bound) :
    record? r.body = some r :=
  r.record?_counted h.key_equals 0 (r.length_body ▸ hb) r.length_body.symm

/-- Lines are read one by one, each up to its newline. -/
lemma records_cons {piece : Bytes} (hne : piece ≠ []) (hn : (10 : UInt8) ∉ piece) (more : Bytes) :
    records (piece ++ 10 :: more) = record? piece :: records more := by
  simp only [records]
  rw [List.splitOn_append_cons_self_of_not_mem hn,
    List.takeWhile_cons_of_pos (by simpa using hne), List.map_cons]

/-- Records are read back from their lines. -/
theorem records_encode {rs : List Record} (h : ∀ r ∈ rs, r.IsLine)
    (hb : (encode rs).length < Numeral.bound) : records (encode rs) = rs.map some := by
  induction rs with
  | nil => rfl
  | cons r rs ih =>
    have hr := h r (List.mem_cons_self ..)
    have hsplit : encode (r :: rs) = r.body ++ 10 :: encode rs := by
      simp [encode, Record.line_eq]
    have hlen : r.body.length + 1 + (encode rs).length < Numeral.bound := by
      rw [hsplit] at hb
      simp only [List.length_append, List.length_cons] at hb
      omega
    have hne : r.body ≠ [] := by simp [Record.body]
    have hrest := ih (fun r' hr' => h r' (List.mem_cons_of_mem _ hr')) (by omega)
    rw [hsplit, records_cons hne hr.newline, hr.record? (by omega), hrest, List.map_cons]

/-- The number that the first record with this key holds. -/
def numberIn? (key : String) (rs : List Record) : Option ℕ := do
  let r ← rs.find? fun r => r.key = Utf8.encode key
  let s ← Utf8.decode? r.value
  Numeral.read? 10 s.toList

lemma lookup?_map_some (key : Bytes) (rs : List Record) :
    lookup? key (rs.map some) = rs.find? fun r => r.key = key := by
  induction rs with
  | nil => rfl
  | cons r rs ih =>
    by_cases h : r.key = key
    · simp [lookup?, h]
    · simp [lookup?, h, ih]

end Pax

/-- A record that follows an entry out of an archive. -/
structure Pax.Record.IsCarried (r : Pax.Record) : Prop extends r.IsLine where
  isText : (Utf8.decode? r.key).isSome
  isKept : dropsKey r.key = false

lemma carriedFrom_map_some {rs : List Pax.Record} (h : ∀ r ∈ rs, r.IsCarried) :
    carriedFrom (rs.map some) = .ok rs := by
  induction rs with
  | nil => rfl
  | cons r rs ih =>
    have hr := h r (List.mem_cons_self ..)
    have ht : (Utf8.decode? r.key).isNone = false := by
      rw [← Option.not_isSome, hr.isText]
      rfl
    simp [carriedFrom, ih fun r' hr' => h r' (List.mem_cons_of_mem _ hr'), ht, hr.isKept]

/-- Records that follow an entry follow it again. -/
theorem carriedFrom_encode {rs : List Pax.Record} (h : ∀ r ∈ rs, r.IsCarried)
    (hb : (Pax.encode rs).length < Numeral.bound) :
    carriedFrom (Pax.records (Pax.encode rs)) = .ok rs := by
  rw [Pax.records_encode (fun r hr => (h r hr).toIsLine) hb, carriedFrom_map_some h]

lemma number?_encode {rs : List Pax.Record} (h : ∀ r ∈ rs, r.IsLine)
    (hb : (Pax.encode rs).length < Numeral.bound) (key : String) :
    Pax.number? key (Pax.encode rs) = Pax.numberIn? key rs := by
  simp only [Pax.number?, Pax.numberIn?, Pax.records_encode h hb, Pax.lookup?_map_some]

lemma value?_encode {rs : List Pax.Record} (h : ∀ r ∈ rs, r.IsCarried)
    (hb : (Pax.encode rs).length < Numeral.bound) : Pax.value? "path" (Pax.encode rs) = none := by
  have hnone : rs.find? (fun r => r.key = Utf8.encode "path") = none := by
    rw [List.find?_eq_none]
    intro r hr
    have hk := (h r hr).isKept
    simp only [dropsKey, Bool.or_eq_false_iff, beq_eq_false_iff_ne] at hk
    simpa using hk.1
  simp only [Pax.value?, Pax.records_encode (fun r hr => (h r hr).toIsLine) hb,
    List.filterMap_map, Function.comp_def, id, List.filterMap_some, hnone, Option.map_none]

end LayerPick.Tar
