import LayerPick.Proofs.CutDocuments

/-!
# Escaped text

What `Text.encode` writes between the quotes is read back, character by character: an escape is
passed through whole, and any other character stands for itself. For the scanner these bytes are
one string: the quotes and backslashes in them are escaped, and so are the characters that may not
stand in a string.
-/
namespace LayerPick.Json

namespace Text

section Step

variable {s s' : State} {c d : Char}

lemma decodeFrom?_of_step {out : List Char} (h : step? s c = some (out, s')) (cs : List Char) :
    decodeFrom? s (c :: cs) = (decodeFrom? s' cs).map (out ++ ·) := by
  cases s <;> simp only [decodeFrom?, h, Option.bind_eq_bind, Option.bind_some, Option.pure_def,
    Option.map_eq_bind] <;> rfl

lemma decodeFrom?_silent (h : step? s c = some ([], s')) (cs : List Char) :
    decodeFrom? s (c :: cs) = decodeFrom? s' cs := by
  rw [decodeFrom?_of_step h]
  exact Option.map_id'

lemma decodeFrom?_char (h : step? s c = some ([d], s')) (cs : List Char) :
    decodeFrom? s (c :: cs) = (decodeFrom? s' cs).map (d :: ·) := decodeFrom?_of_step h cs

end Step

section Escape

variable {c d : Char} {n : ℕ}

lemma hexDigit?_digitChar : ∀ n < 16, hexDigit? n.digitChar = some n := by decide

lemma step?_digit (hn : n < 16) (left code : ℕ) (high : Option ℕ) :
    step? (.digits (left + 2) code high) n.digitChar =
      some ([], .digits (left + 1) (code * 16 + n) high) := by
  simp [step?, hexDigit?_digitChar n hn]

lemma step?_lastDigit (hn : n < 16) (code : ℕ) (high : Option ℕ) :
    step? (.digits 1 code high) n.digitChar = closeEscape? (code * 16 + n) high := by
  simp [step?, hexDigit?_digitChar n hn]

lemma decodeFrom?_hex4 (hn : n < 65536) {high : Option ℕ}
    (h : closeEscape? n high = some ([c], .plain)) (cs : List Char) :
    decodeFrom? (.digits 4 0 high) (hex4 n ++ cs) = (decodeFrom? .plain cs).map (c :: ·) := by
  have hmod (k : ℕ) : k % 16 < 16 := Nat.mod_lt _ (by decide)
  have hcode : (((0 * 16 + n / 4096 % 16) * 16 + n / 256 % 16) * 16 + n / 16 % 16) * 16 +
      n % 16 = n := by omega
  have hdigits : hex4 n ++ cs = (n / 4096 % 16).digitChar :: (n / 256 % 16).digitChar ::
      (n / 16 % 16).digitChar :: (n % 16).digitChar :: cs := rfl
  have hlast := step?_lastDigit (hmod n)
    (((0 * 16 + n / 4096 % 16) * 16 + n / 256 % 16) * 16 + n / 16 % 16) high
  rw [hcode, h] at hlast
  rw [hdigits, decodeFrom?_silent (step?_digit (hmod _) 2 0 high),
    decodeFrom?_silent (step?_digit (hmod _) 1 _ high),
    decodeFrom?_silent (step?_digit (hmod _) 0 _ high), decodeFrom?_char hlast]

lemma decodeFrom?_simpleEscape (h : simpleEscape? d = some c) (hd : d ≠ 'u') (cs : List Char) :
    decodeFrom? .plain ('\\' :: d :: cs) = (decodeFrom? .plain cs).map (c :: ·) := by
  have hslash : step? .plain '\\' = some ([], .escape none) := rfl
  have hletter : step? (.escape none) d = some ([c], .plain) := by simp [step?, hd, h]
  rw [decodeFrom?_silent hslash, decodeFrom?_char hletter]

end Escape

lemma decodeFrom?_encodeChar (c : Char) (cs : List Char) :
    decodeFrom? .plain (encodeChar c ++ cs) = (decodeFrom? .plain cs).map (c :: ·) := by
  have hchar {n : ℕ} (hn : c.toNat = n) : Char.ofNat n = c := hn ▸ Char.ofNat_toNat c
  unfold encodeChar
  split_ifs with h₁ h₂ h₃ h₄ h₅ h₆ h₇ h₈
  · exact decodeFrom?_simpleEscape (by rw [h₁]; rfl) (by decide) cs
  · exact decodeFrom?_simpleEscape (by rw [h₂]; rfl) (by decide) cs
  · exact decodeFrom?_simpleEscape (h₃ ▸ rfl) (by decide) cs
  · exact decodeFrom?_simpleEscape (h₄ ▸ rfl) (by decide) cs
  · exact decodeFrom?_simpleEscape (h₅ ▸ rfl) (by decide) cs
  · exact decodeFrom?_simpleEscape (hchar h₆ ▸ rfl) (by decide) cs
  · exact decodeFrom?_simpleEscape (hchar h₇ ▸ rfl) (by decide) cs
  · have hslash : step? .plain '\\' = some ([], .escape none) := rfl
    have hu : step? (.escape none) 'u' = some ([], .digits 4 0 none) := rfl
    have hclose : closeEscape? c.toNat none = some ([c], .plain) := by
      rw [closeEscape?, if_neg (by omega), if_neg (by omega), Char.ofNat_toNat]
    rw [List.cons_append, List.cons_append, decodeFrom?_silent hslash, decodeFrom?_silent hu,
      decodeFrom?_hex4 (by omega) hclose]
  · exact decodeFrom?_char (by simp [step?, h₁, h₂, h₈]) cs

lemma decodeFrom?_encode (s : String) : decodeFrom? .plain (encode s) = some s.toList := by
  unfold encode
  induction s.toList with
  | nil => rfl
  | cons c cs ih => rw [List.flatMap_cons, decodeFrom?_encodeChar, ih, Option.map_some]

/-- The bytes between the quotes. -/
def spelling (s : String) : Bytes := Utf8.encode (String.ofList (encode s))

/-- Text is read back from its spelling. -/
@[simp] theorem decode?_spelling (s : String) : decode? (spelling s) = some s := by
  simp [decode?, spelling, decodeFrom?_encode]

end Text

namespace Token

open Text

/-- Inside a string the scanner passes over these bytes. -/
def IsInside (b : Bytes) : Prop :=
  ∀ ts read, Scan.run? ⟨ts, .string read⟩ b = some ⟨ts, .string (b.reverse ++ read)⟩

lemma IsInside.append {b b' : Bytes} (h : IsInside b) (h' : IsInside b') : IsInside (b ++ b') := by
  intro ts read
  rw [Scan.run?_append, h ts read, Option.bind_some, h', List.reverse_append, List.append_assoc]

lemma isInside_flatMap {α : Type} {f : α → Bytes} (h : ∀ a, IsInside (f a)) (as : List α) :
    IsInside (as.flatMap f) := by
  induction as with
  | nil => exact fun ts read => rfl
  | cons a as ih => exact (h a).append ih

lemma isInside_plain {b : Bytes} (h : ∀ x ∈ b, 32 ≤ x.toNat ∧ x ≠ 34 ∧ x ≠ 92) : IsInside b := by
  induction b with
  | nil => exact fun ts read => rfl
  | cons x b ih =>
    intro ts read
    obtain ⟨hlow, hquote, hslash⟩ := h x (List.mem_cons_self ..)
    have hcontrol : ¬x < 32 := by
      rw [UInt8.lt_iff_toNat_lt]
      exact Nat.not_lt.mpr hlow
    have hstep : Scan.step? ⟨ts, .string read⟩ x = some ⟨ts, .string (x :: read)⟩ := by
      simp only [Scan.step?, if_neg hquote, if_neg hcontrol, if_neg hslash]
    rw [Scan.run?, hstep]
    simp only
    rw [ih fun y hy => h y (List.mem_cons_of_mem _ hy)]
    simp

lemma isInside_simpleEscape {x : UInt8} (hx : x ≠ 117)
    (h : (simpleEscape? (Char.ofNat x.toNat)).isSome = true) : IsInside [92, x] := by
  intro ts read
  have hslash : Scan.step? ⟨ts, .string read⟩ 92 = some ⟨ts, .escape (92 :: read)⟩ := rfl
  have hletter : Scan.step? ⟨ts, .escape (92 :: read)⟩ x =
      some ⟨ts, .string (x :: 92 :: read)⟩ := by
    simp only [Scan.step?, if_neg hx, if_pos h]
  simp [Scan.run?, hslash, hletter]

/-- The digit of a number is a byte of its own, and one that the scanner takes for a digit. -/
lemma step?_hexDigit {n : ℕ} (hn : n < 16) (ts : List Token) (left : ℕ) (read : Bytes) :
    Scan.step? ⟨ts, .digits left read⟩ (UInt8.ofNat n.digitChar.toNat) = some ⟨ts,
      if left ≤ 1 then .string (UInt8.ofNat n.digitChar.toNat :: read)
      else .digits (left - 1) (UInt8.ofNat n.digitChar.toNat :: read)⟩ := by
  have hdigit : ∀ k < 16,
      (hexDigit? (Char.ofNat (UInt8.ofNat (Nat.digitChar k).toNat).toNat)).isSome = true := by
    decide
  simp only [Scan.step?, if_pos (hdigit n hn)]

lemma isInside_hex4 (n : ℕ) : IsInside (Utf8.encode (String.ofList ('\\' :: 'u' :: hex4 n))) := by
  have hmod (k : ℕ) : k % 16 < 16 := Nat.mod_lt _ (by decide)
  have hbytes : Utf8.encode (String.ofList ('\\' :: 'u' :: hex4 n)) =
      92 :: 117 :: (hex4 n).map fun c => UInt8.ofNat c.toNat := by
    refine Utf8.encode_ascii fun c hc => ?_
    have hdigit : ∀ k < 16, (Nat.digitChar k).toNat < 128 := by decide
    simp only [hex4, List.map_cons, List.map_nil, List.mem_cons, List.not_mem_nil, or_false] at hc
    rcases hc with rfl | rfl | rfl | rfl | rfl | rfl
    · decide
    · decide
    all_goals exact hdigit _ (hmod _)
  intro ts read
  have hslash : Scan.step? ⟨ts, .string read⟩ 92 = some ⟨ts, .escape (92 :: read)⟩ := rfl
  have hu : Scan.step? ⟨ts, .escape (92 :: read)⟩ 117 =
      some ⟨ts, .digits 4 (117 :: 92 :: read)⟩ := rfl
  rw [hbytes]
  simp [hex4, Scan.run?, hslash, hu, step?_hexDigit, hmod]

lemma isInside_encodeChar (c : Char) :
    IsInside (Utf8.encode (String.ofList (encodeChar c))) := by
  unfold encodeChar
  split_ifs with h₁ h₂ h₃ h₄ h₅ h₆ h₇ h₈
  · exact isInside_simpleEscape (x := 34) (by decide) (by decide)
  · exact isInside_simpleEscape (x := 92) (by decide) (by decide)
  · exact isInside_simpleEscape (x := 110) (by decide) (by decide)
  · exact isInside_simpleEscape (x := 114) (by decide) (by decide)
  · exact isInside_simpleEscape (x := 116) (by decide) (by decide)
  · exact isInside_simpleEscape (x := 98) (by decide) (by decide)
  · exact isInside_simpleEscape (x := 102) (by decide) (by decide)
  · exact isInside_hex4 c.toNat
  · refine isInside_plain fun x hx => ?_
    have hx' : x ∈ String.utf8EncodeChar c := by simpa [Utf8.encode] using hx
    have hne (k : ℕ) (hk : k < 128) (hc : c ≠ Char.ofNat k) : x.toNat ≠ k := by
      rintro rfl
      rcases Utf8.toNat_of_mem hx' with he | hge
      · exact hc (by rw [he, Char.ofNat_toNat])
      · omega
    refine ⟨?_, fun he => hne 34 (by decide) h₁ (by rw [he]; rfl),
      fun he => hne 92 (by decide) h₂ (by rw [he]; rfl)⟩
    rcases Utf8.toNat_of_mem hx' with he | hge <;> omega

/-- No byte of a spelling ends the string that it stands in. -/
lemma isInside_spelling (s : String) : IsInside (spelling s) := by
  have hchars : spelling s =
      s.toList.flatMap fun c => Utf8.encode (String.ofList (encodeChar c)) := by
    simp [spelling, Utf8.encode, encode, List.flatMap_assoc]
  rw [hchars]
  exact isInside_flatMap isInside_encodeChar _

end Token

end LayerPick.Json
