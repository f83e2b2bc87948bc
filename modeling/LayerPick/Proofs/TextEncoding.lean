import LayerPick.Text.Utf8
import Mathlib.Data.Nat.Notation
import Mathlib.Tactic.Lemma
import Mathlib.Tactic.SplitIfs

/-!
# Text as bytes and back

What `Utf8.encode` writes, both decoders read back. The machine they share stands between two
characters before and behind the bytes of each character, so a text is read character by character.
The other way round, the bytes that the machine takes for a character are just those of the
character, so bytes that are read as text are the bytes of that text.
-/
namespace LayerPick.Utf8

lemma start_one {n : ℕ} (hn : n < 128) :
    start (UInt8.ofNat n) = .unit (some (Char.ofNat n)) := by
  have hb : (UInt8.ofNat n).toNat = n := by simp; omega
  have hlt : UInt8.ofNat n < 0x80 := by
    rw [UInt8.lt_iff_toNat_lt, hb]
    exact hn
  simp [start, hlt, hb]

lemma start_two : ∀ n < 32, 2 ≤ n → start (UInt8.ofNat (n + 192)) = .pending ⟨1, n, 128, 191⟩ := by
  decide

lemma start_three : ∀ n < 16, start (UInt8.ofNat (n + 224)) =
    .pending ⟨2, n, if n = 0 then 160 else 128, if n = 13 then 159 else 191⟩ := by
  decide

lemma start_four : ∀ n < 5, start (UInt8.ofNat (n + 240)) =
    .pending ⟨3, n, if n = 0 then 144 else 128, if n = 4 then 143 else 191⟩ := by
  decide

lemma next?_byte {owed code k : ℕ} {low high : UInt8} (hk : k < 64) (hlow : low.toNat ≤ k + 128)
    (hhigh : k + 128 ≤ high.toNat) :
    (Pending.mk owed code low high).next? (UInt8.ofNat (k + 128)) =
      if owed ≤ 1 then some (.unit (some (Char.ofNat (code * 64 + k))))
      else some (.pending ⟨owed - 1, code * 64 + k, 128, 191⟩) := by
  have hb : (UInt8.ofNat (k + 128)).toNat = k + 128 := by simp; omega
  have hle : low ≤ UInt8.ofNat (k + 128) ∧ UInt8.ofNat (k + 128) ≤ high := by
    rw [UInt8.le_iff_toNat_le, UInt8.le_iff_toNat_le, hb]
    exact ⟨hlow, hhigh⟩
  simp only [Pending.next?, if_pos hle, hb, Nat.add_sub_cancel]

/-- Between two characters the bytes of a character are read as that character. -/
lemma foldl_step_char (us : List (Option Char)) (c : Char) :
    (String.utf8EncodeChar c).foldl State.step ⟨us, none⟩ = ⟨some c :: us, none⟩ := by
  have hc : Char.ofNat c.val.toNat = c := Char.ofNat_toNat c
  have hv : c.val.toNat < 0xD800 ∨ 0xDFFF < c.val.toNat ∧ c.val.toNat < 0x110000 := c.valid
  generalize hn : c.val.toNat = v at hc hv
  unfold String.utf8EncodeChar
  simp only [hn]
  split_ifs with h₁ h₂ h₃
  · simp [State.step, State.after, start_one (show v < 128 by omega), hc]
  · have hs := start_two (v / 64 % 32) (by omega) (by omega)
    have hcode : v / 64 % 32 * 64 + v % 64 = v := by omega
    simp only [List.foldl, State.step, State.after, hs]
    rw [next?_byte (by omega) (by simp) (by simp; omega)]
    simp [hcode, hc]
  · have hs := start_three (v / 4096 % 16) (by omega)
    have hcode : (v / 4096 % 16 * 64 + v / 64 % 64) * 64 + v % 64 = v := by omega
    simp only [List.foldl, State.step, State.after, hs]
    -- The second byte leaves out what is shorter otherwise, and the surrogates.
    rw [next?_byte (by omega) (by split_ifs <;> simp; omega) (by split_ifs <;> simp <;> omega)]
    simp only [Nat.reduceLeDiff, if_false]
    rw [next?_byte (by omega) (by simp) (by simp; omega)]
    simp [hcode, hc]
  · have hs := start_four (v / 262144 % 8) (by omega)
    have hcode : ((v / 262144 % 8 * 64 + v / 4096 % 64) * 64 + v / 64 % 64) * 64 + v % 64 = v := by
      omega
    simp only [List.foldl, State.step, State.after, hs]
    rw [next?_byte (by omega) (by split_ifs <;> simp; omega) (by split_ifs <;> simp <;> omega)]
    simp only [Nat.reduceLeDiff, if_false, Nat.reduceSub]
    rw [next?_byte (by omega) (by simp) (by simp; omega)]
    simp only [Nat.reduceLeDiff, if_false, Nat.reduceSub]
    rw [next?_byte (by omega) (by simp) (by simp; omega)]
    simp [hcode, hc]

lemma foldl_step_chars (us : List (Option Char)) (cs : List Char) :
    (cs.flatMap String.utf8EncodeChar).foldl State.step ⟨us, none⟩ =
      ⟨(cs.map some).reverse ++ us, none⟩ := by
  induction cs generalizing us with
  | nil => rfl
  | cons c cs ih => simp [List.foldl_append, foldl_step_char, ih]

@[simp] lemma units_encode (s : String) : units (encode s) = s.toList.map some := by
  simp [units, encode, foldl_step_chars]

/-- Text is read back from its bytes. -/
@[simp] theorem decode?_encode (s : String) : decode? (encode s) = some s := by
  simp [decode?]

@[simp] theorem decodeLossy_encode (s : String) : decodeLossy (encode s) = s := by
  simp [decodeLossy, Function.comp_def]

@[simp] lemma encode_append (s t : String) : encode (s ++ t) = encode s ++ encode t := by
  simp [encode]

lemma encode_ofList_append (cs ds : List Char) :
    encode (String.ofList (cs ++ ds)) = encode (String.ofList cs) ++ encode (String.ofList ds) := by
  simp [encode]

lemma encode_ascii {cs : List Char} (h : ∀ c ∈ cs, c.toNat < 128) :
    encode (String.ofList cs) = cs.map fun c => UInt8.ofNat c.toNat := by
  induction cs with
  | nil => rfl
  | cons c cs ih =>
    have hc : c.toNat ≤ 127 := Nat.le_of_lt_succ (h c (List.mem_cons_self ..))
    have hcs := ih fun d hd => h d (List.mem_cons_of_mem _ hd)
    simp only [encode, String.toList_ofList] at hcs ⊢
    simp [String.utf8EncodeChar, hc, hcs]

/-- The byte of a character below 128 is its number, and all others are 128 at least. -/
lemma toNat_of_mem {c : Char} {b : UInt8} (h : b ∈ String.utf8EncodeChar c) :
    b.toNat = c.toNat ∨ 128 ≤ b.toNat := by
  have hc : c.val.toNat < 0xD800 ∨ 0xDFFF < c.val.toNat ∧ c.val.toNat < 0x110000 := c.valid
  have hbyte (k : ℕ) (hlow : 128 ≤ k) (hhigh : k < 256) : 128 ≤ (UInt8.ofNat k).toNat := by
    rwa [UInt8.toNat_ofNat', Nat.mod_eq_of_lt hhigh]
  unfold String.utf8EncodeChar at h
  simp only at h
  split_ifs at h <;> simp only [List.mem_cons, List.not_mem_nil, or_false] at h
  · left
    rw [h, UInt8.toNat_ofNat']
    exact Nat.mod_eq_of_lt (by omega)
  · right
    rcases h with rfl | rfl <;> exact hbyte _ (by omega) (by omega)
  · right
    rcases h with rfl | rfl | rfl <;> exact hbyte _ (by omega) (by omega)
  · right
    rcases h with rfl | rfl | rfl | rfl <;> exact hbyte _ (by omega) (by omega)

/-- The byte of a character below 128 stands only where the character does. -/
lemma not_mem_encode {c : Char} {s : String} (hc : c.toNat < 128) (hs : c ∉ s.toList) :
    UInt8.ofNat c.toNat ∉ encode s := by
  have hb : (UInt8.ofNat c.toNat).toNat = c.toNat := by
    rw [UInt8.toNat_ofNat']
    exact Nat.mod_eq_of_lt (by omega)
  intro hmem
  obtain ⟨d, hd, hbyte⟩ := List.mem_flatMap.mp hmem
  rcases toNat_of_mem hbyte with he | hge
  · obtain rfl : c = d := by
      rw [← Char.ofNat_toNat c, ← hb, he, Char.ofNat_toNat]
    exact hs hd
  · omega

/-- The bytes of a character that is under way. -/
inductive UnderWay : Bytes → Pending → Prop
  | two {x : UInt8} : 0xC2 ≤ x.toNat → x.toNat < 0xE0 →
    UnderWay [x] ⟨1, x.toNat - 0xC0, 0x80, 0xBF⟩
  | three {x : UInt8} : 0xE0 ≤ x.toNat → x.toNat < 0xF0 →
    UnderWay [x] ⟨2, x.toNat - 0xE0, if x = 0xE0 then 0xA0 else 0x80,
      if x = 0xED then 0x9F else 0xBF⟩
  | threeLast {x y : UInt8} : 0xE0 ≤ x.toNat → x.toNat < 0xF0 → 0x80 ≤ y.toNat → y.toNat < 0xC0 →
    (x.toNat = 0xE0 → 0xA0 ≤ y.toNat) → (x.toNat = 0xED → y.toNat < 0xA0) →
    UnderWay [x, y] ⟨1, (x.toNat - 0xE0) * 64 + (y.toNat - 0x80), 0x80, 0xBF⟩
  | four {x : UInt8} : 0xF0 ≤ x.toNat → x.toNat < 0xF5 →
    UnderWay [x] ⟨3, x.toNat - 0xF0, if x = 0xF0 then 0x90 else 0x80,
      if x = 0xF4 then 0x8F else 0xBF⟩
  | fourThird {x y : UInt8} : 0xF0 ≤ x.toNat → x.toNat < 0xF5 → 0x80 ≤ y.toNat → y.toNat < 0xC0 →
    (x.toNat = 0xF0 → 0x90 ≤ y.toNat) → (x.toNat = 0xF4 → y.toNat < 0x90) →
    UnderWay [x, y] ⟨2, (x.toNat - 0xF0) * 64 + (y.toNat - 0x80), 0x80, 0xBF⟩
  | fourLast {x y z : UInt8} : 0xF0 ≤ x.toNat → x.toNat < 0xF5 → 0x80 ≤ y.toNat → y.toNat < 0xC0 →
    (x.toNat = 0xF0 → 0x90 ≤ y.toNat) → (x.toNat = 0xF4 → y.toNat < 0x90) →
    0x80 ≤ z.toNat → z.toNat < 0xC0 →
    UnderWay [x, y, z] ⟨1, ((x.toNat - 0xF0) * 64 + (y.toNat - 0x80)) * 64 + (z.toNat - 0x80),
      0x80, 0xBF⟩

/-- What has been read: the bytes of a whole character, or of one that is under way. -/
def Progress.IsOf (bs : Bytes) : Progress → Prop
  | .unit none => True
  | .unit (some c) => String.utf8EncodeChar c = bs
  | .pending p => UnderWay bs p

lemma val_ofNat {n : ℕ} (h : n < 0xD800 ∨ 0xDFFF < n ∧ n < 0x110000) :
    (Char.ofNat n).val.toNat = n := by
  rw [Char.ofNat, dif_pos (show n.isValidChar from h)]
  rfl

lemma ofNat_eq {n : ℕ} {x : UInt8} (h : n = x.toNat) : UInt8.ofNat n = x := by
  rw [h, UInt8.ofNat_toNat]

lemma isOf_start (x : UInt8) : (start x).IsOf [x] := by
  rw [start]
  simp only [UInt8.lt_iff_toNat_lt, UInt8.reduceToNat]
  by_cases h₁ : x.toNat < 128
  · rw [if_pos h₁, Progress.IsOf, String.utf8EncodeChar, val_ofNat (by omega), if_pos (by omega),
      ofNat_eq rfl]
  by_cases h₂ : x.toNat < 194
  · rw [if_neg h₁, if_pos h₂, Progress.IsOf]
    trivial
  rw [if_neg h₁, if_neg h₂]
  by_cases h₃ : x.toNat < 224
  · rw [if_pos h₃]
    exact .two (by omega) h₃
  by_cases h₄ : x.toNat < 240
  · rw [if_neg h₃, if_pos h₄]
    exact .three (by omega) h₄
  by_cases h₅ : x.toNat < 245
  · rw [if_neg h₃, if_neg h₄, if_pos h₅]
    exact .four (by omega) h₅
  · rw [if_neg h₃, if_neg h₄, if_neg h₅]
    trivial

lemma next?_some {p : Pending} {x : UInt8} {g : Progress} (h : p.next? x = some g) :
    p.low.toNat ≤ x.toNat ∧ x.toNat ≤ p.high.toNat ∧
      g = if p.owed ≤ 1 then .unit (some (Char.ofNat (p.code * 64 + (x.toNat - 0x80))))
        else .pending ⟨p.owed - 1, p.code * 64 + (x.toNat - 0x80), 0x80, 0xBF⟩ := by
  rw [Pending.next?] at h
  by_cases hrange : p.low ≤ x ∧ x ≤ p.high
  · rw [if_pos hrange] at h
    refine ⟨UInt8.le_iff_toNat_le.mp hrange.1, UInt8.le_iff_toNat_le.mp hrange.2, ?_⟩
    split_ifs at h ⊢ <;> exact (Option.some.inj h).symm
  · simp [hrange] at h

/-- One more byte leads on, or to a character that has just these bytes. -/
lemma UnderWay.isOf {bs : Bytes} {p : Pending} {z : UInt8} {g : Progress} (h : UnderWay bs p)
    (hg : p.next? z = some g) : g.IsOf (bs ++ [z]) := by
  obtain ⟨hlow, hhigh, rfl⟩ := next?_some hg
  cases h with
  | @two x h₁ h₂ =>
    simp only [UInt8.reduceToNat] at hlow hhigh
    simp only [Nat.le_refl, if_true, Progress.IsOf, String.utf8EncodeChar]
    rw [val_ofNat (by omega),
      if_neg (by omega), if_pos (by omega), ofNat_eq (x := x) (by omega),
      ofNat_eq (x := z) (by omega)]
    rfl
  | @three x h₁ h₂ =>
    simp only [← UInt8.toNat_inj, apply_ite UInt8.toNat, UInt8.reduceToNat] at hlow hhigh
    refine .threeLast h₁ h₂ ?_ ?_ ?_ ?_ <;> split_ifs at hlow hhigh <;> omega
  | @threeLast x y h₁ h₂ h₃ h₄ h₅ h₆ =>
    simp only [UInt8.reduceToNat] at hlow hhigh
    simp only [Nat.le_refl, if_true, Progress.IsOf, String.utf8EncodeChar]
    rw [val_ofNat (by omega),
      if_neg (by omega), if_neg (by omega), if_pos (by omega), ofNat_eq (x := x) (by omega),
      ofNat_eq (x := y) (by omega), ofNat_eq (x := z) (by omega)]
    rfl
  | @four x h₁ h₂ =>
    simp only [← UInt8.toNat_inj, apply_ite UInt8.toNat, UInt8.reduceToNat] at hlow hhigh
    refine .fourThird h₁ h₂ ?_ ?_ ?_ ?_ <;> split_ifs at hlow hhigh <;> omega
  | @fourThird x y h₁ h₂ h₃ h₄ h₅ h₆ =>
    simp only [UInt8.reduceToNat] at hlow hhigh
    exact .fourLast h₁ h₂ h₃ h₄ h₅ h₆ (by omega) (by omega)
  | @fourLast x y w h₁ h₂ h₃ h₄ h₅ h₆ h₇ h₈ =>
    simp only [UInt8.reduceToNat] at hlow hhigh
    simp only [Nat.le_refl, if_true, Progress.IsOf, String.utf8EncodeChar]
    rw [val_ofNat (by omega),
      if_neg (by omega), if_neg (by omega), if_neg (by omega), ofNat_eq (x := x) (by omega),
      ofNat_eq (x := y) (by omega), ofNat_eq (x := w) (by omega), ofNat_eq (x := z) (by omega)]
    rfl

/-- The units so far, if they are all characters, and the character under way have just the bytes
that have been read. -/
def State.IsOf (bs : Bytes) (s : State) : Prop :=
  s.units.all Option.isSome = true →
    ∃ front behind, bs = front ++ behind ∧
      front = (s.units.reverse.filterMap id).flatMap String.utf8EncodeChar ∧
      match s.pending with
      | none => behind = []
      | some p => UnderWay behind p

lemma State.IsOf.after {us : List (Option Char)} {front behind : Bytes} {g : Progress}
    (hfront : us.all Option.isSome = true →
      front = (us.reverse.filterMap id).flatMap String.utf8EncodeChar) (hg : g.IsOf behind)
    (q : Option Pending) : (State.after ⟨us, q⟩ g).IsOf (front ++ behind) := by
  intro hall
  cases g with
  | unit c =>
    simp only [State.after, List.all_cons, Bool.and_eq_true] at hall
    obtain ⟨c, rfl⟩ := Option.isSome_iff_exists.mp hall.1
    refine ⟨front ++ behind, [], (List.append_nil _).symm, ?_, rfl⟩
    rw [Progress.IsOf] at hg
    simp [State.after, hfront hall.2, hg]
  | pending p => exact ⟨front, behind, rfl, hfront hall, hg⟩

lemma State.IsOf.step {bs : Bytes} {s : State} (h : s.IsOf bs) (x : UInt8) :
    (s.step x).IsOf (bs ++ [x]) := by
  obtain ⟨us, q⟩ := s
  cases q with
  | none =>
    intro hall
    refine State.IsOf.after (fun hus => ?_) (isOf_start x) none hall
    obtain ⟨front, behind, rfl, hfront, hbehind⟩ := h hus
    rw [show behind = [] from hbehind, List.append_nil, hfront]
  | some p =>
    cases hx : p.next? x with
    | none =>
      simp only [State.step, hx]
      have hno (hus : (none :: us).all Option.isSome = true) :
          bs = ((none :: us).reverse.filterMap id).flatMap String.utf8EncodeChar := by
        simp at hus
      exact State.IsOf.after hno (isOf_start x) none
    | some g =>
      simp only [State.step, hx]
      intro hall
      have hus : us.all Option.isSome = true := by
        cases g with
        | unit c => exact (Bool.and_eq_true_iff.mp hall).2
        | pending p => exact hall
      obtain ⟨front, behind, rfl, hfront, hbehind⟩ := h hus
      rw [List.append_assoc]
      exact State.IsOf.after (fun _ => hfront) (UnderWay.isOf hbehind hx) _ hall

lemma State.IsOf.foldl {bs : Bytes} {s : State} (h : s.IsOf bs) (xs : Bytes) :
    (xs.foldl State.step s).IsOf (bs ++ xs) := by
  induction xs generalizing bs s with
  | nil => rwa [List.append_nil]
  | cons x xs ih =>
    rw [List.append_cons]
    exact ih (h.step x)

/-- Bytes that are text are those of the text. -/
theorem encode_of_decode? {bs : Bytes} {s : String} (h : decode? bs = some s) : encode s = bs := by
  simp only [decode?, Option.ite_none_right_eq_some, Option.some.injEq] at h
  obtain ⟨hall, rfl⟩ := h
  have hstart : State.IsOf [] ⟨[], none⟩ := fun _ => ⟨[], [], rfl, rfl, rfl⟩
  have hread := hstart.foldl bs
  simp only [units] at hall ⊢
  cases hp : (bs.foldl State.step ⟨[], none⟩).pending with
  | some p => simp [hp] at hall
  | none =>
    simp only [hp] at hall
    obtain ⟨front, behind, hbs, hfront, hbehind⟩ := hread (by rwa [List.all_reverse] at hall)
    rw [hp] at hbehind
    rw [List.nil_append, show behind = [] from hbehind, List.append_nil] at hbs
    simp only [encode, String.toList_ofList]
    exact hfront.symm.trans hbs.symm

end LayerPick.Utf8
