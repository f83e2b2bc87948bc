import LayerPick.Proofs.MemberReading
import LayerPick.Proofs.NumberFields

/-!
# Headers as blocks and back

A header is read back field by field from its block, and its checksum is the one that a reader
checks. So what a reader makes of the block of a header is the header itself, with the owners that
PAX records give, and the size that they or the header announce.
-/
namespace LayerPick.Tar

namespace Field

@[ext] lemma ext {n : ℕ} {f g : Field n} (h : f.bytes = g.bytes) : f = g := by
  cases f
  cases g
  simpa using h

lemma ofBytes_append {n : ℕ} (f : Field n) (r : Bytes) : ofBytes n (f.bytes ++ r) = f := by
  ext1
  have hl := f.length_bytes
  simp [ofBytes, zeros, hl]

lemma bytes_ofBytes {n : ℕ} {b : Bytes} (h : b.length = n) : (ofBytes n b).bytes = b := by
  subst h
  simp [ofBytes, zeros]

lemma drop_append {n k : ℕ} (f : Field n) (r : Bytes) (h : n ≤ k) :
    (f.bytes ++ r).drop k = r.drop (k - n) := by
  have hl := f.length_bytes
  rw [List.drop_append, List.drop_of_length_le (by omega), List.nil_append, hl]

end Field

namespace Header

/-- A header is read back from its block. -/
theorem ofBlock_toBytes (h : Header) : ofBlock h.toBytes = h := by
  simp [ofBlock, toBytes, beforeChecksum, afterChecksum, Field.drop_append, Field.ofBytes_append,
    Field.ofBytes_bytes]

lemma sumBytes_le (b : Bytes) : sumBytes b ≤ 255 * b.length := by
  induction b with
  | nil => rfl
  | cons x b ih =>
    have hx := x.toNat_lt
    simp only [sumBytes, List.foldr_cons, List.length_cons] at ih ⊢
    omega

lemma byteSum_le (h : Header) : h.byteSum ≤ 255 * 512 := by
  have hb := sumBytes_le h.beforeChecksum
  have ha := sumBytes_le h.afterChecksum
  have hl := h.length_toBytes
  simp only [toBytes, List.length_append, h.checksum.length_bytes, blockSize] at hl
  unfold byteSum
  omega

lemma length_byteSum (h : Header) : (Nat.toDigits 8 h.byteSum).length < 8 := by
  have hle := h.byteSum_le
  have hlt : h.byteSum < 8 ^ 7 := by omega
  exact Nat.lt_succ_of_le ((Nat.length_toDigits_le_iff (by decide) (by decide)).mpr hlt)

@[simp] lemma byteSum_withChecksum (h : Header) : h.withChecksum.byteSum = h.byteSum := rfl

@[simp] lemma withChecksum_withChecksum (h : Header) :
    h.withChecksum.withChecksum = h.withChecksum := rfl

@[simp] lemma size_withChecksum (h : Header) : h.withChecksum.size = h.size := rfl

lemma checksum_withChecksum (h : Header) : readOctal h.withChecksum.checksum.bytes = .ok h.byteSum := by
  have hlt := h.length_byteSum
  have hl := length_octalField hlt
  have hb : h.byteSum < Numeral.bound := Nat.lt_of_le_of_lt h.byteSum_le (by decide)
  simp only [withChecksum, Field.bytes_ofBytes hl]
  exact readOctal_octalField hlt hb

/-- A block with a checksum does not look like the end of an archive. -/
lemma all_zero_withChecksum (h : Header) : h.withChecksum.toBytes.all (· == 0) = false := by
  have hlt := h.length_byteSum
  obtain ⟨k, hk, hlen⟩ := octalField_eq hlt
  have hd := Numeral.isDigit_padded (by decide) (show 8 ≤ 10 by decide) k h.byteSum
  cases hf : digitBytes (List.replicate k '0' ++ Nat.toDigits 8 h.byteSum) with
  | nil => simp [digitBytes] at hf
  | cons b r =>
    have hm := mem_digitBytes (by decide) hd (hf ▸ List.mem_cons_self ..)
    have hmem : b ∈ h.withChecksum.toBytes := by
      have hc : h.withChecksum.checksum.bytes = b :: (r ++ [0]) := by
        rw [withChecksum, Field.bytes_ofBytes (length_octalField hlt), hk, hf,
          List.cons_append]
      simp [toBytes, hc]
    rw [List.all_eq_false]
    refine ⟨b, hmem, ?_⟩
    simp only [beq_iff_eq]
    rintro rfl
    exact absurd hm.1 (by decide)

end Header

@[simp] lemma withChecksum_extendedHeader (n : ℕ) :
    (extendedHeader n).withChecksum = extendedHeader n := by
  unfold extendedHeader
  rw [Header.withChecksum_withChecksum]

@[simp] lemma withChecksum_longNameHeader (n : ℕ) :
    (longNameHeader n).withChecksum = longNameHeader n := by
  unfold longNameHeader
  rw [Header.withChecksum_withChecksum]

/-- How many bytes of content a reader expects behind a header, given the data of the records before
it. -/
def announced (h : Header) (pax : Option Bytes) : Except NumberError ℕ := do
  let stated ← readNumber h.size.bytes
  return ((if Reader.isDescribed h then pax else none).bind (Pax.number? "size")).getD stated

namespace Reader

@[simp] lemma size_applyOwners (pax : Option Bytes) (h : Header) :
    (applyOwners pax h).size = h.size := by
  unfold applyOwners
  cases pax.bind (Pax.number? "uid") <;> cases pax.bind (Pax.number? "gid") <;> rfl

@[simp] lemma kind_applyOwners (pax : Option Bytes) (h : Header) :
    (applyOwners pax h).kind = h.kind := by
  unfold applyOwners
  cases pax.bind (Pax.number? "uid") <;> cases pax.bind (Pax.number? "gid") <;> rfl

@[simp] lemma form_applyOwners (pax : Option Bytes) (h : Header) :
    (applyOwners pax h).form = h.form := by
  unfold applyOwners
  cases pax.bind (Pax.number? "uid") <;> cases pax.bind (Pax.number? "gid") <;> rfl

@[simp] lemma tail_applyOwners (pax : Option Bytes) (h : Header) :
    (applyOwners pax h).tail = h.tail := by
  unfold applyOwners
  cases pax.bind (Pax.number? "uid") <;> cases pax.bind (Pax.number? "gid") <;> rfl

@[simp] lemma path_applyOwners (pax : Option Bytes) (h : Header) :
    (applyOwners pax h).path = h.path := by
  unfold applyOwners
  cases pax.bind (Pax.number? "uid") <;> cases pax.bind (Pax.number? "gid") <;> rfl

lemma headerIn_withChecksum {h : Header} {pax : Option Bytes} {n : ℕ}
    (hn : announced h pax = .ok n) :
    headerIn h.withChecksum.toBytes pax =
      .ok (applyOwners (if isDescribed h then pax else none) h.withChecksum, n) := by
  obtain ⟨stated, hs, hn⟩ := bind_ok.mp hn
  simp only [pure_eq, Except.ok.injEq] at hn
  have hd : isDescribed h.withChecksum = isDescribed h := rfl
  simp only [headerIn, Header.ofBlock_toBytes, Header.checksum_withChecksum, Except.mapError,
    ok_bind, Header.byteSum_withChecksum, ne_eq, not_true_eq_false, if_false, size_applyOwners,
    Header.size_withChecksum, hs, hd, hn, pure_eq]

end Reader

/-- The header of a file with nothing but a name and a size. -/
def bareHeader (name : String) (size : ℕ) : Header :=
  { Header.blank with
    name := .ofBytes 100 (Utf8.encode name)
    size := .ofBytes 12 (octalField 12 size)
    kindByte := 48
    magic := .ofBytes 8 gnuMagic : Header }.withChecksum

lemma readNumber_bareHeader (name : String) {n : ℕ} (hn : (Nat.toDigits 8 n).length < 12) :
    readNumber (bareHeader name n).size.bytes = .ok n := by
  have hs : (bareHeader name n).size.bytes = octalField 12 n :=
    Field.bytes_ofBytes (length_octalField hn)
  have hlt : n < 8 ^ 11 :=
    (Nat.length_toDigits_le_iff (by decide) (by decide)).mp (Nat.le_of_lt_succ hn)
  rw [hs, readNumber_octalField hn (Nat.lt_trans hlt (by decide))]

end LayerPick.Tar
