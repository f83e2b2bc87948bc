import LayerPick.Gzip.Member
import Mathlib.Algebra.Group.Nat.Defs
import Mathlib.Tactic.SplitIfs

/-!
# Gzip of stored blocks

A member whose data are stored as they are is read back whole: each block gives its bytes and stands
on a byte boundary, the last one says that it is the last, and the checksum and the length behind it
are those of the data.
-/
namespace LayerPick.Gzip

lemma length_toLittleEndian (width n : ℕ) : (toLittleEndian width n).length = width := by
  induction width generalizing n with
  | zero => rfl
  | succ width ih => simp [toLittleEndian, ih]

lemma littleEndian_toLittleEndian {width n : ℕ} (hn : n < 256 ^ width) :
    littleEndian (toLittleEndian width n) = n := by
  induction width generalizing n with
  | zero =>
    obtain rfl : n = 0 := by simpa using hn
    rfl
  | succ width ih =>
    have hdiv : n / 256 < 256 ^ width := by
      rw [Nat.div_lt_iff_lt_mul (by decide)]
      rwa [Nat.pow_succ] at hn
    have hrest := ih hdiv
    have hb : (UInt8.ofNat (n % 256)).toNat = n % 256 := by simp
    unfold littleEndian at hrest ⊢
    simp only [toLittleEndian, List.foldr_cons, hrest, hb]
    omega

lemma toLittleEndian_two {n : ℕ} (hn : n < 65536) :
    ∃ x y : UInt8, toLittleEndian 2 n = [x, y] ∧ x.toNat + 256 * y.toNat = n := by
  refine ⟨UInt8.ofNat (n % 256), UInt8.ofNat (n / 256 % 256), rfl, ?_⟩
  simp only [UInt8.toNat_ofNat']
  omega

lemma foldl_push (out : Array UInt8) (b : Bytes) :
    (b.foldl Array.push out).toList = out.toList ++ b := by
  induction b generalizing out with
  | nil => simp
  | cons x b ih => simp

/-- Bytes behind the first bits of a byte are read from the next byte on. -/
lemma inflateStored_block (out : Array UInt8) {bits : Bits} {b tail : Bytes}
    (hb : b.length ≤ maxStored)
    (hrest : bits.rest = toLittleEndian 2 b.length ++ (toLittleEndian 2 (65535 - b.length) ++
      (b ++ tail))) :
    inflateStored out bits = ⟨b.foldl Array.push out, .ok (.ofBytes tail)⟩ := by
  unfold maxStored at hb
  obtain ⟨x, y, hxy, hn⟩ := toLittleEndian_two (show b.length < 65536 by omega)
  obtain ⟨u, v, huv, hm⟩ := toLittleEndian_two (show 65535 - b.length < 65536 by omega)
  have hr : bits.align.rest = x :: y :: u :: v :: (b ++ tail) := by
    rw [hxy, huv] at hrest
    exact hrest
  have hdrop : (x :: y :: u :: v :: (b ++ tail)).drop (4 + b.length) = tail := by
    rw [← List.drop_drop]
    exact List.drop_left' rfl
  simp only [inflateStored, hr, List.headD_cons, List.drop_succ_cons, List.drop_zero, hn, hm]
  rw [if_neg (by simp), if_neg (by omega)]
  simp only [List.take_left' rfl, Nat.lt_irrefl, if_false]
  rw [hdrop]

/-- Three bits stand before a stored block: the mark of the last one, and its type. -/
lemma blockStart (last : Bool) (r : Bytes) :
    (do
      let (l, bits) ← (Bits.ofBytes ((if last then 1 else 0) :: r)).next
      let (type, bits) ← bits.number 2
      return (l, type, bits) : Except Stop (Bool × ℕ × Bits)) = .ok (last, 0, ⟨0, 5, r⟩) := by
  cases last <;>
    simp [Bits.ofBytes, Bits.next, Bits.number, bind, Except.bind, pure, Except.pure]

lemma inflateBlocks_block {tries : ℕ} (out : Array UInt8) (last : Bool) {b : Bytes} (tail : Bytes)
    (hb : b.length ≤ maxStored) :
    inflateBlocks (tries + 1) out (.ofBytes (storedBlock last b ++ tail)) =
      if last then ⟨b.foldl Array.push out, .ok (.ofBytes tail)⟩
      else inflateBlocks tries (b.foldl Array.push out) (.ofBytes tail) := by
  have hstored : inflateBlock 0 out ⟨0, 5, toLittleEndian 2 b.length ++
      (toLittleEndian 2 (65535 - b.length) ++ (b ++ tail))⟩ =
        ⟨b.foldl Array.push out, .ok (.ofBytes tail)⟩ := by
    rw [inflateBlock, if_pos rfl]
    exact inflateStored_block out hb rfl
  have hbytes : storedBlock last b ++ tail = (if last then 1 else 0) ::
      (toLittleEndian 2 b.length ++ (toLittleEndian 2 (65535 - b.length) ++ (b ++ tail))) := by
    simp [storedBlock]
  rw [hbytes]
  simp only [inflateBlocks, blockStart, hstored]

lemma length_storedBlocks {tries : ℕ} {b : Bytes} (hb : b.length ≤ (tries + 1) * maxStored) :
    b.length ≤ (storedBlocks tries b).length := by
  induction tries generalizing b with
  | zero =>
    have ht : b.take maxStored = b := List.take_of_length_le (by omega)
    simp only [storedBlocks, storedBlock, ht, List.length_cons, List.length_append]
    omega
  | succ tries ih =>
    simp only [storedBlocks]
    by_cases he : (b.drop maxStored).isEmpty = true
    · rw [if_pos he]
      simp only [storedBlock, List.length_cons, List.length_append]
      omega
    · rw [if_neg he]
      have hmul : (tries + 1 + 1) * maxStored = (tries + 1) * maxStored + maxStored :=
        Nat.succ_mul _ _
      have hrest := ih (b := b.drop maxStored) (by rw [List.length_drop]; omega)
      have hsum := congrArg List.length (List.take_append_drop maxStored b)
      simp only [storedBlock, List.length_cons, List.length_append] at hsum ⊢
      omega

lemma inflateBlocks_stored {k tries : ℕ} (out : Array UInt8) {b : Bytes} (tail : Bytes)
    (hb : b.length ≤ (k + 1) * maxStored) (ht : k < tries) :
    inflateBlocks tries out (.ofBytes (storedBlocks k b ++ tail)) =
      ⟨b.foldl Array.push out, .ok (.ofBytes tail)⟩ := by
  induction k generalizing tries out b with
  | zero =>
    obtain ⟨tries, rfl⟩ : ∃ t, tries = t + 1 := ⟨tries - 1, by omega⟩
    have htake : b.take maxStored = b := List.take_of_length_le (by omega)
    rw [storedBlocks, htake, inflateBlocks_block out true tail (by omega), if_pos rfl]
  | succ k ih =>
    obtain ⟨tries, rfl⟩ : ∃ t, tries = t + 1 := ⟨tries - 1, by omega⟩
    simp only [storedBlocks]
    by_cases he : (b.drop maxStored).isEmpty = true
    · have hle : b.length ≤ maxStored := by
        rw [List.isEmpty_iff, List.drop_eq_nil_iff] at he
        exact he
      rw [if_pos he, inflateBlocks_block out true tail hle, if_pos rfl]
    · have hmul : (k + 1 + 1) * maxStored = (k + 1) * maxStored + maxStored := Nat.succ_mul _ _
      have hdrop : (b.drop maxStored).length ≤ (k + 1) * maxStored := by
        rw [List.length_drop]
        omega
      rw [if_neg he, List.append_assoc,
        inflateBlocks_block out false _ (List.length_take_le _ _), if_neg (by decide),
        ih _ hdrop (by omega), ← List.foldl_append, List.take_append_drop]

lemma inflate_stored (b tail : Bytes) :
    inflate (storedBlocks (b.length / maxStored) b ++ tail) = ⟨b.toArray, .ok (.ofBytes tail)⟩ := by
  have hblocks : b.length ≤ (b.length / maxStored + 1) * maxStored := by
    have := Nat.div_add_mod b.length maxStored
    have := Nat.mod_lt b.length (show 0 < maxStored by decide)
    rw [Nat.add_mul, Nat.mul_comm]
    omega
  have hdata : b.foldl Array.push #[] = b.toArray := by
    rw [← Array.toList_inj, foldl_push, List.nil_append]
  rw [← hdata]
  refine inflateBlocks_stored #[] tail hblocks ?_
  have hlen := length_storedBlocks hblocks
  have hle := Nat.div_le_self b.length maxStored
  rw [List.length_append]
  omega

lemma checkTrailer_written (data : Bytes) :
    checkTrailer data (toLittleEndian 4 (crc32 data).toNat ++
      toLittleEndian 4 (data.length % UInt32.size)) = none := by
  have hl := length_toLittleEndian 4 (crc32 data).toNat
  have hl' := length_toLittleEndian 4 (data.length % UInt32.size)
  have hcrc : (crc32 data).toNat < 256 ^ 4 := (crc32 data).toNat_lt
  have hlen : data.length % UInt32.size < 256 ^ 4 := Nat.mod_lt _ (by decide)
  simp only [checkTrailer, List.length_append, hl, hl', List.take_left' hl, List.drop_left' hl,
    List.take_of_length_le (Nat.le_of_eq hl'), littleEndian_toLittleEndian hcrc,
    littleEndian_toLittleEndian hlen]
  rfl

lemma checkTrailer_append {data b : Bytes} (h : checkTrailer data b = none) (t : Bytes) :
    checkTrailer data (b ++ t) = none := by
  simp only [checkTrailer] at h ⊢
  split_ifs at h with hl hsums
  have htake : (b ++ t).take 4 = b.take 4 := List.take_append_of_le_length (by omega)
  have hdrop : ((b ++ t).drop 4).take 4 = (b.drop 4).take 4 := by
    rw [List.drop_append_of_le_length (by omega),
      List.take_append_of_le_length (by rw [List.length_drop]; omega)]
  rw [if_neg (by rw [List.length_append]; omega), htake, hdrop, if_pos hsums]

/-- Data are read back from the member that they are stored in. -/
theorem read_encode (b : Bytes) : read (encode b) = ⟨b, none⟩ := by
  have hskip : skipHeader (encode b) = .ok (storedBlocks (b.length / maxStored) b ++
      (toLittleEndian 4 (crc32 b).toNat ++ toLittleEndian 4 (b.length % UInt32.size))) := by
    simp [skipHeader, encode, isGzip, hasFlag]
    rfl
  simp only [read, hskip, inflate_stored, Bits.align, Bits.ofBytes, checkTrailer_written]

end LayerPick.Gzip
