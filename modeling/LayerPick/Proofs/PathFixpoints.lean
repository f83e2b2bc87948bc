import LayerPick.Proofs.EntryWriting
import LayerPick.Proofs.HeaderFields
import LayerPick.Proofs.PathFields

/-!
# Paths that are written again

Copying a path into a field puts bytes over its beginning, and which bytes these are depends on the
path but not on what the field holds. So a header that has been given a path, and that is given the
same path again, stays as it is. This goes for a path that the field does not take, too: what the
first attempt and the cut path have left is there again after the second time.
-/
namespace LayerPick.Tar

namespace Field

variable {n : ℕ}

/-- The field with some bytes put over its beginning. -/
def stamp (u : Bytes) (f : Field n) : Field n := ofBytes n (u ++ f.bytes.drop u.length)

lemma bytes_stamp {u : Bytes} (hu : u.length ≤ n) (f : Field n) :
    (f.stamp u).bytes = u ++ f.bytes.drop u.length := by
  refine bytes_ofBytes ?_
  rw [List.length_append, List.length_drop, f.length_bytes]
  omega

lemma stamp_stamp {u : Bytes} (hu : u.length ≤ n) (f : Field n) :
    (f.stamp u).stamp u = f.stamp u := by
  apply ext
  rw [bytes_stamp hu, bytes_stamp hu, List.drop_left' rfl]

/-- Behind the bytes that are put over it a field stays as it was. -/
lemma drop_stamp {u : Bytes} (hu : u.length ≤ n) (f : Field n) {k : ℕ} (hk : u.length ≤ k) :
    (f.stamp u).bytes.drop k = f.bytes.drop k := by
  rw [bytes_stamp hu, List.drop_append, List.drop_eq_nil_of_le hk, List.nil_append, List.drop_drop]
  congr 1
  omega

/-- Putting over a field the same two rows of bytes once more changes nothing. -/
lemma stamp_twice {u v : Bytes} (hu : u.length ≤ n) (hv : v.length ≤ n) (f : Field n) :
    (((f.stamp u).stamp v).stamp u).stamp v = (f.stamp u).stamp v := by
  rcases Nat.le_total u.length v.length with h | h
  · apply ext
    rw [bytes_stamp hv, drop_stamp hu _ h, drop_stamp hv _ (Nat.le_refl _), ← bytes_stamp hv]
  · have hsame : ((f.stamp u).stamp v).stamp u = f.stamp u := by
      apply ext
      rw [bytes_stamp hu, drop_stamp hv _ h, drop_stamp hu _ (Nat.le_refl _), ← bytes_stamp hu]
    rw [hsame]

end Field

namespace Slot

/-- The room behind a stroke: a NUL, and behind it what was there. -/
def roomBehind (b room : Bytes) : Bytes :=
  match room.drop b.length with
  | [] => []
  | _ :: r => 0 :: r

lemma length_roomBehind (b room : Bytes) :
    (roomBehind b room).length = room.length - b.length := by
  have hlen : (room.drop b.length).length = room.length - b.length := List.length_drop ..
  rw [← hlen, roomBehind]
  cases room.drop b.length <;> rfl

lemma put_eq (s : Slot) (b : Bytes) :
    s.put b =
      if s.room.length < b.length then .error .tooLong
      else if (0 : UInt8) ∈ b then .error .containsNul
      else .ok ⟨s.written ++ b, roomBehind b s.room⟩ := rfl

lemma drop_roomBehind (b room : Bytes) {k : ℕ} (hk : 0 < k) :
    (roomBehind b room).drop k = room.drop (b.length + k) := by
  rw [← List.drop_drop, roomBehind]
  obtain ⟨k, rfl⟩ : ∃ j, k = j + 1 := ⟨k - 1, by omega⟩
  cases room.drop b.length <;> rfl

/-- Strokes put bytes over the beginning of the room, and which these are depends only on how much
room there is. -/
lemma putAll_stamps (bs : List Bytes) (k : ℕ) :
    ∃ u : Bytes, u.length ≤ k ∧ ∀ s : Slot, s.room.length = k →
      (s.putAll bs).1.written ++ (s.putAll bs).1.room =
        s.written ++ (u ++ s.room.drop u.length) := by
  induction bs generalizing k with
  | nil => exact ⟨[], Nat.zero_le k, fun s _ => rfl⟩
  | cons b bs ih =>
    by_cases hlong : k < b.length
    · exact ⟨[], Nat.zero_le k, fun s hs => by simp [putAll, put_eq, hs, hlong]⟩
    by_cases hnul : (0 : UInt8) ∈ b
    · exact ⟨[], Nat.zero_le k, fun s hs => by simp [putAll, put_eq, hs, hlong, hnul]⟩
    obtain ⟨u, hu, hstamps⟩ := ih (k - b.length)
    have hstep (s : Slot) (hs : s.room.length = k) :
        (s.putAll (b :: bs)).1.written ++ (s.putAll (b :: bs)).1.room =
          s.written ++ (b ++ (u ++ (roomBehind b s.room).drop u.length)) := by
      have hput : s.put b = .ok ⟨s.written ++ b, roomBehind b s.room⟩ := by
        rw [put_eq, hs, if_neg hlong, if_neg hnul]
      simp only [putAll, hput]
      rw [hstamps _ (by rw [length_roomBehind, hs]), List.append_assoc]
    rcases u with _ | ⟨x, u⟩
    · by_cases hfull : k = b.length
      · refine ⟨b, by omega, fun s hs => ?_⟩
        have hnone : s.room.drop b.length = [] := List.drop_eq_nil_of_le (by omega)
        rw [hstep s hs, roomBehind, hnone]
        rfl
      · refine ⟨b ++ [0], by simp; omega, fun s hs => ?_⟩
        obtain ⟨y, r, hr⟩ : ∃ y r, s.room.drop b.length = y :: r :=
          List.exists_cons_of_ne_nil fun h => by
            have := List.drop_eq_nil_iff.mp h
            omega
        rw [hstep s hs, roomBehind, hr, List.length_append, ← List.drop_drop, hr]
        simp
    · refine ⟨b ++ x :: u, by simp at hu ⊢; omega, fun s hs => ?_⟩
      rw [hstep s hs, drop_roomBehind _ _ (by simp), List.length_append, List.append_assoc]

end Slot

namespace Field

variable {n : ℕ}

/-- Copying a path puts bytes over the beginning of a field, the same for all fields. -/
lemma setPath_stamps (n : ℕ) (cut : Bool) (p : String) :
    ∃ u : Bytes, u.length ≤ n ∧ ∀ f : Field n, (f.setPath cut p).1 = f.stamp u := by
  obtain ⟨u, hu, hstamps⟩ := Slot.putAll_stamps (pathStrokes cut p).1 n
  refine ⟨u, hu, fun f => ?_⟩
  have h := hstamps ⟨[], f.bytes⟩ f.length_bytes
  rw [List.nil_append] at h
  simp only [setPath, stamp, h]

end Field

namespace Header

def withName (h : Header) (f : Field 100) : Header := { h with name := f }

@[simp] lemma form_withName (h : Header) (f : Field 100) : (h.withName f).form = h.form := rfl

@[simp] lemma name_withName (h : Header) (f : Field 100) : (h.withName f).name = f := rfl

@[simp] lemma withName_withName (h : Header) (f g : Field 100) :
    (h.withName f).withName g = h.withName g := rfl

@[simp] lemma form_withChecksum (h : Header) : h.withChecksum.form = h.form := rfl

@[simp] lemma name_withChecksum (h : Header) : h.withChecksum.name = h.name := rfl

lemma withName_self {h : Header} {f : Field 100} (hf : f = h.name) : h.withName f = h := by
  subst hf
  rfl

/-- Which bytes a path puts over the name of a header is the same for all headers. -/
lemma setName_stamps (cut : Bool) (p : String) :
    ∃ u : Bytes, u.length ≤ 100 ∧
      ∀ h : Header, (h.setName cut p).1 = h.withName (h.name.stamp u) := by
  obtain ⟨u, hu, hstamps⟩ := Field.setPath_stamps 100 cut p
  exact ⟨u, hu, fun h => by simp only [setName, hstamps, withName]⟩

/-- Whether a header takes a path as its name does not depend on what it holds. -/
lemma setName_fault (h g : Header) (cut : Bool) (p : String) :
    (h.setName cut p).2 = none ↔ (g.setName cut p).2 = none := by
  simp only [setName, Option.map_eq_none_iff, Field.setPath_fault h.name g.name cut p]

end Header

/-- Outside the ustar form a path is first tried as the name, and cut if that fails. -/
lemma placePath_name {h : Header} (hform : h.form ≠ .ustar) (p : String) :
    placePath h p =
      if (h.setName false p).2 = none then ([], (h.setName false p).1, none)
      else if (Utf8.encode p).length < 100 then
        ([], (h.setName false p).1, (h.setName false p).2)
      else
        let cut := (h.setName false p).1.setName true (beginning 100 p)
        (if cut.2 = none then longNameCalls (Utf8.encode p) else [], cut.1, cut.2) := by
  have hform' : (h.setName false p).1.form ≠ .ustar := hform
  simp only [placePath, Header.setPath, hform, false_and, if_false]
  rcases hs : h.setName false p with ⟨h₁, _ | e⟩
  · simp
  · rw [hs] at hform'
    simp only [reduceCtorEq, if_false, Header.setCutPath, hform']
    rcases h₁.setName true (beginning 100 p) with ⟨h₂, _ | e'⟩ <;> simp

/-- What a path does to headers of the old and the GNU form: it writes over their names, and writing
the same once more changes nothing; and whether it fails, and what is written before the header, is
the same for all of them. -/
lemma placePath_writes (p : String) :
    ∃ (write : Field 100 → Field 100) (before : List Bytes) (taken : Prop),
      (∀ f, write (write f) = write f) ∧ ∀ h : Header, h.form ≠ .ustar →
        (placePath h p).1 = before ∧ (placePath h p).2.1 = h.withName (write h.name) ∧
          ((placePath h p).2.2 = none ↔ taken) := by
  obtain ⟨u, hu, hname⟩ := Header.setName_stamps false p
  obtain ⟨v, hv, hcut⟩ := Header.setName_stamps true (beginning 100 p)
  have htaken (h : Header) := Header.setName_fault h .blank false p
  have hfits (h : Header) := Header.setName_fault h .blank true (beginning 100 p)
  by_cases h₁ : (Header.blank.setName false p).2 = none
  · refine ⟨Field.stamp u, [], True, Field.stamp_stamp hu, fun h hform => ?_⟩
    rw [placePath_name hform, if_pos ((htaken h).mpr h₁), hname]
    exact ⟨rfl, rfl, by simp⟩
  by_cases h₂ : (Utf8.encode p).length < 100
  · refine ⟨Field.stamp u, [], False, Field.stamp_stamp hu, fun h hform => ?_⟩
    have hno := mt (htaken h).mp h₁
    rw [placePath_name hform, if_neg hno, if_pos h₂, hname]
    exact ⟨rfl, rfl, iff_of_false hno id⟩
  · -- The first attempt leaves its traces again, and the cut path covers them as before.
    refine ⟨fun f => (f.stamp u).stamp v,
      if (Header.blank.setName true (beginning 100 p)).2 = none then longNameCalls (Utf8.encode p)
      else [],
      (Header.blank.setName true (beginning 100 p)).2 = none, Field.stamp_twice hu hv,
      fun h hform => ?_⟩
    rw [placePath_name hform, if_neg (mt (htaken h).mp h₁), if_neg h₂]
    simp only [hcut, hname, hfits (h.withName (h.name.stamp u)), Header.name_withName,
      Header.withName_withName, and_self]

/-- A header of the old or the GNU form that has been given a path, and its checksum, stays as it is
when it is given this path again; and what is written before it is the same. -/
theorem placePath_again {h h' : Header} (hform : h.form ≠ .ustar) {p : String} {before : List Bytes}
    (hp : placePath h p = (before, h', none)) :
    placePath h'.withChecksum p = (before, h'.withChecksum, none) := by
  obtain ⟨write, before', taken, hwrite, hplace⟩ := placePath_writes p
  obtain ⟨hbefore, hheader, htaken⟩ := hplace h hform
  rw [hp] at hbefore hheader htaken
  dsimp only at hbefore hheader htaken
  subst hbefore hheader
  obtain ⟨hbefore', hheader', htaken'⟩ := hplace (h.withName (write h.name)).withChecksum
    (by simpa using hform)
  refine Prod.ext hbefore' (Prod.ext (hheader'.trans ?_) (htaken'.mpr (htaken.mp rfl)))
  exact Header.withName_self (by simp [hwrite])

/-- So all that is written before the content of an entry is the same once more. -/
theorem frontCalls_again {h : Header} (hform : h.form ≠ .ustar) {p : String}
    {rs : List Pax.Record} (hp : (frontCalls h p rs).2 = none) :
    frontCalls (placePath h p).2.1.withChecksum p rs = frontCalls h p rs := by
  rw [frontCalls_snd] at hp
  rcases hplace : placePath h p with ⟨before, h', _ | e⟩
  · simp only [frontCalls, hplace, placePath_again hform hplace, Header.withChecksum_withChecksum]
  · simp [hplace] at hp

end LayerPick.Tar
