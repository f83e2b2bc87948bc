import LayerPick.Proofs.Appending

/-!
# What attempts leave on a device

On a device that takes everything, an attempt leaves its `footprint`: the entry as a whole, or, if
its path could not be written, the records that stand before the path. A row of footprints unpacks
to the entries that have been written just if each attempt `IsClean` and nothing follows but the
end. For records that are left over are taken for records of the next entry.
-/
namespace LayerPick

open Tar

namespace Attempt

/-- The bytes that an attempt leaves on a device that takes everything. -/
def footprint (a : Attempt) : Bytes :=
  if a.isWritten then
    (frontCalls a.header a.path a.records).1.flatten ++
      (a.content.bytes ++ zeros (padding a.content.bytes.length))
  else (if a.records.isEmpty then [] else extendedCalls a.records).flatten

/-- An attempt that has either written its entry or failed at its path. -/
structure IsSound (a : Attempt) : Prop where
  isPlain : ∃ ns, (∀ n ∈ ns, Path.IsPlain n) ∧ a.path = Path.join ns
  isCarried : ∀ r ∈ a.records, r.IsCarried
  isEntry : a.header.describes = false
  placed : (frontCalls a.header a.path a.records).2 = none ↔ a.isWritten = true
  announces : a.isWritten = true → a.header.kind ≠ .sparse →
    announcedWith a.header a.records = .ok a.content.bytes.length

/-- An attempt that leaves nothing if it fails, and whose path is read back if it is written. -/
structure IsClean (a : Attempt) : Prop where
  nothing : a.isWritten = false → a.records = []
  front : a.isWritten = true → ¬a.header.KeepsFront a.path

end Attempt

lemma isClean_written {a : Attempt} (h : a.isWritten = true)
    (hfront : ¬a.header.KeepsFront a.path) : a.IsClean := by
  refine ⟨fun hf => ?_, fun _ => hfront⟩
  rw [h] at hf
  simp at hf

lemma isClean_failed {a : Attempt} (h : a.isWritten = false) (hr : a.records = []) :
    a.IsClean := by
  refine ⟨fun _ => hr, fun ht => ?_⟩
  rw [h] at ht
  simp at ht

/-- The bytes that attempts leave, one behind the other. -/
def footprints (as : List Attempt) : Bytes := as.flatMap Attempt.footprint

section Row

variable {a : Attempt} {as : List Attempt}

lemma footprints_cons (a : Attempt) (as : List Attempt) :
    footprints (a :: as) = a.footprint ++ footprints as := List.flatMap_cons

lemma writtenBy_cons (h : a.isWritten = true) :
    writtenBy (a :: as) = a.toRequest.unpacked :: writtenBy as := by
  simp [writtenBy, h]

lemma writtenBy_cons_failed (h : a.isWritten = false) : writtenBy (a :: as) = writtenBy as := by
  simp [writtenBy, h]

lemma footprint_failed (h : a.isWritten = false) :
    a.footprint = (if a.records.isEmpty then [] else extendedCalls a.records).flatten := by
  simp [Attempt.footprint, h]

/-- Nothing is left of an entry without records that has failed. -/
lemma footprint_nothing (h : a.isWritten = false) (hr : a.records = []) : a.footprint = [] := by
  rw [footprint_failed h, hr]
  rfl

lemma footprint_written (h : a.isWritten = true) :
    a.footprint = (frontCalls a.header a.path a.records).1.flatten ++
      (a.content.bytes ++ zeros (padding a.content.bytes.length)) := by
  simp [Attempt.footprint, h]

lemma footprint_records (h : a.records ≠ []) :
    ∃ more, a.footprint = (extendedCalls a.records).flatten ++ more := by
  have hne : a.records.isEmpty = false := by simpa using h
  cases hw : a.isWritten with
  | false => exact ⟨[], by simp [footprint_failed hw, hne]⟩
  | true =>
    obtain ⟨calls, hcalls⟩ := frontCalls_records a.header a.path a.records
    rw [footprint_written hw, hcalls, hne, List.flatten_append, List.append_assoc]
    exact ⟨_, rfl⟩

lemma length_writtenBy (has : ∀ a ∈ as, a.IsSound) :
    (writtenBy as).length * blockSize ≤ (footprints as).length := by
  induction as with
  | nil => simp [writtenBy]
  | cons a as ih =>
    have hle := ih fun x hx => has x (List.mem_cons_of_mem _ hx)
    rw [footprints_cons, List.length_append]
    cases hw : a.isWritten with
    | false =>
      rw [writtenBy_cons_failed hw]
      omega
    | true =>
      have hblock := blockSize_le_frontCalls ((has a (List.mem_cons_self ..)).placed.mpr hw)
      rw [writtenBy_cons hw, List.length_cons, Nat.add_mul, footprint_written hw,
        List.length_append]
      omega

lemma Attempt.IsSound.isStorable (ha : a.IsSound) (hw : a.isWritten = true)
    (hk : a.header.kind ≠ .sparse) : a.toRequest.IsStorable :=
  ⟨ha.isPlain, ha.isCarried, ha.isEntry, ha.announces hw hk, Header.yields_of_ne hk _⟩

/-- What is stored for an entry holds it, under the path that it was stored under. -/
lemma holds_footprint (ha : a.IsSound) (hw : a.isWritten = true) (hk : a.header.kind ≠ .sparse)
    (hb : (Pax.encode a.records).length < Numeral.bound) : Holds a.footprint [a.stored] := by
  rw [footprint_written hw]
  exact (ha.isStorable hw hk).holds (ha.placed.mpr hw) hb

lemma stored_iff (ha : a.IsSound) (hw : a.isWritten = true) (hk : a.header.kind ≠ .sparse) :
    a.stored = a.unpacked ↔ ¬a.header.KeepsFront a.path :=
  (ha.isStorable hw hk).stored_eq_iff (ha.placed.mpr hw)

lemma length_encode_le_footprint (a : Attempt) :
    (Pax.encode a.records).length ≤ a.footprint.length := by
  cases hw : a.isWritten with
  | true =>
    have hle := Reader.length_encode_le a.header a.path a.records
    rw [footprint_written hw, List.length_append]
    omega
  | false =>
    rw [footprint_failed hw]
    cases hr : a.records with
    | nil => simp [Pax.encode]
    | cons r rs =>
      simp only [List.isEmpty_cons, Bool.false_eq_true, if_false, extendedCalls_flatten,
        length_memberBytes]
      omega

/-- The entries that have been written, as they are stored. -/
def storedBy (as : List Attempt) : List Unpacked :=
  (as.filter Attempt.isWritten).map fun a => a.stored

/-- Attempts that leave nothing where they fail leave what holds the entries that were written. -/
theorem holds_storedBy (hn : ∀ a ∈ as, a.isWritten = false → a.records = [])
    (hw : ∀ a ∈ as, a.isWritten = true →
      a.IsStorable ∧ (frontCalls a.header a.path a.records).2 = none)
    (hfits : (footprints as).length < Numeral.bound) : Holds (footprints as) (storedBy as) := by
  induction as with
  | nil => exact Holds.nil
  | cons a as ih =>
    rw [footprints_cons, List.length_append] at hfits
    have hrest := ih (fun x hx => hn x (List.mem_cons_of_mem _ hx))
      (fun x hx => hw x (List.mem_cons_of_mem _ hx)) (by omega)
    rw [footprints_cons]
    cases ha : a.isWritten with
    | true =>
      have hle := length_encode_le_footprint a
      obtain ⟨hstorable, hplaced⟩ := hw a (List.mem_cons_self ..) ha
      have hone := hstorable.holds hplaced (by omega)
      rw [← footprint_written ha] at hone
      rw [storedBy, List.filter_cons_of_pos ha]
      exact hone.append hrest
    | false =>
      rw [storedBy, List.filter_cons_of_neg (by simp [ha]),
        footprint_nothing ha (hn a (List.mem_cons_self ..) ha)]
      exact hrest

/-- Clean attempts leave what holds their entries. -/
theorem holds_footprints (has : ∀ a ∈ as, a.IsSound) (hclean : ∀ a ∈ as, a.IsClean)
    (hk : ∀ a ∈ as, a.isWritten = true → a.header.kind ≠ .sparse)
    (hfits : (footprints as).length < Numeral.bound) : Holds (footprints as) (writtenBy as) := by
  have hsame : storedBy as = writtenBy as := by
    apply List.map_congr_left
    intro a ha
    obtain ⟨ha, hw⟩ := List.mem_filter.mp ha
    exact (stored_iff (has a ha) hw (hk a ha hw)).mpr ((hclean a ha).front hw)
  rw [← hsame]
  exact holds_storedBy (fun a ha => (hclean a ha).nothing)
    (fun a ha hw => ⟨(has a ha).isStorable hw (hk a ha hw), (has a ha).placed.mpr hw⟩) hfits

end Row

section Unpacking

variable {as : List Attempt} {t : Bytes} {r r' : Reader}

/-- An entry behind records that have been taken in has none of its own. -/
lemma records_of_leftOver (has : ∀ a ∈ as, a.IsSound) (hr : r.StandsAt (footprints as ++ t))
    (hfits : r.next + (footprints as).length < Numeral.bound) {m : ℕ} {d : Described}
    (hd : d.pax.isSome = true) {x : Option (Entry × Reader)}
    (h : Reader.nextFrom? (m + 1) d r = .ok x) : ∀ u ∈ (writtenBy as).head?, u.records = [] := by
  induction as with
  | nil => simp [writtenBy]
  | cons a as ih =>
    rw [footprints_cons, List.length_append] at hfits
    rw [footprints_cons, List.append_assoc] at hr
    -- Attempts that have left nothing are passed over, and more records would be an error.
    by_cases hrecords : a.records = []
    · cases hw : a.isWritten with
      | true =>
        rw [writtenBy_cons hw]
        rintro u ⟨⟩
        exact hrecords
      | false =>
        rw [footprint_nothing hw hrecords, List.nil_append] at hr
        rw [writtenBy_cons_failed hw]
        exact ih (fun x hx => has x (List.mem_cons_of_mem _ hx)) hr (by omega)
    · obtain ⟨more, hmore⟩ := footprint_records hrecords
      rw [hmore, List.append_assoc] at hr
      rw [hmore, List.length_append] at hfits
      rw [hr.nextFrom?_twoExtended hd (by omega)] at h
      simp at h

lemma not_unpacked_of_leftOver {rs : List Pax.Record} (hne : rs ≠ [])
    (hrs : ∀ x ∈ rs, x.IsCarried) (has : ∀ a ∈ as, a.IsSound)
    (hr : r.StandsAt ((extendedCalls rs).flatten ++ (footprints as ++ t)))
    (hfits : r.next + ((extendedCalls rs).flatten.length + (footprints as).length) <
      Numeral.bound) (n : ℕ) : r.unpackWithin (n + 1) ≠ .ok (writtenBy as) := by
  intro hu
  have hrec : (if rs.isEmpty then [] else extendedCalls rs) = extendedCalls rs := by
    rw [if_neg (by simpa using hne)]
  have hlen : (Pax.encode rs).length < Numeral.bound := by
    rw [extendedCalls_flatten, length_memberBytes] at hfits
    omega
  rw [← hrec] at hr
  obtain ⟨k, r₁, hn, hk, hat, hnext⟩ := hr.nextFrom?_records (m := 3) (by rw [hrec]; omega)
  rw [hrec] at hnext
  obtain ⟨k, rfl⟩ : ∃ j, k = j + 1 := ⟨k - 1, by omega⟩
  have hpax : paxData rs = some (Pax.encode rs) := if_neg (by simpa using hne)
  obtain ⟨x, hx, hu⟩ := bind_ok.mp hu
  have hx₁ : Reader.nextFrom? (k + 1) { pax := paxData rs } r₁ = .ok x := hn ▸ hx
  cases x with
  | none =>
    have hempty := (Reader.nextFrom?_none.mp hx₁).2
    simp [Described.isEmpty, hpax] at hempty
  | some x =>
    obtain ⟨e, r₂⟩ := x
    obtain ⟨es, he, hu⟩ := bind_ok.mp hu
    obtain ⟨⟨b, c⟩, -, hu⟩ := bind_ok.mp hu
    obtain ⟨us, -, hu⟩ := bind_ok.mp hu
    have hhead : (writtenBy as).head? = some ⟨e.path, es, b⟩ := by
      rw [← Except.ok.inj hu]
      rfl
    have hnone := records_of_leftOver has hat (by omega) (by simp [hpax]) hx₁ _ hhead
    have hepax : e.pax = paxData rs :=
      (Reader.nextFrom?_pax (by exact hpax) hx₁).trans hpax.symm
    rw [Reader.records_of_pax hrs hlen hepax] at he
    exact hne ((Except.ok.inj he).trans hnone)

/-- Attempts whose entries are unpacked, and nothing else, were clean, and the end follows them. -/
lemma isClean_of_unpackWithin (has : ∀ a ∈ as, a.IsSound)
    (hk : ∀ a ∈ as, a.isWritten = true → a.header.kind ≠ .sparse)
    (hr : r.StandsAt (footprints as ++ t))
    (hfits : r.next + (footprints as).length < Numeral.bound) {n : ℕ}
    (hn : (writtenBy as).length < n) (hu : r.unpackWithin n = .ok (writtenBy as)) :
    (∀ a ∈ as, a.IsClean) ∧ (t = [] ∨ zeros blockSize <+: t) := by
  obtain ⟨n, rfl⟩ : ∃ m, n = m + 1 := ⟨n - 1, by omega⟩
  induction as generalizing r n with
  | nil => exact ⟨by simp, hr.nextBlock?_none.mp (Reader.unpackWithin_nil.mp hu)⟩
  | cons a as ih =>
    have ha := has a (List.mem_cons_self ..)
    have has' : ∀ x ∈ as, x.IsSound := fun x hx => has x (List.mem_cons_of_mem _ hx)
    have hk' := fun x hx => hk x (List.mem_cons_of_mem _ hx)
    rw [footprints_cons, List.length_append] at hfits
    rw [footprints_cons, List.append_assoc] at hr
    cases hw : a.isWritten with
    | true =>
      have hle := length_encode_le_footprint a
      have hka := hk a (List.mem_cons_self ..) hw
      have hone := holds_footprint ha hw hka (by omega)
      obtain ⟨r', hat, hnext, hreads⟩ := hone.reads r _ hr (by omega)
      rw [writtenBy_cons hw, List.length_cons] at hn
      obtain ⟨n, rfl⟩ : ∃ m, n = m + 1 := ⟨n - 1, by omega⟩
      rw [writtenBy_cons hw, Nat.add_comm, ← List.length_singleton, hreads] at hu
      obtain ⟨us, hus, he⟩ := map_ok.mp hu
      obtain ⟨hhead, htail⟩ := List.cons.inj he
      obtain ⟨hclean, hend⟩ := ih has' hk' hat (by omega) n (by omega) (htail ▸ hus)
      have hfront := (stored_iff ha hw hka).mp hhead
      exact ⟨List.forall_mem_cons.mpr ⟨isClean_written hw hfront, hclean⟩, hend⟩
    | false =>
      rw [writtenBy_cons_failed hw] at hn hu
      have hrecords : a.records = [] := by
        by_contra hne
        have hf : a.footprint = (extendedCalls a.records).flatten := by
          rw [footprint_failed hw, if_neg (by simpa using hne)]
        rw [hf] at hr hfits
        exact not_unpacked_of_leftOver hne ha.isCarried has' hr (by omega) n hu
      rw [footprint_nothing hw hrecords, List.nil_append] at hr
      obtain ⟨hclean, hend⟩ := ih has' hk' hr (by omega) n hn hu
      exact ⟨List.forall_mem_cons.mpr ⟨isClean_failed hw hrecords, hclean⟩, hend⟩

/-- What attempts have left unpacks to the entries that were written just if the attempts were
clean, and nothing but the end follows. -/
theorem unpack_footprints (has : ∀ a ∈ as, a.IsSound)
    (hk : ∀ a ∈ as, a.isWritten = true → a.header.kind ≠ .sparse)
    (hfits : (footprints as).length < Numeral.bound) :
    unpack (footprints as ++ t) = .ok (writtenBy as) ↔
      (∀ a ∈ as, a.IsClean) ∧ (t = [] ∨ zeros blockSize <+: t) := by
  constructor
  · intro hu
    have hat := Reader.standsAt_ofBytes (footprints as ++ t)
    refine isClean_of_unpackWithin has hk hat (by simpa [Reader.ofSource] using hfits) ?_ hu
    have hle := length_writtenBy has
    have hlen : (Source.ofBytes (footprints as ++ t)).length = (footprints as ++ t).length := by
      rw [Source.length_eq, Source.data_ofBytes]
    have hdiv : (writtenBy as).length ≤ (footprints as ++ t).length / blockSize := by
      rw [Nat.le_div_iff_mul_le (by decide), List.length_append]
      omega
    simp only [Reader.mostEntries, Reader.ofSource, hlen]
    omega
  · rintro ⟨hclean, hend⟩
    exact ((holds_footprints has hclean hk hfits).unpack_iff hfits).mpr hend

end Unpacking

end LayerPick
