import LayerPick.Proofs.StoredEntry

/-!
# Unpacking an archive

`unpack` reads an archive to its end: the path of each entry, the records before it, and its
content. Bytes `Holds` some entries if a reader finds just these in them, wherever they stand in an
archive and whatever follows. Such bytes may be put one behind the other, and the trailer ends them.
Behind them nothing else may stand: even one more header is an entry or an error.
-/
namespace LayerPick.Tar

structure Unpacked where
  path : Bytes
  records : List Pax.Record
  content : Bytes
  deriving DecidableEq

/-- Unpacks the entries that a reader stands before, at most `tries` of them. -/
def Reader.unpackWithin : (tries : ℕ) → Reader → Except ReadError (List Unpacked)
  | 0, _ => .ok []
  | tries + 1, r => do
    match ← r.next? with
    | none => .ok []
    | some (e, r') =>
      let records ← e.records
      let (content, c) ← r'.content.drain.mapError .stream
      let later ← unpackWithin tries { r' with content := c }
      .ok (⟨e.path, records, content⟩ :: later)

def unpack (b : Bytes) : Except ReadError (List Unpacked) :=
  let r := Reader.ofSource (.ofBytes b)
  r.unpackWithin (r.mostEntries + 1)

namespace Reader

lemma next?_none {r : Reader} : r.next? = .ok none ↔ r.nextBlock? = .ok none := by
  simp [next?, nextFrom?_none, Described.isEmpty]

/-- Nothing is unpacked where an archive ends, and only there. -/
lemma unpackWithin_nil {n : ℕ} {r : Reader} :
    unpackWithin (n + 1) r = .ok [] ↔ r.nextBlock? = .ok none := by
  rw [← next?_none]
  simp only [unpackWithin, bind_ok]
  constructor
  · rintro ⟨_ | ⟨e, r'⟩, hn, h⟩
    · exact hn
    · obtain ⟨rs, -, h⟩ := bind_ok.mp h
      obtain ⟨⟨b, c⟩, -, h⟩ := bind_ok.mp h
      obtain ⟨us, -, h⟩ := bind_ok.mp h
      simp at h
  · exact fun h => ⟨none, h, rfl⟩

/-- Where an entry stands, it is unpacked as long as its content is announced, and then what
follows. -/
lemma StandsAt.unpackWithin_stored {r : Reader} {rest : Bytes} {ns : List Path.Name}
    (hns : ∀ x ∈ ns, Path.IsPlain x) {h : Header} {rs : List Pax.Record}
    (hrs : ∀ x ∈ rs, x.IsCarried) (hd : h.describes = false) {n : ℕ} (hy : h.Yields n n)
    (hp : (frontCalls h (Path.join ns) rs).2 = none) (hn : announced h (paxData rs) = .ok n)
    (hr : r.StandsAt ((frontCalls h (Path.join ns) rs).1.flatten ++ rest))
    (hfits : r.next + (frontCalls h (Path.join ns) rs).1.flatten.length + (n + padding n) <
      Numeral.bound) :
    ∃ s,
      (∀ tries, unpackWithin (tries + 1) r =
        (unpackWithin tries ⟨⟨[], s, r.next + (frontCalls h (Path.join ns) rs).1.flatten.length +
            (rest.take n).length⟩,
          r.next + (frontCalls h (Path.join ns) rs).1.flatten.length + (n + padding n),
          false⟩).map (⟨storedPath h (Path.join ns), rs, rest.take n⟩ :: ·)) ∧
      s.IsCalm ∧ s.data = rest.drop n := by
  obtain ⟨e, ps, s, hnext, hcover, hc, rfl, hrecords, hpath⟩ :=
    hr.next?_stored hns hrs hp hn hd hy hfits
  obtain ⟨s', hdr, hc', hd'⟩ := Content.drain_cover hcover hc
    (r.next + (frontCalls h (Path.join ns) rs).1.flatten.length)
  refine ⟨s', fun tries => ?_, hc', hd'⟩
  simp only [unpackWithin, hnext, ok_bind, hrecords, hdr, Except.mapError, hpath]
  cases unpackWithin tries _ <;> rfl

end Reader

/-- A reader finds these entries in the bytes, wherever they stand and whatever follows them. -/
structure Holds (b : Bytes) (us : List Unpacked) : Prop where
  length : us.length * blockSize ≤ b.length
  reads : ∀ (r : Reader) (rest : Bytes), r.StandsAt (b ++ rest) →
    r.next + b.length < Numeral.bound →
    ∃ r' : Reader, r'.StandsAt rest ∧ r'.next = r.next + b.length ∧
      ∀ n, r.unpackWithin (us.length + n) = (r'.unpackWithin n).map (us ++ ·)

lemma Holds.nil : Holds [] [] := by
  refine ⟨by simp, fun r rest hr _ => ⟨r, hr, by simp, fun n => ?_⟩⟩
  rw [List.length_nil, Nat.zero_add]
  cases r.unpackWithin n <;> rfl

lemma Holds.append {b c : Bytes} {us vs : List Unpacked} (hb : Holds b us) (hc : Holds c vs) :
    Holds (b ++ c) (us ++ vs) := by
  have hl := hb.length
  have hl' := hc.length
  refine ⟨by simp only [List.length_append, Nat.add_mul]; omega, fun r rest hr hfits => ?_⟩
  rw [List.append_assoc] at hr
  rw [List.length_append] at hfits ⊢
  obtain ⟨r₁, hat₁, hn₁, hu₁⟩ := hb.reads r _ hr (by omega)
  obtain ⟨r₂, hat₂, hn₂, hu₂⟩ := hc.reads r₁ _ hat₁ (by omega)
  refine ⟨r₂, hat₂, by omega, fun n => ?_⟩
  rw [List.length_append, Nat.add_assoc, hu₁, hu₂]
  cases r₂.unpackWithin n with
  | error e => rfl
  | ok ws => simp [Except.map]

lemma blockSize_le_frontCalls {h : Header} {p : String} {rs : List Pax.Record}
    (hp : (frontCalls h p rs).2 = none) : blockSize ≤ (frontCalls h p rs).1.flatten.length := by
  rw [frontCalls_placed hp]
  simp only [List.flatten_append, List.flatten_singleton, List.length_append,
    Header.length_toBytes]
  omega

/-- What is stored for an entry holds the entry if its content is as long as announced. -/
theorem holds_stored {ns : List Path.Name} (hns : ∀ x ∈ ns, Path.IsPlain x) {h : Header}
    {rs : List Pax.Record} (hrs : ∀ x ∈ rs, x.IsCarried) (hd : h.describes = false)
    {content : Bytes} (hy : h.Yields content.length content.length)
    (hp : (frontCalls h (Path.join ns) rs).2 = none)
    (hn : announced h (paxData rs) = .ok content.length) :
    Holds ((frontCalls h (Path.join ns) rs).1.flatten ++
        (content ++ zeros (padding content.length)))
      [⟨storedPath h (Path.join ns), rs, content⟩] := by
  have hblock := blockSize_le_frontCalls hp
  refine ⟨?_, fun r rest hr hfits => ?_⟩
  · rw [List.length_append, List.length_singleton]
    omega
  rw [List.append_assoc] at hr
  simp only [List.length_append, zeros, List.length_replicate] at hfits ⊢
  obtain ⟨s, hu, hc, hdata⟩ := hr.unpackWithin_stored hns hrs hd hy hp hn (by omega)
  rw [List.append_assoc, List.take_left' rfl] at hu
  rw [List.append_assoc, List.drop_left' rfl] at hdata
  have hat := Reader.standsAt_behind
    (k := r.next + (frontCalls h (Path.join ns) rs).1.flatten.length) hc hdata
  refine ⟨_, hat, ?_, fun n => ?_⟩
  · simp only
    omega
  · rw [List.length_singleton, Nat.add_comm, hu]
    rfl

section Whole

variable {b rest : Bytes} {us : List Unpacked}

/-- What is unpacked from an archive is what the bytes at its beginning hold, and what follows. -/
lemma Holds.unpack_append (h : Holds b us) (rest : Bytes) (hfits : b.length < Numeral.bound) :
    ∃ n r, r.StandsAt rest ∧ r.next = b.length ∧
      unpack (b ++ rest) = (Reader.unpackWithin (n + 1) r).map (us ++ ·) := by
  obtain ⟨r, hat, hnext, hu⟩ := h.reads _ rest (Reader.standsAt_ofBytes (b ++ rest))
    (by simpa [Reader.ofSource] using hfits)
  have hl := h.length
  have hmost : us.length ≤ (Reader.ofSource (.ofBytes (b ++ rest))).mostEntries := by
    have hlen : (Source.ofBytes (b ++ rest)).length = b.length + rest.length := by
      rw [Source.length_eq, Source.data_ofBytes, List.length_append]
    have : us.length ≤ (b.length + rest.length) / blockSize :=
      (Nat.le_div_iff_mul_le (by decide)).mpr (by omega)
    simp only [Reader.mostEntries, Reader.ofSource, hlen]
    omega
  obtain ⟨n, hn⟩ := Nat.exists_eq_add_of_le hmost
  refine ⟨n, r, hat, by simpa [Reader.ofSource] using hnext, ?_⟩
  rw [unpack, hn, Nat.add_assoc, hu]

/-- An archive unpacks to the entries that it holds just if nothing but its end follows them. -/
theorem Holds.unpack_iff (h : Holds b us) (hfits : b.length < Numeral.bound) :
    unpack (b ++ rest) = .ok us ↔ rest = [] ∨ zeros blockSize <+: rest := by
  obtain ⟨n, r, hat, -, hu⟩ := h.unpack_append rest hfits
  rw [hu, ← hat.nextBlock?_none, ← Reader.unpackWithin_nil (n := n)]
  cases r.unpackWithin (n + 1) with
  | error e => simp [Except.map]
  | ok vs => simp [Except.map]

lemma zeros_prefix_trailer : zeros blockSize <+: trailer := by
  refine ⟨zeros blockSize, ?_⟩
  unfold trailer zeros
  rw [List.replicate_append_replicate, Nat.two_mul]

/-- An archive that is ended behind its entries unpacks to them. -/
theorem Holds.unpack_trailer (h : Holds b us) (hfits : b.length < Numeral.bound) :
    unpack (b ++ trailer) = .ok us :=
  (h.unpack_iff hfits).mpr (.inr zeros_prefix_trailer)

end Whole

end LayerPick.Tar
