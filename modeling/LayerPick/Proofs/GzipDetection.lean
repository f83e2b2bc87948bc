import LayerPick.Proofs.GzipMembers

/-!
# How gzip is told apart

What one read call gives is looked at to tell whether a blob is gzip. No byte is lost by that, in
whatever portions the bytes come: a blob that does not start with the two bytes of gzip is handed on
as it is. But the call may give a single byte, and then the second one is not waited for, so that a
gzip blob is handed on compressed. From two bytes on, the portions make no difference.
-/
namespace LayerPick

namespace Gzip

lemma isGzip_iff_prefix {b : Bytes} : [0x1f, 0x8b] <+: b ↔ isGzip b = true := by
  rw [isGzip_iff, List.prefix_iff_eq_take, beq_iff_eq, eq_comm]
  rfl

lemma isGzip_short {b : Bytes} (hb : b.length < 2) : isGzip b = false := by
  rw [← Bool.not_eq_true, ← isGzip_iff_prefix]
  intro h
  have := h.length_le
  simp only [List.length_cons, List.length_nil] at this
  omega

end Gzip

/-- How many bytes the first call gives. -/
def Source.firstCall (s : Source) : ℕ :=
  match (s.read peekSize).1 with
  | .chunk b => b.length
  | _ => 0

/-- A calm source first hands out a beginning of its bytes, if it has any. -/
lemma Source.Delivers.read {s : Source} {blob : Bytes} (h : s.Delivers blob) :
    (∃ s', s.read peekSize = (.ended, s') ∧ s'.Delivers [] ∧ blob = []) ∨
      ∃ b rest s', s.read peekSize = (.chunk b, s') ∧ b ≠ [] ∧ blob = b ++ rest ∧
        s'.Delivers rest := by
  obtain ⟨hcalm, hdata⟩ := h
  rcases hread : s.read peekSize with ⟨b | _ | f, s'⟩
  · obtain ⟨hpos, -, htake, -⟩ := read_chunk (by decide) hread
    obtain ⟨s'', htaken, hcalm', hdata'⟩ := hcalm.take true b.length
    obtain ⟨hb, rfl, -⟩ := by simpa only [Taken.mk.injEq] using (htake true).symm.trans htaken
    refine .inr ⟨b, s'.data, s', rfl, List.ne_nil_of_length_pos hpos, ?_, hcalm', rfl⟩
    calc
      blob = s.data.take b.length ++ s.data.drop b.length := by rw [List.take_append_drop, hdata]
      _ = b ++ s'.data := by rw [← hb, hdata']
  · obtain ⟨rfl, hlength, -⟩ := read_ended hread
    refine .inl ⟨_, rfl, ⟨⟨rfl, by simp⟩, rfl⟩, ?_⟩
    rw [← hdata]
    exact List.eq_nil_of_length_eq_zero hlength
  · obtain ⟨hfails, -⟩ := read_failed hread
    obtain ⟨s'', htaken, -⟩ := hcalm.take false 1
    have hfailed : s.take false 1 = ⟨[], s', some f⟩ := hfails false 1 Nat.one_pos
    simp [htaken] at hfailed

/-- A source that hands out the bytes of a chunk first is as good as the chunk and the rest. -/
lemma Source.Delivers.behind {s : Source} {b rest : Bytes} (h : s.Delivers rest) :
    (⟨.bytes b none :: s.events, s.defect⟩ : Source).Delivers (b ++ rest) := by
  obtain ⟨hcalm, rfl⟩ := h
  refine ⟨⟨hcalm.noDefect, fun f hf => ?_⟩, rfl⟩
  rcases List.mem_cons.mp hf with he | hmem
  · cases he
  · exact hcalm.noFault f hmem

/-- Unpacking does not see the portions. -/
lemma Source.Delivers.gunzip_eq {s : Source} {blob : Bytes} (h : s.Delivers blob) :
    gunzip s = gunzip (.ofBytes blob) := by
  obtain ⟨hcalm, rfl⟩ := h
  have hdefect : s.defect = (Source.ofBytes s.data).defect := hcalm.noDefect
  rw [gunzip, gunzip, Source.data_ofBytes, hdefect]

lemma unpackedBlob_of_delivers {src : Source} {blob : Bytes} (h : src.Delivers blob)
    (name : String) :
    ∃ out, unpackedBlob name src = .ok out ∧
      (Gzip.isGzip blob = true → 2 ≤ src.firstCall → out = gunzip (.ofBytes blob)) ∧
      (Gzip.isGzip blob = false ∨ src.firstCall < 2 → out.Delivers blob) := by
  rcases h.read with ⟨s', hread, hs', rfl⟩ | ⟨b, rest, s', hread, hne, rfl, hs'⟩
  · exact ⟨s', by simp only [unpackedBlob, hread], fun hgzip => by simp [Gzip.isGzip] at hgzip,
      fun _ => hs'⟩
  have hfirst : src.firstCall = b.length := by rw [Source.firstCall, hread]
  let whole : Source := ⟨.bytes b none :: s'.events, s'.defect⟩
  have hwhole : whole.Delivers (b ++ rest) := hs'.behind
  refine ⟨if Gzip.isGzip b then gunzip whole else whole, by simp only [unpackedBlob, hread, whole],
    fun hgzip hlong => ?_, fun hother => ?_⟩
  · rw [hfirst] at hlong
    rw [Gzip.isGzip_append hlong] at hgzip
    rw [if_pos hgzip, hwhole.gunzip_eq]
  · have hplain : Gzip.isGzip b = false := by
      by_cases hlong : 2 ≤ b.length
      · rw [← Gzip.isGzip_append hlong rest]
        exact hother.resolve_right (by omega)
      · exact Gzip.isGzip_short (by omega)
    rwa [hplain, if_neg Bool.false_ne_true]

lemma blobLayers_singleton {st : BlobStore} {name : String} {src out : Source}
    (hopen : st.openBlob name = .ok src) (hout : unpackedBlob name src = .ok out) :
    blobLayers st [name] = [⟨name, .ok out⟩] := by
  simp only [blobLayers, List.map_cons, List.map_nil, hopen, Tar.ok_bind, hout]

/-- The layer of a blob whose bytes come in any portions. Without the magic at its start it is
handed on as it is. With it, it is unpacked just as if it came in one piece, if the first call gives
two bytes or more, and a row of members is unpacked whole just if it would be so in one piece. But
if the first call gives a single byte, the bytes are handed on packed. -/
theorem blobLayers_delivers (st : BlobStore) (name : String) {src : Source} {blob : Bytes}
    (hopen : st.openBlob name = .ok src) (h : src.Delivers blob) :
    ∃ out, blobLayers st [name] = [⟨name, .ok out⟩] ∧
      (¬[0x1f, 0x8b] <+: blob → out.Delivers blob) ∧
      ([0x1f, 0x8b] <+: blob →
        (2 ≤ src.firstCall → out = gunzip (.ofBytes blob) ∧
          ∀ m ms, blob = Gzip.row (m :: ms) →
            (out.Delivers (Gzip.held (m :: ms)) ↔ Gzip.UnpackedWhole m ms)) ∧
        (src.firstCall < 2 → out.Delivers blob)) := by
  obtain ⟨out, hout, hunpacked, hasIs⟩ := unpackedBlob_of_delivers h name
  refine ⟨out, blobLayers_singleton hopen hout, fun hplain => hasIs (.inl ?_), fun hmagic =>
    ⟨fun hlong => ?_, fun hshort => hasIs (.inr hshort)⟩⟩
  · rwa [Gzip.isGzip_iff_prefix, Bool.not_eq_true] at hplain
  · obtain rfl := hunpacked (Gzip.isGzip_iff_prefix.mp hmagic) hlong
    refine ⟨rfl, ?_⟩
    rintro m ms rfl
    exact (delivers_gunzip _ _).trans (Gzip.read_row m ms)

/-- A store whose blobs come in calls of at most so many bytes. -/
def portionedStore (b : Bytes) (most : ℕ) : BlobStore :=
  ⟨fun _ => true, fun _ => .ok ⟨[.bytes b (some most)], none⟩⟩

lemma delivers_portioned (b : Bytes) (most : ℕ) :
    (⟨[.bytes b (some most)], none⟩ : Source).Delivers b :=
  ⟨⟨rfl, by simp⟩, by simp [Source.data, Event.data]⟩

/-- Two bytes at a time are enough. -/
theorem blobLayers_delivers_pairs :
    ∃ out, blobLayers (portionedStore (Gzip.Member.stored [97]).bytes 2) ["layer"] =
        [⟨"layer", .ok out⟩] ∧ out.Delivers [97] := by
  obtain ⟨out, hout, -, hgzip⟩ := blobLayers_delivers
    (portionedStore (Gzip.Member.stored [97]).bytes 2) "layer" rfl (delivers_portioned _ _)
  have hwhole : Gzip.UnpackedWhole (.stored [97]) [] :=
    ⟨by simp [Gzip.Member.HasShortTexts, Gzip.Member.stored], rfl⟩
  have hrow := ((hgzip (by decide)).1 (by decide)).2 (.stored [97]) []
    (by simp only [Gzip.row, List.flatMap_cons, List.flatMap_nil, List.append_nil])
  exact ⟨out, hout, hrow.mpr hwhole⟩

/-- A single byte is not: a gzip blob with an `a` in it is handed on packed. And of two members that
come in one piece, only the first is unpacked. -/
theorem blobLayers_packed :
    let one := (Gzip.Member.stored [97]).bytes
    let two := Gzip.row [.stored [97], .stored [98]]
    (([0x1f, 0x8b] <+: one ∧ Gzip.read one = ⟨[97], none⟩) ∧
      ∃ out, blobLayers (portionedStore one 1) ["layer"] = [⟨"layer", .ok out⟩] ∧
        out.Delivers one ∧ ¬out.Delivers [97]) ∧
    Gzip.held [.stored [97], .stored [98]] = [97, 98] ∧
      ∃ out, blobLayers (portionedStore two two.length) ["layer"] = [⟨"layer", .ok out⟩] ∧
        out.Delivers [97] := by
  intro one two
  have hshort : (Gzip.Member.stored [97]).HasShortTexts := by
    simp [Gzip.Member.HasShortTexts, Gzip.Member.stored]
  refine ⟨⟨⟨by decide, ?_⟩, ?_⟩, rfl, ?_⟩
  · rw [Gzip.read_bytes, if_pos hshort]
    rfl
  · obtain ⟨out, hout, -, hpacked⟩ :=
      unpackedBlob_of_delivers (delivers_portioned one 1) "layer"
    have hdelivers : out.Delivers one := hpacked (.inr (by decide))
    refine ⟨out, blobLayers_singleton rfl hout, hdelivers, fun h => ?_⟩
    have hsame : one = [97] := hdelivers.2.symm.trans h.2
    exact absurd hsame (by decide)
  · obtain ⟨out, hout, hunpacked, -⟩ :=
      unpackedBlob_of_delivers (delivers_portioned two two.length) "layer"
    have hread : Gzip.read two = ⟨[97], none⟩ := by
      simp only [two, Gzip.row, List.flatMap_cons]
      rw [Gzip.read_member, if_pos hshort]
      rfl
    obtain rfl := hunpacked rfl (by decide)
    exact ⟨_, blobLayers_singleton rfl hout, (delivers_gunzip _ _).mpr hread⟩

end LayerPick
