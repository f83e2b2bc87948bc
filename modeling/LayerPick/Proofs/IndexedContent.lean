import LayerPick.Proofs.LatestEntries

/-!
# Content that is found through the index

The index of an archive is made by moving from header to header, and notes only where the data of
the files lie. What a store later reads there is what one gets by reading the archive from its start
to the entry, whatever stands between the entries and whatever describes them.
-/
namespace LayerPick

open Tar

namespace Tar

lemma bindings_append (xs ys : List (Entry × Bytes)) :
    bindings (xs ++ ys) = bindings xs ++ bindings ys := List.filterMap_append

lemma regular_of_mem_bindings {xs : List (Entry × Bytes)} {name : String} {data : Bytes}
    (h : (name, .file data) ∈ bindings xs) :
    ∃ x ∈ xs, x.1.header.kind = .regular ∧ x.1.blobName = name := by
  obtain ⟨⟨e, content⟩, hx, hbound⟩ := List.mem_filterMap.mp h
  obtain ⟨y, hy, he⟩ := Option.map_eq_some_iff.mp hbound
  obtain ⟨rfl, rfl⟩ := Prod.mk.inj he
  refine ⟨(e, content), hx, ?_, rfl⟩
  rw [Entry.binding?] at hy
  split at hy
  · assumption
  · simp at hy
  · simp at hy
  · simp at hy

lemma filesFirst_of_regular {before after : List (Entry × Bytes)} {e : Entry} {data : Bytes}
    (hk : e.header.kind = .regular)
    (hafter : ∀ x ∈ after, x.1.header.kind = .regular → x.1.blobName ≠ e.blobName) :
    filesFirst (bindings (before ++ (e, data) :: after)) e.blobName = some (.file data) := by
  refine filesFirst_of_file (latest_eq_some.mpr
    ⟨(bindings before).filter (·.2.isFile), (bindings after).filter (·.2.isFile), ?_, ?_⟩)
  · rw [bindings_append, bindings_cons, bound?_regular hk]
    simp [Binding.isFile]
  · rintro ⟨name, y⟩ hz rfl
    obtain ⟨hmem, hfile⟩ := List.mem_filter.mp hz
    cases y with
    | file data' =>
      obtain ⟨x, hx, hregular, hname⟩ := regular_of_mem_bindings hmem
      exact hafter x hx hregular hname
    | link target => simp [Binding.isFile] at hfile

end Tar

namespace Tarball

/-- Let an archive that can be read from its start to its end be kept in a file, as it is or
compressed to one member of gzip. Then the file can be opened as an image tarball, and the last
regular entry with a name is served under every path that leads to this name, with just the bytes
that are read when one comes to the entry. -/
theorem serves_read {t : FileTree} {path : String} {b : Bytes} {xs : List (Entry × Bytes)}
    (hkept : KeptAt t path b) (hb : b.length < Numeral.bound / 2)
    (hread : (Reader.ofSource (.ofBytes b)).HasEntries xs) :
    ∃ o, (openAt t path).outcome = .ok o ∧
      ∀ before e data after, xs = before ++ (e, data) :: after → e.header.kind = .regular →
        (∀ x ∈ after, x.1.header.kind = .regular → x.1.blobName ≠ e.blobName) →
        ∀ name, Path.normalize name = e.blobName → (o.store t).Serves name (some data) := by
  obtain ⟨o, ho, hxs⟩ := hkept.opened (Reader.hasEntries_ofFile hb hread)
  refine ⟨o, ho, fun before e data after hsplit hk hafter name hname => ?_⟩
  have hserves := serves_follow ho hxs name
  subst hsplit
  rwa [hname, TarIndex.maxLookups, follow, filesFirst_of_regular hk hafter] at hserves

/-- What shows of an entry here: its name, what it is, and its content. -/
def shownEntry (x : Entry × Bytes) : String × Kind × Bytes := (x.1.blobName, x.1.header.kind, x.2)

/-- A compressed archive in which a name occurs twice. -/
theorem serves_read_twice :
    let b := archiveWith [("foo", .file [1]), ("bar", .file [2, 3]), ("./foo", .file [4, 5, 6])]
    let t := imageFile (Gzip.Member.stored b).bytes
    ∃ o, (openAt t "image").outcome = .ok o ∧ (o.store t).Serves "/foo" (some [4, 5, 6]) := by
  intro b t
  have hshown : (Reader.entriesWithin? 4 (.ofSource (.ofBytes b))).map (·.map shownEntry) =
      some ([("foo", .regular, [1]), ("bar", .regular, [2, 3])] ++
        [("foo", .regular, [4, 5, 6])]) := by
    decide +kernel
  obtain ⟨xs, hxs, hmap⟩ := Option.map_eq_some_iff.mp hshown
  obtain ⟨before, rest, rfl, -, hrest⟩ := List.map_eq_append_iff.mp hmap
  obtain ⟨⟨e, data⟩, after, rfl, he, hafter⟩ := List.map_eq_cons_iff.mp hrest
  obtain rfl := List.map_eq_nil_iff.mp hafter
  obtain ⟨hname, hk, rfl⟩ : e.blobName = "foo" ∧ e.header.kind = .regular ∧ data = [4, 5, 6] := by
    simpa [shownEntry] using he
  obtain ⟨o, ho, hserves⟩ := serves_read
    (.packed (.stored b) (openFile_imageFile _) (by decide) rfl) (by decide +kernel)
    (Reader.hasEntries_of_within hxs)
  refine ⟨o, ho, hserves before e [4, 5, 6] [] rfl hk (by simp) "/foo" ?_⟩
  rw [hname]
  decide +kernel

/-- An archive that is compressed under a name of 65536 bytes cannot be opened. -/
theorem openAt_longName :
    let b := archiveWith [("foo", .file [1])]
    let m : Gzip.Member := { Gzip.Member.stored b with
      name := some (List.replicate 65536 97)
      name_text := fun b hb h =>
        absurd (List.eq_of_mem_replicate (Option.some.inj hb ▸ h)) (by decide) }
    m.data = b ∧ Gzip.isGzip b = false ∧ b.length < Numeral.bound / 2 ∧
      (∃ e, (Reader.ofSource (.ofBytes b)).HasEntries [(e, [1])] ∧ e.header.kind = .regular ∧
        e.blobName = "foo") ∧
      ∀ o, (openAt (imageFile m.bytes) "image").outcome ≠ .ok o := by
  intro b m
  have hshown : (Reader.entriesWithin? 2 (.ofSource (.ofBytes b))).map (·.map shownEntry) =
      some [("foo", .regular, [1])] := by
    decide +kernel
  obtain ⟨xs, hxs, hmap⟩ := Option.map_eq_some_iff.mp hshown
  obtain ⟨⟨e, data⟩, rfl, he⟩ := List.map_eq_singleton_iff.mp hmap
  obtain ⟨hname, hk, rfl⟩ : e.blobName = "foo" ∧ e.header.kind = .regular ∧ data = [1] := by
    simpa [shownEntry] using he
  have hlong : ¬m.HasShortTexts := by
    intro h
    have hlength := h.1 _ rfl
    rw [List.length_replicate] at hlength
    exact absurd hlength (by decide)
  refine ⟨rfl, by decide +kernel, by decide +kernel,
    ⟨e, Reader.hasEntries_of_within hxs, hk, hname⟩, fun o => ?_⟩
  simp [openAt_outcome (openFile_imageFile m.bytes), Gzip.isGzip_bytes, Gzip.read_bytes, hlong]

end Tarball

end LayerPick
