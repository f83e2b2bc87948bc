import LayerPick.Proofs.ArchiveEntries

/-!
# What stands under a name

Names occur more than once in an archive, and where it is unpacked the last entry with a name
replaces those before it. An index has the files and the links apart, and looks for a name among the
files first. So it comes by what the last entry has put under the name, unless that is a link and
some entry before it was a file: such a link is hidden behind the file.

Looking a name up is following links from name to name. It is the same as following them among the
entries, where files count for more than links.
-/
namespace LayerPick

open Tar

namespace Tar

section Latest

variable {bs : List (String × Binding)} {name : String} {x : Binding}

/-- What the last entry with a name puts there. -/
def latest (bs : List (String × Binding)) (name : String) : Option Binding :=
  bs.reverse.lookup name

/-- What comes first under a name if the files are asked before the links. -/
def filesFirst (bs : List (String × Binding)) (name : String) : Option Binding :=
  (latest (bs.filter (·.2.isFile)) name).or (latest (bs.filter (!·.2.isFile)) name)

/-- The last entry with this name is a link, and there is a file with the name as well. -/
def HidesLink (bs : List (String × Binding)) (name : String) : Prop :=
  (∃ target, latest bs name = some (.link target)) ∧ ∃ data, (name, .file data) ∈ bs

lemma mem_of_latest (h : latest bs name = some x) : (name, x) ∈ bs :=
  List.mem_reverse.mp (TarIndex.mem_of_lookup h)

lemma latest_eq_none : latest bs name = none ↔ ∀ x, (name, x) ∉ bs := by
  rw [latest, List.lookup_eq_none_iff]
  constructor
  · intro h x hx
    have hne := h _ (List.mem_reverse.mpr hx)
    simp at hne
  · rintro h ⟨n, x⟩ hx
    rw [bne_iff_ne]
    rintro rfl
    exact h x (List.mem_reverse.mp hx)

/-- The last entry with a name is one behind which the name does not occur again. -/
lemma latest_eq_some :
    latest bs name = some x ↔ ∃ ys zs, bs = ys ++ (name, x) :: zs ∧ ∀ z ∈ zs, z.1 ≠ name := by
  rw [latest, List.lookup_eq_some_iff]
  constructor
  · rintro ⟨zs, ys, h, hzs⟩
    refine ⟨ys.reverse, zs.reverse, ?_, fun z hz => ?_⟩
    · rw [← List.reverse_reverse bs, h]
      simp
    · exact (bne_iff_ne.mp (hzs z (List.mem_reverse.mp hz))).symm
  · rintro ⟨ys, zs, rfl, hzs⟩
    refine ⟨zs.reverse, ys.reverse, by simp, fun z hz => ?_⟩
    exact bne_iff_ne.mpr (hzs z (List.mem_reverse.mp hz)).symm

lemma latest_filter {p : Binding → Bool} (h : latest bs name = some x) (hp : p x = true) :
    latest (bs.filter fun y => p y.2) name = some x := by
  obtain ⟨ys, zs, rfl, hzs⟩ := latest_eq_some.mp h
  refine latest_eq_some.mpr ⟨ys.filter (p ·.2), zs.filter (p ·.2), ?_, fun z hz => ?_⟩
  · simp [hp]
  · exact hzs z (List.mem_of_mem_filter hz)

lemma latest_files_isFile {y : Binding} (h : latest (bs.filter (·.2.isFile)) name = some y) :
    ∃ data, y = .file data ∧ (name, .file data) ∈ bs := by
  obtain ⟨hmem, hfile⟩ := List.mem_filter.mp (mem_of_latest h)
  cases y with
  | file data => exact ⟨data, rfl, hmem⟩
  | link target => simp [Binding.isFile] at hfile

lemma filesFirst_of_file {data : Bytes}
    (h : latest (bs.filter (·.2.isFile)) name = some (.file data)) :
    filesFirst bs name = some (.file data) := by
  rw [filesFirst, h, Option.some_or]

lemma filesFirst_of_not_mem (h : ∀ data, (name, .file data) ∉ bs) :
    filesFirst bs name = latest bs name := by
  have hfiles : latest (bs.filter (·.2.isFile)) name = none := by
    by_contra hne
    obtain ⟨y, hy⟩ := Option.ne_none_iff_exists'.mp hne
    obtain ⟨data, -, hmem⟩ := latest_files_isFile hy
    exact h data hmem
  rw [filesFirst, hfiles, Option.none_or]
  cases hl : latest bs name with
  | none =>
    rw [latest_eq_none] at hl ⊢
    exact fun x hx => hl x (List.mem_of_mem_filter hx)
  | some x =>
    refine latest_filter (p := fun y => !y.isFile) hl ?_
    cases x with
    | file data => exact absurd (mem_of_latest hl) (h data)
    | link target => rfl

/-- What comes first if the files are asked first is what the last entry puts there, just where no
link is hidden. -/
theorem filesFirst_eq_latest : filesFirst bs name = latest bs name ↔ ¬HidesLink bs name := by
  constructor
  · rintro h ⟨⟨target, hlink⟩, data, hfile⟩
    have hfiles : latest (bs.filter (·.2.isFile)) name ≠ none := fun hnone =>
      latest_eq_none.mp hnone _ (List.mem_filter.mpr ⟨hfile, rfl⟩)
    obtain ⟨y, hy⟩ := Option.ne_none_iff_exists'.mp hfiles
    obtain ⟨data', rfl, -⟩ := latest_files_isFile hy
    rw [filesFirst_of_file hy, hlink] at h
    simp at h
  · intro h
    cases hl : latest bs name with
    | none => exact (filesFirst_of_not_mem fun _ => latest_eq_none.mp hl _).trans hl
    | some x =>
      cases x with
      | file data => exact filesFirst_of_file (latest_filter (p := Binding.isFile) hl rfl)
      | link target =>
        have hnone : ∀ data, (name, Binding.file data) ∉ bs := fun data hmem =>
          h ⟨⟨target, hl⟩, data, hmem⟩
        exact (filesFirst_of_not_mem hnone).trans hl

end Latest

section Following

variable {stands stands' : String → Option Binding}

/-- The data of the file to which one comes from a name, if it is among the first `n` names. -/
def follow (stands : String → Option Binding) : (n : ℕ) → String → Option Bytes
  | 0, _ => none
  | n + 1, name =>
    match stands name with
    | none => none
    | some (.file data) => some data
    | some (.link target) => follow stands n target

/-- The name to which one comes from a name by `n` links. -/
def linked (stands : String → Option Binding) : (n : ℕ) → String → Option String
  | 0, name => some name
  | n + 1, name =>
    match stands name with
    | some (.link target) => linked stands n target
    | _ => none

lemma follow_congr {n : ℕ} {name : String}
    (h : ∀ k m, linked stands k name = some m → stands' m = stands m) :
    follow stands' n name = follow stands n name := by
  induction n generalizing name with
  | zero => rfl
  | succ n ih =>
    rw [follow, follow, h 0 name rfl]
    rcases hs : stands name with _ | _ | target
    · rfl
    · rfl
    · refine ih fun k m hm => h (k + 1) m ?_
      rw [linked, hs]
      exact hm

end Following

end Tar

namespace TarIndex

variable {b : Bytes} {i : TarIndex} {bs : List (String × Binding)}

lemma lookup_map {α β : Type} (f : α → β) (xs : List (String × α)) (name : String) :
    (xs.map fun x => (x.1, f x.2)).lookup name = (xs.lookup name).map f := by
  induction xs with
  | nil => rfl
  | cons x xs ih =>
    rw [List.map_cons, List.lookup_cons, List.lookup_cons]
    cases name == x.1 with
    | true => rfl
    | false => exact ih

lemma Shows.filesFirst (h : i.Shows b bs) (name : String) :
    filesFirst bs name =
      ((i.spans.lookup name).map fun s => Binding.file (s.dataIn b)).or
        ((i.links.lookup name).map Binding.link) := by
  rw [Tar.filesFirst, latest, latest, ← h.files, ← h.links]
  rw [lookup_map (fun s : Span => Binding.file (s.dataIn b)), lookup_map Binding.link]

/-- Looking a name up is following links, where files count for more than links. -/
lemma Shows.find? (h : i.Shows b bs) (lookups : ℕ) (name : String) :
    (i.find? lookups name).map (Span.dataIn · b) = follow (Tar.filesFirst bs) lookups name := by
  induction lookups generalizing name with
  | zero => rfl
  | succ lookups ih =>
    rw [TarIndex.find?, follow, h.filesFirst]
    cases i.spans.lookup name with
    | some s => rfl
    | none =>
      cases i.links.lookup name with
      | none => rfl
      | some target => exact ih target

lemma follow_files (xs : List (String × Bytes)) (lookups : ℕ) (name : String) :
    follow (Tar.filesFirst (xs.map fun x => (x.1, .file x.2))) (lookups + 1) name =
      xs.reverse.lookup name := by
  have hlatest : latest (xs.map fun x => (x.1, .file x.2)) name =
      (xs.reverse.lookup name).map .file := by
    rw [latest, ← List.map_reverse, lookup_map]
  have hshown : ¬HidesLink (xs.map fun x => (x.1, .file x.2)) name := by
    rintro ⟨⟨target, hlink⟩, -⟩
    simp [hlatest] at hlink
  rw [follow, filesFirst_eq_latest.mpr hshown, hlatest]
  cases xs.reverse.lookup name <;> rfl

/-- The index of an archive that holds files finds each of them, under any path that leads to its
name, and nothing else. -/
theorem lookup_holdsFiles {files : List (String × Bytes)} (hb : b.length < Numeral.bound / 2)
    (h : HoldsFiles b files) (hnames : (files.map Prod.fst).Nodup) :
    ∃ i, (ofBytes b).outcome = .ok i ∧ ∀ name,
      (i.lookup name).map (Span.dataIn · b) = files.lookup (Path.normalize name) := by
  obtain ⟨listed, hlists, hperm⟩ := h
  obtain ⟨ys, hys, hbs⟩ := hlists.hasEntries
  obtain ⟨i, hi, hshows⟩ := ofBytes_ok (Reader.hasEntries_ofFile hb hys)
  refine ⟨i, hi, fun name => ?_⟩
  have hp : listed.reverse.Perm files := (List.reverse_perm listed).trans hperm
  have hlisted : (listed.reverse.map Prod.fst).Nodup := (hp.map Prod.fst).nodup_iff.mpr hnames
  rw [lookup, hshows.find?, hbs, maxLookups, follow_files]
  ext c
  rw [lookup_iff hlisted, lookup_iff hnames, hp.mem_iff]

end TarIndex

/-- Under the name the store has a blob with these data, or no blob. -/
def BlobStore.Serves (s : BlobStore) (name : String) (data? : Option Bytes) : Prop :=
  s.contains name = data?.isSome ∧
    s.openBlob name =
      match data? with
      | some data => .ok (.ofBytes data)
      | none => .error (.of (.blobNotFound name))

lemma BlobStore.Serves.unique {s : BlobStore} {name : String} {x y : Option Bytes}
    (h : s.Serves name x) (h' : s.Serves name y) : x = y := by
  have hsome := h.1.symm.trans h'.1
  have hopen := h.2.symm.trans h'.2
  cases x with
  | none => exact (Option.isNone_iff_eq_none.mp (by simpa using hsome)).symm
  | some data =>
    obtain ⟨data', rfl⟩ := Option.isSome_iff_exists.mp hsome.symm
    have hdata := congrArg Source.data (Except.ok.inj hopen)
    rw [Source.data_ofBytes, Source.data_ofBytes] at hdata
    rw [hdata]

namespace Tarball

/-- The bytes that are read as the archive. -/
def Opened.archive (o : Opened) (t : FileTree) : Except SystemError Bytes :=
  match o.unpacked with
  | some b => .ok b
  | none => fileBytes t o.path

/-- These are the entries of the archive, each with its content. -/
def Opened.HasEntries (o : Opened) (t : FileTree) (xs : List (Entry × Bytes)) : Prop :=
  ∃ b, o.archive t = .ok b ∧ (Reader.ofFile b).HasEntries xs

variable {t : FileTree} {path : String} {o : Opened} {xs : List (Entry × Bytes)}

/-- What can be opened gives some bytes, or nothing but a failure. -/
lemma openFile_ok {src : Source} (h : t.openFile path = .ok src) :
    (∃ b, src = .ofBytes b) ∨ ∃ message, src = ⟨[], some message⟩ := by
  rw [FileTree.openFile] at h
  split at h
  · cases h
  · exact .inl ⟨_, (Except.ok.inj h).symm⟩
  · exact .inl ⟨_, (Except.ok.inj h).symm⟩
  · exact .inr ⟨_, (Except.ok.inj h).symm⟩

lemma openAt_ok (h : (openAt t path).outcome = .ok o) :
    ∃ b, o.archive t = .ok b ∧ (TarIndex.ofBytes b).outcome = .ok o.index := by
  cases hx : t.openFile path with
  | error e => simp [openAt, hx, Except.mapError] at h
  | ok src =>
    obtain ⟨b, rfl⟩ | ⟨message, rfl⟩ := openFile_ok hx
    · rw [openAt_outcome hx] at h
      split_ifs at h
      · cases he : (Gzip.read b).error with
        | some e => simp [he] at h
        | none =>
          simp only [he, Tar.map_ok] at h
          obtain ⟨i, hi, rfl⟩ := h
          exact ⟨_, rfl, hi⟩
      · obtain ⟨i, hi, rfl⟩ := Tar.map_ok.mp h
        refine ⟨b, ?_, hi⟩
        simp [Opened.archive, fileBytes, hx, Except.map, Source.data_ofBytes]
    · obtain ⟨f, hfault⟩ : ∃ f, (Source.drain false ⟨[], some message⟩).fault = some f := ⟨_, rfl⟩
      simp [openAt, hx, Except.mapError, hfault] at h

lemma store_serves (i : TarIndex) (path : String) (b : Bytes) (name : String) :
    (Tarball.store i path (.ok b)).Serves name ((i.lookup name).map (Span.dataIn · b)) := by
  constructor
  · rw [Option.isSome_map]
    rfl
  · simp only [Tarball.store]
    cases i.lookup name <;> rfl

/-- What an opened tarball serves are the files to which the links among its entries lead, where
files count for more than links. -/
lemma serves_follow (h : (openAt t path).outcome = .ok o) (hxs : o.HasEntries t xs)
    (name : String) :
    (o.store t).Serves name
      (follow (filesFirst (bindings xs)) TarIndex.maxLookups (Path.normalize name)) := by
  obtain ⟨b, harchive, hindex⟩ := openAt_ok h
  obtain ⟨b', harchive', hentries⟩ := hxs
  obtain rfl := Except.ok.inj (harchive.symm.trans harchive')
  obtain ⟨ys, hys, hshows⟩ := TarIndex.ofBytes_shows hindex
  obtain rfl := hys.unique hentries
  have hstore : o.store t = Tarball.store o.index o.path (.ok b) := by
    rw [← harchive]
    rfl
  rw [hstore, ← hshows.find?]
  exact store_serves o.index o.path b name

lemma serves_iff (h : (openAt t path).outcome = .ok o) (hxs : o.HasEntries t xs) {name : String}
    {data? : Option Bytes} :
    (o.store t).Serves name data? ↔
      follow (filesFirst (bindings xs)) TarIndex.maxLookups (Path.normalize name) = data? :=
  ⟨fun hs => (serves_follow h hxs name).unique hs, fun he => he ▸ serves_follow h hxs name⟩

/-- The archive is what the file under the path has: as it is, or compressed to one member of
gzip. -/
inductive KeptAt (t : FileTree) (path : String) (b : Bytes) : Prop
  | plain : t.openFile path = .ok (.ofBytes b) → Gzip.isGzip b = false → KeptAt t path b
  | packed (m : Gzip.Member) : t.openFile path = .ok (.ofBytes m.bytes) → m.HasShortTexts →
    m.data = b → KeptAt t path b

lemma KeptAt.opened {b : Bytes} (h : KeptAt t path b) (hxs : (Reader.ofFile b).HasEntries xs) :
    ∃ o, (openAt t path).outcome = .ok o ∧ o.HasEntries t xs := by
  obtain ⟨i, hindex, -⟩ := TarIndex.ofBytes_ok hxs
  cases h with
  | plain hopen hplain =>
    refine ⟨⟨i, path, none⟩, ?_, b, ?_, hxs⟩
    · simp [openAt_outcome hopen, hplain, hindex, Except.map]
    · simp [Opened.archive, fileBytes, hopen, Except.map, Source.data_ofBytes]
  | packed m hopen hshort hdata =>
    subst hdata
    refine ⟨⟨i, path, some m.data⟩, ?_, m.data, rfl, hxs⟩
    simp [openAt_outcome hopen, Gzip.isGzip_bytes, Gzip.read_bytes, hshort, hindex, Except.map]

/-- The last entry with a name decides, unless it hides behind a file. Whatever tarball is opened,
its archive has entries; for each name the store serves the file to which the links lead, where the
files are asked before the links, and this is asking for the last entry just where no link is
hidden. So if no name on the way has a hidden link, the store serves what the last entries with
these names say. -/
theorem serves_latest (h : (openAt t path).outcome = .ok o) :
    (∃ xs, o.HasEntries t xs) ∧ ∀ xs, o.HasEntries t xs →
      (∀ name, filesFirst (bindings xs) name = latest (bindings xs) name ↔
        ¬HidesLink (bindings xs) name) ∧
      ∀ name,
        (o.store t).Serves name
          (follow (filesFirst (bindings xs)) TarIndex.maxLookups (Path.normalize name)) ∧
        ((∀ n m, linked (latest (bindings xs)) n (Path.normalize name) = some m →
            ¬HidesLink (bindings xs) m) →
          (o.store t).Serves name
            (follow (latest (bindings xs)) TarIndex.maxLookups (Path.normalize name))) := by
  refine ⟨?_, fun xs hxs => ⟨fun name => filesFirst_eq_latest, fun name => ?_⟩⟩
  · obtain ⟨b, harchive, hindex⟩ := openAt_ok h
    obtain ⟨xs, hxs, -⟩ := TarIndex.ofBytes_shows hindex
    exact ⟨xs, b, harchive, hxs⟩
  · have hserves := serves_follow h hxs name
    refine ⟨hserves, fun hshown => ?_⟩
    rwa [follow_congr fun n m hm => filesFirst_eq_latest.mpr (hshown n m hm)] at hserves

end Tarball

namespace Tar

/-- A member of an archive, with nothing but its name and what it puts there. -/
def Binding.member (name : String) : Binding → Bytes
  | .file data => bareMember name data
  | .link target =>
    Header.toBytes (Header.withChecksum { bareHeader name 0 with
      kindByte := 50
      linkName := .ofBytes 100 (Utf8.encode target) })

def archiveWith (bs : List (String × Binding)) : Bytes :=
  (bs.flatMap fun x => x.2.member x.1) ++ trailer

end Tar

/-- The tarball of an archive whose entries are come by in so many steps can be opened, and has
these entries. -/
lemma Tarball.opened_imageFile {α : Type} {b : Bytes} {a : α} (n : ℕ)
    (f : List (Entry × Bytes) → α) (hplain : Gzip.isGzip b = false)
    (h : (Reader.entriesWithin? n (.ofFile b)).map f = some a) :
    ∃ o xs, (openAt (imageFile b) "image").outcome = .ok o ∧ o.HasEntries (imageFile b) xs ∧
      f xs = a := by
  obtain ⟨xs, hxs, hf⟩ := Option.map_eq_some_iff.mp h
  obtain ⟨o, ho, hentries⟩ := KeptAt.opened (.plain (openFile_imageFile b) hplain)
    (Reader.hasEntries_of_within hxs)
  exact ⟨o, xs, ho, hentries, hf⟩

namespace Tarball

/-- A link that a file replaces, and a link that another link replaces. -/
theorem serves_latest_replaced :
    let bs : List (String × Binding) :=
      [("a", .link "b"), ("b", .file [1]), ("l", .link "b"), ("a", .file [2]), ("l", .link "a")]
    let t := imageFile (archiveWith bs)
    ∃ o, (openAt t "image").outcome = .ok o ∧ (o.store t).Serves "./l" (some [2]) := by
  intro bs t
  obtain ⟨o, xs, ho, hxs, hbs⟩ := opened_imageFile (b := archiveWith bs) (a := bs) 6 bindings
    (by decide +kernel) (by decide +kernel)
  have hshown : ∀ m, ¬HidesLink bs m := by
    rintro m ⟨⟨target, hlink⟩, data, hmem⟩
    have hb : latest bs "b" = some (.file [1]) := by decide
    have ha : latest bs "a" = some (.file [2]) := by decide
    have hm : m = "b" ∨ m = "a" := by
      simp only [bs, List.mem_cons, Prod.mk.injEq, reduceCtorEq, and_false, false_or,
        List.not_mem_nil, or_false] at hmem
      exact hmem.imp And.left And.left
    rcases hm with rfl | rfl
    · simp [hb] at hlink
    · simp [ha] at hlink
  have hlatest := ((serves_latest ho).2 xs hxs).2 "./l"
  rw [hbs] at hlatest
  refine ⟨o, ho, ?_⟩
  exact hlatest.2 fun _ m _ => hshown m

/-- A link behind a file of the same name: the link leads to the newer data, and the store serves
the older. -/
theorem serves_hidden :
    let bs : List (String × Binding) :=
      [("a", .file [1]), ("b", .file [2]), ("a", .link "b")]
    let t := imageFile (archiveWith bs)
    ∃ o xs, (openAt t "image").outcome = .ok o ∧ o.HasEntries t xs ∧ bindings xs = bs ∧
      latest bs "a" = some (.link "b") ∧ latest bs "b" = some (.file [2]) ∧
      (o.store t).Serves "a" (some [1]) ∧ ¬(o.store t).Serves "a" (some [2]) := by
  intro bs t
  obtain ⟨o, xs, ho, hxs, hbs⟩ := opened_imageFile (b := archiveWith bs) (a := bs) 4 bindings
    (by decide +kernel) (by decide +kernel)
  have hserves : (o.store t).Serves "a" (some [1]) := by
    rw [serves_iff ho hxs, hbs]
    decide +kernel
  refine ⟨o, xs, ho, hxs, hbs, by decide, by decide, hserves, fun hother => ?_⟩
  exact absurd (hserves.unique hother) (by decide)

end Tarball

end LayerPick
