import LayerPick.Proofs.FileFolders
import LayerPick.Proofs.LatestEntries
import LayerPick.Proofs.ResolvedLayers

/-!
# Stores that hold files

A layout folder and an image tarball are very different stores. What reading an image asks of them
is settled by the files that they hold: which blobs are there, and what each of them has. So stores
that hold the same files lead to the same layers. They still do if some files are compressed in one
of them, as long as these are not documents.
-/
namespace LayerPick

open Tar

/-- Names that are those of files in an image, each occurring once. -/
structure IsFileSet (files : List (String × Bytes)) : Prop where
  once : (files.map Prod.fst).Nodup
  named : ∀ x ∈ files, Path.IsFileName x.1

namespace BlobStore

/-- What a blob has, if it can be read to its end. -/
def bytes? (s : BlobStore) (name : String) : Option Bytes :=
  (s.openBlob name).toOption.bind fun src =>
    if (src.drain true).fault.isNone then some (src.drain true).data else none

/-- The store holds these files and no others. A file is found under any path that leads to its
name. -/
structure Holds (s : BlobStore) (files : List (String × Bytes)) : Prop where
  contains : ∀ name, s.contains name = (files.lookup (Path.normalize name)).isSome
  found : ∀ name b, files.lookup (Path.normalize name) = some b →
    s.openBlob name = .ok (.ofBytes b)
  missing : ∀ name, files.lookup (Path.normalize name) = none → s.bytes? name = none

lemma Holds.bytes?_eq {s : BlobStore} {files : List (String × Bytes)} (h : s.Holds files)
    (name : String) : s.bytes? name = files.lookup (Path.normalize name) := by
  cases hl : files.lookup (Path.normalize name) with
  | none => exact h.missing name hl
  | some b =>
    obtain ⟨s', hdrain⟩ := Source.drain_ofBytes true b
    simp [bytes?, h.found name b hl, Except.toOption, hdrain]

end BlobStore

section Stores

variable {files : List (String × Bytes)} (hfiles : IsFileSet files)

include hfiles

/-- An archive that holds files can be indexed, and is then a store that holds them. -/
lemma Tarball.store_holds {b : Bytes} (hb : b.length < Numeral.bound / 2)
    (h : HoldsFiles b files) :
    ∃ i, (TarIndex.ofBytes b).outcome = .ok i ∧
      ∀ path, (Tarball.store i path (.ok b)).Holds files := by
  obtain ⟨i, hi, hlookup⟩ := TarIndex.lookup_holdsFiles hb h hfiles.once
  refine ⟨i, hi, fun path => ⟨fun name => ?_, fun name c hc => ?_, fun name hnone => ?_⟩⟩
  · rw [← hlookup, Option.isSome_map]
    rfl
  · rw [← hlookup, Option.map_eq_some_iff] at hc
    obtain ⟨s, hs, rfl⟩ := hc
    exact Tarball.openBlob_ok.mpr ⟨s, hs, rfl⟩
  · rw [← hlookup, Option.map_eq_none_iff] at hnone
    simp [BlobStore.bytes?, Tarball.store, hnone, Except.toOption]

lemma Layout.store_holds {t : FileTree} {root : String} {p : Place}
    (hroot : t.resolve root = .ok (.node p .folder)) (h : t.Holds p files)
    (htakes : ∀ x ∈ files, FileTree.Takes (Path.inFolder root x.1)) :
    (Layout.store t root).Holds files := by
  have hother : ∀ name path n, files.lookup (Path.normalize name) = none →
      Layout.path? root name = some path → t.find? path = .ok n → n = .folder := by
    intro name path n hnone hpath hn
    simp only [Layout.path?, Option.ite_none_left_eq_some, Option.some.injEq] at hpath
    obtain ⟨hstays, rfl⟩ := hpath
    rw [Bool.not_eq_true] at hstays
    have hnormal : Path.normalize (Path.normalize name) = Path.normalize name :=
      Path.normalize_join (Path.normalNames_isPlain name) (Path.not_climbs_of_stays hstays)
    rcases h.find?_only hroot hfiles.named hnormal hstays hn with hfolder | ⟨b, hmem, -⟩
    · exact hfolder
    · rw [(TarIndex.lookup_iff hfiles.once).mpr hmem] at hnone
      simp at hnone
  have hfile : ∀ name b, files.lookup (Path.normalize name) = some b →
      ∃ path, Layout.path? root name = some path ∧ t.find? path = .ok (.file b) := by
    intro name b hl
    have hmem := (TarIndex.lookup_iff hfiles.once).mp hl
    have hname : Path.IsFileName (Path.normalize name) := hfiles.named _ hmem
    have hfind := h.find?_file hroot hmem hname (htakes _ hmem)
    refine ⟨Path.inFolder root (Path.normalize name), ?_, hfind⟩
    simp only [Layout.path?, hname.stays, Bool.false_eq_true, if_false]
  refine ⟨fun name => ?_, fun name b hl => ?_, fun name hnone => ?_⟩
  · cases hl : files.lookup (Path.normalize name) with
    | some b =>
      obtain ⟨path, hpath, hfind⟩ := hfile name b hl
      simp [Layout.store, hpath, FileTree.isFile, hfind]
    | none =>
      cases hpath : Layout.path? root name with
      | none => simp [Layout.store, hpath]
      | some path =>
        rcases hfind : t.find? path with e | n
        · simp [Layout.store, hpath, FileTree.isFile, hfind]
        · obtain rfl := hother name path n hl hpath hfind
          simp [Layout.store, hpath, FileTree.isFile, hfind]
  · obtain ⟨path, hpath, hfind⟩ := hfile name b hl
    simp only [Layout.store, hpath, FileTree.openFile, hfind, Except.mapError]
  · cases hpath : Layout.path? root name with
    | none => simp [BlobStore.bytes?, Layout.store, hpath, Except.toOption]
    | some path =>
      rcases hfind : t.find? path with e | n
      · simp only [BlobStore.bytes?, Layout.store, hpath, FileTree.openFile, hfind, Except.mapError,
          Except.toOption]
        rfl
      · obtain rfl := hother name path n hnone hpath hfind
        simp only [BlobStore.bytes?, Layout.store, hpath, FileTree.openFile, hfind, Except.mapError,
          Except.toOption, Option.bind_some]
        rfl

end Stores

/-- Both succeed with the same result, or both fail. -/
def SameResult {α : Type} (x x' : Except Failure α) : Prop := x.toOption = x'.toOption

lemma sameResult_goesAlong : GoesAlong SameResult where
  refl _ := rfl
  bind {α β x x' f f'} h hf := by
    rcases x with e | a <;> rcases x' with e' | a'
    · rfl
    · simp [SameResult, Except.toOption] at h
    · simp [SameResult, Except.toOption] at h
    · obtain rfl := Option.some.inj h
      exact hf a rfl
  mapError {α x x'} g h := by
    rcases x with e | a <;> rcases x' with e' | a'
    · rfl
    · simp [SameResult, Except.toOption] at h
    · simp [SameResult, Except.toOption] at h
    · exact h

namespace BlobStore

variable {s s' : BlobStore} {name : String}

lemma readDocument_toOption {α : Type} (stage : Stage) (f : Json.Value → Option α) :
    (s.readDocument name stage f).toOption = ((s.bytes? name).bind Json.parse?).bind f := by
  rcases ho : s.openBlob name with e | src
  · simp [readDocument, bytes?, ho, Except.toOption]
  · simp only [readDocument, bytes?, ho, Tar.ok_bind, Except.toOption, Option.bind_some]
    cases (src.drain true).fault with
    | some f => rfl
    | none =>
      simp only [Option.isNone_none, if_true, Option.bind_some]
      cases (Json.parse? (src.drain true).data).bind f <;> rfl

lemma readSavedImages_toOption :
    (Selection.readSavedImages s).toOption =
      (((s.bytes? Selection.savedImagesName).filter fun b => (Utf8.decode? b).isSome).bind
        Json.parse?).bind (Json.Value.list? Oci.SavedImage.ofValue?) := by
  rcases ho : s.openBlob Selection.savedImagesName with e | src
  · simp [Selection.readSavedImages, readText, bytes?, ho, Except.toOption]
  · simp only [Selection.readSavedImages, readText, bytes?, ho, Tar.ok_bind, Except.toOption,
      Option.bind_some]
    cases (src.drain true).fault with
    | some f => rfl
    | none =>
      simp only [Option.isNone_none, if_true]
      cases hd : Utf8.decode? (src.drain true).data with
      | none =>
        rw [Option.filter_some, hd]
        rfl
      | some text =>
        simp only [Tar.ok_bind, Utf8.encode_of_decode? hd, Option.filter_some, hd, Option.isSome_some,
          if_true, Option.bind_some]
        cases (Json.parse? (src.drain true).data).bind (Json.Value.list? Oci.SavedImage.ofValue?) <;>
          rfl

/-- The stores have the same blobs, and each of those with these names that differs is a document in
neither. -/
structure Alike (names : String → Prop) (s s' : BlobStore) : Prop where
  contains : ∀ name, s.contains name = s'.contains name
  blob : ∀ name, names name → s.bytes? name = s'.bytes? name ∨
    (s.bytes? name).bind Json.parse? = none ∧ (s'.bytes? name).bind Json.parse? = none

lemma Alike.related {names : String → Prop} (h : s.Alike names s') :
    s.Related SameResult names s' where
  document {_ name} stage f hname _ := by
    rw [SameResult, readDocument_toOption, readDocument_toOption]
    rcases h.blob name hname with he | ⟨hn, hn'⟩
    · rw [he]
    · rw [hn, hn']
  saved hname := by
    have hfilter {x : Option Bytes} (p : Bytes → Bool) (hx : x.bind Json.parse? = none) :
        (x.filter p).bind Json.parse? = none := by
      cases x with
      | none => rfl
      | some b =>
        rw [Option.filter_some]
        split_ifs
        · exact hx
        · rfl
    rw [SameResult, readSavedImages_toOption, readSavedImages_toOption]
    rcases h.blob Selection.savedImagesName hname with he | ⟨hn, hn'⟩
    · rw [he]
    · rw [hfilter _ hn, hfilter _ hn']
  required names := by
    rw [SameResult, Selection.requireAll, Selection.requireAll, Selection.firstMissing?,
      Selection.firstMissing?, funext fun n => congrArg not (h.contains n)]

/-- Stores lead to the same layers if they are alike in what is read to find these in one of them. -/
theorem Alike.layerNames {wanted : Option Platform} (h : s.Alike (Selection.Reads s wanted) s') :
    SameResult (Selection.layerNames s wanted).outcome (Selection.layerNames s' wanted).outcome :=
  Selection.layerNames_related sameResult_goesAlong (h.contains _) (h.contains _) h.related

end BlobStore

/-- The second file is the first, or it is a gzip file with one member, which has what the first
has. -/
inductive Repacked : String × Bytes → String × Bytes → Prop
  | same (x : String × Bytes) : Repacked x x
  | packed (name : String) (m : Gzip.Member) : m.HasShortTexts → Gzip.isGzip m.data = false →
    Repacked (name, m.data) (name, m.bytes)

lemma Repacked.name_eq {x x' : String × Bytes} (h : Repacked x x') : x'.1 = x.1 := by
  cases h <;> rfl

section Repacked

variable {files files' : List (String × Bytes)} (h : List.Forall₂ Repacked files files')

include h

lemma map_fst_repacked : files'.map Prod.fst = files.map Prod.fst := by
  induction h with
  | nil => rfl
  | cons hx _ ih => rw [List.map_cons, List.map_cons, ih, hx.name_eq]

lemma IsFileSet.repacked (hfiles : IsFileSet files) : IsFileSet files' := by
  have hnames := map_fst_repacked h
  refine ⟨hnames ▸ hfiles.once, fun x hx => ?_⟩
  obtain ⟨y, hy, he⟩ := List.mem_map.mp (hnames ▸ List.mem_map_of_mem hx)
  exact he ▸ hfiles.named y hy

lemma lookup_repacked (name : String) :
    files.lookup name = none ∧ files'.lookup name = none ∨
      ∃ b b', files.lookup name = some b ∧ files'.lookup name = some b' ∧
        Repacked (name, b) (name, b') := by
  induction h with
  | nil => exact .inl ⟨rfl, rfl⟩
  | @cons x x' xs xs' hx _ ih =>
    obtain ⟨n, b⟩ := x
    obtain ⟨n', b'⟩ := x'
    obtain rfl : n' = n := hx.name_eq
    rw [List.lookup_cons, List.lookup_cons]
    cases hn : name == n' with
    | true =>
      obtain rfl : name = n' := by simpa using hn
      exact .inr ⟨b, b', rfl, rfl, hx⟩
    | false => exact ih

end Repacked

namespace Json.Token

lemma ofWord?_gzip (w : Bytes) : ofWord? (0x1f :: w) = none := by
  have hne (k : UInt8) (hk : k ≠ 0x1f) (ks : Bytes) : (0x1f :: w : Bytes) ≠ k :: ks :=
    fun he => hk (List.cons.inj he).1.symm
  have hnull : (0x1f :: w : Bytes) ≠ Utf8.encode "null" := hne 110 (by decide) _
  have htrue : (0x1f :: w : Bytes) ≠ Utf8.encode "true" := hne 116 (by decide) _
  have hfalse : (0x1f :: w : Bytes) ≠ Utf8.encode "false" := hne 102 (by decide) _
  have hnumber : isNumber (0x1f :: w) = false := rfl
  rw [ofWord?, hnumber, if_neg hnull, if_neg htrue, if_neg hfalse, if_neg Bool.false_ne_true]

lemma endWord?_gzip {s : Scan} {read : Bytes} (hm : s.mode = .word read)
    (hr : read.getLast? = some 0x1f) : s.endWord? = none := by
  obtain ⟨front, rfl⟩ := List.getLast?_eq_some_iff.mp hr
  rw [Scan.endWord?, hm]
  simp only [List.reverse_append, List.reverse_cons, List.reverse_nil, List.nil_append,
    List.singleton_append, ofWord?_gzip]
  rfl

lemma run?_gzip {s : Scan} {read : Bytes} (b : Bytes) (hm : s.mode = .word read)
    (hr : read.getLast? = some 0x1f) : (s.run? b).bind Scan.endWord? = none := by
  induction b generalizing s read with
  | nil => exact endWord?_gzip hm hr
  | cons x b ih =>
    rw [Scan.run?, Scan.step?, hm]
    simp only
    split_ifs
    · rw [endWord?_gzip hm hr]
      rfl
    · refine ih rfl ?_
      rw [List.getLast?_cons, hr]
      rfl

end Json.Token

lemma Json.parse?_gzip (m : Gzip.Member) : Json.parse? m.bytes = none := by
  have hrun : (Token.Scan.run? {} m.bytes).bind Token.Scan.endWord? = none :=
    Token.run?_gzip (s := ⟨[], .word [0x1f]⟩) _ rfl rfl
  have hscan : Token.scan? m.bytes = none := by
    simp only [Token.scan?, Option.bind_eq_bind, ← Option.bind_assoc, hrun, Option.bind_none]
  rw [Json.parse?, hscan]
  rfl

/-- Stores that hold the same files are alike, and so are those in one of which some are compressed
that are no documents, or have none of the names. -/
lemma BlobStore.Holds.alike {files files' : List (String × Bytes)} {s s' : BlobStore}
    {names : String → Prop} (hfiles : IsFileSet files) (h : s.Holds files) (h' : s'.Holds files')
    (hrepacked : List.Forall₂ Repacked files files')
    (hdocuments : ∀ x ∈ files, x ∈ files' ∨ Json.parse? x.2 = none ∨
      ∀ name, names name → Path.normalize name ≠ x.1) : s.Alike names s' := by
  have honce' := (hfiles.repacked hrepacked).once
  refine ⟨fun name => ?_, fun name hname => ?_⟩
  · rw [h.contains, h'.contains]
    rcases lookup_repacked hrepacked (Path.normalize name) with ⟨hl, hl'⟩ | ⟨b, b', hl, hl', -⟩
    · rw [hl, hl']
    · rw [hl, hl']
      rfl
  · rw [h.bytes?_eq, h'.bytes?_eq]
    rcases lookup_repacked hrepacked (Path.normalize name) with ⟨hl, hl'⟩ | ⟨b, b', hl, hl', hx⟩
    · exact .inl (hl.trans hl'.symm)
    rcases hdocuments _ ((TarIndex.lookup_iff hfiles.once).mp hl) with hmem | hnone | hother
    · exact .inl (hl.trans ((TarIndex.lookup_iff honce').mpr hmem).symm)
    · rw [hl, hl']
      cases hx with
      | same => exact .inl rfl
      | packed _ m _ _ => exact .inr ⟨hnone, Json.parse?_gzip m⟩
    · exact absurd rfl (hother name hname)

end LayerPick
