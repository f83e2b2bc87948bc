import LayerPick.Proofs.HeldBlobs

/-!
# Forms that an image is stored in

The files of an image may lie in a folder, in a tar archive, or in a tar archive that is compressed
with gzip, and each layer may be compressed or not. None of this shows in what is extracted.
-/
namespace LayerPick

open Tar

/-- These files are stored under this path: in a folder, in a tar archive that is not compressed, or
in one that is compressed to a single member of gzip. -/
inductive StoredAt (files : List (String × Bytes)) (t : FileTree) (path : String) : Prop
  | folder {p : Place} : t.resolve path = .ok (.node p .folder) → t.Holds p files →
    (∀ x ∈ files, FileTree.Takes (Path.inFolder path x.1)) → StoredAt files t path
  | tarball {b : Bytes} : t.openFile path = .ok (.ofBytes b) → b.length < Numeral.bound / 2 →
    HoldsFiles b files → Gzip.isGzip b = false → StoredAt files t path
  | compressed {m : Gzip.Member} : t.openFile path = .ok (.ofBytes m.bytes) →
    m.data.length < Numeral.bound / 2 → HoldsFiles m.data files → m.HasShortTexts →
    StoredAt files t path

/-- Both layers can be opened, and their streams give the same bytes and meet the same failures and
the same end, in whatever portions. -/
structure Layer.SameStream (l l' : Layer) : Prop where
  description : l.description = l'.description
  stream : ∃ src src', l.openLayer = .ok src ∧ l'.openLayer = .ok src' ∧
    src.tokens = src'.tokens ∧ src.defect = src'.defect

section Opening

variable {files : List (String × Bytes)} {t : FileTree} {path : String}

lemma StoredAt.openStore (hfiles : IsFileSet files) (h : StoredAt files t path) :
    ∃ st, (LocalImage.openStore t path).outcome = .ok st ∧ (st.blobs t).Holds files := by
  cases h with
  | @folder p hresolve hholds htakes =>
    have hfolder : t.isFolder path = true := by
      simp only [FileTree.isFolder, FileTree.find?, hresolve]
    refine ⟨.layout path, ?_, Layout.store_holds hfiles hresolve hholds htakes⟩
    simp [LocalImage.openStore, Layout.openAt, hfolder]
  | @tarball b hopen hb hholds hplain =>
    obtain ⟨i, hi, hstore⟩ := Tarball.store_holds hfiles hb hholds
    refine ⟨.tarball ⟨i, path, none⟩, ?_, ?_⟩
    · simp [LocalImage.openStore, LocalImage.not_isFolder hopen, Tarball.openAt_outcome hopen,
        hplain, hi, Except.map]
    · rw [LocalImage.blobs_tarball hopen]
      exact hstore path
  | @compressed m hopen hb hholds hshort =>
    obtain ⟨i, hi, hstore⟩ := Tarball.store_holds hfiles hb hholds
    refine ⟨.tarball ⟨i, path, some m.data⟩, ?_, hstore path⟩
    simp [LocalImage.openStore, LocalImage.not_isFolder hopen, Tarball.openAt_outcome hopen,
      Gzip.isGzip_bytes, Gzip.read_bytes, hshort, hi, Except.map]

lemma openAt_of_openStore {st : LocalStore} (hst : (LocalImage.openStore t path).outcome = .ok st)
    {wanted : Option Platform} {img : LocalImage} :
    (LocalImage.openAt t path wanted).outcome = .ok img ↔
      ∃ names, (Selection.layerNames (st.blobs t) wanted).outcome = .ok names ∧
        img = ⟨path, st, names⟩ := by
  rw [LocalImage.openAt_iff]
  constructor
  · rintro ⟨st', names, hst', hn, rfl⟩
    obtain rfl := Except.ok.inj (hst.symm.trans hst')
    exact ⟨names, hn, rfl⟩
  · rintro ⟨names, hn, rfl⟩
    exact ⟨st, names, hst, hn, rfl⟩

/-- The file is read as a document when the image is opened. -/
def ReadsAt (t : FileTree) (path : String) (wanted : Option Platform) (file : String) : Prop :=
  ∃ st name, (LocalImage.openStore t path).outcome = .ok st ∧
    Selection.Reads (st.blobs t) wanted name ∧ Path.normalize name = file

/-- What the layers of an image are called, if it can be opened. -/
def layersAt (t : FileTree) (path : String) (wanted : Option Platform) : Option (List String) :=
  (LocalImage.openAt t path wanted).outcome.toOption.map LocalImage.layers

lemma layersAt_eq {st : LocalStore} (hst : (LocalImage.openStore t path).outcome = .ok st)
    (wanted : Option Platform) :
    layersAt t path wanted = (Selection.layerNames (st.blobs t) wanted).outcome.toOption := by
  rw [layersAt]
  rcases ho : (LocalImage.openAt t path wanted).outcome with f | img
  · rcases hn : (Selection.layerNames (st.blobs t) wanted).outcome with f' | names
    · rfl
    · rw [(openAt_of_openStore hst).mpr ⟨names, hn, rfl⟩] at ho
      simp at ho
  · obtain ⟨names, hn, rfl⟩ := (openAt_of_openStore hst).mp ho
    rw [hn]
    rfl

end Opening

lemma Layer.SameStream.recut {l l' : Layer} (h : l.SameStream l') :
    l.Recut (fun _ => False) l' := by
  obtain ⟨hd, src, src', ho, ho', htokens, hdefect⟩ := h
  refine ⟨hd, ?_⟩
  rw [ho, ho']
  exact .ok ⟨htokens ▸ .refl _ _ _, hdefect⟩

section Layers

variable {files files' : List (String × Bytes)} {s s' : BlobStore} (h : s.Holds files)
  (h' : s'.Holds files')

include h h'

/-- A layer has the same stream whether its blob is compressed or not. -/
lemma sameStream_of_repacked (hrepacked : List.Forall₂ Repacked files files') {name : String}
    (hname : s.contains name = true) :
    Layer.SameStream ⟨name, do unpackedBlob name (← s.openBlob name)⟩
      ⟨name, do unpackedBlob name (← s'.openBlob name)⟩ := by
  rw [h.contains] at hname
  rcases lookup_repacked hrepacked (Path.normalize name) with ⟨hl, -⟩ | ⟨b, b', hl, hl', hx⟩
  · simp [hl] at hname
  have hopen := h.found name b hl
  have hopen' := h'.found name b' hl'
  refine ⟨rfl, ?_⟩
  simp only [hopen, hopen', Tar.ok_bind, unpackedBlob_ofBytes]
  cases hx with
  | same => exact ⟨_, _, rfl, rfl, rfl, rfl⟩
  | packed _ m hshort hplain =>
    have hpacked : (gunzip (.ofBytes m.bytes)).Delivers m.data :=
      (delivers_gunzip _ _).mpr (by rw [Gzip.read_bytes, if_pos hshort])
    have hpeeked := delivers_peeked m.data
    rw [hplain, Gzip.isGzip_bytes, if_neg Bool.false_ne_true, if_pos rfl]
    refine ⟨_, _, rfl, rfl, ?_, hpeeked.1.noDefect.trans hpacked.1.noDefect.symm⟩
    rw [hpeeked.1.tokens, hpacked.1.tokens, hpeeked.2, hpacked.2]

lemma blobLayers_eq (hsame : files' = files) {names : List String}
    (hnames : ∀ n ∈ names, s.contains n = true) : blobLayers s' names = blobLayers s names := by
  subst hsame
  refine List.map_congr_left fun n hn => ?_
  obtain ⟨b, hb⟩ := Option.isSome_iff_exists.mp ((h.contains n).symm.trans (hnames n hn))
  rw [h.found n b hb, h'.found n b hb]

end Layers

/-- The files of a saved image with one layer. -/
def savedBlobs (layer : Bytes) : List (String × Bytes) :=
  [("manifest.json", Utf8.encode "[\x7b\"Config\":\"config\",\"Layers\":[\"layer\"]\x7d]"),
    ("layer", layer)]

def archiveOf (files : List (String × Bytes)) : Bytes :=
  (files.flatMap fun x => bareMember x.1 x.2) ++ Tar.trailer

def imageFolder (files : List (String × Bytes)) : FileTree :=
  files.foldl (fun t x => t.put ["work", "image", x.1] (.file x.2))
    (FileTree.empty.put ["work", "image"] .folder)

lemma forall_savedBlobs {layer : Bytes} {P : String × Bytes → Prop}
    (hlist : ∀ b, P ("manifest.json", b)) (hlayer : P ("layer", layer)) :
    ∀ x ∈ savedBlobs layer, P x := by
  intro x hx
  rcases List.mem_cons.mp hx with rfl | hx
  · exact hlist _
  · obtain rfl := List.mem_singleton.mp hx
    exact hlayer

lemma isFileSet_savedBlobs (layer : Bytes) : IsFileSet (savedBlobs layer) := by
  have hlist : Path.IsFileName "manifest.json" :=
    ⟨by decide +kernel, by decide +kernel, by decide⟩
  have hlayer : Path.IsFileName "layer" := ⟨by decide +kernel, by decide +kernel, by decide⟩
  refine ⟨?_, forall_savedBlobs (fun _ => hlist) hlayer⟩
  show ["manifest.json", "layer"].Nodup
  decide

lemma storedAt_imageFolder (layer : Bytes) :
    StoredAt (savedBlobs layer) (imageFolder (savedBlobs layer)) "image" := by
  have hlist : placeOf "manifest.json" = ["manifest.json"] := by decide +kernel
  have hlayer : placeOf "layer" = ["layer"] := by decide +kernel
  have htakes : FileTree.Takes (Path.inFolder "image" "manifest.json") ∧
      FileTree.Takes (Path.inFolder "image" "layer") :=
    ⟨⟨by decide +kernel, by decide +kernel, by decide +kernel⟩,
      ⟨by decide +kernel, by decide +kernel, by decide +kernel⟩⟩
  refine .folder (p := ["work", "image"]) rfl ⟨rfl, ?_, ?_, ?_⟩
    (forall_savedBlobs (fun _ => htakes.1) htakes.2)
  · intro x hx
    rcases List.mem_cons.mp hx with rfl | hx
    · rw [hlist]
      rfl
    · obtain rfl := List.mem_singleton.mp hx
      rw [hlayer]
      rfl
  · have hshort (name : String) (q r : Place) (hr : r ≠ []) (he : [name] = q ++ r) : q = [] := by
      rw [List.singleton_eq_append_iff] at he
      exact (he.resolve_right fun h => hr h.2).1
    refine forall_savedBlobs (fun _ q r hr he => ?_) fun q r hr he => ?_
    · rw [hshort _ q r hr (hlist ▸ he)]
      rfl
    · rw [hshort _ q r hr (hlayer ▸ he)]
      rfl
  · intro q n hn
    have hmem := TarIndex.mem_of_lookup hn
    rw [show (imageFolder (savedBlobs layer)).nodes =
      [(["work", "image", "layer"], .file layer),
        (["work", "image", "manifest.json"], .file (Utf8.encode
          "[\x7b\"Config\":\"config\",\"Layers\":[\"layer\"]\x7d]")),
        (["work", "image"], .folder), ([], .folder), (["work"], .folder), (["dev"], .folder),
        (["dev", "full"], .fullDevice)] from rfl] at hmem
    simp only [List.mem_cons, List.not_mem_nil, or_false, Prod.mk.injEq, List.cons_append,
      List.nil_append, List.cons.injEq, true_and, reduceCtorEq, false_and, false_or] at hmem
    rcases hmem with ⟨rfl, -⟩ | ⟨rfl, -⟩ | ⟨-, rfl⟩ | ⟨⟨h, -⟩, -⟩ | ⟨⟨h, -⟩, -⟩
    · exact .inr ⟨("layer", layer), by simp [savedBlobs], hlayer.symm⟩
    · exact .inr ⟨_, List.mem_cons_self .., hlist.symm⟩
    · exact .inl rfl
    · exact absurd h (by decide)
    · exact absurd h (by decide)

/-- It does not matter in which form an image is stored. Let its files, or the same files with some
compressed that were not, be stored in two places, in any two of the forms. If no file that has been
compressed is a document that is read when the image is opened, this goes well in both places with
the same layers or in neither. Wherever it has the same layers, each of them has the same stream in
both places, an extraction to a device that takes every call does the same, and if no file has been
compressed the images are the same altogether. -/
theorem storedAt_alike {files files' : List (String × Bytes)} {t t' : FileTree}
    {path path' : String} (hfiles : IsFileSet files) (hstored : StoredAt files t path)
    (hstored' : StoredAt files' t' path') (hrepacked : List.Forall₂ Repacked files files')
    (wanted : Option Platform) :
    ((∀ x ∈ files, x ∈ files' ∨ Json.parse? x.2 = none ∨ ¬ReadsAt t path wanted x.1) →
      layersAt t path wanted = layersAt t' path' wanted) ∧
    ∀ img img', (LocalImage.openAt t path wanted).outcome = .ok img →
      (LocalImage.openAt t' path' wanted).outcome = .ok img' → img.layers = img'.layers →
        (∃ layers layers', (img.image t).layers = .ok layers ∧ (img'.image t').layers = .ok layers' ∧
          List.Forall₂ Layer.SameStream layers layers') ∧
        (∀ specs cancelled (d : Device) label, d.Accepts →
          (extract (img.image t) specs cancelled (.ok d) label).Alike
            (extract (img'.image t') specs cancelled (.ok d) label)) ∧
        (files' = files → img'.image t' = img.image t) := by
  have hfiles' := hfiles.repacked hrepacked
  obtain ⟨st, hst, hholds⟩ := hstored.openStore hfiles
  obtain ⟨st', hst', hholds'⟩ := hstored'.openStore hfiles'
  refine ⟨fun hdocuments => ?_, fun img img' himg himg' hlayers => ?_⟩
  · rw [layersAt_eq hst, layersAt_eq hst']
    refine (hholds.alike hfiles hholds' hrepacked fun x hx => ?_).layerNames
    refine (hdocuments x hx).imp_right (Or.imp_right fun hno name hname he => ?_)
    exact hno ⟨st, name, hst, hname, he⟩
  · obtain ⟨names, hnames, rfl⟩ := (openAt_of_openStore hst).mp himg
    obtain ⟨names', -, rfl⟩ := (openAt_of_openStore hst').mp himg'
    obtain rfl : names = names' := hlayers
    obtain ⟨-, -, -, hcontained⟩ := Selection.layerNames_ok.mp hnames
    have hstreams : List.Forall₂ Layer.SameStream (blobLayers (st.blobs t) names)
        (blobLayers (st'.blobs t') names) := by
      rw [blobLayers, blobLayers, List.forall₂_map_left_iff, List.forall₂_map_right_iff,
        List.forall₂_same]
      exact fun n hn => sameStream_of_repacked hholds hholds' hrepacked (hcontained n hn)
    refine ⟨⟨_, _, rfl, rfl, hstreams⟩, fun specs cancelled d label hd => ?_, fun hsame => ?_⟩
    · exact extract_alike (hstreams.imp fun _ _ h => h.recut) specs cancelled hd label
    · simp only [LocalImage.image, blobLayers_eq hholds hholds' hsame hcontained]

/-- A saved image in a folder, and in a compressed archive with the layer compressed. The layer is a
document, but not one that is read. -/
theorem storedAt_alike_saved :
    let layer : Bytes := Utf8.encode "[]"
    let files := savedBlobs layer
    let files' := savedBlobs (Gzip.Member.stored layer).bytes
    let t := imageFolder files
    let t' := imageFile (Gzip.Member.stored (archiveOf files')).bytes
    layersAt t "image" none = some ["layer"] ∧ layersAt t' "image" none = some ["layer"] ∧
      ∀ img img', (LocalImage.openAt t "image" none).outcome = .ok img →
        (LocalImage.openAt t' "image" none).outcome = .ok img' → img.layers = img'.layers →
          ∃ layers layers', (img.image t).layers = .ok layers ∧
            (img'.image t').layers = .ok layers' ∧ List.Forall₂ Layer.SameStream layers layers' := by
  intro layer files files' t t'
  have hlists : Reader.listed? 3 (.ofSource (.ofBytes (archiveOf files'))) = some files' := by
    decide +kernel
  have hstored' : StoredAt files' t' "image" :=
    .compressed (m := .stored (archiveOf files')) (openFile_imageFile _) (by decide +kernel)
      ⟨files', Reader.lists_of_listed? hlists, .refl _⟩ (by decide)
  have hrepacked : List.Forall₂ Repacked files files' :=
    .cons (.same _) (.cons (.packed "layer" (.stored layer) (by decide) (by decide +kernel)) .nil)
  have halike := storedAt_alike (isFileSet_savedBlobs layer) (storedAt_imageFolder layer) hstored'
    hrepacked none
  have hlayers : layersAt t "image" none = some ["layer"] := by decide +kernel
  have hunread : ¬ReadsAt t "image" none "layer" := by
    rintro ⟨st, name, hst, hreads, hname⟩
    obtain rfl : LocalStore.layout "image" = st := Except.ok.inj hst
    have hsaved : ((LocalStore.layout "image").blobs t).contains Selection.savedImagesName = true :=
      by decide +kernel
    cases hreads with
    | saved _ => exact absurd hname (by decide +kernel)
    | config _ _ hwanted => cases hwanted
    | index hno _ => exact absurd hsaved (by simp [hno])
    | visited hno _ _ _ => exact absurd hsaved (by simp [hno])
  have hdocuments : ∀ x ∈ files, x ∈ files' ∨ Json.parse? x.2 = none ∨
      ¬ReadsAt t "image" none x.1 := by
    intro x hx
    rcases List.mem_cons.mp hx with rfl | hx
    · exact .inl (List.mem_cons_self ..)
    · obtain rfl := List.mem_singleton.mp hx
      exact .inr (.inr hunread)
  exact ⟨hlayers, (halike.1 hdocuments).symm.trans hlayers,
    fun img img' h h' hl => (halike.2 img img' h h' hl).1⟩

/-- An archive with too long a name in its header of gzip cannot be opened. -/
lemma layersAt_longText {m : Gzip.Member} (h : ¬m.HasShortTexts) (wanted : Option Platform) :
    layersAt (imageFile m.bytes) "image" wanted = none := by
  have hopen := openFile_imageFile m.bytes
  simp [layersAt, LocalImage.openAt, LocalImage.openStore, LocalImage.not_isFolder hopen,
    Tarball.openAt_outcome hopen, Gzip.isGzip_bytes, Gzip.read_bytes, h, Except.toOption]

/-- Where a form does matter: an archive that is compressed under a name of 65536 bytes, and a list
of saved images that is compressed because it lists itself as a layer. -/
theorem layersAt_ne_of_form :
    let files := savedBlobs []
    let m : Gzip.Member := { Gzip.Member.stored (archiveOf files) with
      name := some (List.replicate 65536 97)
      name_text := fun b hb h =>
        absurd (List.eq_of_mem_replicate (Option.some.inj hb ▸ h)) (by decide) }
    let itself := Utf8.encode "[\x7b\"Config\":\"config\",\"Layers\":[\"manifest.json\"]\x7d]"
    let n := Gzip.Member.stored itself
    (IsFileSet files ∧ HoldsFiles m.data files ∧ Gzip.isGzip m.data = false ∧
      layersAt (imageFile m.data) "image" none = some ["layer"] ∧
      layersAt (imageFile m.bytes) "image" none = none) ∧
    (n.data = itself ∧ Gzip.isGzip itself = false ∧
      layersAt (imageFolder [("manifest.json", itself)]) "image" none = some ["manifest.json"] ∧
      layersAt (imageFolder [("manifest.json", n.bytes)]) "image" none = none) := by
  intro files m itself n
  have hlists : Reader.listed? 3 (.ofSource (.ofBytes (archiveOf files))) = some files := by
    decide +kernel
  have hlong : ¬m.HasShortTexts := by
    intro h
    have hname := h.1 _ rfl
    rw [List.length_replicate] at hname
    exact absurd hname (by decide)
  exact ⟨⟨isFileSet_savedBlobs [], ⟨files, Reader.lists_of_listed? hlists, .refl _⟩,
      by decide +kernel, by decide +kernel, layersAt_longText hlong none⟩,
    rfl, by decide +kernel, by decide +kernel, by decide +kernel⟩

end LayerPick
