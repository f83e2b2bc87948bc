import LayerPick.Proofs.CutTarballs
import LayerPick.Proofs.RelatedStores

/-!
# Image tarballs that are cut off

Let an image tarball be cut off anywhere. Each document of the image that can still be read is the
same, since a document says itself where it ends. So if the image can be opened, it has the same
layers, and if the layers that are read show where they have been cut, an extraction that does not
fail does the same as from the whole tarball.
-/
namespace LayerPick

/-- If both succeed, the results are the same. -/
def Coincide {α : Type} (x x' : Except Failure α) : Prop :=
  ∀ a a', x = .ok a → x' = .ok a' → a' = a

lemma coincide_goesAlong : GoesAlong Coincide where
  refl _ _ _ h h' := Except.ok.inj (h'.symm.trans h)
  bind h hf b b' hb hb' := by
    obtain ⟨a, ha, hb⟩ := Tar.bind_ok.mp hb
    obtain ⟨a', ha', hb'⟩ := Tar.bind_ok.mp hb'
    obtain rfl := h a a' ha ha'
    exact hf a' ha b b' hb hb'
  mapError g h a a' ha ha' := h a a' (Tar.mapError_ok.mp ha) (Tar.mapError_ok.mp ha')

namespace BlobStore

/-- Each blob of `s'` is the beginning of the one that `s` has under the same name, and the list of
saved images is not missing. -/
structure Cut (s s' : BlobStore) : Prop where
  contains : ∀ name, s'.contains name = true → s.contains name = true
  saved : s.contains Selection.savedImagesName = true →
    s'.contains Selection.savedImagesName = true
  blob : ∀ name src src', s.openBlob name = .ok src → s'.openBlob name = .ok src' →
    ∃ b b', src = .ofBytes b ∧ src' = .ofBytes b' ∧ b' <+: b

variable {s s' : BlobStore} {name : String} {b : Bytes}

lemma readDocument_ok {α : Type} {stage : Stage} {f : Json.Value → Option α} {a : α}
    (h : s.openBlob name = .ok (.ofBytes b)) :
    s.readDocument name stage f = .ok a ↔ (Json.parse? b).bind f = some a := by
  obtain ⟨s', hdrain⟩ := Source.drain_ofBytes true b
  simp only [readDocument, h, Tar.ok_bind, hdrain]
  cases (Json.parse? b).bind f <;> simp

lemma readText_ok {text : String} (h : s.openBlob name = .ok (.ofBytes b)) :
    s.readText name = .ok text ↔ Utf8.decode? b = some text := by
  obtain ⟨s', hdrain⟩ := Source.drain_ofBytes true b
  simp only [readText, h, Tar.ok_bind, hdrain]
  cases Utf8.decode? b <;> simp

lemma Cut.readDocument (h : s.Cut s') {α : Type} (stage : Stage) {f : Json.Value → Option α}
    (hf : Json.NeedsContainer f) :
    Coincide (s.readDocument name stage f) (s'.readDocument name stage f) := by
  intro a a' ha ha'
  obtain ⟨src, hsrc, -⟩ := Tar.bind_ok.mp ha
  obtain ⟨src', hsrc', -⟩ := Tar.bind_ok.mp ha'
  obtain ⟨b, b', rfl, rfl, hb⟩ := h.blob name src src' hsrc hsrc'
  exact hf.prefix_eq hb ((readDocument_ok hsrc').mp ha') ((readDocument_ok hsrc).mp ha)

end BlobStore

namespace Selection

open Oci

variable {s s' : BlobStore} {wanted : Option Platform} (h : s.Cut s')

include h

lemma readSavedImages_coincide : Coincide (readSavedImages s) (readSavedImages s') := by
  intro images images' hi hi'
  obtain ⟨text, ht, hi⟩ := Tar.bind_ok.mp hi
  obtain ⟨text', ht', hi'⟩ := Tar.bind_ok.mp hi'
  obtain ⟨src, hsrc, -⟩ := Tar.bind_ok.mp ht
  obtain ⟨src', hsrc', -⟩ := Tar.bind_ok.mp ht'
  obtain ⟨b, b', rfl, rfl, hb⟩ := h.blob _ src src' hsrc hsrc'
  have hencode := Utf8.encode_prefix hb ((BlobStore.readText_ok hsrc').mp ht')
    ((BlobStore.readText_ok hsrc).mp ht)
  refine (Json.Value.needsContainer_list? SavedImage.ofValue?).prefix_eq hencode ?_ ?_
  · split at hi'
    · next hx => rw [hx, Except.ok.inj hi']
    · simp at hi'
  · split at hi
    · next hx => rw [hx, Except.ok.inj hi]
    · simp at hi

omit h in
lemma requireAll_coincide (names : List String) :
    Coincide (requireAll s names) (requireAll s' names) := by
  intro a a' ha ha'
  simp only [requireAll] at ha ha'
  split at ha
  · simp at ha
  split at ha'
  · simp at ha'
  exact (Except.ok.inj ha').symm.trans (Except.ok.inj ha)

lemma cut_related (names : String → Prop) : s.Related Coincide names s' :=
  ⟨fun stage _ _ hf => h.readDocument stage hf, fun _ => readSavedImages_coincide h,
    requireAll_coincide⟩

/-- The layers of an image that can be opened in both stores are the same. -/
lemma layerNames_coincide :
    Coincide (layerNames s wanted).outcome (layerNames s' wanted).outcome := by
  have hsaved : s.contains savedImagesName = s'.contains savedImagesName :=
    Bool.eq_iff_iff.mpr ⟨h.saved, h.contains _⟩
  cases hindex : s'.contains indexName with
  | true =>
    exact layerNames_related coincide_goesAlong hsaved ((h.contains _ hindex).trans hindex.symm)
      (cut_related h _)
  | false =>
    simp only [layerNames, ← hsaved, hindex, Bool.false_eq_true, if_false]
    split_ifs with hs
    · exact coincide_goesAlong.mapError _
        (savedLayers_related coincide_goesAlong hs (cut_related h _))
    all_goals
      intro a a' _ ha'
      simp at ha'

end Selection

def Span.dataIn (s : Span) (b : Bytes) : Bytes := (b.drop s.offset).take s.size

lemma Span.dataIn_prefix (s : Span) {b b' : Bytes} (h : b' <+: b) : s.dataIn b' <+: s.dataIn b :=
  (h.drop s.offset).take s.size

lemma Gzip.isGzip_of_prefix {b b' : Bytes} (hb : b' <+: b) (h : isGzip b = false) :
    isGzip b' = false := by
  obtain ⟨t, rfl⟩ := hb
  by_cases hlen : 2 ≤ b'.length
  · rwa [isGzip_append hlen] at h
  · rw [isGzip_iff, beq_eq_false_iff_ne]
    intro he
    have hl := congrArg List.length he
    simp at hl
    omega

/-- The index `i'` finds nothing elsewhere than `i` does, and it has not lost the list of saved
images. -/
structure TarIndex.Keeps (i' i : TarIndex) : Prop where
  found : ∀ name s, i'.lookup name = some s → i.lookup name = some s
  saved : (i.lookup Selection.savedImagesName).isSome →
    (i'.lookup Selection.savedImagesName).isSome

namespace Tarball

variable {i i' : TarIndex} {path : String} {b b' : Bytes}

lemma openBlob_ok {name : String} {src : Source} :
    (store i path (.ok b)).openBlob name = .ok src ↔
      ∃ s, i.lookup name = some s ∧ src = .ofBytes (s.dataIn b) := by
  simp only [store]
  cases i.lookup name with
  | none => simp
  | some s => simp [Span.dataIn, eq_comm]

lemma store_cut (hb : b' <+: b) (hi : i'.Keeps i) :
    (store i path (.ok b)).Cut (store i' path (.ok b')) where
  contains name hc := by
    obtain ⟨s, hs⟩ := Option.isSome_iff_exists.mp hc
    exact Option.isSome_iff_exists.mpr ⟨s, hi.found name s hs⟩
  saved := hi.saved
  blob name src src' hsrc hsrc' := by
    obtain ⟨s, hs, rfl⟩ := openBlob_ok.mp hsrc
    obtain ⟨s', hs', rfl⟩ := openBlob_ok.mp hsrc'
    obtain rfl := Option.some.inj ((hi.found name s' hs').symm.trans hs)
    exact ⟨_, _, rfl, rfl, s'.dataIn_prefix hb⟩

/-- A layer that is cut so that it shows is paired with the whole layer, if both can be opened. -/
lemma paired (hb : b' <+: b) (hi : i'.Keeps i) (name : String)
    (hs : ∀ s, i.lookup name = some s → ShowsCut (s.dataIn b) (s.dataIn b')) :
    Layer.Paired ⟨name, do unpackedBlob name (← (store i path (.ok b)).openBlob name)⟩
      ⟨name, do unpackedBlob name (← (store i' path (.ok b')).openBlob name)⟩ := by
  refine ⟨rfl, fun src src' ho ho' => ?_⟩
  obtain ⟨blob, hblob, ho⟩ := Tar.bind_ok.mp ho
  obtain ⟨blob', hblob', ho'⟩ := Tar.bind_ok.mp ho'
  obtain ⟨s, hlookup, rfl⟩ := openBlob_ok.mp hblob
  obtain ⟨s', hlookup', rfl⟩ := openBlob_ok.mp hblob'
  obtain rfl := Option.some.inj ((hi.found name s' hlookup').symm.trans hlookup)
  exact (Layer.paired_of_prefix name (s'.dataIn_prefix hb) (hs s' hlookup)).2 src src' ho ho'

end Tarball

namespace LocalImage

variable {t : FileTree} {path : String} {b : Bytes} {wanted : Option Platform}

lemma not_isFolder (h : t.openFile path = .ok (.ofBytes b)) : t.isFolder path = false := by
  simp only [FileTree.openFile, FileTree.isFolder] at h ⊢
  split at h
  · next hx => simp [hx]
  · next hx => simp [hx]
  · next hx => simp [hx]
  · next n hnone hfull hx => simp [Source.ofBytes] at h

/-- The blobs of an image tarball that is not compressed are read from the file. -/
lemma blobs_tarball (h : t.openFile path = .ok (.ofBytes b)) (i : TarIndex) :
    (LocalStore.tarball ⟨i, path, none⟩).blobs t = Tarball.store i path (.ok b) := by
  simp only [LocalStore.blobs, Tarball.Opened.store, Tarball.fileBytes, h, Except.map,
    Source.data_ofBytes]

/-- Opening an image is opening where its blobs are, and finding the layers among them. -/
lemma openAt_iff {img : LocalImage} :
    (openAt t path wanted).outcome = .ok img ↔
      ∃ st names, (openStore t path).outcome = .ok st ∧
        (Selection.layerNames (st.blobs t) wanted).outcome = .ok names ∧ img = ⟨path, st, names⟩ := by
  simp only [openAt, layersOf, Traced.outcome_bind, Traced.outcome_during, Traced.outcome_pure,
    Traced.outcome_say, Tar.bind_ok, Tar.mapError_ok, Except.ok.injEq]
  constructor
  · rintro ⟨st, hst, names, ⟨_, hn, _, -, rfl⟩, rfl⟩
    exact ⟨st, _, hst, hn, rfl⟩
  · rintro ⟨st, names, hst, hn, rfl⟩
    exact ⟨st, hst, names, ⟨names, hn, (), trivial, rfl⟩, rfl⟩

lemma openAt_ok (h : t.openFile path = .ok (.ofBytes b)) (hplain : Gzip.isGzip b = false)
    {img : LocalImage} :
    (openAt t path wanted).outcome = .ok img ↔
      ∃ i names, (TarIndex.ofBytes b).outcome = .ok i ∧
        (Selection.layerNames (Tarball.store i path (.ok b)) wanted).outcome = .ok names ∧
        img = ⟨path, .tarball ⟨i, path, none⟩, names⟩ := by
  rw [openAt_iff]
  simp only [openStore, not_isFolder h, Bool.false_eq_true, if_false, Traced.outcome_bind,
    Traced.outcome_pure, Tarball.openAt_outcome h, hplain, Tar.bind_ok, Tar.map_ok,
    Except.ok.injEq]
  constructor
  · rintro ⟨_, names, ⟨_, ⟨i, hi, rfl⟩, rfl⟩, hn, rfl⟩
    rw [blobs_tarball h] at hn
    exact ⟨i, names, hi, hn, rfl⟩
  · rintro ⟨i, names, hi, hn, rfl⟩
    refine ⟨_, names, ⟨_, ⟨i, hi, rfl⟩, rfl⟩, ?_, rfl⟩
    rw [blobs_tarball h]
    exact hn

end LocalImage

/-- A file with nothing but a name, in an archive. -/
def bareMember (name : String) (content : Bytes) : Bytes :=
  Tar.memberBytes (Tar.bareHeader name content.length) content

def fooArchive (content : Bytes) : Bytes := bareMember "usr/bin/foo" content ++ Tar.trailer

/-- The tarball of an image with the layers `base` and `top`. -/
def savedImage (blobs : List (String × Bytes)) : Bytes :=
  bareMember "manifest.json"
    (Utf8.encode "[\x7b\"Config\":\"config\",\"Layers\":[\"base\",\"top\"]\x7d]") ++
  (blobs.flatMap fun x => bareMember x.1 x.2) ++ Tar.trailer

def imageFile (b : Bytes) : FileTree := FileTree.empty.put ["work", "image"] (.file b)

lemma openFile_imageFile (b : Bytes) : (imageFile b).openFile "image" = .ok (.ofBytes b) := rfl

/-- An image tarball that is not compressed, and the beginning of it. Let the beginning find no blob
elsewhere than the whole does, and let each layer that the extraction from the whole opens show
where it has been cut. Then either opening the beginning fails, or the extraction from it fails, or
it has the same result and writes the same archive. -/
theorem extract_cut {t t' : FileTree} {path : String} {b b' : Bytes} {i : TarIndex}
    {wanted : Option Platform} {img : LocalImage} {files : List FileSpec} {cancelled : ℕ → Bool}
    {d : Device} {label : String} {e : Extraction} (hplain : Gzip.isGzip b = false)
    (hb : b' <+: b) (hopen : t.openFile path = .ok (.ofBytes b))
    (hopen' : t'.openFile path = .ok (.ofBytes b'))
    (himg : (LocalImage.openAt t path wanted).outcome = .ok img)
    (hx : (extract (img.image t) files cancelled (.ok d) label).outcome = .ok e)
    (hi : (TarIndex.ofBytes b).outcome = .ok i)
    (hkeeps : ∀ i', (TarIndex.ofBytes b').outcome = .ok i' → i'.Keeps i)
    (hshows : ∀ k ∈ (extract (img.image t) files cancelled (.ok d) label).opened,
      ∀ name, img.layers[k]? = some name →
        ∀ s, i.lookup name = some s → ShowsCut (s.dataIn b) (s.dataIn b')) :
    (∃ f, (LocalImage.openAt t' path wanted).outcome = .error f) ∨
      ∃ img', (LocalImage.openAt t' path wanted).outcome = .ok img' ∧
        ((∃ f, (extract (img'.image t') files cancelled (.ok d) label).outcome = .error f) ∨
          (extract (img'.image t') files cancelled (.ok d) label).outcome = .ok e ∧
            (extract (img'.image t') files cancelled (.ok d) label).device =
              (extract (img.image t) files cancelled (.ok d) label).device) := by
  rcases himg' : (LocalImage.openAt t' path wanted).outcome with f | img'
  · exact .inl ⟨f, rfl⟩
  refine .inr ⟨img', rfl, ?_⟩
  obtain ⟨i₁, names, hi₁, hnames, rfl⟩ := (LocalImage.openAt_ok hopen hplain).mp himg
  obtain ⟨i', names', hi', hnames', rfl⟩ :=
    (LocalImage.openAt_ok hopen' (Gzip.isGzip_of_prefix hb hplain)).mp himg'
  obtain rfl := Except.ok.inj (hi₁.symm.trans hi)
  have hkeep := hkeeps i' hi'
  obtain rfl := Selection.layerNames_coincide (Tarball.store_cut hb hkeep) _ _ hnames hnames'
  simp only [LocalImage.image, LocalImage.blobs_tarball hopen,
    LocalImage.blobs_tarball hopen'] at hx hshows ⊢
  rcases hx' : (extract ⟨.ok (blobLayers (Tarball.store i' path (.ok b')) names')⟩ files cancelled
    (.ok d) label).outcome with f | e'
  · exact .inl ⟨f, rfl⟩
  obtain ⟨attempts, hsame⟩ := extract_paired (by simp [blobLayers]) hx hx' <| by
    intro k hk l l' hl hl'
    simp only [blobLayers, List.getElem?_map, Option.map_eq_some_iff] at hl hl'
    obtain ⟨name, hname, rfl⟩ := hl
    obtain ⟨name', hname', rfl⟩ := hl'
    obtain rfl := Option.some.inj (hname.symm.trans hname')
    exact Tarball.paired hb hkeep name (hshows k hk name hname)
  rw [hsame] at hx' ⊢
  exact .inr ⟨hx'.symm.trans hx, rfl⟩

/-- The tarball is cut off in the base layer, which is not opened. -/
theorem extract_cut_base :
    let b := savedImage [("top", fooArchive [110, 101, 119]), ("base", fooArchive [111, 108, 100])]
    let x (b : Bytes) (img : LocalImage) := extract (img.image (imageFile b))
      [⟨"/usr/bin/foo", "."⟩] (fun _ => false) (.ok .accepting) "out"
    ∃ img e, (LocalImage.openAt (imageFile b) "image" none).outcome = .ok img ∧
      (x b img).outcome = .ok e ∧
      ((∃ f, (LocalImage.openAt (imageFile (b.take 4608)) "image" none).outcome = .error f) ∨
        ∃ img', (LocalImage.openAt (imageFile (b.take 4608)) "image" none).outcome = .ok img' ∧
          ((∃ f, (x (b.take 4608) img').outcome = .error f) ∨
            (x (b.take 4608) img').outcome = .ok e ∧
              (x (b.take 4608) img').device = (x b img).device)) := by
  intro b x
  let i : TarIndex :=
    ⟨[("base", ⟨4096, 2048⟩), ("top", ⟨1536, 2048⟩), ("manifest.json", ⟨512, 45⟩)], []⟩
  have hindex : (TarIndex.ofBytes b).outcome = .ok i ∧
      (TarIndex.ofBytes (b.take 4608)).outcome = .ok i := by
    decide +kernel
  have hnames : (Selection.layerNames (Tarball.store i "image" (.ok b)) none).outcome =
      .ok ["base", "top"] := by
    decide +kernel
  have hrun : (extract ⟨.ok (blobLayers (Tarball.store i "image" (.ok b)) ["base", "top"])⟩
        [⟨"/usr/bin/foo", "."⟩] (fun _ => false) (.ok .accepting) "out").outcome =
          .ok ⟨[⟨"/usr/bin/foo", "."⟩], [], 1, "out"⟩ ∧
      (extract ⟨.ok (blobLayers (Tarball.store i "image" (.ok b)) ["base", "top"])⟩
        [⟨"/usr/bin/foo", "."⟩] (fun _ => false) (.ok .accepting) "out").opened = [1] := by
    decide +kernel
  have hplain : Gzip.isGzip b = false := by decide +kernel
  have hopen := openFile_imageFile b
  have himage : (LocalImage.mk "image" (.tarball ⟨i, "image", none⟩) ["base", "top"]).image
      (imageFile b) = ⟨.ok (blobLayers (Tarball.store i "image" (.ok b)) ["base", "top"])⟩ := by
    rw [LocalImage.image, LocalImage.blobs_tarball hopen]
  rw [← himage] at hrun
  have himg : (LocalImage.openAt (imageFile b) "image" none).outcome =
      .ok ⟨"image", .tarball ⟨i, "image", none⟩, ["base", "top"]⟩ :=
    (LocalImage.openAt_ok hopen hplain).mpr ⟨i, _, hindex.1, hnames, rfl⟩
  refine ⟨_, _, himg, hrun.1, extract_cut hplain (List.take_prefix 4608 b) hopen
    (openFile_imageFile _) himg hrun.1 hindex.1 ?_ ?_⟩
  · intro i' hi'
    refine ⟨fun name s => TarIndex.lookup_of_prefix (List.take_prefix 4608 b) hi' hindex.1
      (by decide), fun h => ?_⟩
    rwa [← Except.ok.inj (hindex.2.symm.trans hi')]
  · intro k hk name hname s hs
    rw [hrun.2, List.mem_singleton] at hk
    subst hk
    obtain rfl : name = "top" := (Option.some.inj hname).symm
    have hlookup : i.lookup "top" = some ⟨1536, 2048⟩ := by decide +kernel
    obtain rfl := Option.some.inj (hlookup.symm.trans hs)
    left
    rw [Span.dataIn, Span.dataIn, List.drop_take, List.take_take]
    rfl

/-- A tarball that ends where the data of the top layer start. A copy of the file in the base layer
is taken instead. -/
theorem extract_cut_stale :
    let b := savedImage [("base", fooArchive [111, 108, 100]), ("top", fooArchive [110, 101, 119])]
    let x (b : Bytes) := (LocalImage.openAt (imageFile b) "image" none).outcome.map fun img =>
      extract (img.image (imageFile b)) [⟨"/usr/bin/foo", "."⟩] (fun _ => false)
        (.ok .accepting) "out"
    let result (y : Extracted) := (y.outcome, y.device.map fun d => Tar.unpack d.output)
    (x b).map result = .ok (.ok ⟨[⟨"/usr/bin/foo", "."⟩], [], 1, "out"⟩,
        some (.ok [⟨Utf8.encode "usr/bin/foo", [], [110, 101, 119]⟩])) ∧
      (x (b.take 4096)).map result = .ok (.ok ⟨[⟨"/usr/bin/foo", "."⟩], [], 2, "out"⟩,
        some (.ok [⟨Utf8.encode "usr/bin/foo", [], [111, 108, 100]⟩])) := by
  decide +kernel

end LayerPick
