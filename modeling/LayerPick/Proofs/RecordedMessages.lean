import LayerPick.Proofs.FoundFiles
import LayerPick.Proofs.ManifestSearch

/-!
# Messages that are recorded

Where the temporary file lies shows in a single kind of message: the one on the index of an archive,
which is for debugging. So a run in which such messages are not shown writes the same lines wherever
the file lies. The walk says nothing of it: all its messages are of progress.
-/
namespace LayerPick

open Log

/-- If the message names the temporary file, it is for debugging. -/
def Log.Record.IsGuarded (r : Record) : Prop := r.namesSpool = true → r.level = .debug

lemma Log.Record.isGuarded_of_whole {r : Record} (h : r.namesSpool = false) : r.IsGuarded :=
  fun hnames => absurd hnames (Bool.not_eq_true _ ▸ h)

def Traced.IsGuarded {α : Type} (t : Traced α) : Prop := ∀ r ∈ t.log, r.IsGuarded

section Operations

variable {α β : Type}

lemma Traced.guarded_ofExcept (x : Except Failure α) : (ofExcept x).IsGuarded :=
  List.forall_mem_nil _

lemma Traced.guarded_pure (a : α) : (pure a : Traced α).IsGuarded := List.forall_mem_nil _

lemma Traced.guarded_fail (c : Cause) : (fail c : Traced α).IsGuarded := List.forall_mem_nil _

lemma Traced.guarded_say (l : Level) (o : Origin) (m : String) : (say l o m).IsGuarded :=
  List.forall_mem_singleton.mpr (Record.isGuarded_of_whole rfl)

lemma Traced.IsGuarded.during {t : Traced α} (h : t.IsGuarded) (s : Stage) :
    (t.during s).IsGuarded := h

lemma Traced.IsGuarded.bind {t : Traced α} {f : α → Traced β} (h : t.IsGuarded)
    (hf : ∀ a, (f a).IsGuarded) : (t >>= f).IsGuarded := by
  simp only [Traced.IsGuarded, Bind.bind, Traced.bind]
  rcases t.outcome with e | a
  · exact h
  · exact List.forall_mem_append.mpr ⟨h, hf a⟩

end Operations

lemma TarIndex.guarded_add (i : TarIndex) (e : Tar.Entry) : ∀ r ∈ (i.add e).2, r.IsGuarded := by
  simp only [add]
  split
  · exact List.forall_mem_nil _
  · cases e.link? with
    | none => exact List.forall_mem_nil _
    | some link => exact List.forall_mem_singleton.mpr (Record.isGuarded_of_whole rfl)
  · cases e.link? with
    | none => exact List.forall_mem_nil _
    | some link => exact List.forall_mem_singleton.mpr (Record.isGuarded_of_whole rfl)
  · exact List.forall_mem_nil _

lemma TarIndex.guarded_addAll (i : TarIndex) (tries : ℕ) (r : Tar.Reader) :
    (i.addAll tries r).IsGuarded := by
  induction tries generalizing i r with
  | zero => exact Traced.guarded_pure i
  | succ tries ih =>
    rw [addAll]
    split
    · exact List.forall_mem_nil _
    · exact Traced.guarded_pure i
    · exact List.forall_mem_append.mpr ⟨guarded_add i _, ih _ _⟩

lemma Tarball.guarded_index (path : Option String) (b : Bytes) : (index path b).IsGuarded :=
  .bind (TarIndex.guarded_addAll _ _ _) fun _ => List.forall_mem_singleton.mpr fun _ => rfl

/-- What is said of an archive in the temporary file. -/
example : (Tarball.index none []).log.map (Record.text "/tmp/a") =
    ["Indexed 0 blobs and 0 links in /tmp/a"] := by decide +kernel

lemma Tarball.guarded_openAt (t : FileTree) (path : String) : (openAt t path).IsGuarded := by
  refine .bind (Traced.guarded_ofExcept _) fun source => ?_
  simp only
  split
  · exact Traced.guarded_ofExcept _
  split
  · refine .bind (Traced.guarded_say _ _ _) fun _ => ?_
    split
    · exact Traced.guarded_ofExcept _
    · exact .bind (guarded_index _ _) fun _ => Traced.guarded_pure _
  · exact .bind (guarded_index _ _) fun _ => Traced.guarded_pure _

namespace Selection

variable (s : BlobStore) (wanted : Option Platform)

lemma guarded_savedLayers : (savedLayers s wanted).IsGuarded := by
  refine .bind (Traced.guarded_ofExcept _) fun images => ?_
  split
  · exact Traced.guarded_fail _
  · exact .bind (Traced.guarded_say _ _ _) fun _ =>
      .bind (Traced.guarded_ofExcept _) fun _ => Traced.guarded_ofExcept _

lemma guarded_tryManifest (d : Oci.Descriptor) : (tryManifest s wanted d).IsGuarded := by
  have haccepted (accepted : Bool) (m : Oci.Manifest) :
      (if accepted = true then do
        Traced.say .debug .manifest ("Selected image manifest " ++ d.digest.text)
        return some m
      else return none : Traced (Option Oci.Manifest)).IsGuarded := by
    split
    · exact .bind (Traced.guarded_say _ _ _) fun _ => Traced.guarded_pure _
    · exact Traced.guarded_pure _
  simp only [tryManifest]
  split
  · exact .bind (Traced.guarded_say _ _ _) fun _ => Traced.guarded_pure _
  · refine .bind (Traced.guarded_ofExcept _) fun m => ?_
    split
    · exact .bind (Traced.guarded_ofExcept _) fun _ =>
        .bind (Traced.guarded_pure _) fun accepted => haccepted accepted m
    · exact .bind (Traced.guarded_pure _) fun accepted => haccepted accepted m

lemma guarded_selectFrom {inner : Oci.Index → Traced (Option Oci.Manifest)}
    (hinner : ∀ i, (inner i).IsGuarded) (ds : List Oci.Descriptor) :
    (selectFrom s wanted inner ds).IsGuarded := by
  induction ds with
  | nil => exact Traced.guarded_pure _
  | cons d ds ih =>
    rw [selectFrom_cons]
    refine .bind ?_ fun found => ?_
    · rw [lookAt]
      split
      · exact .bind (Traced.guarded_ofExcept _) hinner
      · exact guarded_tryManifest s wanted d
    · split
      · exact Traced.guarded_pure _
      · exact ih

lemma guarded_select (indexes : ℕ) (i : Oci.Index) : (select s wanted indexes i).IsGuarded := by
  induction indexes generalizing i with
  | zero => exact Traced.guarded_fail _
  | succ indexes ih => exact guarded_selectFrom s wanted ih i.manifests

lemma guarded_layerNames : (layerNames s wanted).IsGuarded := by
  rw [layerNames]
  split
  · exact (guarded_savedLayers s wanted).during _
  split
  · refine Traced.IsGuarded.during (.bind (Traced.guarded_ofExcept _) fun i =>
      .bind (guarded_select s wanted _ i) fun found => ?_) _
    split
    · exact Traced.guarded_fail _
    · exact Traced.guarded_ofExcept _
  · exact Traced.guarded_fail _

end Selection

lemma LocalImage.guarded_openAt (t : FileTree) (path : String) (wanted : Option Platform) :
    (openAt t path wanted).IsGuarded := by
  refine .bind ?_ fun s => .bind (Traced.IsGuarded.during ?_ _) fun _ => Traced.guarded_pure _
  · rw [openStore]
    split
    · exact .bind (Traced.guarded_ofExcept _) fun _ => Traced.guarded_pure _
    · exact .bind (Tarball.guarded_openAt t path) fun _ => Traced.guarded_pure _
  · exact .bind (Selection.guarded_layerNames _ wanted) fun _ =>
      .bind (Traced.guarded_say _ _ _) fun _ => Traced.guarded_pure _

/-- The message is one of progress, with all its text. -/
structure Log.Record.IsOfProgress (r : Record) : Prop where
  origin : r.origin = .progress
  whole : r.namesSpool = false

def WalkState.SaysProgress (s : WalkState) : Prop := ∀ r ∈ s.log, r.IsOfProgress

lemma WalkState.SaysProgress.say {s : WalkState} (h : s.SaysProgress) (l : Level) (m : String) :
    (s.say l m).SaysProgress :=
  List.forall_mem_append.mpr ⟨h, List.forall_mem_singleton.mpr ⟨rfl, rfl⟩⟩

lemma take_saysProgress {i : ℕ} {p : String} {e : Tar.Entry} {s s' : WalkState} {c : Tar.Content}
    {x : Except Failure Tar.Content} (hs : s.SaysProgress) (h : take i p e s c = (s', x)) :
    s'.SaysProgress := by
  cases x with
  | ok c' =>
    obtain ⟨_, _, a, _, -, -, ⟨-, rfl⟩ | ⟨m, -, rfl⟩⟩ := take_ok h
    · exact WalkState.SaysProgress.say (s := (s.asked p a).countFile) hs _ _
    · exact WalkState.SaysProgress.say (s := (s.asked p a).warn ⟨p, i, m⟩) hs _ _
  | error f =>
    rcases take_error h with ⟨_, -, rfl, -⟩ | ⟨_, _, _, _, _, -, -, rfl, -⟩ <;> exact hs

lemma walk_saysProgress (o : Order) (layers : List Layer) (d : Device) (label : String) :
    (walk o layers (.start o layers d label)).1.SaysProgress := by
  have hkept : KeptByWalks WalkState.SaysProgress :=
    ⟨fun l m hs => hs.say l m, fun _ hs => hs, fun hs => hs, fun ht hs => take_saysProgress hs ht⟩
  exact hkept.walk (List.forall_mem_singleton.mpr ⟨rfl, rfl⟩)

lemma extract_saysProgress (image : Image) (files : List FileSpec) (cancelled : ℕ → Bool)
    (create : Except SystemError Device) (label : String) :
    ∀ r ∈ (extract image files cancelled create label).log, r.IsOfProgress := by
  rcases image with ⟨f | layers⟩
  · exact List.forall_mem_nil _
  rcases create with e | d
  · exact List.forall_mem_singleton.mpr ⟨rfl, rfl⟩
  have hs := walk_saysProgress (.ofFiles files cancelled) layers d label
  rw [extract_eq]
  generalize walk (.ofFiles files cancelled) layers _ = w at hs ⊢
  simp only [conclude]
  split
  · exact hs.say _ _
  · exact hs

namespace Cli

lemma guarded_openImage (t : FileTree) (o : Options) (r : Request) :
    (openImage t o r).IsGuarded :=
  .bind (Traced.guarded_say _ _ _) fun _ => .bind (Traced.guarded_say _ _ _) fun _ =>
    .bind (Traced.guarded_say _ _ _) fun _ => .bind (Traced.guarded_say _ _ _) fun _ =>
      LocalImage.guarded_openAt t o.image r.platform

lemma guarded_closingLog (files : List FileSpec) (x : Extraction) :
    ∀ r ∈ closingLog files x, r.IsGuarded := by
  refine List.forall_mem_append.mpr
    ⟨List.forall_mem_map.mpr fun f _ => Record.isGuarded_of_whole rfl, ?_⟩
  split
  · exact List.forall_mem_nil _
  · exact List.forall_mem_singleton.mpr (Record.isGuarded_of_whole rfl)

/-- Whatever a run comes to, the temporary file is named in messages for debugging only. -/
theorem guarded_perform (t : FileTree) (o : Options) :
    ∀ r ∈ (perform t o).2.1, r.IsGuarded := by
  have hextract {image create} {files : List FileSpec} {cancelled : ℕ → Bool} {label : String} :
      ∀ r ∈ (extract image files cancelled create label).log, r.IsGuarded :=
    fun r hr => Record.isGuarded_of_whole
      (extract_saysProgress image files cancelled create label r hr).whole
  rw [perform]
  split
  · exact List.forall_mem_nil _
  · rename_i r _
    simp only
    split
    · exact guarded_openImage t o r
    · rename_i image _
      obtain ⟨t', create, hx⟩ := extractInto_eq t image.image r.files (fun _ => false) o.output
      simp only [hx]
      split
      · exact List.forall_mem_append.mpr ⟨guarded_openImage t o r, hextract⟩
      · exact List.forall_mem_append.mpr ⟨guarded_openImage t o r,
          List.forall_mem_append.mpr ⟨hextract, guarded_closingLog _ _⟩⟩

end Cli

end LayerPick
