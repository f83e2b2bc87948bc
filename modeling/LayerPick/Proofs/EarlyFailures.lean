import LayerPick.Proofs.Requests

/-!
# Failures before the walk

A run that fails before it starts to walk leaves all files as they were, also the one at the output
path: the output is created behind everything else that can go wrong.
-/
namespace LayerPick.Cli

open Tar

/-- Something is wrong that shows before the walk. None of these says that everything before it went
well, so several can hold at once. -/
inductive Flaw (t : FileTree) (args : List String) : Prop
  /-- The command line cannot be read. -/
  | usage : Options.ofArgs args = .error .wrongUsage → Flaw t args
  /-- The plugin manifest cannot be read, or is not valid. -/
  | manifest {o : Options} {path : String} {f : Failure} : Options.ofArgs args = .ok o →
    o.manifest = some path → loadPlugin t path = .error f → Flaw t args
  /-- A file on the command line has no source. -/
  | file {o : Options} {flag : String} {e : FlagError} : Options.ofArgs args = .ok o →
    flag ∈ o.files → FileSpec.ofFlag flag = .error e → Flaw t args
  /-- The platform on the command line is none. -/
  | platform {o : Options} {p : String} {e : PlatformError} : Options.ofArgs args = .ok o →
    o.platform = some p → Platform.parse p = .error e → Flaw t args
  /-- The image cannot be opened. -/
  | image {o : Options} {f : Failure} : Options.ofArgs args = .ok o →
    (LocalImage.openStore t o.image).outcome = .error f → Flaw t args
  /-- The layers of the image cannot be found, or it is built for another platform. -/
  | layers {o : Options} {r : Request} {s : LocalStore} {f : Failure} :
    Options.ofArgs args = .ok o → request t o = .ok r →
    (LocalImage.openStore t o.image).outcome = .ok s →
    (LocalImage.layersOf (s.blobs t) r.platform).outcome = .error f → Flaw t args
  /-- The output cannot be created. -/
  | output {o : Options} {e : SystemError} : Options.ofArgs args = .ok o →
    t.create o.output = .error e → Flaw t args

/-- The run comes to the walk: it is known what to extract, the image is open, and the output has
been created. -/
def Walks (t : FileTree) (o : Options) : Prop :=
  ∃ r image target t', request t o = .ok r ∧ (openImage t o r).outcome = .ok image ∧
    t.create o.output = .ok (target, t')

section Perform

variable {t : FileTree} {o : Options}

lemma openImage_ok {r : Request} {image : LocalImage} :
    (openImage t o r).outcome = .ok image ↔
      ∃ s names, (LocalImage.openStore t o.image).outcome = .ok s ∧
        (LocalImage.layersOf (s.blobs t) r.platform).outcome = .ok names ∧
        image = ⟨o.image, s, names⟩ := by
  simp only [openImage, LocalImage.openAt, Traced.outcome_bind, Traced.outcome_say,
    Traced.outcome_during, Traced.outcome_pure, ok_bind, bind_ok, mapError_ok, Except.ok.injEq]
  constructor
  · rintro ⟨s, hs, names, hnames, rfl⟩
    exact ⟨s, names, hs, hnames, rfl⟩
  · rintro ⟨s, names, hs, hnames, rfl⟩
    exact ⟨s, hs, names, hnames, rfl⟩

lemma extractInto_uncreated {path : String} {e : SystemError} (h : t.create path = .error e)
    (image : FileTree → Image) (files : List FileSpec) (cancelled : ℕ → Bool) :
    (∃ f, (extractInto t image files cancelled path).1.outcome = .error f) ∧
      (extractInto t image files cancelled path).2 = t := by
  simp only [extractInto, h, extract]
  cases (image t).layers <;> exact ⟨⟨_, rfl⟩, trivial⟩

/-- What does not come to the walk fails, and all files stay as they are. -/
lemma perform_of_not_walks (h : ¬ Walks t o) : ∃ f log, perform t o = (.error f, log, t) := by
  rcases hr : request t o with f | r
  · exact ⟨f, [], by simp only [perform, hr]⟩
  rcases hi : (openImage t o r).outcome with f | image
  · exact ⟨f, (openImage t o r).log, by simp only [perform, hr, hi]⟩
  rcases hc : t.create o.output with e | ⟨target, t'⟩
  · obtain ⟨⟨f, hf⟩, ht⟩ := extractInto_uncreated hc image.image r.files fun _ => false
    exact ⟨_, _, by simp only [perform, hr, hi, hf, ht]; rfl⟩
  · exact absurd ⟨r, image, target, t', hr, hi, hc⟩ h

end Perform

section Flaws

variable {t : FileTree} {args : List String} {o : Options}

/-- A run whose command line can be read has a flaw, or it comes to the walk. -/
theorem flaw_iff (ho : Options.ofArgs args = .ok o) : Flaw t args ↔ ¬ Walks t o := by
  have same {o' : Options} (ho' : Options.ofArgs args = .ok o') : o' = o :=
    Except.ok.inj (ho'.symm.trans ho)
  constructor
  · rintro h ⟨r, image, target, t', hr, hi, hc⟩
    obtain ⟨hmanifest, hfiles, hplatform⟩ := (request_ok ho).mp ⟨r, hr⟩
    obtain ⟨s, names, hs, hnames, -⟩ := openImage_ok.mp hi
    cases h with
    | usage h => cases ho.symm.trans h
    | manifest ho' hm hload =>
      obtain ⟨p, hp⟩ := hmanifest _ (same ho' ▸ hm)
      cases hp.symm.trans hload
    | file ho' hflag hbad =>
      obtain ⟨f, hf⟩ := hfiles _ (same ho' ▸ hflag)
      cases hf.symm.trans hbad
    | platform ho' hp hbad =>
      obtain ⟨pl, hpl⟩ := hplatform _ (same ho' ▸ hp)
      cases hpl.symm.trans hbad
    | image ho' hbad => cases hs.symm.trans (same ho' ▸ hbad)
    | layers ho' hr' hs' hbad =>
      obtain rfl := same ho'
      obtain rfl := Except.ok.inj (hr'.symm.trans hr)
      obtain rfl := Except.ok.inj (hs'.symm.trans hs)
      cases hnames.symm.trans hbad
    | output ho' hbad => cases hc.symm.trans (same ho' ▸ hbad)
  · intro hwalks
    by_contra hflaw
    have hrequest : ∃ r, request t o = .ok r := by
      refine (request_ok ho).mpr ⟨fun path hm => ?_, fun flag hflag => ?_, fun p hp => ?_⟩
      · rcases h : loadPlugin t path with f | p
        · exact absurd (.manifest ho hm h) hflaw
        · exact ⟨p, rfl⟩
      · rcases h : FileSpec.ofFlag flag with e | f
        · exact absurd (.file ho hflag h) hflaw
        · exact ⟨f, rfl⟩
      · rcases h : Platform.parse p with e | pl
        · exact absurd (.platform ho hp h) hflaw
        · exact ⟨pl, rfl⟩
    obtain ⟨r, hr⟩ := hrequest
    rcases hs : (LocalImage.openStore t o.image).outcome with f | s
    · exact hflaw (.image ho hs)
    rcases hnames : (LocalImage.layersOf (s.blobs t) r.platform).outcome with f | names
    · exact hflaw (.layers ho hr hs hnames)
    rcases hc : t.create o.output with e | ⟨target, t'⟩
    · exact hflaw (.output ho hc)
    · exact hwalks ⟨r, _, target, t', hr, openImage_ok.mpr ⟨s, names, hs, hnames, rfl⟩, hc⟩

/-- A run with a flaw fails, prints nothing, and leaves all files as they are. -/
theorem run_flawed (u : Surroundings) (t : FileTree) (args : List String) (h : Flaw t args) :
    (run u t args).exitCode ≠ 0 ∧ (run u t args).output = "" ∧ (run u t args).files = t := by
  rcases ho : Options.ofArgs args with s | o
  · cases h with
    | usage hs =>
      obtain rfl := Except.error.inj (ho.symm.trans hs)
      simp [run, ho, usageExit]
    | _ => simp_all
  · obtain ⟨f, log, hp⟩ := perform_of_not_walks ((flaw_iff ho).mp h)
    simp [run, ho, hp]

/-- A folder with an archive of an earlier run. -/
def earlierArchive : FileTree := FileTree.empty.withFile "plugin.tar.gz" [0x1F, 0x8B]

/-- The earlier archive stays if the platform cannot be read. -/
theorem run_flawed_platform :
    let u : Surroundings := ⟨"/tmp/spool", fun _ => ["error"], "Usage: oci2plugin <IMAGE>\n"⟩
    Platform.parse "linux" = .error (.wrongCount "linux") ∧
    (run u earlierArchive ["-f", "/bin/foo", "-p", "linux", "image"]).exitCode ≠ 0 ∧
    (run u earlierArchive ["-f", "/bin/foo", "-p", "linux", "image"]).output = "" ∧
    (run u earlierArchive ["-f", "/bin/foo", "-p", "linux", "image"]).files = earlierArchive := by
  intro u
  have hparse : Platform.parse "linux" = .error (.wrongCount "linux") := by decide +kernel
  have hread : Options.ofArgs ["-f", "/bin/foo", "-p", "linux", "image"] =
      .ok ⟨"image", defaultOutput, none, ["/bin/foo"], some "linux", 0⟩ := by decide +kernel
  exact ⟨hparse, run_flawed u _ _ (.platform hread rfl hparse)⟩

end Flaws

end LayerPick.Cli
