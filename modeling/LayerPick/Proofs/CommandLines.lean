import LayerPick.Cli.Options
import LayerPick.Proofs.MemberReading

/-!
# Command lines

An argument does a few simple things to a reading, and which these are depends only on where the
reading stands. None of them looks at how many `-v` flags were counted, and those that name no file,
no manifest and no platform do not look at these either. So `-v` flags, and the options that name the
files, can stand anywhere between two arguments, and the rest of the command line is read as without
them.
-/
namespace LayerPick.Cli

open Tar

def ValueOption.name : ValueOption → String
  | output => "output"
  | manifest => "manifest"
  | file => "file"
  | platform => "platform"

def ValueOption.letter : ValueOption → String
  | output => "o"
  | manifest => "m"
  | file => "f"
  | platform => "p"

/-- Is this argument taken for an option where one can stand? -/
def isDashed (arg : String) : Bool :=
  match arg.toList with
  | '-' :: _ :: _ => true
  | _ => false

/-- The arguments give this value to this option. -/
inductive Spells (o : ValueOption) (v : String) : List String → Prop
  | joined : Spells o v ["--" ++ o.name ++ "=" ++ v]
  | apart : isDashed v = false → Spells o v ["--" ++ o.name, v]
  | letterJoined : Spells o v ["-" ++ o.letter ++ "=" ++ v]
  | letterApart : isDashed v = false → Spells o v ["-" ++ o.letter, v]

namespace Reading

lemma fillOnce_ok {old w : Option String} {v : String} :
    fillOnce old v = .ok w ↔ old = none ∧ w = some v := by
  cases old <;> simp [fillOnce, eq_comm]

lemma fillPath_ok {old w : Option String} {v : String} :
    fillPath old v = .ok w ↔ v ≠ "" ∧ old = none ∧ w = some v := by
  by_cases hv : v = "" <;> simp [fillPath, fillOnce_ok, hv]

/-- What is done to a reading at once. -/
inductive Deed where
  | image (v : String)
  | value (o : ValueOption) (v : String)
  | await (o : ValueOption)
  | count
  | onlyValues
  | stop (s : Stop)

def act (r : Reading) : Deed → Except Stop Reading
  | .image v => r.setImage v
  | .value o v => r.setOption o v
  | .await o => .ok { r with awaiting := some o }
  | .count => .ok r.countVerbose
  | .onlyValues => .ok { r with valuesOnly := true }
  | .stop s => .error s

lemma readLong_deed (name : String) (value : Option String) :
    ∃ d, ∀ r : Reading, r.readLong name value = r.act d := by
  cases value with
  | none =>
    simp only [readLong, Option.isSome_none, Bool.false_eq_true, if_false]
    split_ifs
    · exact ⟨.await .output, fun _ => rfl⟩
    · exact ⟨.await .manifest, fun _ => rfl⟩
    · exact ⟨.await .file, fun _ => rfl⟩
    · exact ⟨.await .platform, fun _ => rfl⟩
    · exact ⟨.count, fun _ => rfl⟩
    · exact ⟨.stop .showVersion, fun _ => rfl⟩
    · exact ⟨.stop .showHelp, fun _ => rfl⟩
    · exact ⟨.stop .wrongUsage, fun _ => rfl⟩
  | some v =>
    simp only [readLong, Option.isSome_some, if_true, ite_self]
    split_ifs
    · exact ⟨.value .output v, fun _ => rfl⟩
    · exact ⟨.value .manifest v, fun _ => rfl⟩
    · exact ⟨.value .file v, fun _ => rfl⟩
    · exact ⟨.value .platform v, fun _ => rfl⟩
    · exact ⟨.stop .wrongUsage, fun _ => rfl⟩

lemma foldlM_single {α : Type} (f : Reading → α → Except Stop Reading) (r : Reading) (a : α) :
    [a].foldlM f r = f r a := by
  simp only [List.foldlM_cons, List.foldlM_nil]
  cases f r a <;> rfl

lemma readShort_deeds (cs : List Char) :
    ∃ ds : List Deed, ∀ r : Reading, r.readShort cs = ds.foldlM act r := by
  induction cs with
  | nil => exact ⟨[], fun _ => rfl⟩
  | cons c cs ih =>
    rcases ho : shortOption? c with _ | o
    · obtain ⟨ds, hds⟩ := ih
      obtain rfl | hv := eq_or_ne c 'v'
      · exact ⟨.count :: ds, fun r => by simp [readShort, ho, hds, act]⟩
      obtain rfl | hV := eq_or_ne c 'V'
      · exact ⟨[.stop .showVersion], fun r => by simp [readShort, ho, act]⟩
      obtain rfl | hh := eq_or_ne c 'h'
      · exact ⟨[.stop .showHelp], fun r => by simp [readShort, ho, act]⟩
      · exact ⟨[.stop .wrongUsage], fun r => by simp [readShort, ho, hv, hV, hh, act]⟩
    · have single (d : Deed) (h : ∀ r : Reading, r.readShort (c :: cs) = r.act d) :
          ∃ ds : List Deed, ∀ r : Reading, r.readShort (c :: cs) = ds.foldlM act r :=
        ⟨[d], fun r => (h r).trans (foldlM_single act r d).symm⟩
      cases cs with
      | nil => exact single (.await o) fun r => by simp [readShort, ho, act]
      | cons d v =>
        obtain rfl | hd := eq_or_ne d '='
        · exact single (.value o (.ofList v)) fun r => by simp [readShort, ho, act]
        · exact single (.value o (.ofList (d :: v))) fun r => by simp [readShort, ho, hd, act]

/-- What an argument does depends only on where the reading stands. -/
lemma step_deeds (awaiting : Option ValueOption) (valuesOnly : Bool) (arg : String) :
    ∃ ds : List Deed, ∀ r : Reading, r.awaiting = awaiting → r.valuesOnly = valuesOnly →
      r.step arg = ds.foldlM act r := by
  have image : ∃ ds : List Deed, ∀ r : Reading, r.setImage arg = ds.foldlM act r :=
    ⟨[.image arg], fun r => (foldlM_single act r (.image arg)).symm⟩
  have option (o : ValueOption) : ∃ ds : List Deed, ∀ r : Reading,
      r.setOption o arg = ds.foldlM act r :=
    ⟨[.value o arg], fun r => (foldlM_single act r (.value o arg)).symm⟩
  have ended {f : Reading → Except Stop Reading}
      (hf : ∃ ds : List Deed, ∀ r, f r = ds.foldlM act r) :
      ∃ ds : List Deed, ∀ r, r.awaiting = awaiting →
        (r.endValue >>= fun _ => f r) = ds.foldlM act r := by
    obtain ⟨ds, hds⟩ := hf
    cases awaiting with
    | none => exact ⟨ds, fun r h => by simp [endValue, h, hds]⟩
    | some o => exact ⟨[.stop .wrongUsage], fun r h => by simp [endValue, h, act]⟩
  cases valuesOnly with
  | true =>
    obtain ⟨ds, hds⟩ := image
    exact ⟨ds, fun r _ hv => by simpa only [step, hv, if_true] using hds r⟩
  | false =>
    simp only [step]
    split
    · obtain ⟨ds, hds⟩ := ended ⟨[.onlyValues], fun r => (foldlM_single act r .onlyValues).symm⟩
      exact ⟨ds, fun r ha hv => by simpa [hv, act] using hds r ha⟩
    · obtain ⟨d, hd⟩ := readLong_deed _ _
      obtain ⟨ds, hds⟩ := ended ⟨[d], fun r => (hd r).trans (foldlM_single act r d).symm⟩
      exact ⟨ds, fun r ha hv => by rw [hv, if_neg Bool.false_ne_true]; exact hds r ha⟩
    · obtain ⟨ds, hds⟩ := ended (readShort_deeds _)
      exact ⟨ds, fun r ha hv => by rw [hv, if_neg Bool.false_ne_true]; exact hds r ha⟩
    · cases awaiting with
      | none =>
        obtain ⟨ds, hds⟩ := image
        exact ⟨ds, fun r ha hv => by rw [hv, ha, if_neg Bool.false_ne_true]; exact hds r⟩
      | some o =>
        obtain ⟨ds, hds⟩ := option o
        exact ⟨ds, fun r ha hv => by rw [hv, ha, if_neg Bool.false_ne_true]; exact hds r⟩

section Lockstep

variable {α : Type} {f : Reading → α → Except Stop Reading}

lemma foldlM_map {g : Reading → Reading} (h : ∀ r a, f (g r) a = (f r a).map g) (as : List α)
    (r : Reading) : as.foldlM f (g r) = (as.foldlM f r).map g := by
  induction as generalizing r with
  | nil => rfl
  | cons a as ih =>
    simp only [List.foldlM_cons, h]
    cases f r a with
    | error s => rfl
    | ok r' => exact ih r'

end Lockstep

/-- An argument that comes here can be an option. -/
structure IsReady (r : Reading) : Prop where
  noValueDue : r.awaiting = none
  takesOptions : r.valuesOnly = false

section Spelling

variable {r : Reading} (h : r.IsReady) (o : ValueOption) (v : String)

include h

lemma IsReady.step_longJoined : r.step ("--" ++ o.name ++ "=" ++ v) = r.setOption o v := by
  cases o <;>
    simp [step, h.takesOptions, endValue, h.noValueDue, ValueOption.name, String.toList_append,
      readLong]

lemma IsReady.step_long : r.step ("--" ++ o.name) = .ok { r with awaiting := some o } := by
  cases o <;>
    simp [step, h.takesOptions, endValue, h.noValueDue, ValueOption.name, readLong]

lemma IsReady.step_letterJoined : r.step ("-" ++ o.letter ++ "=" ++ v) = r.setOption o v := by
  cases o <;>
    simp [step, h.takesOptions, endValue, h.noValueDue, ValueOption.letter, String.toList_append,
      readShort, shortOption?]

lemma IsReady.step_letter : r.step ("-" ++ o.letter) = .ok { r with awaiting := some o } := by
  cases o <;>
    simp [step, h.takesOptions, endValue, h.noValueDue, ValueOption.letter, readShort, shortOption?]

/-- A value that comes alone is taken if it does not look like an option. -/
lemma IsReady.step_value :
    step { r with awaiting := some o } v =
      if isDashed v then .error .wrongUsage else r.setOption o v := by
  have hreset : setOption { r with awaiting := some o } o v = r.setOption o v := by cases o <;> rfl
  rw [← hreset]
  simp only [step, h.takesOptions, Bool.false_eq_true, if_false, isDashed]
  split <;> simp_all [endValue]

end Spelling

end Reading

lemma Spells.foldlM_step {o : ValueOption} {v : String} {args : List String} (h : Spells o v args)
    {r : Reading} (hr : r.IsReady) : args.foldlM Reading.step r = r.setOption o v := by
  have apart {a : String} (ha : r.step a = .ok { r with awaiting := some o })
      (hv : isDashed v = false) : [a, v].foldlM Reading.step r = r.setOption o v := by
    rw [List.foldlM_cons, ha, ok_bind, Reading.foldlM_single, hr.step_value, hv,
      if_neg Bool.false_ne_true]
  cases h with
  | joined => rw [Reading.foldlM_single, hr.step_longJoined]
  | apart hv => exact apart (hr.step_long o) hv
  | letterJoined => rw [Reading.foldlM_single, hr.step_letterJoined]
  | letterApart hv => exact apart (hr.step_letter o) hv

namespace Reading

lemma act_countVerbose (r : Reading) (d : Deed) :
    r.countVerbose.act d = (r.act d).map countVerbose := by
  cases d with
  | image v => cases h : fillPath r.image v <;> simp [act, setImage, countVerbose, h, Except.map]
  | value o v =>
    cases o with
    | file => rfl
    | output => cases h : fillPath r.output v <;> simp [act, setOption, countVerbose, h, Except.map]
    | manifest =>
      cases h : fillPath r.manifest v <;> simp [act, setOption, countVerbose, h, Except.map]
    | platform =>
      cases h : fillOnce r.platform v <;> simp [act, setOption, countVerbose, h, Except.map]
  | await | count | onlyValues | stop => rfl

lemma step_countVerbose (r : Reading) (arg : String) :
    r.countVerbose.step arg = (r.step arg).map countVerbose := by
  obtain ⟨ds, hds⟩ := step_deeds r.awaiting r.valuesOnly arg
  rw [hds r rfl rfl, hds r.countVerbose rfl rfl]
  exact foldlM_map act_countVerbose ds r

lemma IsReady.step_verbose {r : Reading} (h : r.IsReady) : r.step "-v" = .ok r.countVerbose := by
  simp [step, endValue, h.noValueDue, h.takesOptions, readShort, shortOption?]

/-- Neither files nor a manifest nor a platform have been named. -/
structure IsBare (r : Reading) : Prop where
  noManifest : r.manifest = none
  noFiles : r.files = []
  noPlatform : r.platform = none

/-- The reading with other things named. -/
def asking (r : Reading) (manifest : Option String) (files : List String)
    (platform : Option String) : Reading :=
  { r with manifest := manifest, files := files, platform := platform }

section Naming

variable {α : Type} {f : Reading → α → Except Stop Reading} {r r' : Reading}
  (manifest : Option String) (files : List String) (platform : Option String)

lemma act_asking {d : Deed} (h : r.act d = .ok r') (hbare : r'.IsBare) :
    r.IsBare ∧
      (r.asking manifest files platform).act d = .ok (r'.asking manifest files platform) := by
  cases d with
  | image v =>
    obtain ⟨w, hw, hr'⟩ := bind_ok.mp h
    obtain rfl := Except.ok.inj hr'
    exact ⟨⟨hbare.1, hbare.2, hbare.3⟩, by simp [act, setImage, asking, hw]⟩
  | value o v =>
    cases o with
    | output =>
      obtain ⟨w, hw, hr'⟩ := bind_ok.mp h
      obtain rfl := Except.ok.inj hr'
      exact ⟨⟨hbare.1, hbare.2, hbare.3⟩, by simp_all [act, setOption, asking]⟩
    | manifest =>
      obtain ⟨w, hw, hr'⟩ := bind_ok.mp h
      obtain rfl := Except.ok.inj hr'
      cases hbare.noManifest.symm.trans (fillPath_ok.mp hw).2.2
    | file =>
      obtain rfl := Except.ok.inj h
      simpa using hbare.noFiles
    | platform =>
      obtain ⟨w, hw, hr'⟩ := bind_ok.mp h
      obtain rfl := Except.ok.inj hr'
      cases hbare.noPlatform.symm.trans (fillOnce_ok.mp hw).2
  | await | count | onlyValues =>
    obtain rfl := Except.ok.inj h
    exact ⟨⟨hbare.1, hbare.2, hbare.3⟩, rfl⟩
  | stop => cases h

/-- What leaves the names as they are, one act after the other, leaves them as they are at the end. -/
lemma foldlM_asking
    (hf : ∀ r a r', f r a = .ok r' → r'.IsBare → r.IsBare ∧
      f (r.asking manifest files platform) a = .ok (r'.asking manifest files platform))
    {as : List α} (h : as.foldlM f r = .ok r') (hbare : r'.IsBare) :
    r.IsBare ∧
      as.foldlM f (r.asking manifest files platform) = .ok (r'.asking manifest files platform) := by
  induction as generalizing r with
  | nil =>
    obtain rfl := Except.ok.inj h
    exact ⟨hbare, rfl⟩
  | cons a as ih =>
    rw [List.foldlM_cons] at h
    obtain ⟨r₁, hr₁, hrest⟩ := bind_ok.mp h
    obtain ⟨hbare₁, hrest'⟩ := ih hrest
    obtain ⟨hbare₀, hr₁'⟩ := hf r a r₁ hr₁ hbare₁
    exact ⟨hbare₀, by rw [List.foldlM_cons, hr₁', ok_bind, hrest']⟩

lemma step_asking {arg : String} (h : r.step arg = .ok r') (hbare : r'.IsBare) :
    r.IsBare ∧
      (r.asking manifest files platform).step arg = .ok (r'.asking manifest files platform) := by
  obtain ⟨ds, hds⟩ := step_deeds r.awaiting r.valuesOnly arg
  rw [hds r rfl rfl] at h
  rw [hds (r.asking manifest files platform) rfl rfl]
  exact foldlM_asking manifest files platform
    (fun _ _ _ h hbare => act_asking manifest files platform h hbare) h hbare

end Naming

/-- What a command line that has been read to its end asks for. -/
def options (r : Reading) : Except Stop Options :=
  match r.awaiting, r.image with
  | none, some image =>
    if r.manifest.isSome == !r.files.isEmpty then .error .wrongUsage
    else .ok ⟨image, r.output.getD defaultOutput, r.manifest, r.files, r.platform, r.verbosity⟩
  | _, _ => .error .wrongUsage

end Reading

lemma ofArgs_eq (args : List String) :
    Options.ofArgs args = args.foldlM Reading.step {} >>= Reading.options := by
  simp only [Options.ofArgs]
  congr 1
  funext r
  rcases ha : r.awaiting with _ | o <;> rcases hi : r.image with _ | image <;>
    simp only [Reading.endValue, Reading.options, ha, hi] <;> rfl

def Options.louder (o : Options) : Options :=
  { o with verbosity := min (o.verbosity + 1) maxVerbosity }

lemma options_countVerbose (r : Reading) :
    r.countVerbose.options = r.options.map Options.louder := by
  simp only [Reading.options, Reading.countVerbose]
  split
  · rw [apply_ite (Except.map Options.louder)]
    rfl
  · rfl

/-- A `-v` flag where an option can stand is counted, and the rest of the command line is read as
without it. -/
lemma ofArgs_verbose {before after : List String}
    (hready : ∀ r, before.foldlM Reading.step {} = .ok r → r.IsReady) :
    Options.ofArgs (before ++ "-v" :: after) =
      (Options.ofArgs (before ++ after)).map Options.louder := by
  simp only [ofArgs_eq, List.foldlM_append, List.foldlM_cons]
  rcases hr : before.foldlM Reading.step {} with s | r
  · rfl
  simp only [ok_bind, (hready r hr).step_verbose, Reading.foldlM_map Reading.step_countVerbose]
  rcases after.foldlM Reading.step r with s | r'
  · rfl
  · exact options_countVerbose r'

/-- The two parts of a command line that says all but what is to be extracted, with room for further
options between them. -/
structure Frame (before after : List String) : Prop where
  ready : ∃ r, before.foldlM Reading.step {} = .ok r ∧ r.IsReady
  bare : ∃ r, (before ++ after).foldlM Reading.step {} = .ok r ∧ r.IsBare

lemma Frame.ofArgs {before after : List String} (h : Frame before after) :
    ∃ r r' : Reading, r.IsReady ∧ r.IsBare ∧
      (∀ named, Options.ofArgs (before ++ named ++ after) =
        named.foldlM Reading.step r >>= fun r => after.foldlM Reading.step r >>= Reading.options) ∧
      ∀ manifest files platform, after.foldlM Reading.step (r.asking manifest files platform) =
        .ok (r'.asking manifest files platform) := by
  obtain ⟨r, hr, hready⟩ := h.ready
  obtain ⟨r', hr', hbare'⟩ := h.bare
  rw [List.foldlM_append, hr, ok_bind] at hr'
  have hafter (manifest : Option String) (files : List String) (platform : Option String) :=
    Reading.foldlM_asking manifest files platform
      (fun _ _ _ h hbare => Reading.step_asking manifest files platform h hbare) hr' hbare'
  refine ⟨r, r', hready, (hafter none [] none).1, fun named => ?_, fun m fs p => (hafter m fs p).2⟩
  simp only [ofArgs_eq, List.foldlM_append, hr, ok_bind, bind_assoc]

end LayerPick.Cli
