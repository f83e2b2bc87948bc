import LayerPick.Proofs.CommandLines
import LayerPick.Proofs.RecordedMessages
import Mathlib.Data.List.Flatten

/-!
# Verbosities

The verbosity decides at the very end which messages are shown. So a louder run does the same as a
quiet one, and its log holds that of the quiet one. A notifier hands on less in a quiet run, but
nothing that it keeps back would be shown there. Where the temporary file lies shows in messages for
debugging only.
-/
namespace LayerPick.Cli

open Log

section Shown

variable {m n : ℕ}

lemma ofCount_limit_rank (n : ℕ) : (Verbosity.ofCount n).limit.rank = min n 3 := by
  match n with
  | 0 | 1 | 2 => rfl
  | n + 3 => simp [Verbosity.ofCount, Verbosity.limit, Level.rank]

lemma shows_mono (h : m ≤ n) {l : Level} (hl : (Verbosity.ofCount m).shows l = true) :
    (Verbosity.ofCount n).shows l = true := by
  simp only [Verbosity.shows, ofCount_limit_rank, decide_eq_true_eq] at hl ⊢
  omega

lemma shows_warn (n : ℕ) : (Verbosity.ofCount n).shows .warn = true := by
  simp [Verbosity.shows, Level.rank]

/-- The messages that are shown for a count of flags are those that are shown for a higher one, but
for what the lower one leaves out. -/
lemma shown_eq_filter (h : m ≤ n) (log : List Record) :
    Log.shown (.ofCount m) log =
      (Log.shown (.ofCount n) log).filter fun r => (Verbosity.ofCount m).shows r.level := by
  rw [Log.shown, Log.shown, List.filter_filter]
  refine List.filter_congr fun r _ => ?_
  cases hm : (Verbosity.ofCount m).shows r.level with
  | false => rfl
  | true => rw [shows_mono h hm, Bool.and_self]

lemma shown_warnings (n : ℕ) (log : List Record) :
    (Log.shown (.ofCount n) log).filter (·.level = .warn) = log.filter (·.level = .warn) := by
  rw [Log.shown, List.filter_filter]
  refine List.filter_congr fun r _ => ?_
  by_cases hr : r.level = .warn
  · simp [hr, shows_warn]
  · simp [hr]

end Shown

section Lines

variable {n : ℕ} {spool spool' : String} {log : List Record} {r : Record}

lemma Notifier.handsOn_of_shows {n : Notifier} (h : n.verbosity.shows r.level = true) :
    n.handsOn r = true := by
  rcases n with ⟨_ | _ | _ | _, hidden⟩ <;> rcases r with ⟨_ | _ | _ | _, origin, text, names⟩ <;>
    simp_all [Notifier.handsOn, Verbosity.shows, Verbosity.limit, Level.rank]

/-- The lines of the error stream that show a log at a verbosity. -/
def logLines (spool : String) (n : ℕ) (log : List Record) : List Line :=
  (Notifier.ofCount n).print spool log

lemma logLines_eq (spool : String) (n : ℕ) (log : List Record) :
    logLines spool n log = (Log.shown (.ofCount n) log).flatMap (Record.lines spool) := by
  rw [logLines, Notifier.print, Log.shown, Log.shown, List.filter_filter]
  congr 1
  refine List.filter_congr fun r _ => ?_
  cases hs : (Verbosity.ofCount n).shows r.level with
  | false => simp [Notifier.ofCount, hs]
  | true => simp [Notifier.ofCount, hs, Notifier.handsOn_of_shows (n := ⟨.ofCount n, false⟩) hs]

lemma messageLines_eq (l : Level) (o : Origin) (text : String) :
    ∃ (first : String) (more : List String),
      messageLines l o text = .message l o first :: more.map .plain := by
  rw [messageLines]
  split
  · exact absurd ‹_› (List.splitOn_ne_nil _ _)
  · rename_i first more _
    exact ⟨.ofList first, more.map String.ofList, by rw [List.map_map]; rfl⟩

lemma strip_of_shown {cs : List Char} (h : ∀ c ∈ cs, isShown c = true) : strip .text cs = cs := by
  induction cs with
  | nil => rfl
  | cons c cs ih =>
    obtain ⟨hc, hcs⟩ := List.forall_mem_cons.mp h
    have hne (n : ℕ) (hn : isShown (.ofNat n) = false) : c.toNat ≠ n := by
      rintro rfl
      rw [Char.ofNat_toNat, hc] at hn
      cases hn
    have hstep : Control.text.step c = (.text, true) := by
      simp only [Control.step]
      rw [if_neg (hne 0x1B (by decide)),
        if_neg (not_or.mpr ⟨hne 0x18 (by decide), hne 0x1A (by decide)⟩), hc]
    rw [strip, hstep]
    exact congrArg (c :: ·) (ih hcs)

/-- A text without line breaks and control characters is a line as it stands. -/
lemma messageLines_of_shown {text : String} (h : ∀ c ∈ text.toList, isShown c = true ∧ c ≠ '\n')
    (l : Level) (o : Origin) : messageLines l o text = [.message l o text] := by
  have hindented : (text.toList.flatMap fun c =>
      if c = '\n' then ['\n', ' ', ' ', ' ', ' '] else [c]) = text.toList := by
    rw [List.flatMap_congr fun c hc => if_neg (h c hc).2, List.flatMap_singleton']
  have hsplit : text.toList.splitOn '\n' = [text.toList] :=
    List.splitOn_eq_singleton fun hmem => (h _ hmem).2 rfl
  rw [messageLines, hindented, strip_of_shown fun c hc => (h c hc).1, hsplit]
  simp only [List.map_nil, String.ofList_toList]

lemma lines_eq_of_not_namesSpool (h : r.namesSpool = false) : r.lines spool = r.lines spool' := by
  rw [Record.lines, Record.lines, Record.text, Record.text, h]
  rfl

lemma lines_infix (hr : r ∈ log) (hs : (Verbosity.ofCount n).shows r.level = true) :
    r.lines spool <:+: logLines spool n log := by
  have hmem : r ∈ Log.shown (.ofCount n) log := List.mem_filter.mpr ⟨hr, hs⟩
  obtain ⟨before, after, h⟩ := List.append_of_mem hmem
  rw [logLines_eq, h, List.flatMap_append, List.flatMap_cons]
  exact ⟨_, _, List.append_assoc _ _ _⟩

/-- The messages that do not name the temporary file have the same lines wherever it lies. -/
lemma logLines_unnamed (spool spool' : String) (n : ℕ) (log : List Record) :
    logLines spool n (log.filter fun r => !r.namesSpool) =
      logLines spool' n (log.filter fun r => !r.namesSpool) := by
  rw [logLines_eq, logLines_eq]
  refine List.flatMap_congr fun r hr => lines_eq_of_not_namesSpool ?_
  simpa using (List.mem_filter.mp (List.mem_filter.mp hr).1).2

/-- Below the messages for debugging it does not show where the temporary file lies. -/
lemma logLines_spool (h : ∀ r ∈ log, r.IsGuarded) (hn : n < 2) :
    logLines spool n log = logLines spool' n log := by
  rw [logLines_eq, logLines_eq]
  refine List.flatMap_congr fun r hr => lines_eq_of_not_namesSpool ?_
  obtain ⟨hlog, hshown⟩ := List.mem_filter.mp hr
  by_contra hnames
  rw [Bool.not_eq_false] at hnames
  have hrank : Level.debug.rank ≤ min n 3 := by
    simpa only [Verbosity.shows, ofCount_limit_rank, h r hlog hnames, decide_eq_true_eq] using hshown
  exact absurd (hrank.trans (Nat.min_le_left n 3)) (by simp only [Level.rank]; omega)

/-- Where progress is drawn, warnings are all that is written. -/
lemma logLines_of_draws (h : (Notifier.ofCount n).draws = true) (spool : String)
    (log : List Record) :
    logLines spool n log = (log.filter (·.level = .warn)).flatMap (Record.lines spool) := by
  have hquiet : Verbosity.ofCount n = .quiet := by
    simpa [Notifier.draws, Notifier.ofCount] using h
  rw [logLines_eq, Log.shown, hquiet]
  congr 1
  refine List.filter_congr fun r _ => ?_
  cases r.level <;> rfl

/-- A log at two verbosities, the first of which is the lower one. -/
structure Grows (n n' : ℕ) (log : List Record) : Prop where
  /-- What the lower verbosity admits is all that it leaves. -/
  shown : Log.shown (.ofCount n) log =
    (Log.shown (.ofCount n') log).filter fun r => (Verbosity.ofCount n).shows r.level
  lines : ∀ spool, (logLines spool n log).Sublist (logLines spool n' log)
  /-- With two temporary files this holds for all messages that do not name these. -/
  unnamed : ∀ spool spool', (logLines spool n (log.filter fun r => !r.namesSpool)).Sublist
    (logLines spool' n' log)
  named : ∀ r ∈ log, r.namesSpool = true → r.level = .debug
  drawn : (Notifier.ofCount n).draws = true → ∀ spool,
    logLines spool n log = (log.filter (·.level = .warn)).flatMap (Record.lines spool)
  quiet : n < 2 → ∀ spool spool', logLines spool n log = logLines spool' n log
  warnings : ∀ m, (Log.shown (.ofCount m) log).filter (·.level = .warn) =
    log.filter (·.level = .warn)
  /-- A warning has the same lines at every verbosity, in the first of which it is told where it comes
  from. -/
  printed : ∀ r ∈ log, r.level = .warn → ∃ (first : String) (more : List String),
    (∀ spool m, (.message .warn r.origin first :: more.map .plain) <:+: logLines spool m log) ∧
    ((∀ c ∈ r.message.toList, isShown c = true ∧ c ≠ '\n') → first = r.message ∧ more = [])

lemma grows {n' : ℕ} (hn : n ≤ n') (h : ∀ r ∈ log, r.IsGuarded) : Grows n n' log where
  shown := shown_eq_filter hn log
  lines spool := by
    rw [logLines_eq, logLines_eq, shown_eq_filter hn]
    exact List.filter_sublist.flatMap _
  unnamed spool spool' := by
    rw [logLines_unnamed, logLines_eq, logLines_eq, shown_eq_filter hn]
    exact (List.filter_sublist.trans (List.filter_sublist.filter _)).flatMap _
  named := h
  drawn hdraws spool := logLines_of_draws hdraws spool log
  quiet hn _ _ := logLines_spool h hn
  warnings m := shown_warnings m log
  printed r hr hwarn := by
    have htext (spool : String) : r.lines spool = messageLines .warn r.origin r.message := by
      rw [Record.lines, Record.text, if_neg fun hspool => ?_, hwarn]
      simp [h r hr hspool] at hwarn
    obtain ⟨first, more, hlines⟩ := messageLines_eq .warn r.origin r.message
    refine ⟨first, more, fun spool m => ?_, fun hplain => ?_⟩
    · rw [← hlines, ← htext spool]
      exact lines_infix hr (hwarn ▸ shows_warn m)
    · rw [messageLines_of_shown hplain, List.cons.injEq, Line.message.injEq] at hlines
      exact ⟨hlines.1.2.2.symm, List.map_eq_nil_iff.mp hlines.2.symm⟩

end Lines

section Runs

variable {u : Surroundings} {t : FileTree} {args args' : List String}

def IsReadable (args : List String) : Prop := ∃ o, Options.ofArgs args = .ok o

/-- What a command line asks for, but for the verbosity. -/
def asked (args : List String) : Except Stop Options :=
  (Options.ofArgs args).map fun o => { o with verbosity := 0 }

/-- How many `-v` flags a command line has, if it can be read. -/
def verbosityOf (args : List String) : ℕ :=
  match Options.ofArgs args with
  | .ok o => o.verbosity
  | .error _ => 0

/-- All messages of a run, whether they are shown or not. -/
def messagesOf (t : FileTree) (args : List String) : List Record :=
  match Options.ofArgs args with
  | .ok o => (perform t o).2.1
  | .error _ => []

/-- The lines of the error stream below the log: why the run has failed, if it has. -/
def closingReport (t : FileTree) (args : List String) : List Line :=
  match Options.ofArgs args with
  | .error _ => []
  | .ok o =>
    match (perform t o).1 with
    | .error f => (failureLines f).map .plain
    | .ok _ => []

lemma perform_verbosity (t : FileTree) (o : Options) (n : ℕ) :
    perform t { o with verbosity := n } = perform t o := rfl

lemma run_errors (hread : IsReadable args) :
    (run u t args).errors =
      logLines u.spool (verbosityOf args) (messagesOf t args) ++ closingReport t args := by
  obtain ⟨o, ho⟩ := hread
  simp only [run, verbosityOf, messagesOf, closingReport, logLines, ho]
  cases (perform t o).1 <;> simp

lemma guarded_messagesOf (t : FileTree) (args : List String) :
    ∀ r ∈ messagesOf t args, r.IsGuarded := by
  rw [messagesOf]
  split
  · exact guarded_perform t _
  · exact List.forall_mem_nil _

/-- A `-v` flag that is added where an option can stand asks for nothing else. -/
theorem asked_verbose {before after : List String}
    (hready : ∀ r, before.foldlM Reading.step {} = .ok r → r.IsReady) :
    asked (before ++ "-v" :: after) = asked (before ++ after) := by
  rw [asked, asked, ofArgs_verbose hready]
  cases Options.ofArgs (before ++ after) <;> rfl

/-- Command lines that ask for the same cannot be read for the same reason, or differ in the
verbosity at most. -/
lemma asked_cases {args args' : List String} (h : asked args' = asked args) :
    (∃ s, Options.ofArgs args = .error s ∧ Options.ofArgs args' = .error s) ∨
      ∃ o n, Options.ofArgs args = .ok o ∧ Options.ofArgs args' = .ok { o with verbosity := n } := by
  rw [asked, asked] at h
  rcases hs : Options.ofArgs args with s | o <;> rcases hs' : Options.ofArgs args' with s' | o' <;>
    rw [hs, hs'] at h
  · exact .inl ⟨s, rfl, h⟩
  · cases h
  · cases h
  · exact .inr ⟨o, o'.verbosity, rfl, by cases o'; simp_all [Except.map]⟩

/-- Runs that are asked for the same end in the same way, with the same output and the same files,
wherever the temporary file lies for each of them. If the command lines can be read, the error
streams show one log and end with one report. -/
lemma run_asked (h : asked args' = asked args) :
    (∀ u spool, (run { u with spool } t args').exitCode = (run u t args).exitCode ∧
      (run { u with spool } t args').output = (run u t args).output ∧
      (run { u with spool } t args').files = (run u t args).files) ∧
    (IsReadable args → IsReadable args') ∧
    messagesOf t args' = messagesOf t args ∧ closingReport t args' = closingReport t args := by
  rcases asked_cases h with ⟨s, hs, hs'⟩ | ⟨o, m, ho, ho'⟩
  · refine ⟨fun u spool => ?_, fun ⟨o, ho⟩ => ?_, ?_⟩
    · cases s <;> simp only [run, hs, hs', and_self]
    · cases hs.symm.trans ho
    · simp only [messagesOf, closingReport, hs, hs', and_self]
  · refine ⟨fun u spool => ?_, fun _ => ⟨_, ho'⟩, ?_⟩
    · simp only [run, ho, ho', perform_verbosity t o m]
      cases (perform t o).1 <;> exact ⟨rfl, rfl, rfl⟩
    · simp only [messagesOf, closingReport, ho, ho', perform_verbosity t o m, and_self]

/-- Of two runs that are asked for the same, the louder one ends in the same way, with the same
output and the same files, wherever the temporary file lies for each of them. If the command lines
can be read, the error streams show one log and end with one report: the louder run adds lines, all
of messages that the lower verbosity does not admit, and no warning is missing in either. -/
theorem run_louder (t : FileTree) (args args' : List String) (hasked : asked args' = asked args)
    (hcount : verbosityOf args ≤ verbosityOf args') :
    (∀ u spool, (run { u with spool } t args').exitCode = (run u t args).exitCode ∧
      (run { u with spool } t args').output = (run u t args).output ∧
      (run { u with spool } t args').files = (run u t args).files) ∧
    (IsReadable args → ∀ u,
      (run u t args).errors =
        logLines u.spool (verbosityOf args) (messagesOf t args) ++ closingReport t args ∧
      (run u t args').errors =
        logLines u.spool (verbosityOf args') (messagesOf t args) ++ closingReport t args) ∧
    Grows (verbosityOf args) (verbosityOf args') (messagesOf t args) := by
  obtain ⟨hend, hread, hmessages, hreport⟩ := run_asked (t := t) hasked
  refine ⟨hend, fun hargs u => ⟨run_errors hargs, ?_⟩, grows hcount (guarded_messagesOf t args)⟩
  rw [run_errors (hread hargs), hmessages, hreport]

/-- A file that is missing in an image, without flags and with two. Without flags the warning is all
that is shown, and it is shown as well in the louder run, whose temporary file lies elsewhere. -/
theorem run_louder_missing :
    let t := imageFile (archiveOf (savedBlobs []))
    let u : Surroundings := ⟨"/tmp/a", fun _ => ["error"], "Usage: oci2plugin <IMAGE>\n"⟩
    let quiet := run u t ["-f", "/bin/foo", "image"]
    let loud := run { u with spool := "/tmp/b" } t ["-f", "/bin/foo", "-vv", "image"]
    let warning : Line := .message .warn .progress "/bin/foo not found in image"
    quiet.exitCode = 0 ∧ loud.exitCode = 0 ∧ loud.files = quiet.files ∧
      quiet.errors = [warning] ∧ warning ∈ loud.errors := by
  intro t u quiet loud warning
  have hread : Options.ofArgs ["-f", "/bin/foo", "image"] =
      .ok ⟨"image", defaultOutput, none, ["/bin/foo"], none, 0⟩ := by decide +kernel
  have hasked : asked ["-f", "/bin/foo", "-vv", "image"] = asked ["-f", "/bin/foo", "image"] ∧
      verbosityOf ["-f", "/bin/foo", "image"] ≤ verbosityOf ["-f", "/bin/foo", "-vv", "image"] := by
    decide +kernel
  have hrun : quiet.exitCode = 0 ∧ quiet.errors = [warning] ∧
      missingNote ⟨"/bin/foo", "."⟩ ∈ messagesOf t ["-f", "/bin/foo", "image"] := by
    decide +kernel
  obtain ⟨hexit, herrors, hmissing⟩ := hrun
  obtain ⟨hend, hlines, hgrows⟩ := run_louder t _ _ hasked.1 hasked.2
  obtain ⟨hexit', -, hfiles⟩ := hend u "/tmp/b"
  obtain ⟨first, more, hprinted, htext⟩ := hgrows.printed _ hmissing rfl
  have hplain : ((missingNote ⟨"/bin/foo", "."⟩).message.toList.all fun c =>
      isShown c && c != '\n') = true := by
    decide +kernel
  obtain ⟨rfl, rfl⟩ := htext fun c hc => by simpa using List.all_eq_true.mp hplain c hc
  refine ⟨hexit, hexit'.trans hexit, hfiles, herrors, ?_⟩
  rw [show loud.errors = _ from (hlines ⟨_, hread⟩ { u with spool := "/tmp/b" }).2]
  exact List.mem_append_left _ ((hprinted "/tmp/b" _).subset (List.mem_singleton_self warning))

end Runs

end LayerPick.Cli
