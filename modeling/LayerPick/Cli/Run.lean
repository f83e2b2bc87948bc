import LayerPick.Cli.Options
import LayerPick.Image.Local
import LayerPick.Log.Notifier
import LayerPick.Walk

/-!
# Runs of the program

`run` is a whole run: it reads the command line, opens the image, extracts, and reports. A run that
succeeds prints the files that were found; a run that fails prints nothing, and ends its log with
the failure and its causes. Files other than the output archive stay as they are.
-/
namespace LayerPick.Cli

/-- What a run leaves behind. -/
@[ext]
structure Ran where
  exitCode : Nat
  output : String
  errors : List Log.Line
  files : FileTree

/-- What a run takes from its surroundings: the path that the system gives to the temporary file, and
the texts of the argument parser. -/
structure Surroundings where
  spool : String
  /-- The lines that say why a command line cannot be read. -/
  refusal : List String → List String
  help : String

def versionText : String := "oci2plugin 0.1.0\n"

/-- The exit code for a command line that cannot be read. -/
def usageExit : Nat := 2

def loadPlugin (t : FileTree) (path : String) : Except Failure Plugin := do
  let source ← (t.openFile path).mapError fun e => ⟨[.readPlugin path], .system e⟩
  let taken := source.drain true
  match taken.fault with
  | some f => throw ⟨[.readPlugin path], .stream f.message⟩
  | none =>
    match Utf8.decode? taken.data with
    | none => throw ⟨[.readPlugin path], .notUtf8⟩
    | some text =>
      (Plugin.parse text).mapError fun e => (Failure.ofPlugin e).within (.checkPlugin path)

structure Request where
  files : List FileSpec
  platform : Option Platform

/-- The files that are asked for, and the platform. One on the command line goes before the one in a
manifest. -/
def request (t : FileTree) (o : Options) : Except Failure Request := do
  let (files, fromManifest) ← match o.manifest with
    | some path => do
      let p ← loadPlugin t path
      let platform ← p.platform?.mapError fun e => .of (.platform e)
      pure (p.files, platform)
    | none => do
      let files ← o.files.mapM fun f => (FileSpec.ofFlag f).mapError fun e => Failure.of (.flag e)
      pure (files, none)
  match o.platform with
  | some p => return ⟨files, some (← (Platform.parse p).mapError fun e => .of (.platform e))⟩
  | none => return ⟨files, fromManifest⟩

def deviceOf : FileTree.Target → Device
  | .file _ => .accepting
  | .fullDevice => .refusing SystemError.deviceFull.message

def openImage (t : FileTree) (o : Options) (r : Request) : Traced LocalImage := do
  Traced.say .info .program
    ("Extracting " ++ toString r.files.length ++ " files from " ++ o.image)
  Traced.say .debug .program ("Output archive: " ++ o.output)
  Traced.say .debug .program ("Platform: " ++ Platform.shown r.platform)
  Traced.say .info .progress "Loading image..."
  LocalImage.openAt t o.image r.platform

/-- Extracts from an image into an archive at a path, which is created or emptied before any layer
is opened. `image` is the image as it is read from given files. -/
def extractInto (t : FileTree) (image : FileTree → Image) (files : List FileSpec)
    (cancelled : Nat → Bool) (path : String) : Extracted × FileTree :=
  match t.create path with
  | .error e => (extract (image t) files cancelled (.error e) path, t)
  | .ok (target, t') =>
    let x := extract (image t') files cancelled (.ok (deviceOf target)) path
    match x.device with
    | none => (x, t)
    | some d => (x, t'.fill target (Gzip.encode d.output))

/-- The messages behind a successful extraction. -/
def closingLog (files : List FileSpec) (x : Extraction) : List Log.Record :=
  (missingFiles files x.locations).map (fun f =>
      { level := .warn, origin := .progress, message := f.source ++ " not found in image" }) ++
    if x.warnings.isEmpty then []
    else [{ level := .warn, origin := .progress
            message := toString x.warnings.length ++ " files could not be written to " ++
              x.archive }]

/-- What a run comes to: the files that were found or the failure, the log, and the files after. -/
def perform (t : FileTree) (o : Options) :
    Except Failure (List FileSpec) × List Log.Record × FileTree :=
  match request t o with
  | .error f => (.error f, [], t)
  | .ok r =>
    let opened := openImage t o r
    match opened.outcome with
    | .error f => (.error f, opened.log, t)
    | .ok image =>
      let (x, t') := extractInto t image.image r.files (fun _ => false) o.output
      match x.outcome with
      | .error f => (.error (f.within (.extract o.image)), opened.log ++ x.log, t')
      | .ok e => (.ok e.locations, opened.log ++ (x.log ++ closingLog r.files e), t')

/-- A cause in the report: its lines are indented, and its first line carries its number if it has
one. -/
def causeLines (number : Option Nat) (message : String) : List String :=
  let lines := (message.toList.splitOn '\n').map String.ofList
  let blank := match number with
    | none => "    "
    | some _ => "       "
  match lines with
  | [] => []
  | first :: more =>
    let front := match number with
      | none => "    "
      | some n =>
        let digits := toString n
        String.ofList (List.replicate (5 - digits.length) ' ') ++ digits ++ ": "
    (front ++ first) :: more.map (blank ++ ·)

def failureLines (f : Failure) : List String :=
  match f.messages with
  | [] => []
  | outermost :: causes =>
    (("Error: " ++ outermost).toList.splitOn '\n').map String.ofList ++
      match causes with
      | [] => []
      | [cause] => "" :: "Caused by:" :: causeLines none cause
      | causes => "" :: "Caused by:" ::
          (causes.zipIdx.flatMap fun c => causeLines (some c.2) c.1)

def run (u : Surroundings) (t : FileTree) (args : List String) : Ran :=
  match Options.ofArgs args with
  | .error .wrongUsage => ⟨usageExit, "", (u.refusal args).map .plain, t⟩
  | .error .showVersion => ⟨0, versionText, [], t⟩
  | .error .showHelp => ⟨0, u.help, [], t⟩
  | .ok o =>
    let (outcome, log, t') := perform t o
    let lines := (Log.Notifier.ofCount o.verbosity).print u.spool log
    match outcome with
    | .ok found => ⟨0, FileSpec.listLines found ++ "\n", lines, t'⟩
    | .error f => ⟨1, "", lines ++ (failureLines f).map .plain, t'⟩

end LayerPick.Cli
