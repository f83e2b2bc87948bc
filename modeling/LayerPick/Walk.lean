import LayerPick.Archive
import LayerPick.Image.Layer
import LayerPick.Log.Record
import LayerPick.Resolved

/-!
# Picking files out of an image

The layers are walked from the topmost down. The first copy of a file that is met counts: entries
that are no folders, hold something, and lie under the path of a file that was asked for are written
to the output archive, unless an entry above has claimed the path already. The walk ends as soon as
all files are written, and layers below are not opened.

What cannot be read ends the walk with a failure. What cannot be written is passed over with a
warning.
-/
namespace LayerPick

/-- An entry that could not be written. -/
structure Warning where
  path : String
  layer : Nat
  message : String
  deriving Repr, DecidableEq

structure WalkState where
  archive : Archive
  resolved : Resolved := .empty
  found : Nat := 0
  warnings : List Warning := []
  visited : Nat := 0
  /-- The layers that have been opened, in order. -/
  opened : List Nat := []
  log : List Log.Record := []

namespace WalkState

def say (s : WalkState) (level : Log.Level) (message : String) : WalkState :=
  { s with log := s.log ++ [{ level, origin := .progress, message }] }

def countFile (s : WalkState) : WalkState := { s with found := s.found + 1 }

def countLayer (s : WalkState) : WalkState := { s with visited := s.visited + 1 }

def warn (s : WalkState) (w : Warning) : WalkState := { s with warnings := s.warnings ++ [w] }

def claim (s : WalkState) (path : String) : WalkState :=
  { s with resolved := s.resolved.insert path }

end WalkState

structure Order where
  /-- The paths that are looked for, without repetitions. -/
  targets : List String
  /-- Is the run cancelled before this layer? -/
  cancelled : Nat → Bool

namespace Order

/-- The order for some files. -/
def ofFiles (files : List FileSpec) (cancelled : Nat → Bool) : Order :=
  ⟨(files.map FileSpec.target).eraseDups, cancelled⟩

def isDone (o : Order) (s : WalkState) : Bool := s.found == o.targets.length

/-- The path that an entry is to be written under, if it is wanted. -/
def match? (o : Order) (r : Resolved) (e : Tar.Entry) : Option String :=
  if e.header.kind = .folder ∨ e.size = 0 then none
  else
    let path := Path.normalize (Utf8.decodeLossy e.path)
    if path = "" ∨ Path.escapes path ∨ r.contains path ∨ path ∉ o.targets then none
    else some path

end Order

/-- How an entry has left the walk: going on from what is left of its content, or failing. -/
abbrev Step := WalkState × Except Failure Tar.Content

/-- Takes in how the writing of an entry has ended. -/
def settle (layer : Nat) (path : String) (size : Nat) (s : WalkState) (c : Tar.Content) :
    Tar.Copied → Step
  | .unreadable m => (s, .error ⟨[.readLayerEntry layer], .entryUnreadable path m⟩)
  | .complete n =>
    if n ≠ size then (s, .error ⟨[.readLayerEntry layer], .entryTruncated path size n⟩)
    else
      (s.countFile.say .debug ("Extracted " ++ path ++ " (" ++ toString size ++
        " bytes) from layer " ++ toString layer), .ok c)
  | .refused m =>
    ((s.warn ⟨path, layer, m⟩).say .warn
      ("Skipping " ++ path ++ " from layer " ++ toString layer ++ ": " ++ m), .ok c)

/-- Writes an entry that is wanted. Its path is claimed before that. -/
def take (layer : Nat) (path : String) (e : Tar.Entry) (s : WalkState) (c : Tar.Content) : Step :=
  let s := s.claim path
  match e.carriedRecords c with
  | .error err => (s, .error ⟨[.readLayerEntry layer], .tar err⟩)
  | .ok (records, c) =>
    match s.archive.append e.header path records c with
    | (a, c, copied) => settle layer path e.size { s with archive := a } c copied

/-- Goes through the entries of a layer. `tries` is more than their number. -/
def walkEntries (o : Order) (layer : Nat) :
    (tries : Nat) → WalkState → Tar.Reader → WalkState × Option Failure
  | 0, s, _ => (s, none)
  | tries + 1, s, r =>
    match r.next? with
    | .error e => (s, some ⟨[.readLayerEntry layer], .tar e⟩)
    | .ok none => (s, none)
    | .ok (some (e, r)) =>
      match o.match? s.resolved e with
      | none => walkEntries o layer tries s r
      | some path =>
        match take layer path e s r.content with
        | (s, .error f) => (s, some f)
        | (s, .ok c) =>
          if o.isDone s then (s, none) else walkEntries o layer tries s { r with content := c }

def walkLayer (o : Order) (index : Nat) (layer : Layer) (s : WalkState) :
    WalkState × Option Failure :=
  let s := s.say .debug ("Scanning layer " ++ toString index ++ " (" ++ layer.description ++ ")")
  let s := { s with opened := s.opened ++ [index] }
  match layer.openLayer with
  | .error f => (s, some (f.within (.openLayer index layer.description)))
  | .ok source =>
    let r := Tar.Reader.ofSource source
    walkEntries o index (r.mostEntries + 1) s r

/-- Goes through layers, given with their indices, the topmost first. `total` is the number of all
layers. -/
def walkLayers (o : Order) (total : Nat) :
    List (Layer × Nat) → WalkState → WalkState × Option Failure
  | [], s => (s, none)
  | (layer, index) :: below, s =>
    if o.isDone s then
      (s.say .debug ("All targets resolved, skipping " ++ toString (index + 1) ++ " deeper layers"),
        none)
    else if o.cancelled index then (s, some (.of (.cancelled index)))
    else
      match walkLayer o index layer s with
      | (s, some f) => (s.countLayer, some f)
      | (s, none) =>
        let s := s.countLayer
        walkLayers o total below (s.say .info
          ("Scanned layers: " ++ toString s.visited ++ "/" ++ toString total))

/-- Goes through all layers of an image. -/
def walk (o : Order) (layers : List Layer) (s : WalkState) : WalkState × Option Failure :=
  walkLayers o layers.length layers.zipIdx.reverse s

structure Extraction where
  /-- The files that were found, in the order they were asked for. -/
  locations : List FileSpec
  warnings : List Warning
  visited : Nat
  archive : String
  deriving Repr, DecidableEq

/-- What an extraction leaves behind, whether it succeeds or not. -/
structure Extracted where
  outcome : Except Failure Extraction
  /-- The layers that have been opened, in order. -/
  opened : List Nat := []
  /-- What the archive was asked to take, in order. -/
  attempts : List Attempt := []
  log : List Log.Record := []
  /-- The output device, if it could be had. -/
  device : Option Device := none

def Order.announcement (o : Order) (layers : List Layer) : List Log.Record :=
  [{ level := .info, origin := .progress
     message := "Looking for " ++ toString o.targets.length ++ " files in " ++
       toString layers.length ++ " layers" }]

/-- The walk before the first layer. -/
def WalkState.start (o : Order) (layers : List Layer) (d : Device) (label : String) : WalkState :=
  { archive := .new d label, log := o.announcement layers }

/-- Ends the archive, whatever the walk has come to. -/
def conclude (files : List FileSpec) (layers : List Layer) (label : String) (s : WalkState)
    (failure : Option Failure) : Extracted :=
  let (device, unfinished) := s.archive.finish
  let outcome : Except Failure Extraction :=
    match failure, unfinished with
    | some f, _ => .error f
    | none, some f => .error (f.within .finishArchive)
    | none, none => .ok ⟨s.resolved.found files, s.warnings, s.visited, label⟩
  let s := match outcome with
    | .ok _ => s.say .info ("Wrote " ++ toString s.archive.entries ++ " files to " ++ label ++
        " after " ++ toString s.visited ++ " of " ++ toString layers.length ++ " layers")
    | .error _ => s
  { outcome := outcome, opened := s.opened, attempts := s.archive.attempts, log := s.log,
    device := some device }

/-- Picks files out of an image into an archive on a device, which is created once the layers are
listed. The archive is ended whatever the walk has come to. -/
def extract (image : Image) (files : List FileSpec) (cancelled : Nat → Bool)
    (create : Except SystemError Device) (label : String) : Extracted :=
  match image.layers with
  | .error f => { outcome := .error (f.within .listLayers) }
  | .ok layers =>
    let o := Order.ofFiles files cancelled
    match create with
    | .error e =>
      { outcome := .error ⟨[.createArchive label], .system e⟩, log := o.announcement layers }
    | .ok device =>
      let (s, failure) := walk o layers (.start o layers device label)
      conclude files layers label s failure

end LayerPick
