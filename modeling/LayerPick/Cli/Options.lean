/-!
# Command line options

The command line names an image, the files to take out of it (one by one or by a plugin manifest),
the output archive, the platform and the verbosity. It is read from left to right, and the first
thing that is wrong, or asks for the version or for help, ends the reading.
-/
namespace LayerPick.Cli

structure Options where
  image : String
  output : String
  manifest : Option String
  files : List String
  platform : Option String
  verbosity : Nat
  deriving Repr, DecidableEq

inductive ValueOption where
  | output
  | manifest
  | file
  | platform
  deriving Repr, DecidableEq

/-- Something to do other than a run. -/
inductive Stop where
  | wrongUsage
  | showVersion
  | showHelp
  deriving Repr, DecidableEq

structure Reading where
  image : Option String := none
  output : Option String := none
  manifest : Option String := none
  files : List String := []
  platform : Option String := none
  verbosity : Nat := 0
  /-- Only values of `image` follow. -/
  valuesOnly : Bool := false
  awaiting : Option ValueOption := none
  deriving Repr, DecidableEq

/-- The greatest count of `-v` flags. -/
def maxVerbosity : Nat := 255

namespace Reading

/-- Fills a place that may be filled once, with a path that is not empty. -/
def fillOnce (old : Option String) (v : String) : Except Stop (Option String) :=
  if old.isSome then .error .wrongUsage else .ok (some v)

/-- Fills a place that may be filled once, with a path. -/
def fillPath (old : Option String) (v : String) : Except Stop (Option String) :=
  if v.isEmpty then .error .wrongUsage else fillOnce old v

def setOption (r : Reading) (o : ValueOption) (v : String) : Except Stop Reading :=
  let r := { r with awaiting := none }
  match o with
  | .output => do return { r with output := ← fillPath r.output v }
  | .manifest => do return { r with manifest := ← fillPath r.manifest v }
  | .file => .ok { r with files := r.files ++ [v] }
  | .platform => do return { r with platform := ← fillOnce r.platform v }

/-- Takes a value that belongs to no option. -/
def setImage (r : Reading) (v : String) : Except Stop Reading := do
  return { r with image := ← fillPath r.image v }

def countVerbose (r : Reading) : Reading :=
  { r with verbosity := min (r.verbosity + 1) maxVerbosity }

/-- An argument that starts with two dashes; `value` is what follows `=`. -/
def readLong (r : Reading) (name : String) (value : Option String) : Except Stop Reading :=
  let take (o : ValueOption) : Except Stop Reading :=
    match value with
    | some v => r.setOption o v
    | none => .ok { r with awaiting := some o }
  let flag (x : Except Stop Reading) : Except Stop Reading :=
    if value.isSome then .error .wrongUsage else x
  if name = "output" then take .output
  else if name = "manifest" then take .manifest
  else if name = "file" then take .file
  else if name = "platform" then take .platform
  else if name = "verbose" then flag (.ok r.countVerbose)
  else if name = "version" then flag (.error .showVersion)
  else if name = "help" then flag (.error .showHelp)
  else .error .wrongUsage

def shortOption? (c : Char) : Option ValueOption :=
  if c = 'o' then some .output
  else if c = 'm' then some .manifest
  else if c = 'f' then some .file
  else if c = 'p' then some .platform
  else none

/-- Letters behind one dash. What follows a letter that takes a value is its value. -/
def readShort : Reading → List Char → Except Stop Reading
  | r, [] => .ok r
  | r, c :: cs =>
    match shortOption? c with
    | some o =>
      match cs with
      | [] => .ok { r with awaiting := some o }
      | '=' :: v => r.setOption o (.ofList v)
      | v => r.setOption o (.ofList v)
    | none =>
      if c = 'v' then readShort r.countVerbose cs
      else if c = 'V' then .error .showVersion
      else if c = 'h' then .error .showHelp
      else .error .wrongUsage

/-- The end of the value of an option that has none yet. -/
def endValue (r : Reading) : Except Stop Unit :=
  if r.awaiting.isSome then .error .wrongUsage else .ok ()

def step (r : Reading) (arg : String) : Except Stop Reading :=
  if r.valuesOnly then r.setImage arg
  else match arg.toList with
    | ['-', '-'] => do r.endValue; return { r with valuesOnly := true }
    | '-' :: '-' :: long => do
      r.endValue
      let name := long.takeWhile (· ≠ '=')
      r.readLong (.ofList name)
        (if name.length < long.length then some (.ofList (long.drop (name.length + 1))) else none)
    | '-' :: c :: cs => do r.endValue; r.readShort (c :: cs)
    | _ =>
      match r.awaiting with
      | some o => r.setOption o arg
      | none => r.setImage arg

end Reading

/-- Where the archive goes if nothing else is said. -/
def defaultOutput : String := "./plugin.tar.gz"

/-- Reads a command line. Files are named either one by one or by a manifest. -/
def Options.ofArgs (args : List String) : Except Stop Options := do
  let r ← args.foldlM Reading.step {}
  r.endValue
  match r.image with
  | none => throw .wrongUsage
  | some image =>
    if r.manifest.isSome == !r.files.isEmpty then throw .wrongUsage
    return ⟨image, r.output.getD defaultOutput, r.manifest, r.files, r.platform, r.verbosity⟩

end LayerPick.Cli
