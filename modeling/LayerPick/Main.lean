import LayerPick.Cli.Run

/-!
# The program

Reads the files that a run needs, performs the run, prints what it reports, and writes the archive.
-/
namespace LayerPick.Program

def writeArchive (files : FileTree) (path : String) : IO Unit := do
  match files.find? path with
  | .ok (.file b) => IO.FS.writeBinFile path (ByteArray.mk b.toArray)
  | _ => pure ()

/-- Puts a file, or a folder with all that is in it, into the tree. -/
partial def load (t : FileTree) (path : String) : IO FileTree := do
  try
    let real ← IO.FS.realPath path
    if ← real.isDir then
      let mut t := t.makeFolders path
      for entry in ← real.readDir do
        t ← load t (Path.inFolder path entry.fileName)
      return t
    else
      return t.withFile path (← IO.FS.readBinFile path).toList
  catch _ => return t

/-- Makes the folder of a path, if it is there. -/
def loadFolderOf (t : FileTree) (path : String) : IO FileTree := do
  let folder := (Path.parent? path).getD ""
  try
    if ← (← IO.FS.realPath folder).isDir then return t.makeFolders folder else return t
  catch _ => return t

def filesFor (args : List String) : IO FileTree := do
  match Cli.Options.ofArgs args with
  | .error _ => return .empty
  | .ok o =>
    let t ← load .empty o.image
    let t ← match o.manifest with
      | some m => load t m
      | none => pure t
    loadFolderOf t o.output

def usageText : String :=
  "Usage: oci2plugin [OPTIONS] <--manifest <MANIFEST>|--file <FROM[:TO]>> <IMAGE>"

/-- The temporary file is made and removed again: only its path is needed. -/
def surroundings : IO Cli.Surroundings := do
  let (_, spool) ← IO.FS.createTempFile
  IO.FS.removeFile spool
  return ⟨spool.toString, fun _ => ["error: the arguments cannot be read", "", usageText],
    usageText ++ "\n"⟩

def showLine : Log.Line → String
  | .message level origin m => "[" ++ level.text ++ " " ++ origin.text ++ "] " ++ m
  | .plain s => s

end LayerPick.Program

def main (args : List String) : IO UInt32 := do
  let files ← LayerPick.Program.filesFor args
  let ran := LayerPick.Cli.run (← LayerPick.Program.surroundings) files args
  for line in ran.errors do
    IO.eprintln (LayerPick.Program.showLine line)
  IO.print ran.output
  if let .ok o := LayerPick.Cli.Options.ofArgs args then
    LayerPick.Program.writeArchive ran.files o.output
  return UInt32.ofNat ran.exitCode
