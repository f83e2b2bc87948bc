import LayerPick.Path.Components
import LayerPick.Stream.Source
import LayerPick.SystemError

/-!
# Files

The files that a run sees: regular files, folders, symbolic links and devices, each at a place, that
is a list of names from the root. Paths that do not start at the root start in the working folder.
Following a path goes name by name through folders and links, at most 40 of these.

What lies outside the tree does not exist, except for a device on which nothing can be stored.
-/
namespace LayerPick

abbrev Place := List String

inductive FileNode where
  | file (data : Bytes)
  | folder
  | link (target : String)
  /-- A device that takes no bytes and delivers zeros. -/
  | fullDevice
  deriving Repr, DecidableEq

structure FileTree where
  nodes : List (Place × FileNode)
  deriving Repr, DecidableEq

namespace FileTree

def workingPlace : Place := ["work"]

/-- An empty working folder, and the device. -/
def empty : FileTree :=
  ⟨[([], .folder), (["work"], .folder), (["dev"], .folder), (["dev", "full"], .fullDevice)]⟩

def get? (t : FileTree) (p : Place) : Option FileNode := t.nodes.lookup p

def put (t : FileTree) (p : Place) (n : FileNode) : FileTree :=
  ⟨(p, n) :: t.nodes.filter fun x => x.1 ≠ p⟩

/-- Where a path leads. -/
inductive Found where
  | node (p : Place) (n : FileNode)
  /-- There is nothing, but the folder it would be in exists. `asFolder` says that the path goes on
  behind it as if it were a folder. -/
  | vacant (p : Place) (asFolder : Bool)
  deriving Repr, DecidableEq

/-- The greatest length of a name in bytes. -/
def maxName : Nat := 255

/-- The length in bytes from which on a path is too long. -/
def pathLimit : Nat := 4096

def maxLinks : Nat := 40

/-- Follows the parts of a path from a folder on. `follow` follows a path behind a link. -/
def walkParts (t : FileTree) (follow : Place → List String → Except SystemError Found) :
    Place → List String → Except SystemError Found
  | at_, [] =>
    match t.get? at_ with
    | some n => .ok (.node at_ n)
    | none => .error .notFound
  | at_, part :: rest =>
    if part = "" ∨ part = "." then walkParts t follow at_ rest
    else if part = ".." then walkParts t follow at_.dropLast rest
    else if maxName < (Utf8.encode part).length then .error .nameTooLong
    else
      let there := at_ ++ [part]
      match t.get? there with
      | none =>
        if rest.all (· = "") then .ok (.vacant there (!rest.isEmpty)) else .error .notFound
      | some .folder => walkParts t follow there rest
      | some (.link target) =>
        if target = "" then .error .notFound
        else
          let parts := (Path.split target).map String.ofList ++ rest
          follow (if Path.rooted target then [] else at_) parts
      | some n => if rest.isEmpty then .ok (.node there n) else .error .notFolder

/-- Follows the parts of a path through at most `links` links. -/
def walkFrom (t : FileTree) : (links : Nat) → Place → List String → Except SystemError Found
  | 0 => walkParts t fun _ _ => .error .linkLoop
  | links + 1 => walkParts t (walkFrom t links)

def resolve (t : FileTree) (path : String) : Except SystemError Found :=
  if path.toList.contains (Char.ofNat 0) then .error .nulInPath
  else if path = "" then .error .notFound
  else if pathLimit ≤ (Utf8.encode path).length then .error .nameTooLong
  else
    walkFrom t maxLinks (if Path.rooted path then [] else workingPlace)
      ((Path.split path).map String.ofList)

def find? (t : FileTree) (path : String) : Except SystemError FileNode :=
  match t.resolve path with
  | .error e => .error e
  | .ok (.node _ n) => .ok n
  | .ok (.vacant _ _) => .error .notFound

def isFolder (t : FileTree) (path : String) : Bool :=
  match t.find? path with
  | .ok .folder => true
  | _ => false

def isFile (t : FileTree) (path : String) : Bool :=
  match t.find? path with
  | .ok (.file _) => true
  | _ => false

/-- Opens a file for reading. A folder can be opened, but every read call on it fails. -/
def openFile (t : FileTree) (path : String) : Except SystemError Source :=
  match t.find? path with
  | .error e => .error e
  | .ok (.file b) => .ok (.ofBytes b)
  | .ok .fullDevice => .ok (.ofBytes (List.replicate 1024 0))
  | .ok _ => .ok ⟨[], some SystemError.isFolder.message⟩

/-- Makes the folders on a path that are not there yet. -/
def makeFolders (t : FileTree) (path : String) : FileTree :=
  let parts := Path.split path
  (List.range parts.length).foldl (fun t i =>
    match t.resolve (Path.join (parts.take (i + 1))) with
    | .ok (.vacant p _) => t.put p .folder
    | _ => t) t

/-- A file that has been created or emptied for writing. -/
inductive Target where
  | file (p : Place)
  | fullDevice
  deriving Repr, DecidableEq

/-- Creates a file, or empties the one that is there. -/
def create (t : FileTree) (path : String) : Except SystemError (Target × FileTree) :=
  match t.resolve path with
  | .error e => .error e
  | .ok (.node p (.file _)) => .ok (.file p, t.put p (.file []))
  | .ok (.node _ .fullDevice) => .ok (.fullDevice, t)
  | .ok (.node _ _) => .error .isFolder
  | .ok (.vacant p asFolder) =>
    if asFolder then .error .isFolder else .ok (.file p, t.put p (.file []))

/-- Writes the whole content of a created file. -/
def fill (t : FileTree) (target : Target) (b : Bytes) : FileTree :=
  match target with
  | .file p => t.put p (.file b)
  | .fullDevice => t

/-- The tree with a further file, in folders that are made for it. -/
def withFile (t : FileTree) (path : String) (b : Bytes) : FileTree :=
  let t := t.makeFolders ((Path.parent? path).getD "")
  match t.create path with
  | .ok (target, t) => t.fill target b
  | .error _ => t

/-- The tree with a further link, in folders that are made for it. -/
def withLink (t : FileTree) (path target : String) : FileTree :=
  let t := t.makeFolders ((Path.parent? path).getD "")
  match t.resolve path with
  | .ok (.vacant p _) => t.put p (.link target)
  | _ => t

end FileTree

end LayerPick
