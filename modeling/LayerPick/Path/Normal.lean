/-!
# Normal forms of paths

A path in an archive is a text of components separated by `/`. Its normal form drops empty and `.`
components and lets `..` cancel the component before it. What `..` has left to cancel decides what
becomes of it: at a rooted start (`/`) it is dropped, at a relative one it is kept, so that normal
forms which lead out of the tree are recognised by their first component.

Targets are declared with a leading `/` and entries are not, so `target` takes one `/` off first.
-/
namespace LayerPick.Path

abbrev Name := List Char

def parentName : Name := ['.', '.']

def selfName : Name := ['.']

def split (p : String) : List Name :=
  p.toList.splitOn '/'

/-- Components with separators between them. -/
def join (names : List Name) : String :=
  String.ofList (List.intercalate ['/'] names)

def rooted (p : String) : Bool :=
  p.toList.head? == some '/'

/-- Walks on by one component. The innermost component comes first. -/
def walk (fromRoot : Bool) (inner : List Name) (c : Name) : List Name :=
  if c = [] ∨ c = selfName then inner
  else if c = parentName then
    match inner with
    | [] => if fromRoot then [] else [parentName]
    | d :: outer =>
      if d = parentName then (if fromRoot then inner else parentName :: inner) else outer
  else c :: inner

def normalNames (p : String) : List Name :=
  ((split p).foldl (walk (rooted p)) []).reverse

def normalize (p : String) : String :=
  join (normalNames p)

/-- Does a normal form lead out of the tree? -/
def escapes (p : String) : Bool :=
  p == ".." || ['.', '.', '/'].isPrefixOf p.toList

/-- The normal form under which a declared path is looked for. -/
def target (p : String) : String :=
  match p.toList with
  | '/' :: r => normalize (String.ofList r)
  | _ => normalize p

end LayerPick.Path
