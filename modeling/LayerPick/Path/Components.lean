import LayerPick.Path.Normal

/-!
# Components as a file system sees them

A path that is to be opened or stored is read component by component without cancelling anything.
Empty and `.` components count for nothing, except that a `.` in front of a relative path counts.
`fileName?` is the last component if it is a name; `parent?` is the text before the last component,
without the separators and `.` components that lie between.
-/
namespace LayerPick.Path

inductive Component where
  | root
  | here
  | up
  | name (n : Name)
  deriving Repr, DecidableEq

/-- The component in a part of a path; `first` says that nothing stands before it. -/
def component? (first : Bool) (part : Name) : Option Component :=
  if part = [] then none
  else if part = selfName then (if first then some .here else none)
  else if part = parentName then some .up
  else some (.name part)

/-- The components of the parts behind the first. -/
def laterComponents (parts : List Name) : List Component :=
  parts.filterMap (component? false)

def components (p : String) : List Component :=
  match split p with
  | [] => []
  | first :: rest =>
    (if rooted p then [.root] else (component? true first).toList) ++ laterComponents rest

/-- The last component, if it is a name. -/
def fileName? (p : String) : Option String :=
  match (components p).getLast? with
  | some (.name n) => some (String.ofList n)
  | _ => none

/-- Cuts off the parts at the end that hold no component. The parts come last first. -/
def trimEnd : List Name → List Name
  | [] => []
  | [part] => if (component? true part).isSome then [part] else []
  | part :: parts => if (component? false part).isSome then part :: parts else trimEnd parts

/-- The path before the last component, `none` for the root and for a path without components. -/
def parent? (p : String) : Option String :=
  match (split p).reverse with
  | [] => none
  | parts =>
    match trimEnd parts with
    | [] => none
    | _ :: before =>
      match trimEnd before with
      | [] => if rooted p then some "/" else some ""
      | kept => some (join kept.reverse)

def endsInSeparator (p : String) : Bool :=
  p.toList.getLast? == some '/'

def inFolder (folder name : String) : String :=
  if folder.isEmpty || endsInSeparator folder then folder ++ name else folder ++ "/" ++ name

end LayerPick.Path
