import LayerPick.Path.Components
import LayerPick.Tar.Header

/-!
# Writing a path into a header

A path is copied into a field stroke by stroke: its components, separators between them, and a
separator behind them if the path ends in one. Each stroke must fit into what is left of the field
and may hold no NUL; a NUL follows it if there is room. What lies behind stays as it was, and so do
the strokes before a failure.

A ustar header takes up to 100 bytes of path in `name`. A longer path is cut before one of its last
components: what comes before the cut goes to the field for the front part, the rest to `name`.
-/
namespace LayerPick.Tar

/-- Why a path cannot be written into a field. -/
inductive PathFault where
  | absolute
  | climbs
  | tooLong
  | containsNul
  | noComponent
  deriving Repr, DecidableEq

def PathFault.message : PathFault → String
  | absolute => "paths in archives must be relative"
  | climbs => "paths in archives must not have `..`"
  | tooLong => "provided value is too long"
  | containsNul => "provided value contains a nul byte"
  | noComponent => "paths in archives must have at least one component"

/-- A field that is being written: the bytes written, and the bytes behind them. -/
structure Slot where
  written : Bytes
  room : Bytes

/-- Writes one stroke and, if there is room, a NUL behind it. -/
def Slot.put (s : Slot) (stroke : Bytes) : Except PathFault Slot :=
  if s.room.length < stroke.length then .error .tooLong
  else if (0 : UInt8) ∈ stroke then .error .containsNul
  else .ok ⟨s.written ++ stroke, match s.room.drop stroke.length with
    | [] => []
    | _ :: r => 0 :: r⟩

/-- Writes strokes up to the first that fails. -/
def Slot.putAll (s : Slot) : List Bytes → Slot × Option PathFault
  | [] => (s, none)
  | b :: bs =>
    match s.put b with
    | .error e => (s, some e)
    | .ok s' => s'.putAll bs

/-- The strokes for components, and the fault that comes after them. A component `..` is a fault,
unless it is the last and `cut` says that the path goes on elsewhere; `alone` says that there is no
other component, which is when `.` is written. -/
def componentStrokes (cut alone : Bool) (slash : Bool) :
    List Path.Component → List Bytes × Option PathFault
  | [] => ([], none)
  | .root :: _ => ([], some .absolute)
  | .here :: cs =>
    if alone then
      let (bs, e) := componentStrokes cut alone true cs
      ((if slash then [[47]] else []) ++ [46] :: bs, e)
    else componentStrokes cut alone slash cs
  | .up :: cs =>
    if cut && cs.isEmpty then ((if slash then [[47]] else []) ++ [[46, 46]], none)
    else ([], some .climbs)
  | .name n :: cs =>
    let (bs, e) := componentStrokes cut alone true cs
    ((if slash then [[47]] else []) ++ Utf8.encode (String.ofList n) :: bs, e)

/-- The strokes for a path, and the fault that comes after them. -/
def pathStrokes (cut : Bool) (p : String) : List Bytes × Option PathFault :=
  let cs := Path.components p
  match componentStrokes cut (cs.length == 1) false cs with
  | (bs, some e) => (bs, some e)
  | ([], none) => ([], some .noComponent)
  | (bs, none) => (if Path.endsInSeparator p then bs ++ [[47]] else bs, none)

def Field.setPath {n : Nat} (f : Field n) (cut : Bool) (p : String) : Field n × Option PathFault :=
  let (strokes, e) := pathStrokes cut p
  let (s, e') := (Slot.mk [] f.bytes).putAll strokes
  (.ofBytes n (s.written ++ s.room), e' <|> e)

/-- A path that a header does not take. -/
structure PathError where
  fault : PathFault
  /-- The path in the header when the fault was met. -/
  header : String
  deriving Repr, DecidableEq

def PathError.message (e : PathError) : String :=
  e.fault.message ++ " when setting path for " ++ e.header

/-- Where a path of more than 100 bytes is cut: as few components as possible are cut off, at least
one, so that at most 155 bytes are left. -/
def frontPart? : (tries : Nat) → String → Option String
  | 0, _ => none
  | tries + 1, p =>
    match Path.parent? p with
    | none => none
    | some q => if (Utf8.encode q).length ≤ 155 then some q else frontPart? tries q

namespace Header

def setName (h : Header) (cut : Bool) (p : String) : Header × Option PathError :=
  let (f, e) := h.name.setPath cut p
  let h' := { h with name := f }
  (h', e.map fun e => ⟨e, h'.pathText⟩)

/-- Copies the two parts of a long path into a ustar header. -/
def setLongPath (h : Header) (p : String) : Header × Option PathError :=
  match frontPart? (p.length + 1) p with
  | none => (h, some ⟨.noComponent, h.pathText⟩)
  | some front =>
    let (f, e) := h.pathFront.setPath false front
    let h' := h.setPathFront f
    match e with
    | some e => (h', some ⟨e, h'.pathText⟩)
    | none =>
      let rest := (Utf8.encode p).drop ((Utf8.encode front).length + 1)
      h'.setName false (Utf8.decodeLossy rest)

def setPath (h : Header) (p : String) : Header × Option PathError :=
  if h.form = .ustar ∧ 100 < (Utf8.encode p).length then h.setLongPath p
  else h.setName false p

/-- Copies the beginning of a path whose whole is kept elsewhere. -/
def setCutPath (h : Header) (p : String) : Header × Option PathError :=
  if h.form = .ustar then h.setPath p else h.setName true p

end Header

/-- The longest beginning of a text that has at most `n` bytes. -/
def beginning (n : Nat) (p : String) : String :=
  let rec go : Nat → List Char → List Char
    | _, [] => []
    | room, c :: cs =>
      let k := (String.utf8EncodeChar c).length
      if k ≤ room then c :: go (room - k) cs else []
  String.ofList (go n p.toList)

end LayerPick.Tar
