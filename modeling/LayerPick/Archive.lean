import LayerPick.Failure
import LayerPick.Tar.Reader
import LayerPick.Tar.Writer

/-!
# Output archives

An output archive takes entries one by one. An entry keeps the metadata of the header it comes with
and is stored under a path of its own. An entry that fails is not counted; what has been written of
it stays. The archive keeps a history of what it was asked to take.
-/
namespace LayerPick

/-- An entry that an archive is asked to take: its header, the path to store it under, the records
that go with it, and its content. -/
structure Request where
  header : Tar.Header
  path : String
  records : List Tar.Pax.Record
  content : Tar.Content
  deriving DecidableEq

/-- A request, and how it has ended. -/
structure Attempt extends Request where
  result : Tar.Copied
  deriving DecidableEq

def Attempt.isWritten (a : Attempt) : Bool :=
  match a.result with
  | .complete _ => true
  | _ => false

structure Archive where
  device : Device
  label : String
  /-- What the archive was asked to take, latest first. -/
  history : List Attempt := []

namespace Archive

def new (d : Device) (label : String) : Archive := ⟨d, label, []⟩

/-- What the archive was asked to take, in order. -/
def attempts (a : Archive) : List Attempt := a.history.reverse

def entries (a : Archive) : Nat := a.history.countP Attempt.isWritten

/-- Writes an entry, and gives back what is left of its content. -/
def append (a : Archive) (h : Tar.Header) (path : String) (records : List Tar.Pax.Record)
    (c : Tar.Content) : Archive × Tar.Content × Tar.Copied :=
  match Tar.writeEntry a.device h path records c with
  | (d, rest, r) => (⟨d, a.label, ⟨⟨h, path, records, c⟩, r⟩ :: a.history⟩, rest, r)

def finish (a : Archive) : Device × Option Failure :=
  match a.device.write Tar.trailer with
  | (d, none) => (d, none)
  | (d, some m) => (d, some ⟨[.writeTrailer a.label], .stream m⟩)

/-- Each call adds what it was given to the attempts. -/
@[simp] theorem attempts_append (a : Archive) (h : Tar.Header) (path : String)
    (records : List Tar.Pax.Record) (c : Tar.Content) :
    (a.append h path records c).1.attempts =
      a.attempts ++ [⟨⟨h, path, records, c⟩, (Tar.writeEntry a.device h path records c).2.2⟩] := by
  simp [append, attempts]

end Archive

end LayerPick
