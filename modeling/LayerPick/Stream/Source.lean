import LayerPick.Text.Utf8

/-!
# Sources of bytes

A `Source` is a stream that is read once, front to back. What a read call gives is decided by the
events still ahead: bytes, which one call hands out at most up to a limit, and single calls that
fail. A failure is transient if the call may just be repeated. Behind the last event every call
meets the end of the stream, or, if the source has a `defect`, fails with it.

There are three ways to read: one call (`read`), calls until a number of bytes is there (`take`),
and calls until the end (`drain`). The last two say by `patient` whether transient failures are
waited out.
-/
namespace LayerPick

structure Fault where
  /-- The same call may succeed when it is repeated. -/
  transient : Bool
  message : String
  deriving Repr, DecidableEq

/-- What lies ahead in a stream. -/
inductive Event where
  /-- Bytes, of which one call gives at most `limit`. -/
  | bytes (data : Bytes) (limit : Option Nat)
  | fault (f : Fault)
  deriving Repr, DecidableEq

/-- A stream of bytes that is read once. -/
structure Source where
  events : List Event
  /-- Why calls behind the last event fail; without a reason they meet the end. -/
  defect : Option String := none
  deriving Repr, DecidableEq

/-- What one read call gives. -/
inductive Reading where
  | chunk (data : Bytes)
  | ended
  | failed (f : Fault)
  deriving Repr, DecidableEq

namespace Event

/-- The bytes that an event delivers. -/
def data : Event → Bytes
  | .bytes b _ => b
  | .fault _ => []

end Event

namespace Source

/-- The source that delivers these bytes and ends. -/
def ofBytes (b : Bytes) : Source := ⟨[.bytes b none], none⟩

/-- All bytes that are still to come. -/
def data (s : Source) : Bytes := s.events.flatMap Event.data

/-- How many bytes are still to come. -/
def length (s : Source) : Nat := s.data.length

def atEnd (s : Source) : Reading :=
  match s.defect with
  | none => .ended
  | some m => .failed ⟨false, m⟩

/-- What one call for at most `most` bytes gives, and the events behind it. A limit below one byte
counts as one byte, and bytes that are used up leave no event behind. -/
def readEvents (most : Nat) : List Event → Reading × List Event
  | [] => (.ended, [])
  | .fault f :: es => (.failed f, es)
  | .bytes [] _ :: es => readEvents most es
  | .bytes (b :: bs) limit :: es =>
    let n := match limit with
      | none => most
      | some l => min (max l 1) most
    (.chunk ((b :: bs).take n),
      if (b :: bs).length ≤ n then es else .bytes ((b :: bs).drop n) limit :: es)

/-- One call for at most `most` bytes. -/
def read (most : Nat) (s : Source) : Reading × Source :=
  match readEvents most s.events with
  | (.ended, es) => (s.atEnd, ⟨es, s.defect⟩)
  | (r, es) => (r, ⟨es, s.defect⟩)

/-- Bytes that several calls have given, where reading goes on, and the failure that ended it. -/
structure Taken where
  data : Bytes
  rest : Source
  fault : Option Fault := none

/-- Bytes from a list of events, in pieces, latest first. -/
def takeEvents (patient : Bool) (defect : Option String) :
    Nat → List Event → List Bytes → Taken
  | 0, es, got => ⟨got.reverse.flatten, ⟨es, defect⟩, none⟩
  | _, [], got =>
    ⟨got.reverse.flatten, ⟨[], defect⟩, defect.map fun m => ⟨false, m⟩⟩
  | n, .bytes b limit :: es, got =>
    if n < b.length then
      ⟨(b.take n :: got).reverse.flatten, ⟨.bytes (b.drop n) limit :: es, defect⟩, none⟩
    else takeEvents patient defect (n - b.length) es (b :: got)
  | n, .fault f :: es, got =>
    if patient && f.transient then takeEvents patient defect n es got
    else ⟨got.reverse.flatten, ⟨es, defect⟩, some f⟩

/-- Calls until there are `n` bytes. Fewer bytes without a failure mean that the stream has
ended. -/
def take (patient : Bool) (n : Nat) (s : Source) : Taken :=
  takeEvents patient s.defect n s.events []

/-- Calls until the end of the stream or a failure. -/
def drain (patient : Bool) (s : Source) : Taken :=
  s.take patient (s.length + 1)

end Source

end LayerPick
