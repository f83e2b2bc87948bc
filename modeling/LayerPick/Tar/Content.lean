import LayerPick.Stream.Source
import LayerPick.Tar.Field

/-!
# The content of an entry

What an entry holds is delivered in pieces: bytes stored in the archive, zeros that a sparse file
leaves out, or all that is left of a stream. A stored piece ends early where the archive ends; the
pieces behind it are delivered all the same.
-/
namespace LayerPick.Tar

inductive Piece where
  /-- Zeros that are not stored. -/
  | gap (n : Nat)
  /-- Bytes of the archive. -/
  | stored (n : Nat)
  | rest
  deriving Repr, DecidableEq

/-- The pieces still to come, and the stream that stored ones are read from. -/
structure Content where
  pieces : List Piece
  source : Source
  /-- How many bytes have been taken from the stream. -/
  position : Nat := 0
  deriving Repr, DecidableEq

namespace Content

def ofSource (s : Source) : Content := ⟨[.rest], s, 0⟩

def readPieces (most : Nat) (s : Source) (position : Nat) : List Piece → Reading × Content
  | [] => (.ended, ⟨[], s, position⟩)
  | .gap n :: ps =>
    if n = 0 then readPieces most s position ps
    else
      let k := min n most
      (.chunk (zeros k), ⟨.gap (n - k) :: ps, s, position⟩)
  | .stored n :: ps =>
    if n = 0 then readPieces most s position ps
    else match s.read (min n most) with
      | (.chunk b, s') => (.chunk b, ⟨.stored (n - b.length) :: ps, s', position + b.length⟩)
      | (.ended, s') => readPieces most s' position ps
      | (.failed f, s') => (.failed f, ⟨.stored n :: ps, s', position⟩)
  | .rest :: ps =>
    match s.read most with
    | (.chunk b, s') => (.chunk b, ⟨.rest :: ps, s', position + b.length⟩)
    | (.ended, s') => readPieces most s' position ps
    | (.failed f, s') => (.failed f, ⟨.rest :: ps, s', position⟩)

/-- One read call for at most `most` bytes. -/
def read (most : Nat) (c : Content) : Reading × Content :=
  readPieces most c.source c.position c.pieces

/-- How many bytes a piece announces at most. -/
def pieceExtent (s : Source) : Piece → Nat
  | .gap n => n
  | .stored n => min n s.length
  | .rest => s.length

/-- How many bytes the pieces announce at most. -/
def extent (c : Content) : Nat := c.pieces.foldr (fun p n => pieceExtent c.source p + n) 0

/-- More read calls than the content can answer otherwise than by its end or its defect. -/
def calls (c : Content) : Nat := c.extent + c.source.events.length + 1

/-- Reads the stored pieces to their end, waiting out transient failures. -/
def drainPieces (s : Source) (position : Nat) :
    List Piece → List Bytes → (Bytes × Content) × Option Fault
  | [], got => ((got.reverse.flatten, ⟨[], s, position⟩), none)
  | .gap n :: ps, got => drainPieces s position ps (zeros n :: got)
  | .stored n :: ps, got =>
    let t := s.take true n
    match t.fault with
    | none => drainPieces t.rest (position + t.data.length) ps (t.data :: got)
    | some f => ((got.reverse.flatten, ⟨.stored n :: ps, t.rest, position⟩), some f)
  | .rest :: ps, got =>
    let t := s.drain true
    match t.fault with
    | none => drainPieces t.rest (position + t.data.length) ps (t.data :: got)
    | some f => ((got.reverse.flatten, ⟨.rest :: ps, t.rest, position⟩), some f)

/-- Reads everything, waiting out transient failures. -/
def drain (c : Content) : Except Fault (Bytes × Content) :=
  match drainPieces c.source c.position c.pieces [] with
  | (r, none) => .ok r
  | (_, some f) => .error f

end Content

end LayerPick.Tar
