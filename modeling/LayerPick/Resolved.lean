import LayerPick.Plugin

/-!
# Resolved paths

The paths that a layer has claimed, and what they say about the files that were asked for. A path is
claimed at most once.
-/
namespace LayerPick

/-- The paths that have been claimed, latest first. -/
structure Resolved where
  paths : List String
  nodup : paths.Nodup
  deriving DecidableEq

namespace Resolved

def empty : Resolved := ⟨[], .nil⟩

def contains (r : Resolved) (p : String) : Bool := decide (p ∈ r.paths)

def insert (r : Resolved) (p : String) : Resolved :=
  if h : p ∈ r.paths then r else ⟨p :: r.paths, List.nodup_cons.2 ⟨h, r.nodup⟩⟩

def size (r : Resolved) : Nat := r.paths.length

/-- The paths in a list, claimed one after the other. -/
def ofList (ps : List String) : Resolved := ps.foldl insert empty

@[simp] theorem mem_insert {r : Resolved} {p q : String} :
    q ∈ (r.insert p).paths ↔ q = p ∨ q ∈ r.paths := by
  unfold insert
  split
  · constructor
    · exact .inr
    · rintro (rfl | h) <;> assumption
  · simp

/-- The files that were found, in the order they were asked for. -/
def found (r : Resolved) (files : List FileSpec) : List FileSpec :=
  files.filter fun f => r.contains f.target

end Resolved

/-- The files that are not among those found. -/
def missingFiles (files found : List FileSpec) : List FileSpec :=
  files.filter fun f => !decide (f ∈ found)

end LayerPick
