import LayerPick.Failure
import LayerPick.Log.Record

/-!
# Operations that keep a log

An operation gives a result or a failure, and in both cases the messages it has recorded.
-/
namespace LayerPick

/-- The outcome of an operation and what it has recorded. -/
structure Traced (α : Type) where
  outcome : Except Failure α
  log : List Log.Record

namespace Traced

/-- Goes on with the result, if there is one. -/
protected def bind {α β : Type} (t : Traced α) (f : α → Traced β) : Traced β :=
  match t.outcome with
  | .error e => ⟨.error e, t.log⟩
  | .ok a => ⟨(f a).outcome, t.log ++ (f a).log⟩

instance : Monad Traced where
  pure a := ⟨.ok a, []⟩
  bind := Traced.bind

/-- An outcome without messages. -/
def ofExcept {α : Type} (x : Except Failure α) : Traced α := ⟨x, []⟩

def fail {α : Type} (c : Cause) : Traced α := ⟨.error (.of c), []⟩

def say (level : Log.Level) (origin : Log.Origin) (message : String) : Traced Unit :=
  ⟨.ok (), [{ level, origin, message }]⟩

def during {α : Type} (s : Stage) (t : Traced α) : Traced α :=
  ⟨t.outcome.mapError (Failure.within s), t.log⟩

end Traced

end LayerPick
