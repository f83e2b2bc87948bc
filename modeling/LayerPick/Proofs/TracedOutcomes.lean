import LayerPick.Image.Selection
import Mathlib.Tactic.Lemma

/-!
# Outcomes of operations that keep a log

What an operation comes to does not depend on what it records: the outcome of a sequence is made of
the outcomes of its parts.
-/
namespace LayerPick

namespace Traced

variable {α β : Type}

@[simp] lemma outcome_pure (a : α) : (pure a : Traced α).outcome = .ok a := rfl

@[simp] lemma outcome_ofExcept (x : Except Failure α) : (ofExcept x).outcome = x := rfl

@[simp] lemma outcome_say (l : Log.Level) (o : Log.Origin) (m : String) :
    (say l o m).outcome = .ok () := rfl

@[simp] lemma outcome_fail (c : Cause) : (fail c : Traced α).outcome = .error (.of c) := rfl

@[simp] lemma outcome_during (s : Stage) (t : Traced α) :
    (t.during s).outcome = t.outcome.mapError (Failure.within s) := rfl

@[simp] lemma outcome_bind (t : Traced α) (f : α → Traced β) :
    (t >>= f).outcome = t.outcome >>= fun a => (f a).outcome := by
  simp only [Bind.bind, Traced.bind, Except.bind]
  cases t.outcome <;> rfl

lemma bind_assoc {γ : Type} (t : Traced α) (f : α → Traced β) (g : β → Traced γ) :
    t >>= f >>= g = t >>= fun a => f a >>= g := by
  simp only [Bind.bind, Traced.bind]
  rcases t.outcome with e | a
  · rfl
  · simp only
    cases (f a).outcome <;> simp only [List.append_assoc]

lemma bind_congr {t : Traced α} {f f' : α → Traced β}
    (h : ∀ a, t.outcome = .ok a → f' a = f a) : t >>= f' = t >>= f := by
  simp only [Bind.bind, Traced.bind]
  cases ha : t.outcome with
  | error e => rfl
  | ok a => simp only [h a ha]

end Traced

end LayerPick
