import LayerPick.Proofs.DeviceOutput
import LayerPick.Proofs.EarlyStop
import LayerPick.Proofs.WalkRun

/-!
# Extractions that cannot be told apart

A device that takes every call keeps the bytes that were written, but the portions they came in do
not show. So two walks are in states that are alike if these differ in the portions only, and two
extractions are alike if they give, say and write the same.
-/
namespace LayerPick

open Tar

/-- Both devices take everything, and have been given the same. -/
structure Device.Alike (d d' : Device) : Prop where
  accepts : d.Accepts
  accepts' : d'.Accepts
  output : d.output = d'.output

/-- The two archives have been asked to take the same, and both keep it. -/
structure Archive.Alike (a a' : Archive) : Prop where
  device : a.device.Alike a'.device
  label : a.label = a'.label
  history : a.history.map Attempt.outline = a'.history.map Attempt.outline

/-- The two states differ at most in what is in their archives. -/
structure WalkState.Alike (s s' : WalkState) : Prop where
  archive : s.archive.Alike s'.archive
  same : s' = { s with archive := s'.archive }

structure Walked.Alike (x x' : WalkState × Option Failure) : Prop where
  state : x.1.Alike x'.1
  failure : x.2 = x'.2

/-- The two extractions cannot be told apart by what they give, say and write. -/
structure Extracted.Alike (x x' : Extracted) : Prop where
  outcome : x.outcome = x'.outcome
  opened : x.opened = x'.opened
  attempts : x.attempts.map Attempt.outline = x'.attempts.map Attempt.outline
  log : x.log = x'.log
  output : x.device.map Device.output = x'.device.map Device.output

lemma Device.Alike.write {d d' : Device} (h : d.Alike d') (b : Bytes) :
    ∃ e e', d.write b = (e, none) ∧ d'.write b = (e', none) ∧ e.Alike e' := by
  obtain ⟨e, hw, ha, ho⟩ := h.accepts.write b
  obtain ⟨e', hw', ha', ho'⟩ := h.accepts'.write b
  exact ⟨e, e', hw, hw', ha, ha', by rw [ho, ho', h.output]⟩

lemma Device.Alike.writeAll {d d' : Device} (h : d.Alike d') (calls : List Bytes) :
    ∃ e e', d.writeAll calls = (e, none) ∧ d'.writeAll calls = (e', none) ∧ e.Alike e' := by
  obtain ⟨e, hw, ha, ho⟩ := h.accepts.writeAll calls
  obtain ⟨e', hw', ha', ho'⟩ := h.accepts'.writeAll calls
  exact ⟨e, e', hw, hw', ha, ha', by rw [ho, ho', h.output]⟩

namespace WalkState.Alike

variable {s s' : WalkState}

lemma isDone (h : s.Alike s') (o : Order) : o.isDone s = o.isDone s' := by
  rw [h.same]
  rfl

lemma resolved (h : s.Alike s') : s.resolved = s'.resolved := by rw [h.same]

/-- Whatever is done to both that does not look at their archives keeps them alike. -/
lemma map (h : s.Alike s') (f : WalkState → WalkState) (hkept : ∀ s, (f s).archive = s.archive)
    (hf : ∀ a : Archive, f { s with archive := a } = { f s with archive := a }) :
    (f s).Alike (f s') := by
  refine ⟨by rw [hkept, hkept]; exact h.archive, ?_⟩
  rw [hkept, ← hf, ← h.same]

lemma say (h : s.Alike s') (level : Log.Level) (m : String) : (s.say level m).Alike (s'.say level m) :=
  h.map (·.say level m) (fun _ => rfl) fun _ => rfl

lemma countLayer (h : s.Alike s') : s.countLayer.Alike s'.countLayer :=
  h.map (·.countLayer) (fun _ => rfl) fun _ => rfl

lemma entering (h : s.Alike s') (i : ℕ) {l l' : Layer} (hl : l.description = l'.description) :
    (s.entering i l).Alike (s'.entering i l') := by
  rw [show s'.entering i l' = s'.entering i l by simp only [WalkState.entering, hl]]
  exact h.map (·.entering i l) (fun _ => rfl) fun _ => rfl

lemma leaving (h : s.Alike s') (total : ℕ) : (s.leaving total).Alike (s'.leaving total) :=
  h.map (·.leaving total) (fun _ => rfl) fun _ => rfl

end WalkState.Alike

lemma conclude_alike (files : List FileSpec) {layers layers' : List Layer}
    (hlen : layers.length = layers'.length) (label : String) {s s' : WalkState} (hs : s.Alike s')
    (failure : Option Failure) :
    (conclude files layers label s failure).Alike (conclude files layers' label s' failure) := by
  obtain ⟨ha, hs⟩ := hs
  generalize s'.archive = a at ha hs
  subst hs
  obtain ⟨e, e', hw, hw', he⟩ := ha.device.write trailer
  have hcount : s.archive.entries = a.entries := countP_isWritten ha.history
  have hattempts : s.archive.attempts.map Attempt.outline = a.attempts.map Attempt.outline := by
    rw [Archive.attempts, Archive.attempts, List.map_reverse, List.map_reverse, ha.history]
  cases failure with
  | some f =>
    simp only [conclude, Archive.finish, hw, hw']
    exact ⟨rfl, rfl, hattempts, rfl, congrArg some he.output⟩
  | none =>
    simp only [conclude, Archive.finish, hw, hw', WalkState.say, hcount, hlen]
    exact ⟨rfl, rfl, hattempts, rfl, congrArg some he.output⟩

end LayerPick
