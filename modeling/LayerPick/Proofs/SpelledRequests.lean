import LayerPick.Proofs.Verbosities

/-!
# Two spellings of a request

A plugin manifest and flags can ask for the same. What a run does depends on what is asked for, and
not on how it is spelled.
-/
namespace LayerPick.Cli

open Tar

section SameRun

variable {t : FileTree} {args args' : List String}

end SameRun

/-- These arguments name a manifest, files and a platform, and nothing else, where nothing has been
named before. -/
def Names (named : List String) (manifest : Option String) (files : List String)
    (platform : Option String) : Prop :=
  ∀ r : Reading, r.IsReady → r.IsBare →
    named.foldlM Reading.step r = .ok (r.asking manifest files platform)

section Names

variable {named named' before after : List String} {manifest manifest' : Option String}
  {files files' : List String} {platform platform' : Option String}

lemma Names.withPlatform (h : Names named manifest files none) {q : String}
    (hq : Spells .platform q named') : Names (named ++ named') manifest files (some q) := by
  intro r hready hbare
  have hready' : (r.asking manifest files none).IsReady := ⟨hready.1, hready.2⟩
  rw [List.foldlM_append, h r hready hbare, ok_bind, hq.foldlM_step hready']
  simp [Reading.setOption, Reading.fillOnce, Reading.asking, hready.1]

end Names

section Spellings

variable {t : FileTree} {path : String} {p : Plugin}

end Spellings

end LayerPick.Cli
