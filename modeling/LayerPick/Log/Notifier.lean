import LayerPick.Log.Line

/-!
# Notifiers

Messages of progress go through a notifier, and all others to the log at once. A quiet notifier hands
on warnings only: it draws the progress instead, unless it is hidden, and what is drawn is no line.
-/
namespace LayerPick.Log

structure Notifier where
  verbosity : Verbosity
  hidden : Bool := false
  deriving Repr, DecidableEq

inductive Call where
  | say (level : Level) (message : String)
  | progress (current total : Nat) (message : String)
  | finish
  | bars
  | verbosity
  /-- Asks for a bar over `length` layers and moves it on. -/
  | layerProgress (length moved : Nat)
  deriving Repr, DecidableEq

inductive Answer where
  | nothing
  | bars (drawn : Bool)
  | verbosity (v : Verbosity)
  | bar (position length : Nat)
  deriving Repr, DecidableEq

def Call.message? : Call → Option Record
  | .say level message => some { level, origin := .progress, message }
  | .progress current total m =>
    some { level := .info, origin := .progress
           message := m ++ ": " ++ toString current ++ "/" ++ toString total }
  | _ => none

namespace Notifier

def ofCount (n : Nat) : Notifier := ⟨.ofCount n, false⟩

def silent : Notifier := ⟨.quiet, true⟩

def draws (n : Notifier) : Bool := n.verbosity == .quiet && !n.hidden

def answer (n : Notifier) : Call → Answer
  | .bars => .bars n.draws
  | .verbosity => .verbosity n.verbosity
  | .layerProgress length moved => if n.draws then .bar moved length else .nothing
  | _ => .nothing

def handsOn (n : Notifier) (r : Record) : Bool :=
  r.origin != .progress || n.verbosity != .quiet || r.level == .warn

/-- The lines that are written for the messages of a run. -/
def print (n : Notifier) (spool : String) (log : List Record) : List Line :=
  (shown n.verbosity (log.filter n.handsOn)).flatMap (Record.lines spool)

/-- The answers to calls, and the lines that they write. -/
def run (n : Notifier) (spool : String) (calls : List Call) : List Answer × List Line :=
  (calls.map n.answer, n.print spool (calls.filterMap Call.message?))

end Notifier

end LayerPick.Log
