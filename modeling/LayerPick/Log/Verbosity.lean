/-!
# Verbosity

How much a run reports. The count of `-v` flags decides the verbosity, and the verbosity the least
level of the messages that are shown. Quiet runs show warnings only, below live progress displays.
-/
namespace LayerPick.Log

/-- The level of a message, the most urgent first. -/
inductive Level where
  | warn
  | info
  | debug
  | trace
  deriving Repr, DecidableEq

namespace Level

def text : Level → String
  | warn => "WARN"
  | info => "INFO"
  | debug => "DEBUG"
  | trace => "TRACE"

/-- The place of a level among all; the most urgent has the first. -/
def rank : Level → Nat
  | warn => 0
  | info => 1
  | debug => 2
  | trace => 3

end Level

/-- How much a run reports. -/
inductive Verbosity where
  | quiet
  | info
  | debug
  | trace
  deriving Repr, DecidableEq

namespace Verbosity

/-- The verbosity that a count of flags asks for. -/
def ofCount : Nat → Verbosity
  | 0 => quiet
  | 1 => info
  | 2 => debug
  | _ => trace

def number : Verbosity → Nat
  | quiet => 0
  | info => 1
  | debug => 2
  | trace => 3

def text : Verbosity → String
  | quiet => "Quiet"
  | info => "Info"
  | debug => "Debug"
  | trace => "Trace"

def limit : Verbosity → Level
  | quiet => .warn
  | info => .info
  | debug => .debug
  | trace => .trace

def shows (v : Verbosity) (l : Level) : Bool := decide (l.rank ≤ v.limit.rank)

end Verbosity

end LayerPick.Log
