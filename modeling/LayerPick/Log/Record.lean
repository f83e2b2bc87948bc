import LayerPick.Log.Verbosity

/-!
# Log messages

A message has a level and an origin. All messages of a run are recorded; which of them are shown is
decided at the end by the verbosity. Only the system knows where a temporary file lies, so a message
that ends in the path of one is recorded without it.
-/
namespace LayerPick.Log

/-- The part of the program that a message comes from. -/
inductive Origin where
  | program
  | progress
  | store
  | manifest
  | image
  deriving Repr, DecidableEq

/-- The name of an origin in a log line. -/
def Origin.text : Origin → String
  | program => "oci2plugin"
  | progress => "oci2plugin::notifier"
  | store => "oci2plugin::sources::store"
  | manifest => "oci2plugin::sources::manifest"
  | image => "oci2plugin::sources::local"

structure Record where
  level : Level
  origin : Origin
  message : String
  /-- The path of the temporary file ends the message. -/
  namesSpool : Bool := false
  deriving Repr, DecidableEq

/-- The text of a message, if the temporary file lies at `spool`. -/
def Record.text (spool : String) (r : Record) : String :=
  if r.namesSpool then r.message ++ spool else r.message

/-- The messages that are shown at a verbosity, in order. -/
def shown (v : Verbosity) (rs : List Record) : List Record :=
  rs.filter fun r => v.shows r.level

end LayerPick.Log
