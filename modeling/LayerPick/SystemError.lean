/-!
# Errors of the operating system

The ways in which a path fails to open, and how each is reported.
-/
namespace LayerPick

/-- Why the operating system refuses an operation. -/
inductive SystemError where
  | notFound
  | notFolder
  | isFolder
  | invalidPosition
  | deviceFull
  | nameTooLong
  | linkLoop
  | nulInPath
  deriving Repr, DecidableEq

namespace SystemError

def message : SystemError → String
  | notFound => "No such file or directory (os error 2)"
  | notFolder => "Not a directory (os error 20)"
  | isFolder => "Is a directory (os error 21)"
  | invalidPosition => "Invalid argument (os error 22)"
  | deviceFull => "No space left on device (os error 28)"
  | nameTooLong => "File name too long (os error 36)"
  | linkLoop => "Too many levels of symbolic links (os error 40)"
  | nulInPath => "file name contained an unexpected NUL byte"

end SystemError

end LayerPick
