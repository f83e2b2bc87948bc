import LayerPick.Text.Printable

/-!
# Quoted text in trace lines

A text between double quotes, as it is shown in log lines: the quote, the backslash and the usual
control characters are escaped by a backslash, other characters that cannot be shown by their code
point.
-/
namespace LayerPick.Quoted

/-- One character between double quotes. -/
def char (c : Char) : List Char :=
  if c = '"' then ['\\', '"']
  else if c = '\\' then ['\\', '\\']
  else if c = '\n' then ['\\', 'n']
  else if c = '\r' then ['\\', 'r']
  else if c = '\t' then ['\\', 't']
  else if c.toNat = 0 then ['\\', '0']
  else if !Printable.isPrintable c then
    ['\\', 'u', '\x7b'] ++ Nat.toDigits 16 c.toNat ++ ['\x7d']
  else [c]

def text (s : String) : String :=
  String.ofList ('"' :: s.toList.flatMap char ++ ['"'])

def list (xs : List String) : String :=
  "[" ++ ", ".intercalate (xs.map text) ++ "]"

def option (x : Option String) : String :=
  match x with
  | none => "None"
  | some s => "Some(" ++ text s ++ ")"

end LayerPick.Quoted
