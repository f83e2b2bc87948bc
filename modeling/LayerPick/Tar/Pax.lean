import LayerPick.Tar.Header

/-!
# PAX records

An extended member holds lines `LENGTH KEY=VALUE`, where `LENGTH` counts the whole line with its
newline. `records` reads the lines one by one up to the first empty one, with `none` for a line that
is not of this form; `encode` writes records.
-/
namespace LayerPick.Tar.Pax

structure Record where
  key : Bytes
  value : Bytes
  deriving Repr, DecidableEq

/-- The record in one line, its newline cut off. -/
def record? (line : Bytes) : Option Record :=
  let count := (line.takeWhile (· ≠ 32)).map fun b => Char.ofNat b.toNat
  match line.dropWhile (· ≠ 32) with
  | [] => none
  | _ :: rest =>
    match Numeral.read? 10 count with
    | none => none
    | some n =>
      if n ≠ line.length + 1 then none
      else match rest.dropWhile (· ≠ 61) with
        | [] => none
        | _ :: value => some ⟨rest.takeWhile (· ≠ 61), value⟩

/-- The records of an extended member, `none` for a malformed line. -/
def records (data : Bytes) : List (Option Record) :=
  ((data.splitOn 10).takeWhile (· ≠ [])).map record?

/-- The value of the first well-formed record with this key. -/
def value? (key : String) (data : Bytes) : Option Bytes :=
  ((records data).filterMap id).find? (fun r => r.key = Utf8.encode key) |>.map Record.value

/-- The first record with this key, unless a malformed line comes before it. -/
def lookup? (key : Bytes) : List (Option Record) → Option Record
  | [] => none
  | none :: _ => none
  | some r :: rs => if r.key = key then some r else lookup? key rs

/-- The number that the first record with this key holds. A malformed line before it hides it. -/
def number? (key : String) (data : Bytes) : Option Nat := do
  let r ← lookup? (Utf8.encode key) (records data)
  let s ← Utf8.decode? r.value
  Numeral.read? 10 s.toList

/-- The length of the line of a record: the number `n` with `n = rest + (digits of n)`, where `rest`
counts everything but the digits. `digits` is the least number of digits to try. -/
def lineLength (rest : Nat) : (tries digits : Nat) → Nat
  | 0, digits => rest + digits
  | tries + 1, digits =>
    if (Nat.toDigits 10 (rest + digits)).length ≤ digits then rest + digits
    else lineLength rest tries (digits + 1)

def Record.line (r : Record) : Bytes :=
  let rest := 3 + r.key.length + r.value.length
  let count := Nat.toDigits 10 (lineLength rest rest 1)
  (count.map fun c => UInt8.ofNat c.toNat) ++ 32 :: (r.key ++ 61 :: (r.value ++ [10]))

def encode (rs : List Record) : Bytes := rs.flatMap Record.line

end LayerPick.Tar.Pax
