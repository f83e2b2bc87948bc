/-!
# UTF-8

Bytes and text. `encode` writes text as UTF-8; `decode?` reads it back and refuses anything that is
not UTF-8; `decodeLossy` reads whatever it is given and puts one U+FFFD for every maximal run of
bytes that begins a character but cannot go on. Both readers run one machine, a byte at a time.
-/
namespace LayerPick

abbrev Bytes := List UInt8

namespace Utf8

/-- The bytes of a text. -/
def encode (s : String) : Bytes :=
  s.toList.flatMap String.utf8EncodeChar

/-- A character whose first bytes have been read. -/
structure Pending where
  /-- Continuation bytes still to come, the next one included. -/
  owed : Nat
  code : Nat
  /-- Least value the next byte may have. -/
  low : UInt8
  /-- Greatest value the next byte may have. -/
  high : UInt8
  deriving Repr, DecidableEq

/-- What one byte leads to: a finished unit (`none` stands for malformed bytes), or a longer one. -/
inductive Progress where
  | unit (c : Option Char)
  | pending (p : Pending)
  deriving Repr, DecidableEq

def start (b : UInt8) : Progress :=
  if b < 0x80 then .unit (some (Char.ofNat b.toNat))
  else if b < 0xC2 then .unit none
  else if b < 0xE0 then .pending ⟨1, b.toNat - 0xC0, 0x80, 0xBF⟩
  else if b < 0xF0 then
    .pending ⟨2, b.toNat - 0xE0, if b = 0xE0 then 0xA0 else 0x80, if b = 0xED then 0x9F else 0xBF⟩
  else if b < 0xF5 then
    .pending ⟨3, b.toNat - 0xF0, if b = 0xF0 then 0x90 else 0x80, if b = 0xF4 then 0x8F else 0xBF⟩
  else .unit none

/-- A byte after the first, `none` if it cannot continue the character. -/
def Pending.next? (p : Pending) (b : UInt8) : Option Progress :=
  if p.low ≤ b ∧ b ≤ p.high then
    let code := p.code * 64 + (b.toNat - 0x80)
    if p.owed ≤ 1 then some (.unit (some (Char.ofNat code)))
    else some (.pending ⟨p.owed - 1, code, 0x80, 0xBF⟩)
  else none

/-- Units in reverse order, and the character that is under way. -/
structure State where
  units : List (Option Char)
  pending : Option Pending

def State.after (s : State) : Progress → State
  | .unit c => ⟨c :: s.units, none⟩
  | .pending p => ⟨s.units, some p⟩

/-- Reads one byte. One that cannot continue a character ends it as malformed and starts anew. -/
def State.step (s : State) (b : UInt8) : State :=
  match s.pending with
  | none => s.after (start b)
  | some p =>
    match p.next? b with
    | some progress => s.after progress
    | none => State.after ⟨none :: s.units, none⟩ (start b)

/-- The units of a byte run in order: characters, and `none` for malformed bytes. -/
def units (bs : Bytes) : List (Option Char) :=
  let s := bs.foldl State.step ⟨[], none⟩
  match s.pending with
  | none => s.units.reverse
  | some _ => (none :: s.units).reverse

/-- The text that the bytes encode, if they are UTF-8. -/
def decode? (bs : Bytes) : Option String :=
  let us := units bs
  if us.all Option.isSome then some (String.ofList (us.filterMap id)) else none

/-- The text that the bytes encode, with U+FFFD in place of malformed bytes. -/
def decodeLossy (bs : Bytes) : String :=
  String.ofList ((units bs).map (·.getD '\uFFFD'))

end Utf8

end LayerPick
