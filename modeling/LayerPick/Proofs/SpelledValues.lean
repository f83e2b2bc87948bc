import LayerPick.Proofs.EscapedText

/-!
# Values and their texts

A text spells a value if it is cut into tokens wherever it may stand between tokens, and if these
tokens build the value wherever a value may stand. Quoted text is such a text, and so are arrays and
objects that are put together from such texts. So whatever is written by going along a value is read
back as that value.
-/
namespace LayerPick.Json

namespace Token

open Text

/-- Between two tokens the bytes are cut into these. -/
def Cuts (b : Bytes) (ts : List Token) : Prop :=
  ∀ us, Scan.run? ⟨us, .between⟩ b = some ⟨ts.reverse ++ us, .between⟩

lemma cuts_nil : Cuts [] [] := fun _ => rfl

lemma Cuts.append {b b' : Bytes} {ts ts' : List Token} (h : Cuts b ts) (h' : Cuts b' ts') :
    Cuts (b ++ b') (ts ++ ts') := by
  intro us
  rw [Scan.run?_append, h us, Option.bind_some, h', List.reverse_append, List.append_assoc]

lemma cuts_quoted (s : String) : Cuts (Utf8.encode (quoted s)) [.string (spelling s)] := by
  intro us
  have hbytes : Utf8.encode (quoted s) = 34 :: (spelling s ++ [34]) := by
    rw [quoted, ← List.singleton_append, Utf8.encode_ofList_append, Utf8.encode_ofList_append]
    rfl
  have hopen : Scan.step? ⟨us, .between⟩ 34 = some ⟨us, .string []⟩ := rfl
  have hclose : Scan.step? ⟨us, .string (spelling s).reverse⟩ 34 =
      some ⟨.string (spelling s) :: us, .between⟩ := by
    simp [Scan.step?]
  rw [hbytes, Scan.run?, hopen]
  simp only
  rw [Scan.run?_append, isInside_spelling s us [], Option.bind_some, List.append_nil, Scan.run?,
    hclose]
  rfl

lemma Cuts.scan? {b : Bytes} {ts : List Token} (h : Cuts b ts) : scan? b = some ts := by
  have hrun : Scan.run? {} b = some ⟨ts.reverse, .between⟩ := by simpa using h []
  simp [Token.scan?, hrun, Scan.endWord?]

end Token

namespace Building

lemma run?_trans {s s' s'' : Building} {ts us : List Token} (h : s.run? ts = some s')
    (h' : s'.run? us = some s'') : s.run? (ts ++ us) = some s'' := by
  rw [run?_append, h, Option.bind_some, h']

/-- Where a value may stand, these tokens build this one. -/
def Builds (ts : List Token) (v : Value) : Prop :=
  ∀ stack, run? ⟨stack, .value⟩ ts = some ⟨stack, .after v⟩

/-- The first token of a value does not end the array that it is the first item of. -/
lemma Builds.run?_first {ts : List Token} {v : Value} (h : Builds ts v) (stack : List Frame)
    (us : List Token) : run? ⟨stack, .firstItem⟩ (ts ++ us) = run? ⟨stack, .value⟩ (ts ++ us) := by
  cases ts with
  | nil => simpa [run?] using h []
  | cons t ts =>
    have hopens : t ≠ .closeArray := by
      rintro rfl
      simpa [run?, step?, open?] using h []
    have hstep : step? ⟨stack, .firstItem⟩ t = step? ⟨stack, .value⟩ t := by
      cases t <;> first | rfl | exact absurd rfl hopens
    simp only [List.cons_append, run?, hstep]

end Building

open Building

structure Spelled where
  text : String
  value : Value
  spells : ∃ ts, Token.Cuts (Utf8.encode text) ts ∧ Builds ts value

namespace Spelled

open Text (quoted spelling)
open Json.Token (Cuts)

/-- A text that is written is read as its value. -/
theorem parse?_text (x : Spelled) : parse? (Utf8.encode x.text) = some x.value := by
  obtain ⟨ts, hcuts, hbuilds⟩ := x.spells
  simp [parse?, hcuts.scan?, Value.ofTokens?_some, hbuilds []]

def string (s : String) : Spelled where
  text := quoted s
  value := .string (spelling s)
  spells := ⟨_, Token.cuts_quoted s, fun _ => rfl⟩

lemma cuts_comma : Cuts (Utf8.encode ",") [.comma] := fun _ => rfl

lemma cuts_items (x : Spelled) (xs : List Spelled) :
    ∃ ts, Cuts (Utf8.encode (",".intercalate ((x :: xs).map text))) ts ∧
      (∀ stack items, run? ⟨.array items :: stack, .value⟩ (ts ++ [.closeArray]) =
        some ⟨stack, .after (.array (items.reverse ++ (x :: xs).map value))⟩) ∧
      ∀ stack us, run? ⟨stack, .firstItem⟩ (ts ++ us) = run? ⟨stack, .value⟩ (ts ++ us) := by
  obtain ⟨ts, hcuts, hbuilds⟩ := x.spells
  induction xs generalizing x ts with
  | nil =>
    refine ⟨ts, by simpa using hcuts, fun stack items => ?_, hbuilds.run?_first⟩
    have hend : run? ⟨.array items :: stack, .after x.value⟩ [.closeArray] =
        some ⟨stack, .after (.array (x.value :: items).reverse)⟩ := rfl
    simpa using run?_trans (hbuilds _) hend
  | cons y ys ih =>
    obtain ⟨us, hcuts', hbuilds'⟩ := y.spells
    obtain ⟨us, hcuts', hrest, -⟩ := ih y us hcuts' hbuilds'
    refine ⟨ts ++ (.comma :: us), ?_, fun stack items => ?_, fun stack vs => ?_⟩
    · rw [List.map_cons, List.map_cons, String.intercalate_cons_cons, Utf8.encode_append,
        Utf8.encode_append, List.append_assoc]
      exact hcuts.append (cuts_comma.append hcuts')
    · have hnext : run? ⟨.array items :: stack, .after x.value⟩ [.comma] =
          some ⟨.array (x.value :: items) :: stack, .value⟩ := rfl
      simpa using run?_trans (hbuilds _) (run?_trans hnext (hrest stack (x.value :: items)))
    · rw [List.append_assoc]
      exact hbuilds.run?_first stack _

def array (xs : List Spelled) : Spelled where
  text := "[" ++ ",".intercalate (xs.map text) ++ "]"
  value := .array (xs.map value)
  spells := by
    have hopen : Cuts (Utf8.encode "[") [.openArray] := fun _ => rfl
    have hclose : Cuts (Utf8.encode "]") [.closeArray] := fun _ => rfl
    rw [Utf8.encode_append, Utf8.encode_append, List.append_assoc]
    cases xs with
    | nil => exact ⟨_, hopen.append (Token.cuts_nil.append hclose), fun _ => rfl⟩
    | cons x xs =>
      obtain ⟨ts, hcuts, hitems, hfirst⟩ := cuts_items x xs
      refine ⟨_, hopen.append (hcuts.append hclose), fun stack => ?_⟩
      have hstart : run? ⟨stack, .value⟩ [.openArray] = some ⟨.array [] :: stack, .firstItem⟩ := rfl
      exact run?_trans hstart ((hfirst _ _).trans (hitems stack []))

def memberText (m : String × Spelled) : String := quoted m.1 ++ ":" ++ m.2.text

def memberValue (m : String × Spelled) : Bytes × Value := (spelling m.1, m.2.value)

lemma cuts_member (m : String × Spelled) :
    ∃ ts, Cuts (Utf8.encode (memberText m)) (.string (spelling m.1) :: ts) ∧
      ∀ stack members, run? ⟨stack, .colon members (spelling m.1)⟩ ts =
        some ⟨.object members (spelling m.1) :: stack, .after m.2.value⟩ := by
  obtain ⟨ts, hcuts, hbuilds⟩ := m.2.spells
  have hcolon : Cuts (Utf8.encode ":") [.colon] := fun _ => rfl
  refine ⟨.colon :: ts, ?_, fun stack members => ?_⟩
  · rw [memberText, Utf8.encode_append, Utf8.encode_append, List.append_assoc]
    exact (Token.cuts_quoted m.1).append (hcolon.append hcuts)
  · have hnext : run? ⟨stack, .colon members (spelling m.1)⟩ [.colon] =
        some ⟨.object members (spelling m.1) :: stack, .value⟩ := rfl
    exact run?_trans hnext (hbuilds _)

lemma cuts_members (m : String × Spelled) (ms : List (String × Spelled)) :
    ∃ ts, Cuts (Utf8.encode (",".intercalate ((m :: ms).map memberText)))
        (.string (spelling m.1) :: ts) ∧
      ∀ stack members, run? ⟨stack, .colon members (spelling m.1)⟩ (ts ++ [.closeObject]) =
        some ⟨stack, .after (.object (members.reverse ++ (m :: ms).map memberValue))⟩ := by
  obtain ⟨ts, hcuts, hmember⟩ := cuts_member m
  induction ms generalizing m ts with
  | nil =>
    refine ⟨ts, by simpa using hcuts, fun stack members => ?_⟩
    have hend : run? ⟨.object members (spelling m.1) :: stack, .after m.2.value⟩ [.closeObject] =
        some ⟨stack, .after (.object (memberValue m :: members).reverse)⟩ := rfl
    simpa using run?_trans (hmember stack members) hend
  | cons n ns ih =>
    obtain ⟨us, hcuts', hmember'⟩ := cuts_member n
    obtain ⟨us, hcuts', hrest⟩ := ih n us hcuts' hmember'
    refine ⟨ts ++ (.comma :: .string (spelling n.1) :: us), ?_, fun stack members => ?_⟩
    · rw [List.map_cons, List.map_cons, String.intercalate_cons_cons, Utf8.encode_append,
        Utf8.encode_append, List.append_assoc]
      exact hcuts.append (cuts_comma.append hcuts')
    · have hnext : run? ⟨.object members (spelling m.1) :: stack, .after m.2.value⟩
          [.comma, .string (spelling n.1)] =
          some ⟨stack, .colon (memberValue m :: members) (spelling n.1)⟩ := rfl
      simpa using run?_trans (hmember stack members)
        (run?_trans hnext (hrest stack (memberValue m :: members)))

def object (ms : List (String × Spelled)) : Spelled where
  text := "\x7b" ++ ",".intercalate (ms.map memberText) ++ "\x7d"
  value := .object (ms.map memberValue)
  spells := by
    have hopen : Cuts (Utf8.encode "\x7b") [.openObject] := fun _ => rfl
    have hclose : Cuts (Utf8.encode "\x7d") [.closeObject] := fun _ => rfl
    rw [Utf8.encode_append, Utf8.encode_append, List.append_assoc]
    cases ms with
    | nil => exact ⟨_, hopen.append (Token.cuts_nil.append hclose), fun _ => rfl⟩
    | cons m ms =>
      obtain ⟨ts, hcuts, hmembers⟩ := cuts_members m ms
      refine ⟨_, hopen.append (hcuts.append hclose), fun stack => ?_⟩
      have hstart : run? ⟨stack, .value⟩ [.openObject, .string (spelling m.1)] =
          some ⟨stack, .colon [] (spelling m.1)⟩ := rfl
      simpa using run?_trans hstart (hmembers stack [])

@[simp] lemma text_string (s : String) : (string s).text = quoted s := rfl

@[simp] lemma text_array (xs : List Spelled) :
    (array xs).text = "[" ++ ",".intercalate (xs.map text) ++ "]" := rfl

@[simp] lemma text_object (ms : List (String × Spelled)) :
    (object ms).text = "\x7b" ++ ",".intercalate (ms.map memberText) ++ "\x7d" := rfl

end Spelled

end LayerPick.Json
