import LayerPick.Image.Selection
import LayerPick.Proofs.MemberReading
import LayerPick.Proofs.TextEncoding

/-!
# Documents that break off

A document of an image is an object or an array, which says itself where it ends. So if the
beginning of a document can be read as one, nothing but blanks has been cut off: both spell the same
value.
-/
namespace LayerPick

namespace Utf8

/-- A text from the beginning of the bytes is the beginning of the text. -/
lemma encode_prefix {b b' : Bytes} {s s' : String} (hb : b' <+: b) (h' : decode? b' = some s')
    (h : decode? b = some s) : encode s' <+: encode s := by
  rwa [encode_of_decode? h, encode_of_decode? h']

end Utf8

namespace Json

namespace Token

lemma Scan.run?_append (s : Scan) (b t : Bytes) :
    s.run? (b ++ t) = (s.run? b).bind fun s' => s'.run? t := by
  induction b generalizing s with
  | nil => rfl
  | cons x b ih =>
    simp only [List.cons_append, Scan.run?]
    cases s.step? x with
    | none => rfl
    | some s' => exact ih s'

lemma Scan.endWord?_tokens {s s' : Scan} (h : s.endWord? = some s') : s.tokens <:+ s'.tokens := by
  rw [Scan.endWord?] at h
  split at h
  · obtain ⟨t, -, rfl⟩ := Option.map_eq_some_iff.mp h
    exact List.suffix_cons ..
  · obtain rfl := Option.some.inj h
    exact List.suffix_rfl

lemma Scan.start_tokens (s : Scan) (b : UInt8) : s.tokens <:+ (s.start b).tokens := by
  rw [Scan.start]
  split_ifs
  · exact List.suffix_rfl
  · exact List.suffix_rfl
  · cases ofPunctuation? b with
    | some t => exact List.suffix_cons ..
    | none => exact List.suffix_rfl

lemma Scan.step?_tokens {s s' : Scan} {b : UInt8} (h : s.step? b = some s') :
    s.tokens <:+ s'.tokens := by
  rw [Scan.step?] at h
  split at h
  · obtain rfl := Option.some.inj h
    exact s.start_tokens b
  · split_ifs at h
    · obtain ⟨s₁, h₁, rfl⟩ := Option.map_eq_some_iff.mp h
      exact (endWord?_tokens h₁).trans (s₁.start_tokens b)
    · obtain rfl := Option.some.inj h
      exact List.suffix_rfl
  · split_ifs at h
    · obtain rfl := Option.some.inj h
      exact List.suffix_cons ..
    · obtain rfl := Option.some.inj h
      exact List.suffix_rfl
    · obtain rfl := Option.some.inj h
      exact List.suffix_rfl
  · split_ifs at h
    · obtain rfl := Option.some.inj h
      exact List.suffix_rfl
    · obtain rfl := Option.some.inj h
      exact List.suffix_rfl
  · split_ifs at h <;> obtain rfl := Option.some.inj h <;> exact List.suffix_rfl

lemma Scan.run?_tokens {s s' : Scan} {b : Bytes} (h : s.run? b = some s') :
    s.tokens <:+ s'.tokens := by
  induction b generalizing s with
  | nil =>
    obtain rfl := Option.some.inj h
    exact List.suffix_rfl
  | cons x b ih =>
    rw [Scan.run?] at h
    cases hx : s.step? x with
    | none => simp [hx] at h
    | some s₁ =>
      rw [hx] at h
      exact (step?_tokens hx).trans (ih h)

/-- Does the token end an array or an object? -/
def isClosing : Token → Bool
  | .closeObject => true
  | .closeArray => true
  | _ => false

lemma ofWord?_isClosing {w : Bytes} {t : Token} (h : ofWord? w = some t) : t.isClosing = false := by
  rw [ofWord?] at h
  split_ifs at h <;> obtain rfl := Option.some.inj h <;> rfl

/-- Tokens that end with an array or an object are the first of those of a longer text. -/
lemma scan?_prefix {b b' : Bytes} {ts ts' us : List Token} {t : Token} (hb : b' <+: b)
    (h' : scan? b' = some ts') (hts : ts' = us ++ [t]) (ht : t.isClosing = true)
    (h : scan? b = some ts) : ts' <+: ts := by
  obtain ⟨c, rfl⟩ := hb
  simp only [scan?, Option.bind_eq_bind, Option.bind_eq_some_iff] at h h'
  obtain ⟨s', hs', e', he', h'⟩ := h'
  obtain ⟨s, hs, e, he, h⟩ := h
  split_ifs at h with hm
  split_ifs at h' with hm'
  obtain rfl := Option.some.inj h
  obtain rfl := Option.some.inj h'
  rw [Scan.run?_append, hs', Option.bind_some] at hs
  have hsame : e' = s' := by
    rw [Scan.endWord?] at he'
    split at he'
    · -- A word would be the last token.
      obtain ⟨w, hw, rfl⟩ := Option.map_eq_some_iff.mp he'
      have hlast : (us ++ [t]).getLast? = some w := by
        rw [← hts]
        simp
      rw [List.getLast?_concat, Option.some.injEq] at hlast
      rw [hlast, ofWord?_isClosing hw] at ht
      simp at ht
    · exact (Option.some.inj he').symm
  subst hsame
  exact List.reverse_prefix.mpr ((Scan.run?_tokens hs).trans (Scan.endWord?_tokens he))

end Token

def Value.isContainer : Value → Bool
  | .array _ => true
  | .object _ => true
  | _ => false

namespace Building

lemma run?_append (s : Building) (ts us : List Token) :
    s.run? (ts ++ us) = (s.run? ts).bind fun s' => s'.run? us := by
  induction ts generalizing s with
  | nil => rfl
  | cons t ts ih =>
    simp only [List.cons_append, run?]
    cases s.step? t with
    | none => rfl
    | some s' => exact ih s'

lemma isClosing_of_step? {s : Building} {t : Token} {stack : List Frame} {v : Value}
    (h : s.step? t = some ⟨stack, .after v⟩) (hv : v.isContainer = true) :
    t.isClosing = true := by
  obtain ⟨st, ex⟩ := s
  have hopen : open? ⟨st, ex⟩ t ≠ some ⟨stack, .after v⟩ := by
    intro h
    cases t <;> simp only [open?, Option.some.injEq, Building.mk.injEq, Expected.after.injEq,
      reduceCtorEq, and_false] at h <;> obtain ⟨-, rfl⟩ := h <;> simp [Value.isContainer] at hv
  cases t with
  | closeObject => rfl
  | closeArray => rfl
  | _ =>
    exfalso
    cases ex with
    | value => exact hopen h
    | firstItem => exact hopen h
    | after v => rcases st with _ | ⟨_ | _, st⟩ <;> simp [step?, close?] at h
    | _ => simp [step?] at h

lemma run?_complete {ts : List Token} {v v' : Value}
    (h : run? ⟨[], .after v⟩ ts = some ⟨[], .after v'⟩) : v' = v := by
  cases ts with
  | nil => simpa [run?] using h.symm
  | cons t ts => simp [run?, step?, close?] at h

end Building

lemma Value.ofTokens?_some {ts : List Token} {v : Value} :
    Value.ofTokens? ts = some v ↔ Building.run? {} ts = some ⟨[], .after v⟩ := by
  simp only [Value.ofTokens?, Option.bind_eq_bind, Option.bind_eq_some_iff]
  constructor
  · rintro ⟨s, hs, h⟩
    split at h
    · obtain rfl := Option.some.inj h
      exact hs
    · simp at h
  · intro h
    exact ⟨_, h, rfl⟩

lemma parse?_prefix {b b' : Bytes} {v v' : Value} (hb : b' <+: b) (h' : parse? b' = some v')
    (hv : v'.isContainer = true) (h : parse? b = some v) : v = v' := by
  simp only [parse?, Option.bind_eq_bind, Option.bind_eq_some_iff, Value.ofTokens?_some] at h h'
  obtain ⟨ts', hts', hrun'⟩ := h'
  obtain ⟨ts, hts, hrun⟩ := h
  obtain ⟨us, t, rfl⟩ : ∃ us t, ts' = us ++ [t] := by
    rcases List.eq_nil_or_concat ts' with rfl | ⟨us, t, rfl⟩
    · simp [Building.run?] at hrun'
    · exact ⟨us, t, List.concat_eq_append⟩
  have hclosing : t.isClosing = true := by
    rw [Building.run?_append] at hrun'
    obtain ⟨s, -, hs⟩ := Option.bind_eq_some_iff.mp hrun'
    simp only [Building.run?] at hs
    cases hx : s.step? t with
    | none => simp [hx] at hs
    | some s' =>
      rw [hx] at hs
      obtain rfl := Option.some.inj hs
      exact Building.isClosing_of_step? hx hv
  obtain ⟨more, rfl⟩ := Token.scan?_prefix hb hts' rfl hclosing hts
  rw [Building.run?_append, hrun', Option.bind_some] at hrun
  exact Building.run?_complete hrun

/-- Only an array or an object is read. -/
def NeedsContainer {α : Type} (f : Value → Option α) : Prop :=
  ∀ v a, f v = some a → v.isContainer = true

lemma Value.slots?_isContainer {v : Value} {names : List String} {slots : List Slot}
    (h : v.slots? names = some slots) : v.isContainer = true := by
  cases v <;> first | rfl | simp [Value.slots?] at h

lemma Value.needsContainer_list? {α : Type} (f : Value → Option α) : NeedsContainer (list? f) := by
  intro v a h
  cases v <;> first | rfl | simp [Value.list?] at h

lemma NeedsContainer.prefix_eq {α : Type} {f : Value → Option α} (hf : NeedsContainer f)
    {b b' : Bytes} {a a' : α} (hb : b' <+: b) (h' : (parse? b').bind f = some a')
    (h : (parse? b).bind f = some a) : a' = a := by
  obtain ⟨v', hv', hfv'⟩ := Option.bind_eq_some_iff.mp h'
  obtain ⟨v, hv, hfv⟩ := Option.bind_eq_some_iff.mp h
  obtain rfl := parse?_prefix hb hv' (hf v' a' hfv') hv
  exact Option.some.inj (hfv'.symm.trans hfv)

end Json

namespace Oci

open Json

lemma needsContainer_index : NeedsContainer Index.ofValue? := by
  intro v a h
  obtain ⟨slots, hs, -⟩ := Option.bind_eq_some_iff.mp h
  exact Value.slots?_isContainer hs

lemma needsContainer_manifest : NeedsContainer Manifest.ofValue? := by
  intro v a h
  obtain ⟨slots, hs, -⟩ := Option.bind_eq_some_iff.mp h
  exact Value.slots?_isContainer hs

lemma needsContainer_config : NeedsContainer Config.ofValue? := by
  intro v a h
  obtain ⟨slots, hs, -⟩ := Option.bind_eq_some_iff.mp h
  exact Value.slots?_isContainer hs

end Oci

end LayerPick
