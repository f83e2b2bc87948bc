import LayerPick.Proofs.HeaderFields
import LayerPick.Proofs.NormalNames
import LayerPick.Tar.Writer

/-!
# Paths in fields

A normal path that is copied into a field without a fault is the text of the field afterwards. A
header that takes such a path whole holds it, in one part or in two; only the front part of another
path that a ustar header comes with stays in the way. A path that is kept in a member of its own
does not depend on the header.
-/
namespace LayerPick.Tar

section Strokes

variable {ns : List Path.Name}

lemma encode_join_cons (n : Path.Name) (ns : List Path.Name) :
    Utf8.encode (Path.join (n :: ns)) =
      Utf8.encode (String.ofList n) ++
        ((if ns = [] then [] else [47]) ++ Utf8.encode (Path.join ns)) := by
  cases ns with
  | nil => simp [Path.join, List.intercalate, List.intersperse, Utf8.encode]
  | cons m ns =>
    rw [Path.join_cons_cons]
    have hslash : Utf8.encode (String.ofList ['/']) = [47] := by decide
    rw [Utf8.encode_ofList_append, ← List.singleton_append, Utf8.encode_ofList_append, hslash]
    simp [Path.join]

/-- Strokes without a fault make up the row, with a separator before it if one is due. -/
lemma componentStrokes_flatten {cut alone slash : Bool} {bs : List Bytes}
    (hs : componentStrokes cut alone slash (ns.map Path.component) = (bs, none)) :
    bs.flatten = (if slash = true ∧ ns ≠ [] then [47] else []) ++ Utf8.encode (Path.join ns) := by
  induction ns generalizing slash bs with
  | nil =>
    obtain rfl : bs = [] := by simpa [componentStrokes, eq_comm] using hs
    simp [Path.join, List.intercalate, Utf8.encode]
  | cons n ns ih =>
    by_cases hn : n = Path.parentName
    · simp only [List.map_cons, Path.component, hn, if_true, componentStrokes, List.isEmpty_map,
        Bool.and_eq_true] at hs
      by_cases hc : cut = true ∧ ns.isEmpty = true
      · obtain rfl : ns = [] := List.isEmpty_iff.mp hc.2
        rw [if_pos hc] at hs
        obtain ⟨rfl, -⟩ := Prod.mk.inj hs
        rw [hn]
        cases slash <;> rfl
      · rw [if_neg hc] at hs
        simp at hs
    · rcases hrec : componentStrokes cut alone true (ns.map Path.component) with ⟨bs', e⟩
      simp only [List.map_cons, Path.component, if_neg hn, componentStrokes, hrec,
        Prod.mk.injEq] at hs
      obtain ⟨rfl, rfl⟩ := hs
      have hrest := ih hrec
      have hone : (if slash = true then [[(47 : UInt8)]] else []).flatten =
          if slash = true ∧ n :: ns ≠ [] then [47] else [] := by
        cases slash <;> simp
      rw [List.flatten_append, List.flatten_cons, hrest, encode_join_cons, hone]
      cases ns <;> simp

lemma pathStrokes_flatten (h : ∀ n ∈ ns, Path.IsPlain n) {cut : Bool} {bs : List Bytes}
    (hs : pathStrokes cut (Path.join ns) = (bs, none)) :
    bs ≠ [] ∧ bs.flatten = Utf8.encode (Path.join ns) := by
  simp only [pathStrokes, Path.components_join h, Path.endsInSeparator_join h] at hs
  rcases hc : componentStrokes cut ((ns.map Path.component).length == 1) false
    (ns.map Path.component) with ⟨bs', _ | e⟩
  · rw [hc] at hs
    cases bs' with
    | nil => simp at hs
    | cons b bs' =>
      obtain rfl : b :: bs' = bs := by simpa using hs
      exact ⟨by simp, by simpa using componentStrokes_flatten hc⟩
  · rw [hc] at hs
    simp at hs

end Strokes

namespace Slot

lemma put_ok {s s' : Slot} {b : Bytes} (h : s.put b = .ok s') :
    s'.written = s.written ++ b ∧ (0 : UInt8) ∉ b ∧
      b.length + s'.room.length = s.room.length ∧ (s'.room = [] ∨ ∃ r, s'.room = 0 :: r) := by
  unfold put at h
  by_cases h₁ : s.room.length < b.length
  · rw [if_pos h₁] at h
    simp at h
  rw [if_neg h₁] at h
  by_cases h₂ : (0 : UInt8) ∈ b
  · rw [if_pos h₂] at h
    simp at h
  rw [if_neg h₂] at h
  obtain rfl := Except.ok.inj h
  have hl : (s.room.drop b.length).length = s.room.length - b.length := List.length_drop ..
  refine ⟨rfl, h₂, ?_, ?_⟩
  · cases hd : s.room.drop b.length with
    | nil => rw [hd] at hl; simp at hl ⊢; omega
    | cons x r => rw [hd] at hl; simp at hl ⊢; omega
  · cases s.room.drop b.length with
    | nil => exact .inl rfl
    | cons x r => exact .inr ⟨r, rfl⟩

/-- Strokes that all fit stand one behind the other, and what stands behind them ends them. -/
lemma putAll_ok {s s' : Slot} {bs : List Bytes} (h : s.putAll bs = (s', none)) :
    s'.written = s.written ++ bs.flatten ∧ (0 : UInt8) ∉ bs.flatten ∧
      bs.flatten.length + s'.room.length = s.room.length ∧
      (bs ≠ [] → s'.room = [] ∨ ∃ r, s'.room = 0 :: r) := by
  induction bs generalizing s with
  | nil =>
    obtain ⟨rfl, -⟩ := Prod.mk.inj h
    simp
  | cons b bs ih =>
    simp only [putAll] at h
    rcases hp : s.put b with e | s₁
    · rw [hp] at h
      simp at h
    · rw [hp] at h
      obtain ⟨hw, hz, hl, hr⟩ := put_ok hp
      obtain ⟨hw', hz', hl', hr'⟩ := ih h
      refine ⟨by rw [hw', hw]; simp, by simp [hz, hz'], ?_, fun _ => ?_⟩
      · simp only [List.flatten_cons, List.length_append]
        omega
      · by_cases hb : bs = []
        · subst hb
          obtain ⟨rfl, -⟩ := Prod.mk.inj h
          exact hr
        · exact hr' hb

lemma putAll_fault {s t : Slot} (h : s.room.length = t.room.length) (bs : List Bytes) :
    (s.putAll bs).2 = (t.putAll bs).2 := by
  induction bs generalizing s t with
  | nil => rfl
  | cons b bs ih =>
    rcases hs : s.put b with e | s₁ <;> rcases ht : t.put b with e' | t₁ <;>
      simp only [putAll, hs, ht]
    · have : s.put b = .error e ↔ t.put b = .error e := by
        unfold put
        rw [h]
        split_ifs <;> simp
      rw [this.mp hs] at ht
      simpa using ht
    · obtain ⟨-, hz, hl, -⟩ := put_ok ht
      unfold put at hs
      rw [if_neg (by omega), if_neg hz] at hs
      simp at hs
    · obtain ⟨-, hz, hl, -⟩ := put_ok hs
      unfold put at ht
      rw [if_neg (by omega), if_neg hz] at ht
      simp at ht
    · have hl := (put_ok hs).2.2.1
      have hl' := (put_ok ht).2.2.1
      exact ih (by omega)

end Slot

namespace Field

variable {n : ℕ} {ns : List Path.Name}

/-- A row that is copied into a field is its text. -/
theorem text_setPath (h : ∀ m ∈ ns, Path.IsPlain m) {f f' : Field n} {cut : Bool}
    (hs : f.setPath cut (Path.join ns) = (f', none)) :
    f'.text = Utf8.encode (Path.join ns) := by
  rcases hp : pathStrokes cut (Path.join ns) with ⟨bs, e⟩
  rcases ha : (Slot.mk [] f.bytes).putAll bs with ⟨s, e'⟩
  simp only [setPath, hp, ha, Prod.mk.injEq] at hs
  obtain ⟨rfl, he⟩ := hs
  obtain rfl : e' = none := by cases e' <;> simp_all
  obtain rfl : e = none := by simpa using he
  obtain ⟨hne, hbs⟩ := pathStrokes_flatten h hp
  obtain ⟨hw, hz, hl, hr⟩ := Slot.putAll_ok ha
  have hlen : (s.written ++ s.room).length = n := by
    rw [List.length_append, hw, List.nil_append]
    simpa [f.length_bytes] using hl
  simp only [List.nil_append] at hw
  rw [text, bytes_ofBytes hlen, hw, ← hbs]
  rcases hr hne with hr | ⟨r, hr⟩
  · rw [hr, List.append_nil, upToNul_of_not_mem hz]
  · rw [hr, upToNul_append_zero hz]

/-- Whether a field takes a path does not hang on what it holds. -/
lemma setPath_fault (f g : Field n) (cut : Bool) (p : String) :
    (f.setPath cut p).2 = (g.setPath cut p).2 := by
  simp only [setPath]
  rw [Slot.putAll_fault (s := ⟨[], f.bytes⟩) (t := ⟨[], g.bytes⟩)]
  simp [f.length_bytes, g.length_bytes]

end Field

/-- Where a row is cut there is a row on either side, the one behind not empty. -/
lemma frontPart?_join {ns : List Path.Name} (h : ∀ n ∈ ns, Path.IsPlain n) {tries : ℕ}
    {front : String} (hf : frontPart? tries (Path.join ns) = some front) :
    ∃ ks ms, ns = ks ++ ms ∧ ms ≠ [] ∧ front = Path.join ks := by
  induction tries generalizing ns with
  | zero => simp [frontPart?] at hf
  | succ tries ih =>
    by_cases hne : ns = []
    · have : Path.parent? (Path.join []) = none := by decide
      rw [hne] at hf
      simp [frontPart?, this] at hf
    · have hlast := List.dropLast_append_getLast hne
      simp only [frontPart?, Path.parent?_join h hne] at hf
      by_cases hl : (Utf8.encode (Path.join ns.dropLast)).length ≤ 155
      · rw [if_pos hl] at hf
        exact ⟨ns.dropLast, [ns.getLast hne], hlast.symm, by simp, (Option.some.inj hf).symm⟩
      · rw [if_neg hl] at hf
        obtain ⟨ks, ms, hks, -, rfl⟩ := ih (fun n hn => h n (List.dropLast_subset ns hn)) hf
        refine ⟨ks, ms ++ [ns.getLast hne], ?_, by simp, rfl⟩
        rw [← List.append_assoc, ← hks, hlast]

namespace Header

/-- Nothing but the path differs. -/
def KeepsRest (h h' : Header) : Prop := h' = { h with name := h'.name, tail := h'.tail }

lemma KeepsRest.refl (h : Header) : h.KeepsRest h := rfl

lemma KeepsRest.trans {h₁ h₂ h₃ : Header} (h : h₁.KeepsRest h₂) (h' : h₂.KeepsRest h₃) :
    h₁.KeepsRest h₃ := by
  unfold KeepsRest at *
  rw [h', h]

lemma KeepsRest.kind {h h' : Header} (hk : h.KeepsRest h') : h'.kind = h.kind := by
  rw [hk]
  rfl

lemma KeepsRest.form {h h' : Header} (hk : h.KeepsRest h') : h'.form = h.form := by
  rw [hk]
  rfl

lemma KeepsRest.size {h h' : Header} (hk : h.KeepsRest h') : h'.size = h.size := by
  rw [hk]

lemma keepsRest_setName (h : Header) (cut : Bool) (p : String) :
    h.KeepsRest (h.setName cut p).1 := by
  unfold KeepsRest setName
  rcases h.name.setPath cut p with ⟨f, e⟩
  rfl

lemma keepsRest_setPathFront (h : Header) (f : Field 155) : h.KeepsRest (h.setPathFront f) := by
  unfold KeepsRest setPathFront
  rfl

lemma keepsRest_setLongPath (h : Header) (p : String) : h.KeepsRest (h.setLongPath p).1 := by
  unfold setLongPath
  cases frontPart? (p.length + 1) p with
  | none => exact .refl h
  | some front =>
    simp only
    rcases h.pathFront.setPath false front with ⟨f, _ | e⟩
    · exact (h.keepsRest_setPathFront f).trans (keepsRest_setName _ _ _)
    · exact h.keepsRest_setPathFront f

lemma keepsRest_setPath (h : Header) (p : String) : h.KeepsRest (h.setPath p).1 := by
  unfold setPath
  split_ifs
  · exact h.keepsRest_setLongPath p
  · exact h.keepsRest_setName false p

lemma keepsRest_setCutPath (h : Header) (p : String) : h.KeepsRest (h.setCutPath p).1 := by
  unfold setCutPath
  split_ifs
  · exact h.keepsRest_setPath p
  · exact h.keepsRest_setName true p

/-- A ustar header that comes with the front part of another path, which a path of up to 100 bytes
leaves where it is. -/
def KeepsFront (h : Header) (p : String) : Prop :=
  h.form = .ustar ∧ h.pathFront.text ≠ [] ∧ (Utf8.encode p).length ≤ 100

variable {ns : List Path.Name}

lemma setName_path (hns : ∀ n ∈ ns, Path.IsPlain n) {h h' : Header}
    (hs : h.setName false (Path.join ns) = (h', none)) :
    h'.path = Utf8.encode (Path.join ns) ↔ ¬(h.form = .ustar ∧ h.pathFront.text ≠ []) := by
  rcases hf : h.name.setPath false (Path.join ns) with ⟨f, e⟩
  simp only [setName, hf, Prod.mk.injEq, Option.map_eq_none_iff] at hs
  obtain ⟨rfl, rfl⟩ := hs
  have ht := Field.text_setPath hns hf
  have hform : Header.form { h with name := f } = h.form := rfl
  have hfront : Header.pathFront { h with name := f } = h.pathFront := rfl
  simp only [path, hform, hfront, ht]
  by_cases hc : h.form = .ustar ∧ h.pathFront.text ≠ []
  · rw [if_pos hc]
    simp only [hc, ne_eq, not_false_eq_true, and_self, not_true_eq_false, iff_false]
    intro he
    have := congrArg List.length he
    simp only [List.length_append, List.length_cons] at this
    omega
  · rw [if_neg hc]
    simp only [hc, not_false_eq_true]

lemma pathFront_setPathFront (h : Header) (f : Field 155) :
    (h.setPathFront f).pathFront = f := by
  have hl : (f.bytes ++ h.tail.bytes.drop 155).length = 167 := by
    simp [f.length_bytes, h.tail.length_bytes]
  simp only [pathFront, setPathFront, Field.bytes_ofBytes hl, Field.ofBytes_append]

lemma setLongPath_path (hns : ∀ n ∈ ns, Path.IsPlain n) {h h' : Header} (hu : h.form = .ustar)
    (hs : h.setLongPath (Path.join ns) = (h', none)) : h'.path = Utf8.encode (Path.join ns) := by
  simp only [setLongPath] at hs
  cases hfront : frontPart? ((Path.join ns).length + 1) (Path.join ns) with
  | none => simp [hfront] at hs
  | some front =>
    obtain ⟨ks, ms, rfl, hms, rfl⟩ := frontPart?_join hns hfront
    have hk : ∀ n ∈ ks, Path.IsPlain n := fun n hn => hns n (List.mem_append_left _ hn)
    have hm : ∀ n ∈ ms, Path.IsPlain n := fun n hn => hns n (List.mem_append_right _ hn)
    rcases hf : h.pathFront.setPath false (Path.join ks) with ⟨f, _ | e⟩
    · have hkne : ks ≠ [] := by
        rintro rfl
        have hstrokes : pathStrokes false (Path.join []) = ([], some .noComponent) := by decide
        simp [Field.setPath, hstrokes] at hf
      have hslash : Utf8.encode "/" = [47] := by decide
      have hjoin : Utf8.encode (Path.join (ks ++ ms)) =
          Utf8.encode (Path.join ks) ++ 47 :: Utf8.encode (Path.join ms) := by
        rw [Path.join_append ks hkne hms, Utf8.encode_append, Utf8.encode_append, hslash,
          List.append_assoc, List.singleton_append]
      have hrest : (Utf8.encode (Path.join (ks ++ ms))).drop
          ((Utf8.encode (Path.join ks)).length + 1) = Utf8.encode (Path.join ms) := by
        rw [hjoin, ← List.drop_drop, List.drop_left, List.drop_one, List.tail_cons]
      simp only [hfront, hf, hrest, Utf8.decodeLossy_encode] at hs
      have htext := Field.text_setPath hk hf
      rcases hname : (h.setPathFront f).name.setPath false (Path.join ms) with ⟨g, e⟩
      simp only [setName, hname, Prod.mk.injEq, Option.map_eq_none_iff] at hs
      obtain ⟨rfl, rfl⟩ := hs
      have hg := Field.text_setPath hm hname
      have hne : Utf8.encode (Path.join ks) ≠ [] := by
        obtain ⟨k, ks', rfl⟩ := List.exists_cons_of_ne_nil hkne
        obtain ⟨c, cs, hc⟩ := List.exists_cons_of_ne_nil (hk k (by simp)).ne_nil
        rw [encode_join_cons, hc]
        simp [Utf8.encode, String.utf8EncodeChar_ne_nil]
      have hform : Header.form { h.setPathFront f with name := g } = .ustar := hu
      have hpf : Header.pathFront { h.setPathFront f with name := g } = f :=
        h.pathFront_setPathFront f
      simp only [path, hform, hpf, htext, hg, ne_eq, hne, not_false_eq_true, and_self, if_true]
      exact hjoin.symm
    · simp [hfront, hf] at hs

/-- A path that a header takes whole is the path in the header, unless the front part of another one
is left there. -/
theorem setPath_path (hns : ∀ n ∈ ns, Path.IsPlain n) {h h' : Header}
    (hs : h.setPath (Path.join ns) = (h', none)) :
    h'.path = Utf8.encode (Path.join ns) ↔ ¬h.KeepsFront (Path.join ns) := by
  unfold setPath at hs
  by_cases hc : h.form = .ustar ∧ 100 < (Utf8.encode (Path.join ns)).length
  · rw [if_pos hc] at hs
    have hp := setLongPath_path hns hc.1 hs
    have : ¬h.KeepsFront (Path.join ns) := fun hk => absurd hk.2.2 (by omega)
    simp [hp, this]
  · rw [if_neg hc] at hs
    rw [setName_path hns hs]
    unfold KeepsFront
    constructor
    · exact fun hn hk => hn ⟨hk.1, hk.2.1⟩
    · exact fun hn hk => hn ⟨hk.1, hk.2, by by_contra hl; exact hc ⟨hk.1, by omega⟩⟩

end Header

lemma beginning_go {n : ℕ} {cs : List Char}
    (h : (cs.flatMap String.utf8EncodeChar).length ≤ n) : beginning.go n cs = cs := by
  induction cs generalizing n with
  | nil => rfl
  | cons c cs ih =>
    simp only [List.flatMap_cons, List.length_append] at h
    simp only [beginning.go]
    rw [if_pos (by omega), ih (by omega)]

lemma beginning_eq {n : ℕ} {p : String} (h : (Utf8.encode p).length ≤ n) : beginning n p = p := by
  unfold beginning
  rw [beginning_go h, String.ofList_toList]

/-- A path is taken by the header or kept in a member before it. In that member it is out of reach
of what the header holds. -/
theorem placePath_ok {ns : List Path.Name} (hns : ∀ n ∈ ns, Path.IsPlain n) {h h' : Header}
    {calls : List Bytes} (hp : placePath h (Path.join ns) = (calls, h', none)) :
    h.KeepsRest h' ∧
      (calls = [] ∧ (h'.path = Utf8.encode (Path.join ns) ↔ ¬h.KeepsFront (Path.join ns)) ∨
        calls = longNameCalls (Utf8.encode (Path.join ns)) ∧ ¬h.KeepsFront (Path.join ns)) := by
  have hkeeps := h.keepsRest_setPath (Path.join ns)
  rcases hs : h.setPath (Path.join ns) with ⟨h₁, _ | e⟩ <;> rw [hs] at hkeeps <;>
    simp only [placePath, hs] at hp
  · obtain ⟨rfl, rfl, -⟩ := by simpa only [Prod.mk.injEq] using hp
    exact ⟨hkeeps, .inl ⟨rfl, Header.setPath_path hns hs⟩⟩
  · by_cases hl : (Utf8.encode (Path.join ns)).length < 100
    · simp [hl] at hp
    · rw [if_neg hl] at hp
      have hcut := h₁.keepsRest_setCutPath (beginning 100 (Path.join ns))
      rcases hc : h₁.setCutPath (beginning 100 (Path.join ns)) with ⟨h₂, _ | e'⟩ <;>
        rw [hc] at hp hcut <;> simp only [Prod.mk.injEq] at hp
      · obtain ⟨rfl, rfl, -⟩ := hp
        refine ⟨hkeeps.trans hcut, .inr ⟨rfl, ?_⟩⟩
        rintro ⟨hu, -, hle⟩
        have hu₁ : h₁.form = .ustar := hkeeps.form.trans hu
        rw [beginning_eq hle, Header.setCutPath, if_pos hu₁, Header.setPath,
          if_neg (by omega)] at hc
        rw [Header.setPath, if_neg (by omega)] at hs
        have hfault := Field.setPath_fault h.name h₁.name false (Path.join ns)
        simp only [Header.setName, Prod.mk.injEq, Option.map_eq_none_iff] at hc hs
        rw [hfault, hc.2] at hs
        simp at hs
      · simp at hp

def storedPath (h : Header) (p : String) : Bytes :=
  if (placePath h p).1 = [] then (placePath h p).2.1.path else Utf8.encode p

lemma longNameCalls_ne_nil (path : Bytes) : longNameCalls path ≠ [] := by
  simp [longNameCalls, memberCalls]

/-- An entry is found under the path it is stored under, unless its header keeps the front part of
another one. -/
theorem storedPath_eq_iff {ns : List Path.Name} (hns : ∀ n ∈ ns, Path.IsPlain n) {h : Header}
    (hp : (placePath h (Path.join ns)).2.2 = none) :
    storedPath h (Path.join ns) = Utf8.encode (Path.join ns) ↔ ¬h.KeepsFront (Path.join ns) := by
  rcases hplace : placePath h (Path.join ns) with ⟨calls, h', e⟩
  rw [hplace] at hp
  obtain rfl : e = none := hp
  unfold storedPath
  rcases (placePath_ok hns hplace).2 with ⟨rfl, hpath⟩ | ⟨rfl, hpath⟩
  · rw [hplace, if_pos rfl]
    exact hpath
  · rw [hplace, if_neg (longNameCalls_ne_nil _)]
    simp [hpath]

end LayerPick.Tar
