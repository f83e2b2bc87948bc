import LayerPick.Proofs.PathFields
import LayerPick.Proofs.PathSpots

/-!
# Which paths a header takes

A normal path that stays in the tree has no component that climbs, so a field takes it if it has room
for it. A path that is too long is kept in a member of its own, and the header gets a beginning of
it. Where the beginning ends is a matter of counting bytes: it may leave one or two dots of a longer
name, or a separator. A header takes all of this but for one case. A ustar header takes no `..`,
not even where it is the end of a path that goes on elsewhere.
-/
namespace LayerPick

namespace Path

lemma prefix_join {ns : List Name} {q : List Char}
    (hq : q <+: (join ns).toList) (hne : ns ≠ []) :
    ∃ ks l m ms, ns = ks ++ m :: ms ∧ l <+: m ∧ q = (join (ks ++ [l])).toList := by
  induction ns generalizing q with
  | nil => exact absurd rfl hne
  | cons n ns ih =>
    have hone : q <+: n → ∃ ks l m ms, n :: ns = ks ++ m :: ms ∧ l <+: m ∧
        q = (join (ks ++ [l])).toList := by
      intro h
      exact ⟨[], q, n, ns, rfl, h, by simp [join]⟩
    cases ns with
    | nil => exact hone (by simpa [join] using hq)
    | cons n' ns =>
      rw [join_cons_cons, String.toList_ofList] at hq
      rcases Nat.le_total q.length n.length with hle | hle
      · exact hone (List.prefix_of_prefix_length_le hq (List.prefix_append ..) hle)
      · obtain ⟨t, rfl⟩ := List.prefix_of_prefix_length_le (List.prefix_append n _) hq hle
        rw [List.prefix_append_right_inj] at hq
        rcases t with _ | ⟨c, t⟩
        · exact hone (by simp)
        · obtain ⟨rfl, ht⟩ := List.cons_prefix_cons.mp hq
          obtain ⟨ks, l, m, ms, hks, hl, rfl⟩ :=
            ih (q := t) (by simpa [join] using ht) (by simp)
          refine ⟨n :: ks, l, m, ms, by rw [hks, List.cons_append], hl, ?_⟩
          obtain ⟨k, ks', hk⟩ := List.exists_cons_of_ne_nil
            (show ks ++ [l] ≠ [] by simp)
          rw [List.cons_append, hk, join_cons_cons, String.toList_ofList, join,
            String.toList_ofList]

section Cut

variable {ks : List Name} {l : Name}

lemma getLast?_cut {first : Bool} (hclimbs : parentName ∉ ks) :
    (ks.map component ++ (component? first l).toList).getLast? = some .up ↔ l = parentName := by
  have hlast : (ks.map component).getLast? ≠ some .up := by
    intro h
    obtain ⟨k, hk, he⟩ := List.mem_map.mp (List.mem_of_getLast? h)
    have hne : k ≠ parentName := fun h => hclimbs (h ▸ hk)
    simp [component, hne] at he
  have hself : parentName ≠ selfName := by decide
  rcases hc : component? first l with _ | c
  · simp only [Option.toList_none, List.append_nil, hlast, false_iff]
    rintro rfl
    cases first <;> simp [component?, parentName, selfName] at hc
  · rw [Option.toList_some, List.getLast?_concat, Option.some.injEq]
    unfold component? at hc
    split_ifs at hc with h₁ h₂ h₃ h₄ <;> obtain rfl := Option.some.inj hc
    · simp [h₂, hself.symm]
    · simp [h₄]
    · simp [h₄]

lemma split_cut (hks : ∀ k ∈ ks, IsPlain k) (hl : '/' ∉ l) : split (join (ks ++ [l])) = ks ++ [l] := by
  unfold split join
  rw [String.toList_ofList]
  refine List.splitOn_intercalate '/' ?_ (by simp)
  intro n hn
  rcases List.mem_append.mp hn with hn | hn
  · exact (hks n hn).separator
  · rwa [List.mem_singleton.mp hn]

lemma rooted_cut (hks : ∀ k ∈ ks, IsPlain k) (hl : '/' ∉ l) (hne : ks = [] → l ≠ []) :
    rooted (join (ks ++ [l])) = false := by
  unfold rooted join
  rw [String.toList_ofList]
  cases ks with
  | nil =>
    obtain ⟨c, cs, rfl⟩ := List.exists_cons_of_ne_nil (hne rfl)
    have hc : c ≠ '/' := fun hc => hl (hc ▸ List.mem_cons_self ..)
    simpa [List.intercalate, List.intersperse] using hc
  | cons k ks =>
    have hk := hks k (List.mem_cons_self ..)
    obtain ⟨c, cs, rfl⟩ := List.exists_cons_of_ne_nil hk.ne_nil
    have hc : c ≠ '/' := fun hc => hk.separator (hc ▸ List.mem_cons_self ..)
    cases ks <;> simpa [List.intercalate, List.intersperse] using hc

/-- A row that is cut in a name has the components of the names before and what is left of that
name. -/
lemma components_cut (hks : ∀ k ∈ ks, IsPlain k) (hl : '/' ∉ l) (hne : ks = [] → l ≠ []) :
    components (join (ks ++ [l])) = ks.map component ++ (component? ks.isEmpty l).toList := by
  unfold components
  rw [split_cut hks hl, rooted_cut hks hl hne]
  cases ks with
  | nil => simp [laterComponents]
  | cons k ks =>
    have hk := component?_of_isPlain (hks k (List.mem_cons_self ..)) true
    have hks' := laterComponents_of_isPlain fun m hm => hks m (List.mem_cons_of_mem _ hm)
    unfold laterComponents at hks' ⊢
    simp only [List.cons_append, Bool.false_eq_true, if_false, hk, List.filterMap_append, hks',
      List.map_cons, List.isEmpty_cons, Option.toList_some]
    cases h : component? false l <;> simp [h]

lemma endsInSeparator_cut (ks : List Name) (hl : '/' ∉ l) (hne : l ≠ []) :
    endsInSeparator (join (ks ++ [l])) = false := by
  obtain ⟨front, hfront⟩ : ∃ front, (join (ks ++ [l])).toList = front ++ l := by
    cases ks with
    | nil => exact ⟨[], by simp [join]⟩
    | cons k ks =>
      rw [join_append (k :: ks) (by simp) (by simp)]
      exact ⟨(join (k :: ks) ++ "/").toList, by simp [join]⟩
  have hlast : l.getLast? ≠ some '/' := fun h => hl (List.mem_of_getLast? h)
  rw [endsInSeparator, hfront, List.getLast?_append_of_ne_nil _ hne]
  simpa using hlast

end Cut

end Path

namespace Tar

section Strokes

variable {ks : List Path.Name} {l : Path.Name}

/-- Strokes for names that do not climb have no fault, and others may follow them. -/
lemma componentStrokes_append (hks : Path.parentName ∉ ks) (cut alone slash : Bool)
    (t : List Path.Component) :
    (componentStrokes cut alone slash (ks.map Path.component)).2 = none ∧
      componentStrokes cut alone slash (ks.map Path.component ++ t) =
        ((componentStrokes cut alone slash (ks.map Path.component)).1 ++
          (componentStrokes cut alone (slash || !ks.isEmpty) t).1,
          (componentStrokes cut alone (slash || !ks.isEmpty) t).2) := by
  induction ks generalizing slash with
  | nil => simp [componentStrokes]
  | cons k ks ih =>
    have hk : k ≠ Path.parentName := fun h => hks (h ▸ List.mem_cons_self ..)
    obtain ⟨hnone, happ⟩ := ih (fun h => hks (List.mem_cons_of_mem _ h)) true
    simp only [List.map_cons, List.cons_append, Path.component, if_neg hk, componentStrokes] at *
    rw [happ]
    simp [hnone]

lemma encode_cut (ks : List Path.Name) (l : Path.Name) :
    Utf8.encode (Path.join (ks ++ [l])) = Utf8.encode (Path.join ks) ++
      ((if ks = [] then [] else [47]) ++ Utf8.encode (String.ofList l)) := by
  have hone : Path.join [l] = String.ofList l := by simp [Path.join]
  cases ks with
  | nil => simp [Path.join, Utf8.encode]
  | cons k ks =>
    have hslash : Utf8.encode "/" = [47] := by decide
    rw [Path.join_append (k :: ks) (by simp) (by simp), hone, Utf8.encode_append,
      Utf8.encode_append, hslash]
    simp

lemma pathStrokes_none {cut : Bool} {q : String} {bs : List Bytes} (hbs : bs ≠ [])
    (h : componentStrokes cut ((Path.components q).length == 1) false (Path.components q) =
      (bs, none)) :
    pathStrokes cut q = (if Path.endsInSeparator q then bs ++ [[47]] else bs, none) := by
  simp only [pathStrokes, h]

lemma encode_join_ne_nil (hks : ∀ k ∈ ks, Path.IsPlain k) (hne : ks ≠ []) :
    Utf8.encode (Path.join ks) ≠ [] := by
  obtain ⟨k, ks, rfl⟩ := List.exists_cons_of_ne_nil hne
  obtain ⟨c, cs, hc⟩ := List.exists_cons_of_ne_nil (hks k (List.mem_cons_self ..)).ne_nil
  rw [encode_join_cons, hc]
  simp [Utf8.encode, String.utf8EncodeChar_ne_nil]

/-- What is left of a name is written as a name is, and a dot that a path consists of as well. Two
dots are a fault unless the path goes on elsewhere. -/
lemma componentStrokes_left {first alone : Bool} (cut slash : Bool) (hl : l ≠ [])
    (hself : l = Path.selfName → first = true ∧ alone = true) :
    componentStrokes cut alone slash (Path.component? first l).toList =
      if cut = false ∧ l = Path.parentName then ([], some .climbs)
      else ((if slash = true then [[47]] else []) ++ [Utf8.encode (String.ofList l)], none) := by
  by_cases hs : l = Path.selfName
  · obtain ⟨rfl, rfl⟩ := hself hs
    have hdot : Utf8.encode (String.ofList Path.selfName) = [46] := by decide
    have hne : Path.selfName ≠ Path.parentName := by decide
    simp [hs, Path.component?, Path.selfName, componentStrokes] at hdot hne ⊢
    simp [hdot, hne]
  · by_cases hp : l = Path.parentName
    · have hup : Path.component? first l = some .up := by
        rw [hp]
        cases first <;> rfl
      have hdots : Utf8.encode (String.ofList Path.parentName) = [46, 46] := by decide
      rw [hup, hp, hdots]
      cases cut <;> simp [componentStrokes]
    · have hname : Path.component? first l = some (.name l) := by
        simp [Path.component?, hl, hs, hp]
      simp [hname, hp, componentStrokes]

/-- Of a name that is dropped nothing is written, but there may be a separator at the end. -/
lemma pathStrokes_dropped (hks : ∀ k ∈ ks, Path.IsPlain k) (hclimbs : Path.parentName ∉ ks)
    (hne : ks ≠ []) (hl : l = [] ∨ l = Path.selfName) (cut : Bool) :
    (pathStrokes cut (Path.join (ks ++ [l]))).2 = none ∧
      (pathStrokes cut (Path.join (ks ++ [l]))).1.flatten <+:
        Utf8.encode (Path.join (ks ++ [l])) := by
  have hsep : '/' ∉ l := by rcases hl with rfl | rfl <;> decide
  have hcomponents := Path.components_cut hks hsep fun h => absurd h hne
  have hnothing : (Path.component? ks.isEmpty l).toList = [] := by
    rcases hl with rfl | rfl <;> simp [Path.component?, hne, Path.selfName]
  rw [hnothing, List.append_nil] at hcomponents
  have hencode := encode_cut ks l
  generalize Path.join (ks ++ [l]) = q at hcomponents hencode ⊢
  have hnone := (componentStrokes_append hclimbs cut ((Path.components q).length == 1) false []).1
  rcases hA : componentStrokes cut ((Path.components q).length == 1) false
    (ks.map Path.component) with ⟨A, e⟩
  rw [hA] at hnone
  obtain rfl : e = none := hnone
  have hflat : A.flatten = Utf8.encode (Path.join ks) := by
    simpa using componentStrokes_flatten hA
  have hAne : A ≠ [] := by
    rintro rfl
    exact encode_join_ne_nil hks hne hflat.symm
  rw [pathStrokes_none hAne (hcomponents ▸ hA), hencode, if_neg hne, ← hflat]
  refine ⟨rfl, ?_⟩
  split_ifs
  · rw [List.flatten_append, ← List.append_assoc]
    exact List.prefix_append ..
  · exact List.prefix_append ..

/-- What is left of a name is written behind the names before, unless it climbs. -/
lemma pathStrokes_left (hks : ∀ k ∈ ks, Path.IsPlain k) (hclimbs : Path.parentName ∉ ks)
    (hsep : '/' ∉ l) (hl : l ≠ []) (hself : l = Path.selfName → ks = []) (cut : Bool) :
    (pathStrokes cut (Path.join (ks ++ [l]))).2 =
        (if cut = false ∧ l = Path.parentName then some .climbs else none) ∧
      ((pathStrokes cut (Path.join (ks ++ [l]))).2 = none →
        (pathStrokes cut (Path.join (ks ++ [l]))).1.flatten =
          Utf8.encode (Path.join (ks ++ [l]))) := by
  have hcomponents := Path.components_cut hks hsep fun _ => hl
  have hencode := encode_cut ks l
  have hends := Path.endsInSeparator_cut ks hsep hl
  generalize Path.join (ks ++ [l]) = q at hcomponents hencode hends ⊢
  have halone : l = Path.selfName →
      ks.isEmpty = true ∧ ((Path.components q).length == 1) = true := by
    intro hs
    rw [hcomponents, hself hs, hs]
    exact ⟨rfl, rfl⟩
  obtain ⟨hnone, happ⟩ := componentStrokes_append hclimbs cut ((Path.components q).length == 1)
    false (Path.component? ks.isEmpty l).toList
  rcases hA : componentStrokes cut ((Path.components q).length == 1) false
    (ks.map Path.component) with ⟨A, e⟩
  rw [hA] at hnone happ
  obtain rfl : e = none := hnone
  have hflat : A.flatten = Utf8.encode (Path.join ks) := by
    simpa using componentStrokes_flatten hA
  rw [← hcomponents, componentStrokes_left cut _ hl halone] at happ
  by_cases hfault : cut = false ∧ l = Path.parentName
  · rw [if_pos hfault] at happ ⊢
    simp [pathStrokes, happ]
  · rw [if_neg hfault] at happ ⊢
    rw [pathStrokes_none (by simp) happ, hends]
    refine ⟨rfl, fun _ => ?_⟩
    have hslash : (if (false || !ks.isEmpty) = true then [[(47 : UInt8)]] else []).flatten =
        if ks = [] then [] else [47] := by
      cases ks <;> rfl
    rw [hencode, if_neg (by decide), List.flatten_append, List.flatten_append, hslash, hflat,
      List.flatten_singleton]

/-- A beginning of a row is written as far as it goes. The one fault there can be is that it ends in
what climbs. -/
lemma pathStrokes_cut (hks : ∀ k ∈ ks, Path.IsPlain k) (hclimbs : Path.parentName ∉ ks)
    (hl : '/' ∉ l) (hne : ks = [] → l ≠ []) (cut : Bool) :
    (pathStrokes cut (Path.join (ks ++ [l]))).2 =
        (if cut = false ∧ l = Path.parentName then some .climbs else none) ∧
      ((pathStrokes cut (Path.join (ks ++ [l]))).2 = none →
        (pathStrokes cut (Path.join (ks ++ [l]))).1.flatten <+:
          Utf8.encode (Path.join (ks ++ [l]))) := by
  by_cases hdropped : ks ≠ [] ∧ (l = [] ∨ l = Path.selfName)
  · obtain ⟨hks', hl'⟩ := hdropped
    have hstays : l ≠ Path.parentName := by rcases hl' with rfl | rfl <;> decide
    obtain ⟨hnone, hpre⟩ := pathStrokes_dropped hks hclimbs hks' hl' cut
    rw [if_neg fun h => hstays h.2]
    exact ⟨hnone, fun _ => hpre⟩
  · simp only [not_and, not_or] at hdropped
    have hlne : l ≠ [] := by
      intro h
      by_cases hks' : ks = []
      · exact hne hks' h
      · exact (hdropped hks').1 h
    have hself : l = Path.selfName → ks = [] := by
      intro h
      by_contra hks'
      exact (hdropped hks').2 h
    obtain ⟨hfault, hall⟩ := pathStrokes_left hks hclimbs hl hlne hself cut
    exact ⟨hfault, fun h => hall h ▸ List.prefix_rfl⟩

end Strokes

namespace Slot

lemma putAll_none {s : Slot} {bs : List Bytes} (hl : bs.flatten.length ≤ s.room.length)
    (hz : (0 : UInt8) ∉ bs.flatten) : (s.putAll bs).2 = none := by
  induction bs generalizing s with
  | nil => rfl
  | cons b bs ih =>
    rw [List.flatten_cons, List.length_append] at hl
    rw [List.flatten_cons, List.mem_append, not_or] at hz
    rcases hp : s.put b with e | s'
    · unfold put at hp
      rw [if_neg (by omega), if_neg hz.1] at hp
      simp at hp
    · obtain ⟨-, -, hroom, -⟩ := put_ok hp
      simp only [putAll, hp]
      exact ih (by omega) hz.2

end Slot

namespace Field

variable {n : ℕ} {f : Field n} {cut : Bool} {p : String}

lemma setPath_none (hs : (pathStrokes cut p).2 = none)
    (hp : (pathStrokes cut p).1.flatten <+: Utf8.encode p) (hl : (Utf8.encode p).length ≤ n)
    (hz : (0 : UInt8) ∉ Utf8.encode p) : (f.setPath cut p).2 = none := by
  rcases hstrokes : pathStrokes cut p with ⟨bs, e⟩
  rw [hstrokes] at hs hp
  have hput : ((Slot.mk [] f.bytes).putAll bs).2 = none := by
    refine Slot.putAll_none ?_ fun h => hz (hp.subset h)
    have := hp.length_le
    simp only [f.length_bytes] at this ⊢
    omega
  obtain rfl : e = none := hs
  simp [setPath, hstrokes, hput]

lemma setPath_fault_of_strokes {e : PathFault} (hs : (pathStrokes cut p).2 = some e) :
    (f.setPath cut p).2 ≠ none := by
  rcases hstrokes : pathStrokes cut p with ⟨bs, e'⟩
  rw [hstrokes] at hs
  obtain rfl : e' = some e := hs
  rcases hput : (Slot.mk [] f.bytes).putAll bs with ⟨s, _ | e''⟩ <;>
    simp [setPath, hstrokes, hput]

lemma length_of_setPath {ns : List Path.Name} (hns : ∀ m ∈ ns, Path.IsPlain m)
    (h : (f.setPath cut (Path.join ns)).2 = none) : (Utf8.encode (Path.join ns)).length ≤ n := by
  rcases hs : f.setPath cut (Path.join ns) with ⟨f', e⟩
  rw [hs] at h
  obtain rfl : e = none := h
  rw [← text_setPath hns hs]
  calc f'.text.length ≤ f'.bytes.length := (List.takeWhile_prefix _).length_le
    _ = n := f'.length_bytes

end Field

lemma beginning_go_prefix (n : ℕ) (cs : List Char) : beginning.go n cs <+: cs := by
  induction cs generalizing n with
  | nil => exact List.prefix_rfl
  | cons c cs ih =>
    simp only [beginning.go]
    split_ifs
    · exact List.cons_prefix_cons.mpr ⟨rfl, ih _⟩
    · exact List.nil_prefix

lemma length_beginning_go (n : ℕ) (cs : List Char) :
    ((beginning.go n cs).flatMap String.utf8EncodeChar).length ≤ n := by
  induction cs generalizing n with
  | nil => simp [beginning.go]
  | cons c cs ih =>
    simp only [beginning.go]
    split_ifs with h
    · rw [List.flatMap_cons, List.length_append]
      have := ih (n - (String.utf8EncodeChar c).length)
      omega
    · simp

lemma beginning_go_ne_nil {n : ℕ} {cs : List Char} (hn : 4 ≤ n) (hcs : cs ≠ []) :
    beginning.go n cs ≠ [] := by
  obtain ⟨c, cs, rfl⟩ := List.exists_cons_of_ne_nil hcs
  have hsize : (String.utf8EncodeChar c).length ≤ 4 := by
    rw [String.length_utf8EncodeChar]
    exact c.utf8Size_le_four
  simp only [beginning.go]
  rw [if_pos (by omega)]
  simp

lemma length_beginning_le (n : ℕ) (p : String) : (Utf8.encode (beginning n p)).length ≤ n := by
  have := length_beginning_go n p.toList
  simpa [Utf8.encode, beginning] using this

end Tar

/-- A path under which something can be stored: a normal one, not empty, that stays in the tree and
holds no NUL. -/
structure Path.IsCanonical (p : String) : Prop where
  normal : ∃ q, p = Path.normalize q
  stays : Path.escapes p = false
  nonempty : p ≠ ""
  noNul : (0 : UInt8) ∉ Utf8.encode p

lemma Path.IsCanonical.names {p : String} (hp : Path.IsCanonical p) :
    ∃ ns, (∀ n ∈ ns, Path.IsPlain n) ∧ Path.parentName ∉ ns ∧ ns ≠ [] ∧ p = Path.join ns := by
  obtain ⟨q, rfl⟩ := hp.normal
  refine ⟨Path.normalNames q, Path.normalNames_isPlain q, Path.not_climbs_of_stays hp.stays, ?_, rfl⟩
  intro hnil
  apply hp.nonempty
  rw [Path.normalize, hnil]
  rfl

namespace Tar

/-- A ustar header that takes a path neither in two parts nor cut short, since the cut would leave
the two dots at the front of a longer name. -/
def Header.Refuses (h : Header) (p : String) : Prop :=
  h.form = .ustar ∧ 100 < (Utf8.encode p).length ∧ (h.setLongPath p).2 ≠ none ∧
    (Path.components (beginning 100 p)).getLast? = some .up

section Canonical

variable {p : String}

lemma setName_none {h : Header} {cut : Bool} {p : String} :
    (h.setName cut p).2 = none ↔ (h.name.setPath cut p).2 = none := by
  rcases hf : h.name.setPath cut p with ⟨f, e⟩
  simp [Header.setName, hf]

lemma beginning_canonical (hp : Path.IsCanonical p) :
    ∃ ks l, (∀ k ∈ ks, Path.IsPlain k) ∧ Path.parentName ∉ ks ∧ '/' ∉ l ∧ (ks = [] → l ≠ []) ∧
      beginning 100 p = Path.join (ks ++ [l]) := by
  obtain ⟨ns, hns, hclimbs, hne, rfl⟩ := hp.names
  have hpre : beginning.go 100 (Path.join ns).toList <+: (Path.join ns).toList :=
    beginning_go_prefix 100 _
  obtain ⟨ks, l, m, ms, rfl, hl, hq⟩ := Path.prefix_join hpre hne
  have hsep : '/' ∉ l := fun h => (hns m (by simp)).separator (hl.subset h)
  refine ⟨ks, l, fun k hk => hns k (by simp [hk]), fun h => hclimbs (by simp [h]), hsep, ?_, ?_⟩
  · rintro rfl rfl
    refine beginning_go_ne_nil (by decide) ?_ hq
    intro hnil
    exact hp.nonempty (String.toList_injective hnil)
  · rw [beginning, hq, String.ofList_toList]

lemma setPath_none_iff (hp : Path.IsCanonical p) {n : ℕ} (f : Field n) :
    (f.setPath false p).2 = none ↔ (Utf8.encode p).length ≤ n := by
  obtain ⟨ns, hns, hclimbs, hne, hjoin⟩ := hp.names
  constructor
  · intro h
    rw [hjoin] at h ⊢
    exact Field.length_of_setPath hns h
  · intro hl
    have hlast := List.dropLast_append_getLast hne
    have hplain := hns _ (List.getLast_mem hne)
    have hks : ∀ k ∈ ns.dropLast, Path.IsPlain k :=
      fun k hk => hns k (List.dropLast_subset ns hk)
    have hcut := pathStrokes_cut hks (fun h => hclimbs (List.dropLast_subset ns h))
      hplain.separator (fun _ => hplain.ne_nil) false
    rw [hlast, ← hjoin] at hcut
    have hnone : (pathStrokes false p).2 = none := by
      rw [hcut.1, if_neg]
      rintro ⟨-, h⟩
      exact hclimbs (h ▸ List.getLast_mem hne)
    exact Field.setPath_none hnone (hcut.2 hnone) hl hp.noNul

/-- A header takes the beginning of a canonical path unless it climbs and does not say that it is
cut. -/
lemma setName_beginning (hp : Path.IsCanonical p) (h : Header) (cut : Bool) :
    (h.setName cut (beginning 100 p)).2 = none ↔
      ¬(cut = false ∧ (Path.components (beginning 100 p)).getLast? = some .up) := by
  obtain ⟨ks, l, hks, hclimbs, hl, hne, hq⟩ := beginning_canonical hp
  have hlen := length_beginning_le 100 p
  have hz : (0 : UInt8) ∉ Utf8.encode (beginning 100 p) := by
    intro hmem
    apply hp.noNul
    obtain ⟨t, ht⟩ := beginning_go_prefix 100 p.toList
    have hsplit : p = beginning 100 p ++ String.ofList t := by
      apply String.toList_injective
      rw [String.toList_append, String.toList_ofList, beginning, String.toList_ofList, ht]
    rw [hsplit, Utf8.encode_append]
    exact List.mem_append_left _ hmem
  obtain ⟨hfault, hpre⟩ := pathStrokes_cut hks hclimbs hl hne cut
  rw [← hq] at hfault hpre
  rw [setName_none, hq, Path.components_cut hks hl hne, Path.getLast?_cut hclimbs, ← hq]
  by_cases hc : cut = false ∧ l = Path.parentName
  · rw [if_pos hc] at hfault
    exact iff_of_false (Field.setPath_fault_of_strokes hfault) (not_not.mpr hc)
  · rw [if_neg hc] at hfault
    exact iff_of_true (Field.setPath_none hfault (hpre hfault) hlen hz) hc

/-- A header takes a path that its name has room for, and a ustar header one that goes into its two
parts. -/
lemma Header.setPath_none (hp : Path.IsCanonical p) (h : Header) :
    (h.setPath p).2 = none ↔ (h.form = .ustar ∧ 100 < (Utf8.encode p).length ∧
      (h.setLongPath p).2 = none) ∨ (Utf8.encode p).length ≤ 100 := by
  unfold Header.setPath
  by_cases hc : h.form = .ustar ∧ 100 < (Utf8.encode p).length
  · rw [if_pos hc]
    have hnot : ¬(Utf8.encode p).length ≤ 100 := by omega
    simp [hc, hnot]
  · rw [if_neg hc, setName_none, setPath_none_iff hp]
    constructor
    · exact .inr
    · rintro (⟨hu, hl, -⟩ | hl)
      · exact absurd ⟨hu, hl⟩ hc
      · exact hl

lemma Header.setCutPath_none (hp : Path.IsCanonical p) (h : Header) :
    (h.setCutPath (beginning 100 p)).2 = none ↔
      ¬(h.form = .ustar ∧ (Path.components (beginning 100 p)).getLast? = some .up) := by
  have hlen := length_beginning_le 100 p
  unfold Header.setCutPath Header.setPath
  by_cases hu : h.form = .ustar
  · rw [if_pos hu, if_neg (by omega), setName_beginning hp]
    simp [hu]
  · rw [if_neg hu, setName_beginning hp]
    simp [hu]

/-- A header with its path, or with a beginning of it, takes every canonical path that it does not
refuse. -/
theorem placePath_none_iff (hp : Path.IsCanonical p) (h : Header) :
    (placePath h p).2.2 = none ↔ ¬h.Refuses p := by
  have hset := Header.setPath_none hp h
  have hkeeps := h.keepsRest_setPath p
  unfold placePath Header.Refuses
  rcases hs : h.setPath p with ⟨h₁, _ | e⟩ <;> rw [hs] at hset hkeeps
  · simp only [true_iff] at hset ⊢
    rintro ⟨-, hl, hno, -⟩
    rcases hset with ⟨-, -, hyes⟩ | hle
    · exact hno hyes
    · omega
  · simp only [reduceCtorEq, false_iff, not_or, not_and, not_le] at hset
    obtain ⟨hno, hl⟩ := hset
    have hcut := Header.setCutPath_none hp h₁
    rw [hkeeps.form] at hcut
    simp only
    rw [if_neg (by omega)]
    rcases hc : h₁.setCutPath (beginning 100 p) with ⟨h₂, _ | e'⟩ <;> rw [hc] at hcut
    · have hstays := hcut.mp rfl
      exact iff_of_true rfl fun hr => hstays ⟨hr.1, hr.2.2.2⟩
    · have hclimbs := not_not.mp (mt hcut.mpr (by simp))
      exact iff_of_false (by simp) (not_not.mpr ⟨hclimbs.1, hl, hno hclimbs.1 hl, hclimbs.2⟩)

end Canonical

end Tar

end LayerPick
