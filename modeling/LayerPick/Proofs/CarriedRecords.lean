import LayerPick.Proofs.EntryReading
import LayerPick.Proofs.HeaderFields
import LayerPick.Proofs.NormalNames
import LayerPick.Proofs.PaxLines

/-!
# What goes with an entry

The records that follow an entry are such as can be written again, and among them is the one that
gives its size, if there is one. So the size that a reader has found is announced again by the
header and the records that are written.
-/
namespace LayerPick.Tar

namespace Pax

/-- What is read from a line without a newline can be written as a line. -/
lemma isLine_of_record? {line : Bytes} {r : Record} (hl : (10 : UInt8) ∉ line)
    (h : record? line = some r) : r.IsLine := by
  unfold record? at h
  cases hd : line.dropWhile (· ≠ 32) with
  | nil => simp only [hd, reduceCtorEq] at h
  | cons b rest =>
    simp only [hd] at h
    split at h
    · simp at h
    split_ifs at h
    have hrest : ∀ x ∈ rest, x ∈ line := by
      intro x hx
      exact (List.dropWhile_sublist _).subset (hd ▸ List.mem_cons_of_mem b hx)
    cases hv : rest.dropWhile (· ≠ 61) with
    | nil => simp only [hv, reduceCtorEq] at h
    | cons c value =>
      simp only [hv, Option.some.injEq] at h
      subst h
      refine ⟨fun hm => ?_, fun hm => hl (hrest _ ?_), fun hm => hl (hrest _ ?_)⟩
      · simpa using List.mem_takeWhile_imp hm
      · exact (List.takeWhile_sublist _).subset hm
      · exact (List.dropWhile_sublist _).subset (hv ▸ List.mem_cons_of_mem c hm)

lemma isLine_of_mem_records {data : Bytes} {r : Record} (h : some r ∈ records data) :
    r.IsLine := by
  obtain ⟨line, hline, hr⟩ := List.mem_map.mp h
  have hmem := (List.takeWhile_sublist _).subset hline
  exact isLine_of_record? (Path.not_mem_splitOn _ line hmem) hr

end Pax

lemma carriedFrom_cons {r : Pax.Record} {xs : List (Option Pax.Record)} {rs : List Pax.Record} :
    carriedFrom (some r :: xs) = .ok rs ↔
      ∃ later, carriedFrom xs = .ok later ∧
        rs = if (Utf8.decode? r.key).isNone || dropsKey r.key then later else r :: later := by
  simp only [carriedFrom, bind_ok]
  constructor
  · rintro ⟨later, hl, h⟩
    refine ⟨later, hl, ?_⟩
    split_ifs at h ⊢ <;> simpa [eq_comm] using h
  · rintro ⟨later, hl, rfl⟩
    refine ⟨later, hl, ?_⟩
    split_ifs <;> rfl

/-- Records that follow an entry can follow it again. -/
theorem isCarried_of_carriedFrom {xs : List (Option Pax.Record)} {rs : List Pax.Record}
    (hxs : ∀ r, some r ∈ xs → r.IsLine) (h : carriedFrom xs = .ok rs) :
    ∀ r ∈ rs, r.IsCarried := by
  induction xs generalizing rs with
  | nil =>
    obtain rfl : rs = [] := by simpa [carriedFrom, eq_comm] using h
    simp
  | cons x xs ih =>
    cases x with
    | none => simp [carriedFrom] at h
    | some r =>
      obtain ⟨later, hl, rfl⟩ := carriedFrom_cons.mp h
      have hlater := ih (fun y hy => hxs y (List.mem_cons_of_mem _ hy)) hl
      by_cases hc : ((Utf8.decode? r.key).isNone || dropsKey r.key) = true
      · rw [if_pos hc]
        exact hlater
      · rw [if_neg hc]
        intro y hy
        rcases List.mem_cons.mp hy with rfl | hy
        · simp only [Bool.or_eq_true, not_or, Bool.not_eq_true] at hc
          refine ⟨hxs y (List.mem_cons_self ..), ?_, hc.2⟩
          rw [← Option.not_isNone, hc.1]
          rfl
        · exact hlater y hy

lemma find?_carriedFrom (key : Bytes) (ht : (Utf8.decode? key).isNone = false)
    (hd : dropsKey key = false) {xs : List (Option Pax.Record)} {rs : List Pax.Record}
    (h : carriedFrom xs = .ok rs) :
    Pax.lookup? key xs = rs.find? fun r => r.key = key := by
  induction xs generalizing rs with
  | nil =>
    obtain rfl : rs = [] := by simpa [carriedFrom, eq_comm] using h
    rfl
  | cons x xs ih =>
    cases x with
    | none => simp [carriedFrom] at h
    | some r =>
      obtain ⟨later, hl, rfl⟩ := carriedFrom_cons.mp h
      by_cases hk : r.key = key
      · simp [Pax.lookup?, hk, ht, hd]
      · simp only [Pax.lookup?, if_neg hk, ih hl]
        split_ifs
        · rfl
        · simp [hk]

lemma number?_carriedFrom {key : String} (hd : dropsKey (Utf8.encode key) = false) {data : Bytes}
    {rs : List Pax.Record} (h : carriedFrom (Pax.records data) = .ok rs) :
    Pax.number? key data = Pax.numberIn? key rs := by
  simp only [Pax.number?, Pax.numberIn?, find?_carriedFrom (Utf8.encode key) (by simp) hd h]

/-- How many bytes of content a header announces, with the records that go with it. -/
def announcedWith (h : Header) (rs : List Pax.Record) : Except NumberError ℕ := do
  let stated ← readNumber h.size.bytes
  return ((if Reader.isDescribed h then Pax.numberIn? "size" rs else none).getD stated)

/-- The data of records before an entry, if there are any. -/
def paxData (rs : List Pax.Record) : Option Bytes :=
  if rs.isEmpty then none else some (Pax.encode rs)

lemma paxData_numberIn? {rs : List Pax.Record} (hrs : ∀ r ∈ rs, r.IsLine)
    (hb : (Pax.encode rs).length < Numeral.bound) (key : String) :
    (paxData rs).bind (Pax.number? key) = Pax.numberIn? key rs := by
  cases rs with
  | nil => rfl
  | cons r rs => exact number?_encode hrs hb key

lemma announced_paxData (h : Header) {rs : List Pax.Record} (hrs : ∀ r ∈ rs, r.IsCarried)
    (hb : (Pax.encode rs).length < Numeral.bound) :
    announced h (paxData rs) = announcedWith h rs := by
  have hsize := paxData_numberIn? (fun x hx => (hrs x hx).toIsLine) hb "size"
  unfold announced announcedWith
  cases Reader.isDescribed h with
  | true => simp only [if_true, hsize]
  | false => rfl

lemma announcedWith_regular {h : Header} (hk : h.kind = .regular) {n : ℕ}
    (hn : readNumber h.size.bytes = .ok n) (rs : List Pax.Record) :
    announcedWith h rs = .ok ((Pax.numberIn? "size" rs).getD n) := by
  have hd : Reader.isDescribed h = true := by simp [Reader.isDescribed, hk]
  simp only [announcedWith, hn, ok_bind, hd, if_true, pure_eq]

namespace Reader

/-- A header that has been read is that of its block, with the owners that the records before it give
if they say something about it, and so is the size that goes with it. -/
lemma headerIn_ok {b : Bytes} {pax : Option Bytes} {h : Header} {n : ℕ}
    (hh : headerIn b pax = .ok (h, n)) :
    h = applyOwners (if isDescribed (Header.ofBlock b) then pax else none) (Header.ofBlock b) ∧
      isDescribed h = isDescribed (Header.ofBlock b) ∧ announced h pax = .ok n := by
  obtain ⟨sum, -, hh⟩ := bind_ok.mp hh
  simp only at hh
  by_cases hsum : sum ≠ (Header.ofBlock b).byteSum
  · rw [if_pos hsum] at hh
    simp at hh
  rw [if_neg hsum] at hh
  obtain ⟨stated, hs, hh⟩ := bind_ok.mp hh
  rw [mapError_ok] at hs
  simp only [pure_eq, Except.ok.injEq, Prod.mk.injEq] at hh
  obtain ⟨rfl, rfl⟩ := hh
  have hd : ∀ x, isDescribed (applyOwners x (Header.ofBlock b)) =
      isDescribed (Header.ofBlock b) := fun x => by simp only [isDescribed, kind_applyOwners]
  exact ⟨rfl, hd _, by simp only [announced, hs, ok_bind, hd, pure_eq]⟩

lemma nextFrom?_header {m : ℕ} {d : Described} {r r' : Reader} {e : Entry}
    (h : nextFrom? m d r = .ok (some (e, r'))) :
    e.header.describes = false ∧ ∃ b stored, headerIn b e.pax = .ok (e.header, stored) ∧
      (e.header.kind ≠ .sparse → stored = e.size) ∧
      (e.header.kind = .sparse →
        ∃ ps c c' k, sparsePieces e.header stored c = .ok (ps, e.size, c', k)) := by
  induction m generalizing d r with
  | zero => simp [nextFrom?] at h
  | succ m ih =>
    obtain ⟨hd, size, r₁, hm, ⟨-, -, data, c, -, hn⟩ | ⟨hdescribes, he⟩⟩ := nextFrom?_some.mp h
    · exact ih hn
    · obtain ⟨b, s, -, hh, -⟩ := nextMember?_some.mp hm
      simp only [entryAt] at he
      split_ifs at he with hk
      · obtain ⟨⟨ps, full, c, n⟩, hp, he⟩ := bind_ok.mp he
        obtain ⟨rfl, -⟩ := Prod.mk.inj (Except.ok.inj he)
        exact ⟨hdescribes, b, size, hh, fun hs => absurd hk hs, fun _ => ⟨ps, _, c, n, hp⟩⟩
      · obtain ⟨rfl, -⟩ := Prod.mk.inj (Except.ok.inj he)
        exact ⟨hdescribes, b, size, hh, fun _ => rfl, fun hs => absurd hs hk⟩

/-- An entry describes no other, and its size is the one that is announced, unless it is sparse:
then it is the one that the map of what is announced makes up. -/
theorem next?_announced {r r' : Reader} {e : Entry} (h : r.next? = .ok (some (e, r'))) :
    e.header.describes = false ∧ ∃ stored, announced e.header e.pax = .ok stored ∧
      (e.header.kind ≠ .sparse → stored = e.size) ∧
      (e.header.kind = .sparse →
        ∃ ps c c' k, sparsePieces e.header stored c = .ok (ps, e.size, c', k)) := by
  obtain ⟨hdescribes, b, stored, hh, hsize⟩ := nextFrom?_header h
  exact ⟨hdescribes, stored, (headerIn_ok hh).2.2, hsize⟩

end Reader

/-- The records that follow an entry announce its size. -/
theorem announcedWith_of_carried {e : Entry} {c c' : Content} {rs : List Pax.Record} {n : ℕ}
    (hc : e.carriedRecords c = .ok (rs, c')) :
    (∀ r ∈ rs, r.IsCarried) ∧
      (announced e.header e.pax = .ok n → announcedWith e.header rs = .ok n) := by
  have hlines : ∀ data : Bytes, ∀ r, some r ∈ Pax.records data → r.IsLine :=
    fun data r => Pax.isLine_of_mem_records
  unfold Entry.carriedRecords at hc
  cases hp : e.pax with
  | some data =>
    simp only [hp] at hc
    obtain ⟨rs', hrs, hc⟩ := bind_ok.mp hc
    obtain ⟨rfl, -⟩ := Prod.mk.inj (Except.ok.inj hc)
    refine ⟨isCarried_of_carriedFrom (hlines data) hrs, fun hn => ?_⟩
    have hsize : Pax.number? "size" data = Pax.numberIn? "size" rs' :=
      number?_carriedFrom (by decide) hrs
    rw [← hn]
    unfold announced announcedWith
    cases Reader.isDescribed e.header with
    | true => simp [hsize]
    | false => rfl
  | none =>
    simp only [hp] at hc
    split_ifs at hc with hk
    · obtain ⟨⟨data, c₁⟩, -, hc⟩ := bind_ok.mp hc
      obtain ⟨rs', hrs, hc⟩ := bind_ok.mp hc
      obtain ⟨rfl, -⟩ := Prod.mk.inj (Except.ok.inj hc)
      refine ⟨isCarried_of_carriedFrom (hlines data) hrs, fun hn => ?_⟩
      have hd : Reader.isDescribed e.header = false := by
        rcases hk with hk | hk <;> simp [Reader.isDescribed, hk]
      rw [← hn]
      simp only [announced, announcedWith, hd, Bool.false_eq_true, if_false, Option.bind_none]
    · obtain ⟨rfl, -⟩ := Prod.mk.inj (Except.ok.inj hc)
      refine ⟨by simp, fun hn => ?_⟩
      rw [← hn]
      simp [announced, announcedWith, Pax.numberIn?]

end LayerPick.Tar
