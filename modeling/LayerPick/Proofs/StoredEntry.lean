import LayerPick.Proofs.CalmReading
import LayerPick.Proofs.CarriedRecords
import LayerPick.Proofs.EntryWriting
import LayerPick.Proofs.SparseHeaders

/-!
# Reading a stored entry

An entry is stored as up to three members: its records, its path, and the entry itself. A reader
that stands before them finds the entry with its records, under the path that was stored. How much
content it expects is what the header and the records announce, whatever has been stored.
-/
namespace LayerPick.Tar

lemma chunks_flatten {tries : ℕ} {b : Bytes} (h : b.length ≤ tries) :
    (chunks tries b).flatten = b := by
  induction tries generalizing b with
  | zero =>
    obtain rfl : b = [] := List.length_eq_zero_iff.mp (by omega)
    rfl
  | succ tries ih =>
    by_cases hb : b.isEmpty = true
    · simp [chunks, List.isEmpty_iff.mp hb]
    · have hpos : 0 < b.length := List.length_pos_iff.mpr (by simpa using hb)
      have hd : (b.drop chunkSize).length ≤ tries := by
        rw [List.length_drop]
        unfold chunkSize
        omega
      simp only [chunks, hb, Bool.false_eq_true, if_false, List.flatten_cons, ih hd,
        List.take_append_drop]

lemma memberCalls_flatten (h : Header) (content : List Bytes) :
    (memberCalls h content).flatten = memberBytes h content.flatten := by
  simp [memberCalls, memberBytes, List.length_flatten]

lemma extendedCalls_flatten (rs : List Pax.Record) :
    (extendedCalls rs).flatten =
      memberBytes (extendedHeader (Pax.encode rs).length).withChecksum (Pax.encode rs) := by
  rw [extendedCalls, memberCalls_flatten, chunks_flatten (Nat.le_refl _),
    withChecksum_extendedHeader]

lemma longNameCalls_flatten (path : Bytes) :
    (longNameCalls path).flatten =
      memberBytes (longNameHeader path.length).withChecksum (path ++ [0]) := by
  rw [longNameCalls, memberCalls_flatten, List.flatten_append, chunks_flatten (Nat.le_refl _),
    withChecksum_longNameHeader, List.flatten_singleton]

section Describing

variable (n : ℕ)

@[simp] lemma kind_extendedHeader : (extendedHeader n).kind = .extended := rfl

@[simp] lemma kind_longNameHeader : (longNameHeader n).kind = .longName := rfl

lemma form_extendedHeader : (extendedHeader n).form = .ustar := by
  have hm : (extendedHeader n).magic.bytes = ustarMagic := Field.bytes_ofBytes rfl
  simp [Header.form, hm]

lemma form_longNameHeader : (longNameHeader n).form = .gnu := by
  have hm : (longNameHeader n).magic.bytes = gnuMagic := Field.bytes_ofBytes rfl
  have hne : gnuMagic ≠ ustarMagic := by decide
  simp [Header.form, hm, hne]

lemma describes_extendedHeader : (extendedHeader n).describes = true := by
  simp [Header.describes, form_extendedHeader]

lemma describes_longNameHeader : (longNameHeader n).describes = true := by
  simp [Header.describes, form_longNameHeader]

lemma readNumber_extendedHeader {n : ℕ} (hn : n < Numeral.bound) :
    readNumber (extendedHeader n).size.bytes = .ok n := by
  have hs : (extendedHeader n).size.bytes = numberField 12 n :=
    Field.bytes_ofBytes (length_numberField n)
  rw [hs, readNumber_numberField hn]

lemma readNumber_longNameHeader {n : ℕ} (hn : n + 1 < Numeral.bound) :
    readNumber (longNameHeader n).size.bytes = .ok (n + 1) := by
  have hs : (longNameHeader n).size.bytes = numberField 12 (n + 1) :=
    Field.bytes_ofBytes (length_numberField (n + 1))
  rw [hs, readNumber_numberField hn]

end Describing

/-- The records that an archive holds for an entry. -/
def Entry.records (e : Entry) : Except ReadError (List Pax.Record) :=
  match e.pax with
  | some data => carriedFrom (Pax.records data)
  | none => .ok []

lemma announced_keepsRest {h h' : Header} (hk : h.KeepsRest h') (pax : Option Bytes) :
    announced h' pax = announced h pax := by
  have hd : Reader.isDescribed h' = Reader.isDescribed h := by
    simp only [Reader.isDescribed, hk.kind]
  simp only [announced, hk.size, hd]

lemma withoutFinalNul_append (b : Bytes) : withoutFinalNul (b ++ [0]) = b := by
  simp [withoutFinalNul]

/-- What a reader has taken in before an entry with these records, and with these calls for its
path. -/
def describedBy (before : List Bytes) (p : String) (rs : List Pax.Record) : Described where
  longName := if before = [] then none else some (Utf8.encode p ++ [0])
  pax := paxData rs

namespace Reader

variable {r : Reader} {rest : Bytes} {m : ℕ}

lemma StandsAt.nextFrom?_records {rs : List Pax.Record}
    (hr : r.StandsAt ((if rs.isEmpty then [] else extendedCalls rs).flatten ++ rest))
    (hfits : r.next + (if rs.isEmpty then [] else extendedCalls rs).flatten.length <
      Numeral.bound) :
    ∃ k r', nextFrom? (m + 1) {} r = nextFrom? k { pax := paxData rs } r' ∧ m ≤ k ∧
      r'.StandsAt rest ∧
      r'.next = r.next + (if rs.isEmpty then [] else extendedCalls rs).flatten.length := by
  cases rs with
  | nil => exact ⟨m + 1, r, rfl, Nat.le_succ m, by simpa using hr, by simp⟩
  | cons x xs =>
    simp only [List.isEmpty_cons, Bool.false_eq_true, if_false, extendedCalls_flatten] at hr hfits ⊢
    have hlt : (Pax.encode (x :: xs)).length < Numeral.bound := by
      rw [length_memberBytes] at hfits
      omega
    obtain ⟨r', hn, hat, hnext⟩ := hr.nextFrom?_described (m := m) (d := {}) (by rfl)
      (describes_extendedHeader _) (by rfl) (readNumber_extendedHeader hlt) hfits
    exact ⟨m, r', hn, Nat.le_refl m, hat, hnext⟩

lemma StandsAt.nextFrom?_twoExtended {rs : List Pax.Record} {d : Described}
    (hd : d.pax.isSome = true) (hr : r.StandsAt ((extendedCalls rs).flatten ++ rest))
    (hfits : r.next + (extendedCalls rs).flatten.length < Numeral.bound) :
    nextFrom? (m + 1) d r = .error .twoExtended := by
  rw [extendedCalls_flatten] at hr hfits
  have hlt : (Pax.encode rs).length < Numeral.bound := by
    rw [length_memberBytes] at hfits
    omega
  have hclash : d.clash? (extendedHeader (Pax.encode rs).length).kind = some .twoExtended := by
    simp [Described.clash?, hd]
  exact hr.nextFrom?_clash (by rfl) (describes_extendedHeader _) hclash
    (readNumber_extendedHeader hlt) hfits

lemma StandsAt.nextFrom?_longName {path : Bytes} (pax : Option Bytes)
    (hr : r.StandsAt ((longNameCalls path).flatten ++ rest))
    (hfits : r.next + (longNameCalls path).flatten.length < Numeral.bound) :
    ∃ r', nextFrom? (m + 1) { pax := pax } r =
        nextFrom? m { pax := pax, longName := some (path ++ [0]) } r' ∧
      r'.StandsAt rest ∧ r'.next = r.next + (longNameCalls path).flatten.length := by
  rw [longNameCalls_flatten] at hr hfits ⊢
  have hlt : path.length + 1 < Numeral.bound := by
    rw [length_memberBytes, List.length_append, List.length_singleton] at hfits
    omega
  have hsize : readNumber (longNameHeader path.length).size.bytes =
      .ok (path ++ [0]).length := by
    rw [readNumber_longNameHeader hlt, List.length_append, List.length_singleton]
  exact hr.nextFrom?_described (d := { pax := pax }) (by rfl) (describes_longNameHeader _) (by rfl)
    hsize hfits

/-- The entry itself, with what has been taken in before it. -/
lemma StandsAt.nextFrom?_entry {h : Header} {d : Described}
    (hr : r.StandsAt (h.withChecksum.toBytes ++ rest)) (hd : h.describes = false)
    {n full : ℕ} (hy : h.Yields n full) (hn : announced h d.pax = .ok n)
    (hfits : r.next + blockSize + (n + padding n) < Numeral.bound) :
    ∃ ps s, nextFrom? (m + 1) d r = .ok (some
        (⟨applyOwners (if isDescribed h then d.pax else none) h.withChecksum, full,
            r.next + blockSize, d.longName, d.longLink, d.pax⟩,
          ⟨⟨ps, s, r.next + blockSize⟩, r.next + blockSize + (n + padding n), false⟩)) ∧
      Piece.Cover ps n full ∧ s.IsCalm ∧ s.data = rest := by
  obtain ⟨s, hm, hc, hdata⟩ := hr.nextMember? hn hfits
  have hdescribes : (applyOwners (if isDescribed h then d.pax else none) h.withChecksum).describes
      = false := by
    have : (applyOwners (if isDescribed h then d.pax else none) h.withChecksum).describes =
        h.withChecksum.describes := by
      simp only [Header.describes, form_applyOwners, kind_applyOwners]
    exact this.trans hd
  have hyields : (applyOwners (if isDescribed h then d.pax else none) h.withChecksum).Yields
      n full :=
    hy.congr (kind_applyOwners ..) (form_applyOwners ..) fun _ => tail_applyOwners ..
  obtain ⟨ps, hcover, he⟩ := entryAt_yields hyields d s (r.next + blockSize)
    (r.next + blockSize + (n + padding n)) false
  refine ⟨ps, s, ?_, hcover, hc, hdata⟩
  simp only [nextFrom?, hm, ok_bind, hdescribes, Bool.false_eq_true, if_false, he, pure_eq]

lemma length_encode_le (h : Header) (p : String) (rs : List Pax.Record) :
    (Pax.encode rs).length ≤ (frontCalls h p rs).1.flatten.length := by
  cases rs with
  | nil => simp [Pax.encode]
  | cons x xs =>
    obtain ⟨calls, hcalls⟩ := frontCalls_records h p (x :: xs)
    rw [hcalls]
    simp only [List.isEmpty_cons, Bool.false_eq_true, if_false, List.flatten_append,
      List.length_append, extendedCalls_flatten, length_memberBytes]
    omega

lemma path_describedBy {h h' : Header} {p : String} {before : List Bytes} {rs : List Pax.Record}
    (hrs : ∀ x ∈ rs, x.IsCarried) (hb : (Pax.encode rs).length < Numeral.bound)
    (hplace : placePath h p = (before, h', none)) {e : Entry} (he : e.header.path = h'.path)
    (hl : e.longName = (describedBy before p rs).longName)
    (hx : e.pax = (describedBy before p rs).pax) : e.path = storedPath h p := by
  have hvalue : (paxData rs).bind (Pax.value? "path") = none := by
    cases rs with
    | nil => rfl
    | cons x xs => exact value?_encode hrs hb
  simp only [describedBy] at hl hx
  split_ifs at hl with hnil
  · simp only [Entry.path, hl, hx, hvalue, Option.getD_none, he, storedPath, hplace, hnil, if_true]
  · simp only [Entry.path, hl, withoutFinalNul_append, storedPath, hplace, hnil, if_false]

/-- What stands before an entry leads to its header, with what is taken in on the way. -/
lemma StandsAt.nextFrom?_placed {h h' : Header} {p : String} {before : List Bytes}
    {rs : List Pax.Record} (hplace : placePath h p = (before, h', none))
    (hr : r.StandsAt ((frontCalls h p rs).1.flatten ++ rest))
    (hfits : r.next + (frontCalls h p rs).1.flatten.length < Numeral.bound) :
    ∃ k r', r.next? = nextFrom? (k + 1) (describedBy before p rs) r' ∧
      r'.StandsAt (h'.withChecksum.toBytes ++ rest) ∧
      r'.next + blockSize = r.next + (frontCalls h p rs).1.flatten.length := by
  have hbefore := placePath_before h p
  simp only [hplace, and_true] at hbefore
  simp only [frontCalls, hplace, List.flatten_append, List.flatten_singleton,
    List.length_append, Header.length_toBytes, List.append_assoc] at hr hfits ⊢
  obtain ⟨k, r₁, hn₁, hk, hat₁, hnext₁⟩ := hr.nextFrom?_records (m := 3) (by omega)
  obtain ⟨k, rfl⟩ : ∃ j, k = j + 2 := ⟨k - 2, by omega⟩
  rcases hbefore with rfl | rfl
  · simp only [List.flatten_nil, List.nil_append, List.length_nil] at hat₁ hfits ⊢
    refine ⟨k + 1, r₁, ?_, hat₁, by omega⟩
    simp only [next?, hn₁, describedBy, if_true]
  · obtain ⟨r₂, hn₂, hat₂, hnext₂⟩ :=
      hat₁.nextFrom?_longName (m := k + 1) (paxData rs) (by omega)
    refine ⟨k, r₂, ?_, hat₂, by omega⟩
    simp only [next?, hn₁, hn₂, describedBy, longNameCalls_ne_nil, if_false]

/-- What stands before an entry leads to its header, with the records taken in, and with the path if
the header does not hold it. -/
lemma StandsAt.nextFrom?_front {ns : List Path.Name} (hns : ∀ x ∈ ns, Path.IsPlain x) {h : Header}
    {rs : List Pax.Record} (hrs : ∀ x ∈ rs, x.IsCarried)
    (hp : (frontCalls h (Path.join ns) rs).2 = none)
    (hr : r.StandsAt ((frontCalls h (Path.join ns) rs).1.flatten ++ rest))
    (hfits : r.next + (frontCalls h (Path.join ns) rs).1.flatten.length < Numeral.bound) :
    ∃ k d r' h', r.next? = nextFrom? (k + 1) d r' ∧ h.KeepsRest h' ∧
      (∀ n full, h.Yields n full → h'.Yields n full) ∧ r'.StandsAt (h'.withChecksum.toBytes ++ rest) ∧
      r'.next + blockSize = r.next + (frontCalls h (Path.join ns) rs).1.flatten.length ∧
      d.pax = paxData rs ∧
      ∀ e : Entry, e.header.path = h'.path → e.longName = d.longName → e.pax = d.pax →
        e.path = storedPath h (Path.join ns) := by
  rcases hplace : placePath h (Path.join ns) with ⟨before, h', _ | e⟩
  swap
  · simp [frontCalls, hplace] at hp
  obtain ⟨hkeeps, -⟩ := placePath_ok hns hplace
  have hyields : ∀ n full, h.Yields n full → h'.Yields n full := fun n full hy => by
    have := hy.placePath (p := Path.join ns) (by rw [hplace]; exact hkeeps)
    rwa [hplace] at this
  have hlen := length_encode_le h (Path.join ns) rs
  obtain ⟨k, r', hnext, hat, hnext'⟩ := hr.nextFrom?_placed hplace hfits
  exact ⟨k, _, r', h', hnext, hkeeps, hyields, hat, hnext', rfl,
    fun e he hl hx => path_describedBy hrs (by omega) hplace he hl hx⟩

lemma records_of_pax {e : Entry} {rs : List Pax.Record} (hrs : ∀ x ∈ rs, x.IsCarried)
    (hb : (Pax.encode rs).length < Numeral.bound) (he : e.pax = paxData rs) :
    e.records = .ok rs := by
  cases rs with
  | nil => simp [Entry.records, he, paxData]
  | cons x xs =>
    simp only [Entry.records, he, paxData, List.isEmpty_cons, Bool.false_eq_true, if_false]
    exact carriedFrom_encode hrs hb

section Stored

variable {ns : List Path.Name} (hns : ∀ x ∈ ns, Path.IsPlain x) {h : Header}
  {rs : List Pax.Record} (hrs : ∀ x ∈ rs, x.IsCarried)
  (hp : (frontCalls h (Path.join ns) rs).2 = none) {n : ℕ} (hn : announced h (paxData rs) = .ok n)
  (hr : r.StandsAt ((frontCalls h (Path.join ns) rs).1.flatten ++ rest))
include hns hrs hp hn hr

/-- An entry is found as it was stored, with the content that its header makes of what it announces.
-/
theorem StandsAt.next?_stored (hd : h.describes = false) {full : ℕ} (hy : h.Yields n full)
    (hfits : r.next + (frontCalls h (Path.join ns) rs).1.flatten.length + (n + padding n) <
      Numeral.bound) :
    ∃ e ps s, r.next? = .ok (some (e, ⟨⟨ps, s,
          r.next + (frontCalls h (Path.join ns) rs).1.flatten.length⟩,
          r.next + (frontCalls h (Path.join ns) rs).1.flatten.length + (n + padding n), false⟩)) ∧
      Piece.Cover ps n full ∧ s.IsCalm ∧ s.data = rest ∧ e.records = .ok rs ∧
      e.path = storedPath h (Path.join ns) := by
  obtain ⟨k, d, r', h', hnext, hkeeps, hyields, hat, hnext', hpax, hpath⟩ :=
    hr.nextFrom?_front hns hrs hp (by omega)
  have hd' : h'.describes = false := by
    rw [← hd]
    simp only [Header.describes, hkeeps.kind, hkeeps.form]
  have hn' : announced h' d.pax = .ok n := (announced_keepsRest hkeeps _).trans (hpax ▸ hn)
  obtain ⟨ps, s, he, hcover, hc, hdata⟩ :=
    hat.nextFrom?_entry (m := k) hd' (hyields n full hy) hn' (by omega)
  have hlen := length_encode_le h (Path.join ns) rs
  rw [hnext'] at he
  exact ⟨_, ps, s, hnext.trans he, hcover, hc, hdata, records_of_pax hrs (by omega) hpax,
    hpath _ (path_applyOwners _ _) rfl rfl⟩

/-- An entry that announces more than positions can tell is not found. -/
lemma StandsAt.next?_overflow
    (hfront : r.next + (frontCalls h (Path.join ns) rs).1.flatten.length < Numeral.bound)
    (hfits : Numeral.bound ≤
      r.next + (frontCalls h (Path.join ns) rs).1.flatten.length + (n + padding n)) :
    r.next? = .error .sizeOverflow := by
  obtain ⟨k, d, r', h', hnext, hkeeps, -, hat, hnext', hpax, -⟩ :=
    hr.nextFrom?_front hns hrs hp hfront
  have hn' : announced h' d.pax = .ok n := (announced_keepsRest hkeeps _).trans (hpax ▸ hn)
  obtain ⟨s, hb, -, -⟩ :=
    hat.nextBlock? h'.withChecksum.length_toBytes h'.all_zero_withChecksum
  have hover : Numeral.bound ≤ r'.next + blockSize + (n + padding n) := by omega
  rw [hnext]
  simp only [nextFrom?, Reader.nextMember?, hb, ok_bind, headerIn_withChecksum hn', hover, or_true,
    if_true, error_bind]

end Stored

end Reader

end LayerPick.Tar
