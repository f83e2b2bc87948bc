import LayerPick.Proofs.StoredPaths

/-!
# Records by their grammar and as they are read

By its grammar a record is counted: its line says how many bytes it has, and any byte may stand in
its value. It is read, though, up to the next newline. So a record with a newline inside is cut off
there and found to be shorter than it says, which is fatal to the extraction if its entry is to be
written.

All other records come through. The archive is asked to store the entry with just these records, but
for those with the path of the entry or of its link, and that is what is read back.
-/
namespace LayerPick

open Tar

namespace Tar

namespace Pax

/-- The line is the record by the grammar: the length of the whole line in decimal digits, a blank,
a key that is text without a `=`, the `=`, any bytes, and a newline. -/
structure Record.IsSpelled (r : Record) (line : Bytes) : Prop where
  isText : (Utf8.decode? r.key).isSome
  key_equals : (61 : UInt8) ∉ r.key
  spelling : ∃ z, line = digitBytes (List.replicate z '0' ++ Nat.toDigits 10 line.length) ++
    32 :: (r.key ++ 61 :: (r.value ++ [10]))

/-- The data is made up of the lines of these records. -/
inductive Denotes : Bytes → List Record → Prop
  | nil : Denotes [] []
  | cons {r : Record} {line data : Bytes} {rs : List Record} :
    r.IsSpelled line → Denotes data rs → Denotes (line ++ data) (r :: rs)

/-- There is a newline in the record besides the one at its end. -/
def Record.HasNewline (r : Record) : Prop := (10 : UInt8) ∈ r.key ∨ (10 : UInt8) ∈ r.value

instance (r : Record) : Decidable r.HasNewline := inferInstanceAs (Decidable (_ ∨ _))

lemma Record.isSpelled_line {r : Record} (ht : (Utf8.decode? r.key).isSome)
    (he : (61 : UInt8) ∉ r.key) : r.IsSpelled r.line := by
  refine ⟨ht, he, 0, ?_⟩
  have hlen : r.line.length = r.count := by
    rw [r.line_eq, List.length_append, List.length_singleton, r.length_body]
  rw [hlen, r.line_eq, body]
  simp

lemma denotes_encode {rs : List Record}
    (h : ∀ r ∈ rs, (Utf8.decode? r.key).isSome ∧ (61 : UInt8) ∉ r.key) : Denotes (encode rs) rs := by
  induction rs with
  | nil => exact .nil
  | cons r rs ih =>
    obtain ⟨ht, he⟩ := h r (List.mem_cons_self ..)
    exact .cons (r.isSpelled_line ht he) (ih fun r' hr' => h r' (List.mem_cons_of_mem _ hr'))

lemma Record.IsSpelled.ne_nil {r : Record} {line : Bytes} (h : r.IsSpelled line) : line ≠ [] := by
  obtain ⟨z, hline⟩ := h.spelling
  rw [hline]
  simp

/-- What stands before the first byte of a kind, and what stands behind it. -/
lemma split_unique {x : UInt8} {a a' b b' : Bytes} (ha : x ∉ a) (ha' : x ∉ a')
    (h : a ++ x :: b = a' ++ x :: b') : a = a' ∧ b = b' := by
  obtain ⟨htake, hdrop⟩ := takeWhile_dropWhile ha b
  obtain ⟨htake', hdrop'⟩ := takeWhile_dropWhile ha' b'
  rw [h] at htake hdrop
  exact ⟨htake.symm.trans htake', List.tail_eq_of_cons_eq (hdrop.symm.trans hdrop')⟩

/-- A line says where it ends, and which record it is. -/
lemma Record.IsSpelled.unique {r r' : Record} {line line' data data' : Bytes}
    (h : r.IsSpelled line) (h' : r'.IsSpelled line') (heq : line ++ data = line' ++ data') :
    r = r' ∧ data = data' := by
  obtain ⟨z, hline⟩ := h.spelling
  obtain ⟨z', hline'⟩ := h'.spelling
  have hlength : line.length = line'.length := by
    rw [hline, hline', List.append_assoc, List.append_assoc, List.cons_append,
      List.cons_append] at heq
    obtain ⟨hcount, -⟩ := split_unique (not_mem_digits z _ (by decide))
      (not_mem_digits z' _ (by decide)) heq
    have hdigits := Numeral.isDigit_padded (show 1 < 10 by decide) (Nat.le_refl 10)
    have hsame := congrArg (List.map fun b : UInt8 => Char.ofNat b.toNat) hcount
    rw [map_digitBytes (hdigits z _), map_digitBytes (hdigits z' _)] at hsame
    rw [← Numeral.ofDigitChars_padded (by decide) (Nat.le_refl 10) z line.length, hsame,
      Numeral.ofDigitChars_padded (by decide) (Nat.le_refl 10)]
  obtain ⟨rfl, rfl⟩ := List.append_inj heq hlength
  obtain ⟨-, hrest⟩ := split_unique (not_mem_digits z _ (by decide))
    (not_mem_digits z' _ (by decide)) (hline.symm.trans hline')
  obtain ⟨hkey, hvalue⟩ := split_unique h.key_equals h'.key_equals hrest
  rcases r with ⟨key, value⟩
  rcases r' with ⟨key', value'⟩
  obtain rfl : key = key' := hkey
  obtain rfl : value = value' := (List.append_left_inj [10]).mp hvalue
  exact ⟨rfl, rfl⟩

/-- Data that is made up of records is made up of these only. -/
theorem Denotes.unique {data : Bytes} {rs rs' : List Record} (h : Denotes data rs)
    (h' : Denotes data rs') : rs = rs' := by
  induction h generalizing rs' with
  | nil =>
    generalize hd : ([] : Bytes) = data at h'
    cases h' with
    | nil => rfl
    | cons hline _ => exact absurd hd.symm (by simp [hline.ne_nil])
  | @cons r line data rs hline hrs ih =>
    generalize hd : line ++ data = whole at h'
    cases h' with
    | nil => exact absurd hd (by simp [hline.ne_nil])
    | cons hline' hrs' =>
      obtain ⟨rfl, rfl⟩ := hline.unique hline' hd
      rw [ih hrs']

section Line

variable {r : Record} {line : Bytes}

lemma Record.IsSpelled.records_plain (h : r.IsSpelled line) (hb : line.length < Numeral.bound)
    (hno : ¬r.HasNewline) (more : Bytes) : records (line ++ more) = some r :: records more := by
  obtain ⟨z, hline⟩ := h.spelling
  obtain ⟨hkey, hvalue⟩ := not_or.mp hno
  generalize hn : line.length = n at hline hb
  subst hline
  let front := digitBytes (List.replicate z '0' ++ Nat.toDigits 10 n) ++
    32 :: (r.key ++ 61 :: r.value)
  have hlen : n = front.length + 1 := by
    rw [← hn]
    simp only [front, List.length_append, List.length_cons, List.length_nil]
    omega
  have hnot : (10 : UInt8) ∉ front := by
    simp only [front, List.mem_append, List.mem_cons, not_or]
    exact ⟨not_mem_digits z n (by decide), by decide, hkey, by decide, hvalue⟩
  rw [← r.record?_counted h.key_equals z hb hlen, ← records_cons (by simp [front]) hnot]
  simp [front]

/-- A record with a newline inside is cut off there, and its line has not the length that it says. -/
lemma Record.IsSpelled.records_cut (h : r.IsSpelled line) (hb : line.length < Numeral.bound)
    (hnewline : r.HasNewline) (more : Bytes) :
    ∃ later, records (line ++ more) = none :: later := by
  obtain ⟨z, hline⟩ := h.spelling
  generalize hn : line.length = n at hline hb
  subst hline
  have hmem : (10 : UInt8) ∈ r.key ++ 61 :: r.value := by
    rcases hnewline with h | h <;> simp [h]
  obtain ⟨before, behind, hsplit, hfirst⟩ := List.eq_append_cons_of_mem hmem
  let front := digitBytes (List.replicate z '0' ++ Nat.toDigits 10 n) ++ 32 :: before
  have hwhole : digitBytes (List.replicate z '0' ++ Nat.toDigits 10 n) ++
      32 :: (r.key ++ 61 :: (r.value ++ [10])) = front ++ 10 :: (behind ++ [10]) := by
    have hpair : r.key ++ 61 :: (r.value ++ [10]) = (r.key ++ 61 :: r.value) ++ [10] := by simp
    rw [hpair, hsplit]
    simp [front]
  have hlen : n ≠ front.length + 1 := by
    rw [← hn, hwhole]
    simp only [List.length_append, List.length_cons, List.length_nil]
    omega
  have hnot : (10 : UInt8) ∉ front := by
    simp only [front, List.mem_append, List.mem_cons, not_or]
    exact ⟨not_mem_digits z n (by decide), by decide, hfirst⟩
  refine ⟨records (behind ++ [10] ++ more), ?_⟩
  rw [hwhole, List.append_assoc, List.cons_append, records_cons (by simp [front]) hnot,
    record?_miscounted z hb hlen]

end Line

end Pax

/-- The records that may follow an entry. -/
def Pax.kept (rs : List Record) : List Record := rs.filter fun r => !dropsKey r.key

/-- Records by the grammar follow their entry, but if there is a newline inside of one of them, they
are taken to be malformed. -/
theorem Pax.Denotes.carriedFrom {data : Bytes} {rs : List Record} (h : Denotes data rs)
    (hb : data.length < Numeral.bound) :
    Tar.carriedFrom (records data) =
      if ∃ r ∈ rs, r.HasNewline then .error .malformedPax else .ok (kept rs) := by
  induction h with
  | nil => simp [records, Tar.carriedFrom, kept]
  | @cons r line data rs hline _ ih =>
    rw [List.length_append] at hb
    by_cases hr : r.HasNewline
    · obtain ⟨later, hcut⟩ := hline.records_cut (by omega) hr data
      rw [hcut, if_pos ⟨r, List.mem_cons_self .., hr⟩, Tar.carriedFrom]
    · have ht : (Utf8.decode? r.key).isNone = false := by
        rw [← Option.not_isSome, hline.isText]
        rfl
      rw [hline.records_plain (by omega) hr, Tar.carriedFrom, ih (by omega)]
      by_cases hrs : ∃ r ∈ rs, r.HasNewline
      · rw [if_pos hrs, if_pos (hrs.imp fun x hx => ⟨List.mem_cons_of_mem _ hx.1, hx.2⟩)]
        rfl
      · rw [if_neg hrs, if_neg (by simpa [hr] using hrs)]
        cases hk : dropsKey r.key <;> simp [kept, ht, hk]

lemma Reader.nextFrom?_pax_lt {m : ℕ} {d : Described} {r r' : Reader} {e : Entry}
    (hd : ∀ data, d.pax = some data → data.length < Numeral.bound)
    (h : nextFrom? m d r = .ok (some (e, r'))) :
    ∀ data, e.pax = some data → data.length < Numeral.bound := by
  induction m generalizing d r with
  | zero => simp [nextFrom?] at h
  | succ m ih =>
    obtain ⟨header, size, r₁, hm, ⟨-, -, data, c, hdrain, hn⟩ | ⟨-, he⟩⟩ := nextFrom?_some.mp h
    · obtain ⟨b, s, -, -, hsize, -, rfl⟩ := nextMember?_some.mp hm
      have hlen : data.length ≤ size :=
        Content.length_le_span (by simp [Content.IsBounded]) hdrain
      refine ih ?_ hn
      unfold Described.add
      split
      · exact hd
      · exact hd
      · intro data' h
        rw [← Option.some.inj h]
        omega
      · exact hd
    · rw [entryAt_pax he]
      exact hd

end Tar

/-- The walk comes upon an entry that it is to write, and before the entry are these records. -/
structure MeetsWith (o : Order) (layers : List Layer) (d : Device) (label : String) (i : ℕ)
    (e : Entry) (c : Content) (rs : List Pax.Record) : Prop where
  meets : Meets o layers d label i e c
  denoted : ∃ data, e.pax = some data ∧ Pax.Denotes data rs

section Met

variable {o : Order} {layers : List Layer} {d : Device} {label : String} {i : ℕ} {e : Entry}
  {c c₁ : Content} {rs : List Pax.Record}

/-- An entry that the walk comes upon is asked for, if its records can be read. -/
lemma Meets.attempted (h : Meets o layers d label i e c)
    (hr : e.carriedRecords c = .ok (rs, c₁)) :
    ∃ a ∈ (walk o layers (.start o layers d label)).1.archive.attempts,
      a.toRequest = ⟨e.header, e.place, rs, c₁⟩ := by
  obtain ⟨r, r', below, s, p, hreached, hdone, hn, hmatch, rfl⟩ := h
  obtain ⟨-, -, rfl⟩ := match?_some.mp hmatch
  rcases ht : take i e.place e s r'.content with ⟨s', f | c'⟩ <;>
    obtain ⟨result, hattempts⟩ := take_attempts hr ht
  · refine ⟨⟨⟨e.header, e.place, rs, c₁⟩, result⟩, ?_, rfl⟩
    rw [walk_eq_iff.mpr ⟨_, hreached, .broken hdone hn hmatch ht⟩]
    change _ ∈ s'.archive.attempts
    simp [hattempts]
  · refine ⟨⟨⟨e.header, e.place, rs, c₁⟩, result⟩, ?_, rfl⟩
    have hnext : Reached o layers d label (.among i { r' with content := c' } below, s') :=
      hreached.tail (.take hdone hn hmatch ht)
    refine hnext.attempts_kept.subset ?_
    simp [hattempts]

/-- The records that follow the entry, or that they are taken to be malformed. -/
lemma MeetsWith.carriedRecords (h : MeetsWith o layers d label i e c rs) :
    e.carriedRecords c =
      if ∃ r ∈ rs, r.HasNewline then .error .malformedPax else .ok (Pax.kept rs, c) := by
  obtain ⟨⟨r, r', below, s, p, -, -, hn, -, -⟩, data, hpax, hdata⟩ := h
  have hlt : data.length < Numeral.bound := Reader.nextFrom?_pax_lt (by simp) hn data hpax
  simp only [Entry.carriedRecords, hpax, hdata.carriedFrom hlt]
  split_ifs <;> rfl

lemma MeetsWith.fails (h : MeetsWith o layers d label i e c rs)
    (hnewline : ∃ r ∈ rs, r.HasNewline) :
    (walk o layers (.start o layers d label)).2 =
      some ⟨[.readLayerEntry i], .tar .malformedPax⟩ := by
  have hr := h.carriedRecords
  rw [if_pos hnewline] at hr
  obtain ⟨⟨r, r', below, s, p, hreached, hdone, hn, hmatch, rfl⟩, -⟩ := h
  have ht : take i p e s r'.content =
      (s.claim p, .error ⟨[.readLayerEntry i], .tar .malformedPax⟩) := by
    simp only [take, hr]
  rw [walk_eq_iff.mpr ⟨_, hreached, .broken hdone hn hmatch ht⟩]

end Met

section Extract

variable {layers : List Layer} {files : List FileSpec} {cancelled : ℕ → Bool} {label : String}

/-- The archive is asked for the entry with its records, if there is no newline inside of one. -/
lemma MeetsWith.asked {d : Device} {i : ℕ} {e : Entry} {c : Content} {rs : List Pax.Record}
    (h : MeetsWith (.ofFiles files cancelled) layers d label i e c rs)
    (hno : ∀ r ∈ rs, ¬r.HasNewline) :
    ∃ a ∈ (extract ⟨.ok layers⟩ files cancelled (.ok d) label).attempts,
      a.toRequest = ⟨e.header, e.place, Pax.kept rs, c⟩ := by
  have hr := h.carriedRecords
  rw [if_neg (by simpa using hno)] at hr
  rw [extract_eq, (conclude_frame ..).2.1]
  exact h.meets.attempted hr

/-- On a device that takes everything a walk that does not fail makes an extraction succeed. -/
lemma extract_ok_iff :
    (∃ e, (extract ⟨.ok layers⟩ files cancelled (.ok .accepting) label).outcome = .ok e) ↔
      (walk (.ofFiles files cancelled) layers
        (.start (.ofFiles files cancelled) layers .accepting label)).2 = none := by
  rcases hz : walk (.ofFiles files cancelled) layers
    (.start (.ofFiles files cancelled) layers .accepting label) with ⟨s, _ | f⟩
  · obtain ⟨below, s₁, hreached, ⟨log, rfl⟩, -⟩ := walk_ok hz
    obtain ⟨d, hwrite, -⟩ := hreached.isIntact.accepts.write trailer
    rw [extract_eq, hz, conclude_success]
    simp [hwrite]
  · rw [extract_eq, hz, conclude_failure]
    simp

/-- On a device that takes everything, records that are valid by the grammar travel with their entry
just if there is no newline inside of one of them.

If there is none, the archive is asked for the entry with these records, in their order and byte by
byte, but for those that say where the entry or its link is; if there is one, the extraction fails
at this layer. So the extraction from whole layers succeeds, unless it is cancelled, just if there
is no such newline before any entry that is to be written. And what is written comes out of the
archive with these records. What breaks an archive otherwise is left aside: a failure in the content
of an entry, gaps in sparse files, and records of entries that were refused. -/
theorem extract_records (layers : List Layer) (files : List FileSpec) (cancelled : ℕ → Bool)
    (label : String) :
    let o := Order.ofFiles files cancelled
    let x := extract ⟨.ok layers⟩ files cancelled (.ok .accepting) label
    (∀ i e c rs, MeetsWith o layers .accepting label i e c rs →
        if ∃ r ∈ rs, r.HasNewline then
          x.outcome = .error ⟨[.readLayerEntry i], .tar .malformedPax⟩
        else ∃ a ∈ x.attempts, a.toRequest = ⟨e.header, e.place, Pax.kept rs, c⟩) ∧
      ((∀ i ∈ x.opened, ∀ l, layers[i]? = some l → l.IsWhole) → (∀ i, cancelled i = false) →
        (∀ i e c, Meets o layers .accepting label i e c →
          (∃ rs, MeetsWith o layers .accepting label i e c rs) ∨
            e.pax = none ∧ e.header.kind ≠ .extended ∧ e.header.kind ≠ .globalExtended) →
        ((∃ e, x.outcome = .ok e) ↔
          ∀ i e c rs, MeetsWith o layers .accepting label i e c rs → ∀ r ∈ rs, ¬r.HasNewline)) ∧
      ∀ d, x.device = some d → (∀ f, x.outcome = .error f → f.breaksEntry = false) →
        (∀ a ∈ x.completed, a.IsGapless) →
        (∀ a ∈ x.attempts, a.isWritten = false → a.records = []) →
        d.output.length < Numeral.bound →
        ∃ us, unpack d.output = .ok us ∧
          ∀ i e c rs, MeetsWith o layers .accepting label i e c rs →
            (∀ r ∈ rs, ¬r.HasNewline) → (0 : UInt8) ∉ Utf8.encode e.place →
            ¬e.header.Refuses e.place →
            ∃ u ∈ us, u.records = Pax.kept rs ∧ u.content = c.bytes ∧
              (u.path = Utf8.encode e.place ↔ ¬e.header.KeepsFront e.place) := by
  intro o x
  have hx : x = _ := extract_eq layers files cancelled .accepting label
  have hopened : x.opened = _ := (congrArg Extracted.opened hx).trans (conclude_frame ..).1
  refine ⟨?_, ?_, ?_⟩
  · intro i e c rs h
    split_ifs with hnewline
    · rw [hx, h.fails hnewline, conclude_failure]
    · exact h.asked (by simpa using hnewline)
  · intro hwhole hcancel hentries
    rw [hopened] at hwhole
    constructor
    · intro hok i e c rs h r hr hnewline
      rw [extract_ok_iff, h.fails ⟨r, hr, hnewline⟩] at hok
      simp at hok
    · intro hno
      refine extract_ok_iff.mpr (walk_whole hwhole hcancel fun i e c hmeets => ?_)
      rcases hentries i e c hmeets with ⟨rs, h⟩ | ⟨hpax, hkind, hkind'⟩
      · refine ⟨Pax.kept rs, ?_⟩
        rw [h.carriedRecords, if_neg (by simpa using hno i e c rs h)]
      · exact ⟨[], by simp [Entry.carriedRecords, hpax, hkind, hkind']⟩
  · intro d hd hunbroken hgapless hrecords hfits
    obtain ⟨hwritten, hunpack, hpaths⟩ :=
      extract_accepting rfl hd hunbroken hgapless hrecords hfits
    obtain ⟨st, -, hsame, hcompleted, -⟩ := extract_unbroken rfl hd hunbroken
    refine ⟨_, hunpack, ?_⟩
    intro i e c rs h hno hz hrefuses
    obtain ⟨a, ha, hrequest⟩ := h.asked hno
    rcases a with ⟨q, result⟩
    obtain rfl : q = _ := hrequest
    have hw := (hwritten _ ha hz).mpr hrefuses
    have hmem : (⟨⟨e.header, e.place, Pax.kept rs, c⟩, result⟩ : Attempt) ∈ x.completed := by
      rw [show x.completed = _ from hcompleted, ← hsame]
      exact List.mem_filter.mpr ⟨ha, hw⟩
    exact ⟨_, List.mem_map_of_mem hmem, rfl, rfl, hpaths _ hmem⟩

end Extract

lemma Meets.first {o : Order} {l : Layer} {d : Device} {label : String} {y : Entry × Content}
    {more : List (Entry × Content)} {p : String} (hentries : l.entries = y :: more)
    (hopen : o.isDone (.start o [l] d label) = false) (hgo : o.cancelled 0 = false)
    (hmatch : o.match? Resolved.empty y.1 = some p) : Meets o [l] d label 0 y.1 y.2 := by
  rcases hsrc : l.openLayer with f | src
  · simp [Layer.entries, hsrc] at hentries
  let r := Reader.ofSource src
  simp only [Layer.entries, hsrc] at hentries
  rw [Reader.entries_eq (Reader.proper_ofSource src),
    show r.content.drain = .ok ([], r.content) from rfl] at hentries
  rcases hn : Reader.next? { r with content := r.content } with err | _ | ⟨e, r'⟩ <;>
    simp only [r, hn] at hentries
  · simp at hentries
  · simp at hentries
  obtain ⟨rfl, -⟩ := List.cons.inj hentries
  exact ⟨_, r', [], _, p, .single (.enter hopen hgo hsrc), hopen, hn, hmatch, rfl⟩

/-- Records that say where a file is and that it has this attribute. -/
def tags (value : Bytes) : List Pax.Record :=
  [⟨Utf8.encode "path", Utf8.encode "usr/bin/foo"⟩,
    ⟨Utf8.encode "SCHILY.xattr.user.tag", value⟩]

def taggedLayer (value : Bytes) : Layer :=
  let data := Pax.encode (tags value)
  ⟨"tagged", .ok (.ofBytes (memberBytes (extendedHeader data.length) data ++
    memberBytes (bareHeader "foo" 5) [104, 101, 108, 108, 111] ++ trailer))⟩

lemma denotes_tags (value : Bytes) : Pax.Denotes (Pax.encode (tags value)) (tags value) := by
  refine Pax.denotes_encode ?_
  simp only [tags, List.mem_cons, List.not_mem_nil, or_false, forall_eq_or_imp, forall_eq]
  decide +kernel

lemma Meets.tagged {o : Order} {d : Device} {label : String} {value : Bytes} {i : ℕ} {e : Entry}
    {c : Content}
    (hpax : ∀ y ∈ (taggedLayer value).entries, y.1.pax = some (Pax.encode (tags value)))
    (h : Meets o [taggedLayer value] d label i e c) :
    MeetsWith o [taggedLayer value] d label i e c (tags value) := by
  obtain ⟨l, hl, he⟩ := h.mem_entries
  obtain rfl := List.mem_singleton.mp (List.mem_of_getElem? hl)
  exact ⟨h, _, hpax _ he, denotes_tags value⟩

/-- A file is written with an attribute that is no text and has a `=` and a NUL in it, and without
the record that says where it was, since it is stored there. -/
theorem extract_records_tagged :
    let x := extract ⟨.ok [taggedLayer [255, 0, 61]]⟩ [⟨"/usr/bin/foo", "."⟩] (fun _ => false)
      (.ok .accepting) "out"
    (∃ e, x.outcome = .ok e) ∧ ∃ d us, x.device = some d ∧ unpack d.output = .ok us ∧
      ∃ u ∈ us, u.records = [⟨Utf8.encode "SCHILY.xattr.user.tag", [255, 0, 61]⟩] ∧
        u.content = [104, 101, 108, 108, 111] := by
  intro x
  let l := taggedLayer [255, 0, 61]
  let o := Order.ofFiles [⟨"/usr/bin/foo", "."⟩] fun _ => false
  obtain ⟨-, hok, hread⟩ := extract_records [l] [⟨"/usr/bin/foo", "."⟩] (fun _ => false) "out"
  have hlayer : l.entries.length = 1 ∧
      (∀ y ∈ l.entries, y.1.pax = some (Pax.encode (tags [255, 0, 61]))) ∧
      ∀ y ∈ l.entries, y.1.header.form = .gnu ∧
        o.match? Resolved.empty y.1 = some "usr/bin/foo" ∧ y.1.place = "usr/bin/foo" ∧
        y.2.bytes = [104, 101, 108, 108, 111] := by
    decide +kernel
  have hrun : (x.device.isSome = true ∧
        x.device.all (fun d => d.output.length < Numeral.bound) = true) ∧
      (∀ a ∈ x.completed, a.header.kind = .regular) ∧ ∀ a ∈ x.attempts, a.isWritten = true := by
    decide +kernel
  obtain ⟨hone, hpax, hentries⟩ := hlayer
  obtain ⟨⟨hsome, hlen⟩, hregular, hwritten⟩ := hrun
  obtain ⟨y, hy⟩ := List.length_eq_one_iff.mp hone
  obtain ⟨hform, hmatch, hplace, hbytes⟩ := hentries y (by simp [hy])
  have hno : ∀ r ∈ tags [255, 0, 61], ¬r.HasNewline := by decide +kernel
  have hwhole : l.IsWhole := ⟨_, rfl, Reader.isWhole_of_within (n := 2) (by decide +kernel)⟩
  obtain ⟨e, he⟩ : ∃ e, x.outcome = .ok e := by
    refine (hok ?_ (fun _ => rfl) fun i e c h => .inl ⟨_, h.tagged hpax⟩).mpr ?_
    · intro i _ l' hl
      obtain rfl := List.mem_singleton.mp (List.mem_of_getElem? hl)
      exact hwhole
    · rintro i e c rs ⟨hmeets, data, hdata, hdenotes⟩
      obtain ⟨-, data', hdata', hdenotes'⟩ := hmeets.tagged hpax
      obtain rfl := Option.some.inj (hdata.symm.trans hdata')
      rw [hdenotes.unique hdenotes']
      exact hno
  refine ⟨⟨e, he⟩, ?_⟩
  obtain ⟨d, hd⟩ := Option.isSome_iff_exists.mp hsome
  rw [hd, Option.all_some, decide_eq_true_eq] at hlen
  obtain ⟨us, hus, hfound⟩ := hread d hd (Extracted.unbroken_of_ok he)
    (fun a ha hsparse => by simp [hregular a ha] at hsparse)
    (fun a ha hw => by simp [hwritten a ha] at hw) hlen
  have hmet : Meets o [l] .accepting "out" 0 y.1 y.2 := Meets.first hy rfl rfl hmatch
  obtain ⟨u, hu, hrecords, hcontent, -⟩ := hfound 0 y.1 y.2 _ (hmet.tagged hpax) hno
    (by rw [hplace]; decide +kernel) (by simp [Header.Refuses, hform])
  refine ⟨d, us, hd, hus, u, hu, ?_, hcontent.trans hbytes⟩
  rw [hrecords]
  decide +kernel

/-- By the grammar a newline may stand in a value. The extraction of a file with such a record fails,
before the archive is asked for the file. -/
theorem extract_records_cut :
    let x := extract ⟨.ok [taggedLayer [97, 10, 98]]⟩ [⟨"/usr/bin/foo", "."⟩] (fun _ => false)
      (.ok .accepting) "out"
    (∃ e c, MeetsWith (.ofFiles [⟨"/usr/bin/foo", "."⟩] fun _ => false)
        [taggedLayer [97, 10, 98]] .accepting "out" 0 e c (tags [97, 10, 98])) ∧
      x.outcome = .error ⟨[.readLayerEntry 0], .tar .malformedPax⟩ ∧ x.attempts = [] := by
  intro x
  constructor
  · let o := Order.ofFiles [⟨"/usr/bin/foo", "."⟩] fun _ => false
    have hlayer : (taggedLayer [97, 10, 98]).entries.length = 1 ∧
        ∀ y ∈ (taggedLayer [97, 10, 98]).entries,
          y.1.pax = some (Pax.encode (tags [97, 10, 98])) ∧
            o.match? Resolved.empty y.1 = some "usr/bin/foo" := by
      decide +kernel
    obtain ⟨hone, hentries⟩ := hlayer
    obtain ⟨y, hy⟩ := List.length_eq_one_iff.mp hone
    have hmet : Meets o [taggedLayer [97, 10, 98]] .accepting "out" 0 y.1 y.2 :=
      Meets.first hy rfl rfl (hentries y (by simp [hy])).2
    exact ⟨_, _, hmet.tagged fun z hz => (hentries z hz).1⟩
  · decide +kernel

end LayerPick
