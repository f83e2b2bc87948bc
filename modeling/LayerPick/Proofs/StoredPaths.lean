import LayerPick.Proofs.PathCuts
import LayerPick.Proofs.ReadBack

/-!
# The paths under which entries are found

An entry is stored under the canonical path that it was matched under, and with the header that it
had. Two things can come between. A ustar header comes with the front part of its own path, and a
path of up to 100 bytes goes into the field behind it and leaves the front part where it is; then
the entry is found below a folder that it was not stored in. And a longer path may be such that a
ustar header `Refuses` it. Whatever else there is to an entry and to its path, it is stored and found
under that path.
-/
namespace LayerPick

open Tar

/-- The first entry of the archive, if it is ended here, is found under this path. -/
def Archive.StartsWith (a : Archive) (path : Bytes) : Prop :=
  ∃ e r', (Reader.ofSource (.ofBytes a.ended)).next? = .ok (some (e, r')) ∧ e.path = path

section Append

variable {h : Header} {p : String} {rs : List Pax.Record} {c : Content} {label : String}

/-- Where nothing but records is left before the end, there is no entry. -/
lemma Tar.Reader.next?_leftOver {r : Reader}
    (hr : r.StandsAt ((if rs.isEmpty then [] else extendedCalls rs).flatten ++ trailer))
    (hfits : r.next + (if rs.isEmpty then [] else extendedCalls rs).flatten.length <
      Numeral.bound) (e : Entry) (r' : Reader) : r.next? ≠ .ok (some (e, r')) := by
  obtain ⟨k, r₁, hn, hk, hat, -⟩ := hr.nextFrom?_records (m := 3) hfits
  obtain ⟨k, rfl⟩ : ∃ j, k = j + 1 := ⟨k - 1, by omega⟩
  have hblock := hat.nextBlock?_none.mpr (.inr zeros_prefix_trailer)
  have hmember : r₁.nextMember? (paxData rs) = .ok none := by
    simp only [Reader.nextMember?, hblock, ok_bind]
  rw [Reader.next?, hn]
  simp only [Reader.nextFrom?, hmember, ok_bind]
  split_ifs <;> simp

lemma Tar.writeEntry_readable {d d' : Device} {b : Bytes} {c₁ c' : Content} {m : String}
    (hc : c.drain = .ok (b, c₁)) (hw : writeEntry d h p rs c = (d', c', .unreadable m)) : False := by
  rcases writeEntry_cases hw with ⟨-, m', hm⟩ | ⟨d₁, d₂, r₁, hcopy, hr | ⟨n, m', -, hr⟩⟩
  · simp at hm
  · subst hr
    obtain ⟨f, hf, -⟩ := explains_copy hcopy
    rw [hc] at hf
    simp at hf
  · simp at hr

/-- On a device that takes everything, what can be read is written just if its header takes its
path. -/
lemma Archive.append_accepting {b : Bytes} {c₁ : Content} (hc : c.drain = .ok (b, c₁)) :
    (∃ k, ((Archive.new .accepting label).append h p rs c).2.2 = .complete k) ↔
      (frontCalls h p rs).2 = none := by
  rcases hw : writeEntry .accepting h p rs c with ⟨d, c', r⟩
  have happ : ((Archive.new .accepting label).append h p rs c).2.2 = r := by
    simp only [Archive.append, Archive.new, hw]
  rw [happ]
  rcases (writeEntry_accepting Device.accepts_accepting hw).2 with ⟨e, he, hr, -⟩ | ⟨he, hno, -⟩
  · rw [he, hr]
    simp
  · refine iff_of_true ?_ he
    cases r with
    | complete k => exact ⟨k, rfl⟩
    | refused m => exact absurd rfl (hno m)
    | unreadable m => exact (writeEntry_readable hc hw).elim

/-- A header that a reader has found, with the records that go with it, is one that a reader finds
again. -/
lemma Tar.Reader.found {r r' : Reader} {e : Entry} {c₁ : Content} {n : ℕ}
    (hn : r.next? = .ok (some (e, r'))) (hr : e.carriedRecords r'.content = .ok (rs, c₁))
    (hwhole : e.header.kind = .sparse → e.header.sparseContinues = false)
    (hstored : announcedWith e.header rs = .ok n) :
    e.header.describes = false ∧ (∀ x ∈ rs, x.IsCarried) ∧ ∃ full, e.header.Yields n full := by
  obtain ⟨hdescribes, stored, hannounced, -, hsparse⟩ := Reader.next?_announced hn
  obtain ⟨hcarried, hwith⟩ := announcedWith_of_carried hr (n := stored)
  obtain rfl := Except.ok.inj (hstored.symm.trans (hwith hannounced))
  refine ⟨hdescribes, hcarried, ?_⟩
  by_cases hk : e.header.kind = .sparse
  · obtain ⟨ps, c, c', k, hps⟩ := hsparse hk
    exact ⟨e.size, Header.yields_of_sparsePieces (hwhole hk) hk hps⟩
  · exact ⟨n, Header.yields_of_ne hk n⟩

lemma Archive.append_new {d : Device} {c' : Content} {r : Copied}
    (hw : writeEntry .accepting h p rs c = (d, c', r)) :
    (Archive.new .accepting label).append h p rs c =
      (⟨d, label, [⟨⟨h, p, rs, c⟩, r⟩]⟩, c', r) := by
  simp only [Archive.append, Archive.new, hw]

section Found

variable {b : Bytes} {c₁ : Content} {n full : ℕ}
  (hfits : ((Archive.new .accepting label).append h p rs c).1.device.output.length +
    (n + padding n) < Numeral.bound)
include hfits

lemma Archive.append_found (hp : Path.IsCanonical p) (hd : h.describes = false)
    (hrs : ∀ x ∈ rs, x.IsCarried) (hy : h.Yields n full) (hn : announcedWith h rs = .ok n)
    (hc : c.drain = .ok (b, c₁)) (hplaced : (frontCalls h p rs).2 = none) :
    ((Archive.new .accepting label).append h p rs c).1.StartsWith (storedPath h p) := by
  obtain ⟨k, hk⟩ : ∃ k, ((Archive.new .accepting label).append h p rs c).2.2 = .complete k :=
    (Archive.append_accepting hc).mpr hplaced
  obtain ⟨ns, hns, -, -, rfl⟩ := hp.names
  rcases hw : writeEntry .accepting h (Path.join ns) rs c with ⟨d, c', r⟩
  rw [Archive.append_new hw] at hk hfits ⊢
  obtain rfl : r = .complete k := hk
  obtain ⟨-, b', -, -, hout⟩ := output_complete hw
  rw [show Device.accepting.output = [] from rfl, List.nil_append] at hout
  have hstands := Reader.standsAt_ofBytes (d.output ++ trailer)
  unfold Archive.StartsWith
  simp only [Archive.ended]
  rw [hout, List.append_assoc] at hstands ⊢
  simp only [hout, List.length_append] at hfits
  have hlen := Reader.length_encode_le h (Path.join ns) rs
  have hsize := (announced_paxData h hrs (by omega)).trans hn
  obtain ⟨e, ps, s, hnext, -, -, -, -, hpath⟩ := hstands.next?_stored hns hrs hplaced hsize hd hy
    (by simp only [Reader.ofSource, Nat.zero_add]; omega)
  exact ⟨e, _, hnext, hpath⟩

lemma Archive.append_notFound (hrefused : (frontCalls h p rs).2 ≠ none) (path : Bytes) :
    ¬((Archive.new .accepting label).append h p rs c).1.StartsWith path := by
  rintro ⟨e, r', hfound, -⟩
  rcases hw : writeEntry .accepting h p rs c with ⟨d, c', r⟩
  rw [Archive.append_new hw] at hfits hfound
  rcases (writeEntry_accepting Device.accepts_accepting hw).2 with ⟨err, he, -, hout⟩ | ⟨he, -⟩
  · rw [show Device.accepting.output = [] from rfl, List.nil_append, frontCalls_error he] at hout
    have hstands := Reader.standsAt_ofBytes (d.output ++ trailer)
    simp only [Archive.ended] at hfits hfound
    rw [hout] at hstands hfits hfound
    exact Reader.next?_leftOver hstands (by simp only [Reader.ofSource, Nat.zero_add]; omega) e r'
      hfound
  · exact absurd he hrefused

/-- What becomes of an entry with a canonical path: a header refuses it, or the entry is found, and
under that path unless the header keeps the front part of another one. -/
lemma Archive.append_path (hp : Path.IsCanonical p) (hd : h.describes = false)
    (hrs : ∀ x ∈ rs, x.IsCarried) (hy : h.Yields n full) (hn : announcedWith h rs = .ok n)
    (hc : c.drain = .ok (b, c₁)) :
    ((∃ k, ((Archive.new .accepting label).append h p rs c).2.2 = .complete k) ↔
        ¬h.Refuses p) ∧
      (((Archive.new .accepting label).append h p rs c).1.StartsWith (Utf8.encode p) ↔
        ¬h.Refuses p ∧ ¬h.KeepsFront p) := by
  have hplaced : (frontCalls h p rs).2 = none ↔ ¬h.Refuses p := by
    rw [frontCalls_snd, placePath_none_iff hp]
  refine ⟨(Archive.append_accepting hc).trans hplaced, ?_⟩
  by_cases hno : (frontCalls h p rs).2 = none
  · obtain ⟨e, r', hfound, hpath⟩ := Archive.append_found hfits hp hd hrs hy hn hc hno
    obtain ⟨ns, hns, -, -, hjoin⟩ := hp.names
    have hstay : storedPath h p = Utf8.encode p ↔ ¬h.KeepsFront p := by
      rw [frontCalls_snd, hjoin] at hno
      rw [hjoin]
      exact storedPath_eq_iff hns hno
    rw [and_iff_right (hplaced.mp hno), ← hstay]
    constructor
    · rintro ⟨e', r'', hfound', hsame⟩
      obtain ⟨rfl, -⟩ := by simpa only [hfound, Except.ok.injEq, Option.some.injEq,
        Prod.mk.injEq] using hfound'
      exact hpath.symm.trans hsame
    · exact fun hsame => ⟨e, r', hfound, hpath.trans hsame⟩
  · exact iff_of_false (Archive.append_notFound hfits hno _) fun hboth => hno (hplaced.mpr hboth.1)

end Found

end Append

section Extract

variable {o : Order} {layers : List Layer} {label : String} {x : Stand × WalkState}

/-- On a device that takes everything the archive is intact wherever the walk comes. -/
lemma Reached.isIntact (h : Reached o layers .accepting label x) : x.2.archive.IsIntact := by
  refine h.invariant (P := fun x => x.2.archive.IsIntact) (Archive.isIntact_new label) ?_
  intro x y _ hm hx
  cases hm with
  | enter _ _ _ => exact hx
  | pass _ _ _ => exact hx
  | take _ hn hmatch ht => exact take_intact hx hmatch hn ht
  | leave _ => exact hx

/-- The path of an attempt is canonical, unless there is a NUL in it. -/
lemma Meets.isCanonical {d : Device} {i : ℕ} {e : Entry} {c : Content} {a : Attempt}
    (hy : Meets o layers d label i e c) (ha : a.IsFor (e, c))
    (hz : (0 : UInt8) ∉ Utf8.encode a.path) : Path.IsCanonical a.path := by
  obtain ⟨r, r', below, s, p, -, -, -, hmatch, rfl⟩ := hy
  obtain ⟨-, -, hpath⟩ := requestFor?_eq.mp ha.request
  obtain ⟨-, -, hne, hstays, -⟩ := Entry.isWanted_iff.mp (match?_some.mp hmatch).1
  exact ⟨⟨_, hpath⟩, hpath ▸ hstays, hpath ▸ hne, hz⟩

/-- What an extraction has written on a device that takes everything is unpacked, if nothing but it
has been left there. -/
lemma extract_accepting {files : List FileSpec} {cancelled : ℕ → Bool} {x : Extracted} {d : Device}
    (hx : extract ⟨.ok layers⟩ files cancelled (.ok .accepting) label = x) (hd : x.device = some d)
    (hunbroken : ∀ f, x.outcome = .error f → f.breaksEntry = false)
    (hgapless : ∀ a ∈ x.completed, a.IsGapless)
    (hrecords : ∀ a ∈ x.attempts, a.isWritten = false → a.records = [])
    (hfits : d.output.length < Numeral.bound) :
    (∀ a ∈ x.attempts, (0 : UInt8) ∉ Utf8.encode a.path →
        (a.isWritten = true ↔ ¬a.header.Refuses a.path)) ∧
      unpack d.output = .ok (x.completed.map fun a => a.stored) ∧
      ∀ a ∈ x.completed, a.stored.path = Utf8.encode a.path ↔ ¬a.header.KeepsFront a.path := by
  obtain ⟨st, hst, hattempts, hcompleted, t, ht, hout⟩ := extract_unbroken hx hd hunbroken
  have hintact := hst.isIntact
  rw [hattempts] at hrecords ⊢
  have hwritten : ∀ a ∈ st.2.archive.attempts, a.isWritten = true →
      a.IsStorable ∧ (frontCalls a.header a.path a.records).2 = none := by
    intro a ha hw
    have hmem : a ∈ x.completed := hcompleted ▸ List.mem_filter.mpr ⟨ha, hw⟩
    exact ⟨hst.isStorable ha hw (hgapless a hmem), (hintact.sound a ha).placed.mpr hw⟩
  refine ⟨?_, ?_, ?_⟩
  · intro a ha hz
    obtain ⟨i, e, c, hy, hfor⟩ := hst.attempts a ha
    rw [← (hintact.sound a ha).placed, frontCalls_snd, placePath_none_iff (hy.isCanonical hfor hz)]
  · rw [hout, List.length_append, hintact.output] at hfits
    have hholds := holds_storedBy hrecords hwritten (by omega)
    rw [hout, hintact.output, hcompleted]
    apply (hholds.unpack_iff (by omega)).mpr
    rcases ht with rfl | rfl
    · exact .inl rfl
    · exact .inr zeros_prefix_trailer
  · intro a ha
    rw [hcompleted] at ha
    obtain ⟨ha, hw⟩ := List.mem_filter.mp ha
    obtain ⟨hstorable, hplaced⟩ := hwritten a ha hw
    rw [← hstorable.stored_eq_iff hplaced]
    simp [Request.stored, Request.unpacked]

end Extract

lemma fooLayer_first : ∃ (r r' : Reader) (e : Entry) (b : Bytes) (c : Content),
    r.next? = .ok (some (e, r')) ∧
    (e, r'.content) ∈ fooLayer.entries ∧ (e.header.kind = .regular ∧ e.header.form = .gnu) ∧
      e.carriedRecords r'.content = .ok ([], r'.content) ∧ announcedWith e.header [] = .ok 5 ∧
      r'.content.drain = .ok (b, c) ∧
      ((Archive.new .accepting "out").append e.header "opt/foo" []
        r'.content).1.device.output.length + (5 + padding 5) < Numeral.bound := by
  let r := Reader.ofSource (.ofBytes ((bareHeader "usr/bin/foo" 5).toBytes ++
    [104, 101, 108, 108, 111] ++ zeros 507 ++ trailer))
  have hfirst : (r.next?.toOption.join.any fun y =>
      decide ((y.1.header.kind = .regular ∧ y.1.header.form = .gnu) ∧
        y.1.carriedRecords y.2.content = .ok ([], y.2.content) ∧
        announcedWith y.1.header [] = .ok 5 ∧ y.2.content.drain.toOption.isSome = true ∧
        ((Archive.new .accepting "out").append y.1.header "opt/foo" []
          y.2.content).1.device.output.length + (5 + padding 5) < Numeral.bound)) = true := by
    decide +kernel
  rcases hn : r.next? with err | _ | ⟨e, r'⟩ <;> rw [hn] at hfirst
  · simp [Except.toOption] at hfirst
  · simp [Except.toOption] at hfirst
  obtain ⟨hheader, hr, hstored, hdrain, hfits⟩ := of_decide_eq_true hfirst
  have hmem : (e, r'.content) ∈ fooLayer.entries := by
    rw [show fooLayer.entries = r.entries from rfl,
      Reader.entries_next (Reader.proper_ofSource _) hn]
    exact List.mem_cons_self ..
  rcases hd : r'.content.drain with f | ⟨b, c⟩ <;> rw [hd] at hdrain
  · simp [Except.toOption] at hdrain
  exact ⟨r, r', e, b, c, hn, hmem, hheader, hr, hstored, hd, hfits⟩

/-- On a device that takes everything, an entry that a reader has found is stored under any canonical
path, with content that can be read, and found under that path as the first entry of its archive: the
append succeeds just if the header does not refuse the path, and the path is that one just if the
header does not keep the front part of another one either. A sparse header is left aside if more of
its map stands behind it.

So every matched entry of an image whose path is not refused is written, and all that is written is
found under the paths of the entries just if no header keeps the front part of another one. What
breaks an archive otherwise is left aside: a failure in the content of an entry, gaps in sparse
files, and records of entries that were refused. -/
theorem stored_paths (label : String) :
    (∀ (r r' : Reader) (e : Entry) (rs : List Pax.Record) (c₁ c c' : Content) (b : Bytes) (n : ℕ)
        (p : String), r.next? = .ok (some (e, r')) →
      e.carriedRecords r'.content = .ok (rs, c₁) →
      (e.header.kind = .sparse → e.header.sparseContinues = false) →
      announcedWith e.header rs = .ok n → c.drain = .ok (b, c') → Path.IsCanonical p →
      ((Archive.new .accepting label).append e.header p rs c).1.device.output.length +
        (n + padding n) < Numeral.bound →
      ((∃ k, ((Archive.new .accepting label).append e.header p rs c).2.2 = .complete k) ↔
          ¬e.header.Refuses p) ∧
        (((Archive.new .accepting label).append e.header p rs c).1.StartsWith (Utf8.encode p) ↔
          ¬e.header.Refuses p ∧ ¬e.header.KeepsFront p)) ∧
    ∀ (layers : List Layer) (files : List FileSpec) (cancelled : ℕ → Bool) (x : Extracted)
        (d : Device),
      extract ⟨.ok layers⟩ files cancelled (.ok .accepting) label = x → x.device = some d →
      (∀ f, x.outcome = .error f → f.breaksEntry = false) → (∀ a ∈ x.completed, a.IsGapless) →
      (∀ a ∈ x.attempts, a.isWritten = false → a.records = []) →
      d.output.length < Numeral.bound →
      (∀ a ∈ x.attempts, (0 : UInt8) ∉ Utf8.encode a.path →
          (a.isWritten = true ↔ ¬a.header.Refuses a.path)) ∧
        ∃ us, unpack d.output = .ok us ∧
          (us.map Unpacked.path = x.completed.map (fun a => Utf8.encode a.path) ↔
            ∀ a ∈ x.completed, ¬a.header.KeepsFront a.path) := by
  constructor
  · intro r r' e rs c₁ c c' b n p hn hr hwhole hstored hc hp hfits
    obtain ⟨hd, hrs, full, hy⟩ := Reader.found hn hr hwhole hstored
    exact Archive.append_path hfits hp hd hrs hy hstored hc
  · intro layers files cancelled x d hx hd hunbroken hgapless hrecords hfits
    obtain ⟨hwritten, hunpack, hpaths⟩ :=
      extract_accepting hx hd hunbroken hgapless hrecords hfits
    refine ⟨hwritten, _, hunpack, ?_⟩
    rw [List.map_map, List.map_inj_left]
    exact forall₂_congr fun a ha => hpaths a ha

/-- The file of a layer is found under its path in what was extracted, and under another one where it
is stored under that. -/
theorem stored_paths_foo :
    let x := extract ⟨.ok [fooLayer]⟩ [⟨"/usr/bin/foo", "."⟩] (fun _ => false) (.ok .accepting) "out"
    (∃ d us, x.device = some d ∧ unpack d.output = .ok us ∧
        us.map Unpacked.path = [Utf8.encode "usr/bin/foo"]) ∧
      ∃ y ∈ fooLayer.entries,
        ((Archive.new .accepting "out").append y.1.header "opt/foo" [] y.2).1.StartsWith
          (Utf8.encode "opt/foo") := by
  intro x
  constructor
  · have hrun : x.outcome = .ok ⟨[⟨"/usr/bin/foo", "."⟩], [], 1, "out"⟩ ∧
        (x.device.isSome = true ∧
          x.device.all (fun d => d.output.length < Numeral.bound) = true) ∧
        (∀ a ∈ x.attempts, a.records = []) ∧
        (∀ a ∈ x.completed, a.header.kind = .regular ∧ a.header.form = .gnu) ∧
        x.completed.map (fun a => Utf8.encode a.path) = [Utf8.encode "usr/bin/foo"] := by
      decide +kernel
    obtain ⟨houtcome, ⟨hsome, hlen⟩, hrecords, hregular, hpath⟩ := hrun
    obtain ⟨d, hd⟩ := Option.isSome_iff_exists.mp hsome
    rw [hd, Option.all_some, decide_eq_true_eq] at hlen
    have hgapless : ∀ a ∈ x.completed, a.IsGapless := by
      intro a ha hsparse
      rw [(hregular a ha).1] at hsparse
      simp at hsparse
    obtain ⟨-, us, hus, hpaths⟩ := (stored_paths "out").2 _ _ _ x d rfl hd
      (Extracted.unbroken_of_ok houtcome) hgapless (fun a ha _ => hrecords a ha) hlen
    refine ⟨d, us, hd, hus, (hpaths.mpr ?_).trans hpath⟩
    intro a ha hfront
    rw [Header.KeepsFront, (hregular a ha).2] at hfront
    simp at hfront
  · obtain ⟨r, r', e, b, c, hn, hmem, ⟨hkind, hform⟩, hr, hstored, hd, hfits⟩ := fooLayer_first
    have hcanonical : Path.IsCanonical "opt/foo" :=
      ⟨⟨"opt/foo", by decide⟩, by decide, by decide, by decide⟩
    have hfound := ((stored_paths "out").1 r r' e [] _ _ c b 5 "opt/foo" hn hr
      (by simp [hkind]) hstored hd hcanonical hfits).2
    refine ⟨_, hmem, hfound.mpr ⟨fun h => ?_, fun h => ?_⟩⟩
    · simp [Header.Refuses, hform] at h
    · simp [Header.KeepsFront, hform] at h

/-- A layer with the file `usr/bin/foo`, whose path stands in two parts in its header. -/
def splitLayer : Layer :=
  let h : Header := { bareHeader "bin/foo" 5 with
    magic := .ofBytes 8 ustarMagic
    tail := .ofBytes 167 (Utf8.encode "./usr") }
  ⟨"split", .ok (.ofBytes (h.withChecksum.toBytes ++ [104, 101, 108, 108, 111] ++ zeros 507 ++
    trailer))⟩

/-- A file whose path stands in two parts is stored with the first part twice. -/
theorem extract_staleFront :
    let x := extract ⟨.ok [splitLayer]⟩ [⟨"/usr/bin/foo", "."⟩] (fun _ => false) (.ok .accepting)
      "out"
    x.outcome = .ok ⟨[⟨"/usr/bin/foo", "."⟩], [], 1, "out"⟩ ∧
      splitLayer.entries.map (fun y => (y.1.path, y.1.place)) =
        [(Utf8.encode "./usr/bin/foo", "usr/bin/foo")] ∧
      x.device.map (fun d => unpack d.output) =
        some (.ok [⟨Utf8.encode "./usr/usr/bin/foo", [], [104, 101, 108, 108, 111]⟩]) := by
  decide +kernel

end LayerPick
