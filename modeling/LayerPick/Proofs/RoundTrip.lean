import LayerPick.Proofs.CarriedOwners
import LayerPick.Proofs.StoredPaths

/-!
# Writing and reading back

Requests for regular files under canonical paths, with headers that are not of the ustar form and
with records that say nothing about the file itself, are read back as they were made: each with its
path, the metadata of its header, its records and its content. Records that do say something may
stay: a request `IsKept` if header and records agree on what they say.

A reader that `Finds` some entries has gone through an archive entry by entry and has read the
records and the content of each. What is written of a row of requests `Stores` such entries, which
hang on where it stands but not on what follows. So nothing that is appended later changes them.
-/
namespace LayerPick

open Tar

namespace Tar

/-- An entry that a reader has come upon, with what it has read of it. -/
structure Found where
  entry : Entry
  records : List Pax.Record
  content : Bytes

/-- The reader comes upon these entries one after the other, reads the records and all of the content
of each, and stands in the end behind the last one. -/
inductive Reader.Finds : Reader → List Found → Reader → Prop
  | done (r : Reader) : Finds r [] r
  | entry {r r₁ r₂ : Reader} {e : Entry} {rs : List Pax.Record} {c₁ c₂ : Content} {b : Bytes}
    {zs : List Found} : r.next? = .ok (some (e, r₁)) →
    e.carriedRecords r₁.content = .ok (rs, c₁) → c₁.drain = .ok (b, c₂) →
    Finds { r₁ with content := c₂ } zs r₂ → Finds r (⟨e, rs, b⟩ :: zs) r₂

/-- A reader finds these entries in the bytes if they stand at the position `k` of an archive,
whatever follows them. -/
def Stores (b : Bytes) (k : ℕ) (zs : List Found) : Prop :=
  k + b.length < Numeral.bound → ∀ (r : Reader) (rest : Bytes), r.StandsAt (b ++ rest) →
    r.next = k → ∃ r', r.Finds zs r' ∧ r'.StandsAt rest ∧ r'.next = k + b.length

lemma Reader.Finds.append {r r₁ r₂ : Reader} {zs ws : List Found} (h : r.Finds zs r₁)
    (h' : r₁.Finds ws r₂) : r.Finds (zs ++ ws) r₂ := by
  induction h with
  | done _ => exact h'
  | entry hn hrs hd _ ih => exact .entry hn hrs hd (ih h')

lemma stores_nil (k : ℕ) : Stores [] k [] :=
  fun _ r _ hr hk => ⟨r, .done r, hr, hk⟩

lemma Stores.append {b c : Bytes} {k : ℕ} {zs ws : List Found} (hb : Stores b k zs)
    (hc : Stores c (k + b.length) ws) : Stores (b ++ c) k (zs ++ ws) := by
  intro hfits r rest hr hk
  rw [List.length_append, ← Nat.add_assoc] at hfits ⊢
  rw [List.append_assoc] at hr
  obtain ⟨r₁, hfinds₁, hat₁, hk₁⟩ := hb (by omega) r _ hr hk
  obtain ⟨r₂, hfinds₂, hat₂, hk₂⟩ := hc hfits r₁ rest hat₁ hk₁
  exact ⟨r₂, hfinds₁.append hfinds₂, hat₂, hk₂⟩

/-- The records of a regular file are those that were written before it. -/
lemma carriedRecords_of_paxData {e : Entry} {rs : List Pax.Record} (hrs : ∀ r ∈ rs, r.IsCarried)
    (hb : (Pax.encode rs).length < Numeral.bound) (hpax : e.pax = paxData rs)
    (hk : e.header.kind = .regular) (c : Content) : e.carriedRecords c = .ok (rs, c) := by
  cases rs with
  | nil => simp [Entry.carriedRecords, hpax, paxData, hk]
  | cons x xs =>
    have hcarried := carriedFrom_encode hrs hb
    simp only [Entry.carriedRecords, hpax, paxData, List.isEmpty_cons, Bool.false_eq_true, if_false,
      hcarried, ok_bind, pure_eq]

end Tar

/-- A request for a regular file that an archive keeps as it is: its header is not of the ustar form
and states the size of the content, its path is canonical, and its records are lines that name
neither another path nor another size nor other owners. -/
structure Request.IsPortable (q : Request) : Prop where
  form : q.header.form ≠ .ustar
  isRegular : q.header.kind = .regular
  states : readNumber q.header.size.bytes = .ok q.content.bytes.length
  isReadable : ∃ c, q.content.drain = .ok (q.content.bytes, c)
  isCanonical : Path.IsCanonical q.path
  isLine : ∀ r ∈ q.records, r.IsLine
  isText : ∀ r ∈ q.records, (Utf8.decode? r.key).isSome
  isFree : ∀ r ∈ q.records, ∀ key ∈ ["path", "linkpath", "size", "uid", "gid"],
    r.key ≠ Utf8.encode key

/-- A request for a regular file that a reader finds as it is: it can be stored, its header is not of
the ustar form and takes the path, and it has the owners that the records give. -/
structure Request.IsKept (q : Request) : Prop extends q.IsStorable where
  form : q.header.form ≠ .ustar
  isRegular : q.header.kind = .regular
  placed : (frontCalls q.header q.path q.records).2 = none
  owned : q.header.OwnedBy q.records

structure Request.IsFound (q : Request) (z : Found) : Prop where
  path : z.entry.path = Utf8.encode q.path
  kind : z.entry.header.kind = q.header.kind
  mode : z.entry.header.mode = q.header.mode
  userId : z.entry.header.userId = q.header.userId
  groupId : z.entry.header.groupId = q.header.groupId
  modified : z.entry.header.modified = q.header.modified
  size : z.entry.size = q.content.bytes.length
  records : z.records = q.records
  content : z.content = q.content.bytes

section One

variable {q : Request}

lemma Request.IsPortable.isCarried (hq : q.IsPortable) : ∀ r ∈ q.records, r.IsCarried := by
  intro r hr
  refine ⟨hq.isLine r hr, hq.isText r hr, ?_⟩
  have hfree := hq.isFree r hr
  simp only [dropsKey, Bool.or_eq_false_iff, beq_eq_false_iff_ne]
  exact ⟨hfree "path" (by simp), hfree "linkpath" (by simp)⟩

lemma Request.IsPortable.numberIn? (hq : q.IsPortable) {key : String}
    (hkey : key ∈ ["path", "linkpath", "size", "uid", "gid"]) :
    Pax.numberIn? key q.records = none := by
  have hnone : q.records.find? (fun r => r.key = Utf8.encode key) = none :=
    List.find?_eq_none.mpr fun r hr => by simpa using hq.isFree r hr key hkey
  rw [Pax.numberIn?, hnone]
  rfl

lemma Request.IsPortable.isKept (hq : q.IsPortable) : q.IsKept := by
  obtain ⟨ns, hns, -, -, hp⟩ := hq.isCanonical.names
  have hk : q.header.kind ≠ .sparse := by simp [hq.isRegular]
  refine ⟨⟨⟨ns, hns, hp⟩, hq.isCarried, by simp [Header.describes, hq.isRegular], ?_,
    Header.yields_of_ne hk _⟩, hq.form, hq.isRegular, ?_, ?_, ?_⟩
  · rw [announcedWith_regular hq.isRegular hq.states, hq.numberIn? (by simp), Option.getD_none]
  · rw [frontCalls_snd, placePath_none_iff hq.isCanonical]
    exact fun hrefuses => hq.form hrefuses.1
  · simp [hq.numberIn? (show "uid" ∈ _ by simp)]
  · simp [hq.numberIn? (show "gid" ∈ _ by simp)]

/-- The bytes that are written for the request. -/
def Request.bytes (q : Request) : Bytes :=
  (frontCalls q.header q.path q.records).1.flatten ++
    (q.content.bytes ++ zeros (padding q.content.bytes.length))

/-- The entry that a reader finds for the request, written at the position `k`. -/
def Request.foundAt (q : Request) (k : ℕ) : Found where
  entry :=
    { header := (placePath q.header q.path).2.1.withChecksum
      size := q.content.bytes.length
      start := k + (frontCalls q.header q.path q.records).1.flatten.length
      longName := (describedBy (placePath q.header q.path).1 q.path q.records).longName
      pax := paxData q.records }
  records := q.records
  content := q.content.bytes

namespace Request

lemma length_records_le (q : Request) : (Pax.encode q.records).length ≤ q.bytes.length := by
  have hlen := Reader.length_encode_le q.header q.path q.records
  rw [bytes, List.length_append]
  omega

lemma IsKept.keepsRest (hq : q.IsKept) : q.header.KeepsRest (placePath q.header q.path).2.1 := by
  obtain ⟨ns, hns, hp⟩ := hq.isPlain
  have hplaced := hq.placed
  rw [frontCalls_snd] at hplaced
  rcases hplace : placePath q.header q.path with ⟨before, h', _ | e⟩
  · exact (placePath_ok hns (hp ▸ hplace)).1
  · simp [hplace] at hplaced

lemma IsKept.kind_foundAt (hq : q.IsKept) (k : ℕ) : (q.foundAt k).entry.header.kind = .regular :=
  hq.keepsRest.kind.trans hq.isRegular

/-- A reader that stands before what is written for a request comes upon the entry, reads its content,
and stands before what follows, whether it has read the content or not. -/
lemma IsKept.next? (hq : q.IsKept) {r : Reader} {rest : Bytes} (hr : r.StandsAt (q.bytes ++ rest))
    (hfits : r.next + q.bytes.length < Numeral.bound) :
    ∃ r' c, r.next? = .ok (some ((q.foundAt r.next).entry, r')) ∧ r'.StandsAt rest ∧
      r'.next = r.next + q.bytes.length ∧ r'.content.drain = .ok (q.content.bytes, c) ∧
      Reader.StandsAt { r' with content := c } rest := by
  have hb : (Pax.encode q.records).length < Numeral.bound := by
    have hle := q.length_records_le
    omega
  simp only [bytes, List.length_append, zeros, List.length_replicate] at hfits ⊢
  rw [bytes, List.append_assoc] at hr
  have hkeeps := hq.keepsRest
  have hkind := hkeeps.kind.trans hq.isRegular
  have hplace : placePath q.header q.path =
      ((placePath q.header q.path).1, (placePath q.header q.path).2.1, none) :=
    Prod.ext rfl (Prod.ext rfl ((frontCalls_snd ..).symm.trans hq.placed))
  obtain ⟨m, r₁, hnext, hat, hnext₁⟩ := hr.nextFrom?_placed hplace (by omega)
  have hannounced : announced (placePath q.header q.path).2.1 (paxData q.records) =
      .ok q.content.bytes.length := by
    rw [announced_keepsRest hkeeps, announced_paxData q.header hq.isCarried hb, hq.announces]
  obtain ⟨ps, s, he, hcover, hc, hdata⟩ := hat.nextFrom?_entry (m := m)
    (d := describedBy (placePath q.header q.path).1 q.path q.records)
    (by simp [Header.describes, hkind]) (Header.yields_of_ne (by simp [hkind]) _) hannounced
    (by omega)
  have howned : (placePath q.header q.path).2.1.withChecksum.OwnedBy q.records :=
    ⟨fun n hn => (congrArg Header.userId hkeeps).trans (hq.owned.userId n hn),
      fun n hn => (congrArg Header.groupId hkeeps).trans (hq.owned.groupId n hn)⟩
  have hdescribed : Reader.isDescribed (placePath q.header q.path).2.1 = true := by
    simp [Reader.isDescribed, hkind]
  have howners := howned.applyOwners (fun x hx => (hq.isCarried x hx).toIsLine) hb
  rw [hdescribed, if_pos rfl, describedBy, howners, hnext₁] at he
  obtain ⟨s', hdrain, hc', hdata'⟩ := Content.drain_cover hcover hc
    (r.next + (frontCalls q.header q.path q.records).1.flatten.length)
  rw [hdata, List.append_assoc] at hdrain hdata'
  rw [List.take_left' rfl] at hdrain
  rw [List.drop_left' rfl] at hdata'
  refine ⟨_, _, hnext.trans he, ?_, Nat.add_assoc .., hdrain, Reader.standsAt_behind hc' hdata'⟩
  refine Reader.standsAt_before hc ?_ hdata
  rw [List.length_append, zeros, List.length_replicate, Nat.add_sub_cancel_left]

lemma IsKept.stores (hq : q.IsKept) (k : ℕ) : Stores q.bytes k [q.foundAt k] := by
  intro hfits r rest hr hk
  subst hk
  obtain ⟨r', c, hnext, -, hnext', hdrain, hat⟩ := hq.next? hr hfits
  have hle := q.length_records_le
  have hrecords := carriedRecords_of_paxData (e := (q.foundAt r.next).entry) hq.isCarried
    (by omega) rfl (hq.kind_foundAt _)
  exact ⟨_, .entry hnext (hrecords _) hdrain (.done _), hat, hnext'⟩

lemma IsKept.path_foundAt (hq : q.IsKept) (hb : (Pax.encode q.records).length < Numeral.bound)
    (k : ℕ) : (q.foundAt k).entry.path = Utf8.encode q.path := by
  obtain ⟨ns, hns, hp⟩ := hq.isPlain
  have hplaced := hq.placed
  rw [frontCalls_snd] at hplaced
  rcases hplace : placePath q.header q.path with ⟨before, h', _ | e⟩
  swap
  · simp [hplace] at hplaced
  have hpath : (q.foundAt k).entry.path = storedPath q.header q.path :=
    Reader.path_describedBy hq.isCarried hb hplace (by simp only [foundAt, hplace]; rfl)
      (by simp only [foundAt, hplace]) rfl
  rw [hpath, hp, storedPath_eq_iff hns (hp ▸ hplaced)]
  exact fun hfront => hq.form hfront.1

lemma IsKept.isFound (hq : q.IsKept) (hb : (Pax.encode q.records).length < Numeral.bound) (k : ℕ) :
    q.IsFound (q.foundAt k) := by
  have hheader : (q.foundAt k).entry.header = (placePath q.header q.path).2.1.withChecksum := rfl
  refine ⟨hq.path_foundAt hb k, ?_, ?_, ?_, ?_, ?_, rfl, rfl, rfl⟩ <;>
    rw [hheader, hq.keepsRest] <;> rfl

end Request

end One

namespace Archive

variable {a : Archive} {qs : List Request}

lemma appendAll_accepting (ha : a.device.Accepts) (hqs : ∀ q ∈ qs, q.IsPortable) :
    (a.appendAll qs).device.Accepts ∧
      (a.appendAll qs).attempts = a.attempts ++ qs.map Request.completed := by
  induction qs generalizing a with
  | nil => exact ⟨ha, by simp [appendAll]⟩
  | cons q qs ih =>
    have hq := hqs q (List.mem_cons_self ..)
    rcases hw : writeEntry a.device q.header q.path q.records q.content with ⟨d, c, r⟩
    have hr : r = .complete q.content.bytes.length := by
      obtain ⟨-, ⟨e, he, -⟩ | ⟨-, hno, -⟩⟩ := writeEntry_accepting ha hw
      · rw [hq.isKept.placed] at he
        simp at he
      obtain ⟨c₁, hc⟩ := hq.isReadable
      cases r with
      | complete n =>
        obtain ⟨-, b, hb, rfl, -⟩ := output_complete hw
        rw [Content.bytes_of_drain hb]
      | refused m => exact absurd rfl (hno m)
      | unreadable m => exact (writeEntry_readable hc hw).elim
    have happ := append_device hw
    have hd : (a.append q.header q.path q.records q.content).1.device.Accepts := by
      rw [happ]
      exact (writeEntry_accepting ha hw).1
    obtain ⟨haccepts, hattempts⟩ := ih hd fun x hx => hqs x (List.mem_cons_of_mem _ hx)
    refine ⟨haccepts, hattempts.trans ?_⟩
    rw [attempts_append, hw, hr, List.map_cons, List.append_assoc, List.singleton_append]
    rfl

/-- Where each request of a row has been written, the device has their bytes. -/
lemma output_appendAll_written (hw : ∀ x ∈ (a.appendAll qs).attempts, x.isWritten = true) :
    (a.appendAll qs).device.output = a.device.output ++ qs.flatMap Request.bytes := by
  induction qs generalizing a with
  | nil => simp [appendAll]
  | cons q qs ih =>
    obtain ⟨more, hmore⟩ := attempts_appendAll (a.append q.header q.path q.records q.content).1 qs
    have hrest := ih (a := (a.append q.header q.path q.records q.content).1) hw
    rcases hwrite : writeEntry a.device q.header q.path q.records q.content with ⟨d, c, r⟩
    rw [attempts_append, hwrite, List.append_assoc] at hmore
    have hone : (⟨q, r⟩ : Attempt).isWritten = true := by
      refine hw _ ?_
      rw [show (a.appendAll (q :: qs)).attempts = _ from hmore]
      simp
    obtain ⟨n, rfl⟩ : ∃ n, r = .complete n := by
      cases r with
      | complete n => exact ⟨n, rfl⟩
      | refused m => simp [Attempt.isWritten] at hone
      | unreadable m => simp [Attempt.isWritten] at hone
    obtain ⟨-, b, hb, rfl, hout⟩ := output_complete hwrite
    rw [show (a.appendAll (q :: qs)).device.output = _ from hrest, append_device hwrite, hout,
      List.flatMap_cons, List.append_assoc, Request.bytes, Content.bytes_of_drain hb]

end Archive

lemma stores_bytes {qs : List Request} (hqs : ∀ q ∈ qs, q.IsPortable) (k : ℕ)
    (hfits : k + (qs.flatMap Request.bytes).length < Numeral.bound) :
    ∃ zs, List.Forall₂ Request.IsFound qs zs ∧ Stores (qs.flatMap Request.bytes) k zs := by
  induction qs generalizing k with
  | nil => exact ⟨[], .nil, stores_nil k⟩
  | cons q qs ih =>
    rw [List.flatMap_cons, List.length_append] at hfits
    have hq := (hqs q (List.mem_cons_self ..)).isKept
    obtain ⟨zs, hfound, hstores⟩ := ih (fun x hx => hqs x (List.mem_cons_of_mem _ hx))
      (k + q.bytes.length) (by omega)
    have hle := q.length_records_le
    exact ⟨_, .cons (hq.isFound (by omega) k) hfound, (hq.stores k).append hstores⟩

namespace Archive

/-- Requests for regular files under canonical paths, with headers that are not of the ustar form
and with records that say nothing about the file itself, are read back as they were made. A device
that takes everything takes all of them and the end of the archive. On any device that has taken
them, the archive holds one entry for each, in order: with the path that was asked for, with the kind,
the mode, the owners and the time of the header, with just the records and with the content. Behind
them there is nothing but the end. And whatever comes of one more request, the same entries are found
before it. Positions in an archive are numbers of 64 bits. -/
theorem appendAll_roundTrip (label : String) {qs : List Request}
    (hqs : ∀ q ∈ qs, q.IsPortable) :
    (((new .accepting label).appendAll qs).attempts = qs.map Request.completed ∧
        ((new .accepting label).appendAll qs).finish.2 = none) ∧
      ∀ refuses : ℕ → Bytes → Option String,
        let a := (new ⟨refuses, 0, []⟩ label).appendAll qs
        (∀ x ∈ a.attempts, x.isWritten = true) → a.device.output.length < Numeral.bound →
          ∃ zs, List.Forall₂ Request.IsFound qs zs ∧
            (∀ d, a.finish = (d, none) →
              ∃ r, (Reader.ofSource (.ofBytes d.output)).Finds zs r ∧ r.next? = .ok none) ∧
            ∀ q : Request, ∃ r, (Reader.ofSource (.ofBytes
              (a.append q.header q.path q.records q.content).1.finish.1.output)).Finds zs r := by
  constructor
  · obtain ⟨haccepts, hattempts⟩ :=
      appendAll_accepting (a := new .accepting label) Device.accepts_accepting hqs
    obtain ⟨d, hwrite, -⟩ := haccepts.write trailer
    exact ⟨hattempts, by simp only [finish, hwrite]⟩
  intro refuses a hwritten hfits
  have hout : a.device.output = qs.flatMap Request.bytes :=
    (output_appendAll_written hwritten).trans (List.nil_append _)
  rw [hout] at hfits
  obtain ⟨zs, hfound, hstores⟩ := stores_bytes hqs 0 (by omega)
  have hfinds : ∀ rest, ∃ r, (Reader.ofSource (.ofBytes (a.device.output ++ rest))).Finds zs r ∧
      r.StandsAt rest := by
    intro rest
    obtain ⟨r, hr, hat, -⟩ := hstores (by omega) _ rest (Reader.standsAt_ofBytes _) rfl
    rw [hout]
    exact ⟨r, hr, hat⟩
  refine ⟨zs, hfound, fun d hd => ?_, fun q => ?_⟩
  · obtain ⟨r, hr, hat⟩ := hfinds trailer
    rw [finish_ended hd]
    exact ⟨r, hr, Reader.next?_none.mpr (hat.nextBlock?_none.mpr (.inr zeros_prefix_trailer))⟩
  · obtain ⟨b, hb⟩ := output_append a q
    obtain ⟨t, -, ht⟩ := finish_output (a.append q.header q.path q.records q.content).1
    obtain ⟨r, hr, -⟩ := hfinds (b ++ t)
    rw [ht, hb, List.append_assoc]
    exact ⟨r, hr⟩

/-- A path of more than 100 bytes. -/
def longPath : String :=
  "usr/lib/python3/site-packages/numerical/recipes/integration/adaptive/quadrature/implementation/" ++
    "gauss/kronrod/__init__.py"

/-- Requests for a file with a record, and for one under a long path. -/
def portableRequests : List Request :=
  [⟨bareHeader "x" 3, "a", [⟨Utf8.encode "comment", Utf8.encode "a=b"⟩],
      .ofSource (.ofBytes [66, 65, 68])⟩,
    ⟨bareHeader "y" 2, longPath, [], .ofSource (.ofBytes [111, 107])⟩]

lemma portableRequests_isPortable : ∀ q ∈ portableRequests, q.IsPortable := by
  intro q hq
  simp only [portableRequests, List.mem_cons, List.not_mem_nil, or_false] at hq
  rcases hq with rfl | rfl
  · exact ⟨by decide +kernel, rfl, readNumber_bareHeader "x" (by decide), ⟨_, rfl⟩,
      ⟨⟨"a", by decide⟩, by decide, by decide, by decide⟩, by
        simp only [List.mem_singleton, forall_eq]
        exact ⟨by decide, by decide, by decide⟩, by decide +kernel, by decide +kernel⟩
  · exact ⟨by decide +kernel, rfl, readNumber_bareHeader "y" (by decide), ⟨_, rfl⟩,
      ⟨⟨longPath, by decide +kernel⟩, by decide +kernel, by decide +kernel, by decide +kernel⟩,
      by simp, by simp, by simp⟩

/-- The two files are read back, and they are also if the device refuses what comes next. -/
theorem appendAll_roundTrip_two :
    let a := (new .accepting "out").appendAll portableRequests
    ∃ d zs r, a.finish = (d, none) ∧ List.Forall₂ Request.IsFound portableRequests zs ∧
      (Reader.ofSource (.ofBytes d.output)).Finds zs r ∧ r.next? = .ok none := by
  intro a
  obtain ⟨⟨hattempts, hnone⟩, hread⟩ := appendAll_roundTrip "out" portableRequests_isPortable
  have hwritten : ∀ x ∈ a.attempts, x.isWritten = true := by
    intro x hx
    rw [show a.attempts = _ from hattempts] at hx
    obtain ⟨q, -, rfl⟩ := List.mem_map.mp hx
    rfl
  obtain ⟨zs, hfound, hend, -⟩ := hread (fun _ _ => none) hwritten (by decide +kernel)
  rcases hfinish : a.finish with ⟨d, failure⟩
  obtain rfl : failure = none := (congrArg Prod.snd hfinish).symm.trans hnone
  obtain ⟨r, hr, hnext⟩ := hend d hfinish
  exact ⟨d, zs, r, rfl, hfound, hr, hnext⟩

end Archive

end LayerPick
