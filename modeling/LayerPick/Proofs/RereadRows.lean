import LayerPick.Proofs.FewerTargets
import LayerPick.Proofs.PathFixpoints
import LayerPick.Proofs.RoundTrip

/-!
# Rows that are read again

What has been written for a row of requests is an archive that can be a layer of another image. A
reader comes upon one entry for each request, and asking for these entries is asking for the same
bytes once more: the header that was written takes the path that it has already, its owners are
those that the records give, and path, records and content are what they were.
-/
namespace LayerPick

open Tar

structure Request.IsSought (targets : List String) (q : Request) : Prop where
  isNormal : Path.normalize q.path = q.path
  nonempty : q.path ≠ ""
  stays : Path.escapes q.path = false
  isTarget : q.path ∈ targets
  holds : q.content.bytes.length ≠ 0

/-- The entry is what is found where the request has been written, and its content can be read. -/
structure Request.IsReread (q : Request) (x : Entry × Content) : Prop where
  header : x.1.header = (placePath q.header q.path).2.1.withChecksum
  path : x.1.path = Utf8.encode q.path
  size : x.1.size = q.content.bytes.length
  records : x.1.carriedRecords x.2 = .ok (q.records, x.2)
  content : x.2.bytes = q.content.bytes

/-- Two requests for which the same is written, under the same path. -/
structure Request.Same (q q' : Request) : Prop where
  path : q'.path = q.path
  bytes : q'.bytes = q.bytes
  placed : (frontCalls q'.header q'.path q'.records).2 = none

section One

variable {q q' : Request} {x : Entry × Content} {targets : List String}

lemma Request.IsReread.kind (hq : q.IsKept) (h : q.IsReread x) : x.1.header.kind = .regular := by
  rw [h.header]
  exact hq.keepsRest.kind.trans hq.isRegular

lemma Request.IsReread.place (hs : q.IsSought targets) (h : q.IsReread x) : x.1.place = q.path := by
  rw [Entry.place, h.path, Utf8.decodeLossy_encode, hs.isNormal]

lemma Request.IsReread.isWanted (hq : q.IsKept) (hs : q.IsSought targets) (h : q.IsReread x) :
    x.1.isWanted targets = true := by
  rw [Entry.isWanted_iff, h.place hs, h.kind hq, h.size]
  exact ⟨by decide, hs.holds, hs.nonempty, hs.stays, hs.isTarget⟩

/-- Asking for the entry that was found is asking for the same once more. -/
lemma Request.IsReread.same (hq : q.IsKept) (hs : q.IsSought targets) (h : q.IsReread x) :
    ∃ q', requestFor? x = some q' ∧ q.Same q' := by
  refine ⟨⟨(placePath q.header q.path).2.1.withChecksum, q.path, q.records, x.2⟩,
    requestFor?_eq.mpr ⟨h.records, h.header.symm, (h.place hs).symm⟩, rfl, ?_, ?_⟩
  · simp only [Request.bytes, frontCalls_again hq.form hq.placed, h.content]
  · rw [frontCalls_again hq.form hq.placed, hq.placed]

/-- A reader comes upon the entry of a request where that has been written. -/
lemma Request.IsKept.isReread (hq : q.IsKept) {r : Reader} {rest : Bytes}
    (hr : r.StandsAt (q.bytes ++ rest)) (hfits : r.next + q.bytes.length < Numeral.bound) :
    ∃ e r', r.next? = .ok (some (e, r')) ∧ q.IsReread (e, r'.content) ∧ r'.StandsAt rest ∧
      r'.next = r.next + q.bytes.length := by
  obtain ⟨r', c, hn, hat, hnext, hdrain, -⟩ := hq.next? hr hfits
  have hle := q.length_records_le
  exact ⟨_, r', hn, ⟨rfl, hq.path_foundAt (by omega) _, rfl,
    carriedRecords_of_paxData hq.isCarried (by omega) rfl (hq.kind_foundAt _) _,
    Content.bytes_of_drain hdrain⟩, hat, hnext⟩

end One

section Row

variable {qs : List Request} (hqs : ∀ q ∈ qs, q.IsKept)

include hqs

lemma isReread_row {r : Reader} (hr : r.Proper) {t : Bytes}
    (hat : r.StandsAt (qs.flatMap Request.bytes ++ t)) (ht : zeros blockSize <+: t)
    (hfits : r.next + (qs.flatMap Request.bytes).length < Numeral.bound) :
    r.IsWhole ∧ List.Forall₂ Request.IsReread qs r.entries := by
  induction qs generalizing r with
  | nil =>
    have hend : r.next? = .ok none := Reader.next?_none.mpr (hat.nextBlock?_none.mpr (.inr ht))
    rw [Reader.entries_next hr hend]
    exact ⟨.ended hend, .nil⟩
  | cons q qs ih =>
    rw [List.flatMap_cons, List.length_append] at hfits
    rw [List.flatMap_cons, List.append_assoc] at hat
    obtain ⟨e, r', hn, hone, hat', hnext⟩ :=
      (hqs q (List.mem_cons_self ..)).isReread hat (by omega)
    obtain ⟨hwhole, hrest⟩ := ih (fun x hx => hqs x (List.mem_cons_of_mem _ hx))
      (Reader.next?_advances hr hn).proper hat' (by omega)
    rw [Reader.entries_next hr hn]
    exact ⟨.next hn hwhole, .cons hone hrest⟩

/-- Where all paths are looked for and no two are the same, the whole row shows again. -/
lemma unclaimed_reread {targets claimed : List String} {es : List (Entry × Content)}
    (hsought : ∀ q ∈ qs, q.IsSought targets) (hnodup : (qs.map Request.path).Nodup)
    (hclaimed : ∀ q ∈ qs, q.path ∉ claimed) (hes : List.Forall₂ Request.IsReread qs es) :
    List.Forall₂ Request.Same qs ((unclaimed targets claimed es).filterMap requestFor?) := by
  induction hes generalizing claimed with
  | nil => exact .nil
  | @cons q x qs es hone _ ih =>
    obtain ⟨hq, hqs⟩ := List.forall_mem_cons.mp hqs
    obtain ⟨hs, hsought⟩ := List.forall_mem_cons.mp hsought
    obtain ⟨hfree, hclaimed⟩ := List.forall_mem_cons.mp hclaimed
    rw [List.map_cons, List.nodup_cons] at hnodup
    have hplace := hone.place hs
    obtain ⟨q', hq', hsame⟩ := hone.same hq hs
    rw [unclaimed_take x es (hone.isWanted hq hs) (hplace ▸ hfree), List.filterMap_cons_some hq']
    refine .cons hsame (ih hqs hsought hnodup.2 fun p hp => ?_)
    rw [hplace, List.mem_cons, not_or]
    exact ⟨fun he => hnodup.1 (he ▸ List.mem_map_of_mem hp), hclaimed p hp⟩

end Row

lemma same_row {qs qs' : List Request} (h : List.Forall₂ Request.Same qs qs') :
    qs'.map Request.path = qs.map Request.path ∧
      qs'.flatMap Request.bytes = qs.flatMap Request.bytes ∧
      ∀ q ∈ qs', (frontCalls q.header q.path q.records).2 = none := by
  induction h with
  | nil => exact ⟨rfl, rfl, by simp⟩
  | cons hone _ ih =>
    obtain ⟨hpaths, hbytes, hplaced⟩ := ih
    refine ⟨?_, ?_, List.forall_mem_cons.mpr ⟨hone.placed, hplaced⟩⟩
    · rw [List.map_cons, List.map_cons, hone.path, hpaths]
    · rw [List.flatMap_cons, List.flatMap_cons, hone.bytes, hbytes]

/-- If a layer holds what was written for a row of requests for files that are looked for, it can be
gone through, its entries are regular files with records that are well formed, and what shows of it
is the same row. -/
theorem overlay_reread {qs : List Request} {files : List FileSpec} (hqs : ∀ q ∈ qs, q.IsKept)
    (hsought : ∀ q ∈ qs, q.IsSought (files.map FileSpec.target))
    (hnodup : (qs.map Request.path).Nodup)
    (hfits : (qs.flatMap Request.bytes).length < Numeral.bound) {l : Layer} {s : Source}
    (ho : l.openLayer = .ok s) (hs : s.IsCalm)
    (hdata : s.data = qs.flatMap Request.bytes ++ trailer) :
    l.IsWhole ∧ (∀ x ∈ l.entries, ∃ rs, x.1.carriedRecords x.2 = .ok (rs, x.2)) ∧
      List.Forall₂ Request.Same qs (overlay files [l]) := by
  have hat := Reader.standsAt_ofSource hs
  rw [hdata] at hat
  obtain ⟨hwhole, hentries⟩ := isReread_row hqs (Reader.proper_ofSource s) hat zeros_prefix_trailer
    (by simpa [Reader.ofSource] using hfits)
  have hl : l.entries = (Reader.ofSource s).entries := by simp only [Layer.entries, ho]
  rw [← hl] at hentries
  have hrecords : List.Forall₂ (fun x q => (∃ rs, x.1.carriedRecords x.2 = .ok (rs, x.2)) ∧
      q.IsReread x) l.entries qs :=
    (List.Forall₂.flip (R := flip Request.IsReread) hentries).imp fun x q h => ⟨⟨_, h.records⟩, h⟩
  have hrow : List.Forall₂ Request.Same qs
      ((unclaimed (files.map FileSpec.target) [] l.entries).filterMap requestFor?) :=
    unclaimed_reread hqs hsought hnodup (by simp) hentries
  refine ⟨⟨s, ho, hwhole⟩, ((List.forall₂_and_left _ _).mp hrecords).1, ?_⟩
  simpa [overlay] using hrow

end LayerPick
