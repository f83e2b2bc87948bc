import LayerPick.Proofs.FailedExtraction
import LayerPick.Proofs.FailureKinds

/-!
# Reading back what was extracted

Of a matched entry the archive gets the header on one way and the content on another. The header
says how many bytes are stored, the content is what a reader makes of them. For most entries this is
the same. A sparse file, though, is read with its gaps filled in, and its header says what it is
without them.

If all that was written `IsGapless`, the archive unpacks, and a reader finds in it the entries that
were written, each with the size and the content that it had in its layer.
-/
namespace LayerPick

open Tar

namespace Tar

/-- What is found of an entry is what is unpacked of it, and its size is that of its content. -/
structure Unpacks (y : Entry × Content) (u : Unpacked) : Prop where
  path : y.1.path = u.path
  size : y.1.size = u.content.length
  content : ∃ c, y.2.drain = .ok (u.content, c)

namespace Reader

/-- If a reader gets behind some content, the content was as long as it was to be. -/
lemma length_of_next? {r : Reader} (hr : r.Proper) {b : Bytes} {c : Content}
    (hd : r.content.drain = .ok (b, c)) {x : Option (Entry × Reader)}
    (hx : next? { r with content := c } = .ok x) : b.length = r.content.span := by
  obtain ⟨hl, hend⟩ := Content.drain_leaves hr.bounded hd
  have hle := Content.length_le_span hr.bounded hd
  by_contra hne
  have hshort : r.content.FallsShort r.content.span := by
    intro b' c' hd'
    obtain ⟨rfl, -⟩ := by simpa only [hd, Except.ok.injEq, Prod.mk.injEq] using hd'
    omega
  obtain ⟨err, herr⟩ := next?_fallsShort hr hshort hl (b := b) (by rw [hd, hend]; simp)
  rw [herr] at hx
  simp at hx

lemma entries_of_unpackWithin {n : ℕ} {r : Reader} (hr : r.Proper) {us : List Unpacked}
    (h : r.unpackWithin n = .ok us) (hn : us.length < n) : List.Forall₂ Unpacks r.entries us := by
  induction n generalizing r us with
  | zero => omega
  | succ n ih =>
    obtain ⟨x, hx, h⟩ := bind_ok.mp h
    rw [entries_next hr hx]
    rcases x with _ | ⟨e, r'⟩
    · obtain rfl := Except.ok.inj h
      exact .nil
    obtain ⟨records, -, h⟩ := bind_ok.mp h
    obtain ⟨⟨b, c⟩, hd, h⟩ := bind_ok.mp h
    obtain ⟨later, hlater, h⟩ := bind_ok.mp h
    obtain rfl := Except.ok.inj h
    rw [mapError_ok] at hd
    have hr' := (next?_advances hr hx).proper
    obtain ⟨hl, hend⟩ := Content.drain_leaves hr'.bounded hd
    rw [List.length_cons] at hn
    obtain ⟨n, rfl⟩ : ∃ m, n = m + 1 := ⟨n - 1, by omega⟩
    obtain ⟨x', hx', -⟩ := bind_ok.mp hlater
    have hsize : e.size = b.length := (next?_span hx).symm.trans (length_of_next? hr' hd hx').symm
    have hrest := ih (hr'.drained hd) hlater (by omega)
    rw [entries_left hr' hl (b := b) (by rw [hd, hend]; simp)] at hrest
    exact .cons ⟨rfl, hsize, c, hd⟩ hrest

end Reader

lemma entries_of_unpack {b : Bytes} {us : List Unpacked} (h : unpack b = .ok us)
    (hn : us.length * blockSize ≤ b.length) :
    List.Forall₂ Unpacks (Reader.ofSource (.ofBytes b)).entries us := by
  refine Reader.entries_of_unpackWithin (Reader.proper_ofSource _) h ?_
  have hlen : (Source.ofBytes b).length = b.length := by
    rw [Source.length_eq, Source.data_ofBytes]
  have hdiv : us.length ≤ b.length / blockSize := by
    rw [Nat.le_div_iff_mul_le (by decide)]
    exact hn
  simp only [Reader.mostEntries, Reader.ofSource, hlen]
  omega

end Tar

namespace Archive

def LeavesNothing (a : Archive) (q : Request) : Prop :=
  (∀ n, (a.append q.header q.path q.records q.content).2.2 ≠ .complete n) →
    (a.append q.header q.path q.records q.content).1.device.output = a.device.output

section Run

variable {a : Archive}

lemma finish_output (a : Archive) :
    ∃ t, (t = [] ∨ t = trailer) ∧ a.finish.1.output = a.device.output ++ t := by
  rcases hw : a.device.write trailer with ⟨d, _ | m⟩ <;> have hout := Device.output_write hw
  · exact ⟨trailer, .inr rfl, by simpa [finish, hw] using hout⟩
  · exact ⟨[], .inl rfl, by simpa [finish, hw] using hout⟩

lemma attempts_appendAll (a : Archive) (qs : List Request) :
    ∃ more, (a.appendAll qs).attempts = a.attempts ++ more := by
  induction qs generalizing a with
  | nil => exact ⟨[], by simp [appendAll]⟩
  | cons q qs ih =>
    obtain ⟨more, hmore⟩ := ih (a.append q.header q.path q.records q.content).1
    rw [attempts_append, List.append_assoc] at hmore
    exact ⟨_, hmore⟩

lemma holds_append {q : Request} (ha : Holds a.device.output (storedBy a.attempts))
    (hq : ∀ n, (a.append q.header q.path q.records q.content).2.2 = .complete n → q.IsStorable)
    (hnothing : a.LeavesNothing q)
    (hfits : (a.append q.header q.path q.records q.content).1.device.output.length <
      Numeral.bound) :
    Holds (a.append q.header q.path q.records q.content).1.device.output
      (storedBy (a.append q.header q.path q.records q.content).1.attempts) := by
  rcases hw : writeEntry a.device q.header q.path q.records q.content with ⟨d, c, r⟩
  have hresult : (a.append q.header q.path q.records q.content).2.2 = r := by
    rw [append_device hw]
  have hattempts : storedBy (a.append q.header q.path q.records q.content).1.attempts =
      storedBy a.attempts ++ if (⟨q, r⟩ : Attempt).isWritten then [q.stored] else [] := by
    rw [attempts_append, hw]
    simp only [storedBy, List.filter_append, List.map_append]
    cases h : (⟨q, r⟩ : Attempt).isWritten <;> simp [h]
  rw [hattempts]
  cases r with
  | complete n =>
    obtain ⟨b, hout, hnew⟩ := output_written (hq n hresult) hresult hfits
    rw [hout]
    exact ha.append hnew
  | refused m =>
    rw [hnothing (by simp [hresult]), isWritten_failed (by simp), if_neg (by decide),
      List.append_nil]
    exact ha
  | unreadable m =>
    rw [hnothing (by simp [hresult]), isWritten_failed (by simp), if_neg (by decide),
      List.append_nil]
    exact ha

/-- An archive holds what was written to it, if what failed has left nothing. -/
lemma holds_appendAll {qs : List Request} (ha : Holds a.device.output (storedBy a.attempts))
    (hqs : ∀ x ∈ (a.appendAll qs).attempts, x.isWritten = true → x.IsStorable)
    (hnothing : ∀ before q after, qs = before ++ q :: after →
      (a.appendAll before).LeavesNothing q)
    (hfits : (a.appendAll qs).device.output.length < Numeral.bound) :
    Holds (a.appendAll qs).device.output (storedBy (a.appendAll qs).attempts) := by
  induction qs generalizing a with
  | nil => exact ha
  | cons q qs ih =>
    obtain ⟨more, hmore⟩ :=
      attempts_appendAll (a.append q.header q.path q.records q.content).1 qs
    rw [attempts_append, List.append_assoc] at hmore
    have hle := length_output_le a [q] qs
    refine ih (holds_append ha ?_ (hnothing [] q qs rfl) (Nat.lt_of_le_of_lt hle hfits)) hqs ?_ hfits
    · intro n hn
      rcases hw : writeEntry a.device q.header q.path q.records q.content with ⟨d, c, r⟩
      rw [append_device hw] at hn
      obtain rfl : r = .complete n := hn
      refine hqs ⟨q, .complete n⟩ ?_ rfl
      rw [show (a.appendAll (q :: qs)).attempts = _ from hmore, hw]
      simp
    · intro before x after hx
      exact hnothing (q :: before) x after (by rw [hx, List.cons_append])

end Run

end Archive

/-- The attempt was made for this entry, and if it was written, with all of its content. -/
structure Attempt.IsFor (a : Attempt) (y : Entry × Content) : Prop where
  request : requestFor? y = some a.toRequest
  whole : a.isWritten = true →
    ∃ c, a.content.drain = .ok (a.content.bytes, c) ∧ a.content.bytes.length = y.1.size

section Walk

variable {o : Order} {layers : List Layer} {d : Device} {label : String}
  {x : Stand × WalkState}

lemma take_append {i : ℕ} {p : String} {e : Entry} {s s' : WalkState} {c c' : Content}
    (h : take i p e s c = (s', .ok c')) :
    ∃ records c₁, e.carriedRecords c = .ok (records, c₁) ∧
      s'.archive = (s.archive.append e.header p records c₁).1 ∧
      ∀ n, (s.archive.append e.header p records c₁).2.2 = .complete n → n = e.size := by
  obtain ⟨records, c₁, a, r, hr, ha, hend⟩ := take_ok h
  refine ⟨records, c₁, hr, ?_, ?_⟩
  · rw [ha]
    rcases hend with ⟨-, rfl⟩ | ⟨m, -, rfl⟩ <;> rfl
  · intro n hn
    rw [ha] at hn
    obtain rfl : r = .complete n := hn
    rcases hend with ⟨hsize, -⟩ | ⟨m, hm, -⟩
    · exact Copied.complete.inj hsize
    · simp at hm

/-- Wherever the walk comes, its attempts were made for entries that it came upon. -/
lemma Reached.attempts (h : Reached o layers d label x) :
    ∀ a ∈ x.2.archive.attempts, ∃ i e c, Meets o layers d label i e c ∧ a.IsFor (e, c) := by
  refine h.invariant
    (P := fun x => ∀ a ∈ x.2.archive.attempts, ∃ i e c, Meets o layers d label i e c ∧
      a.IsFor (e, c)) (by simp [WalkState.start, Archive.new, Archive.attempts]) ?_
  intro x y hx hm hattempts
  cases hm with
  | enter _ _ _ => exact hattempts
  | pass _ _ _ => exact hattempts
  | leave _ => exact hattempts
  | @take i e r r' p c below s s' hdone hn hmatch ht =>
    obtain ⟨records, c₁, hr, harchive, hsize⟩ := take_append ht
    obtain ⟨-, -, hp⟩ := match?_some.mp hmatch
    intro a ha
    rw [harchive, Archive.attempts_append] at ha
    rcases List.mem_append.mp ha with ha | ha
    · exact hattempts a ha
    refine ⟨i, e, r'.content, ⟨r, r', below, s, p, hx, hdone, hn, hmatch, rfl⟩, ?_⟩
    obtain rfl := List.mem_singleton.mp ha
    refine ⟨by simp [requestFor?, hr, hp], fun hw => ?_⟩
    rcases hwrite : writeEntry s.archive.device e.header p records c₁ with ⟨d₁, c₂, n | m | m⟩ <;>
      rw [hwrite] at hw
    · obtain ⟨-, b, hb, hlen, -⟩ := output_complete hwrite
      obtain rfl := Content.bytes_of_drain hb
      have hn := hsize n (by simp only [Archive.append, hwrite])
      exact ⟨c₂, hb, by rw [← hlen, hn]⟩
    · simp [Attempt.isWritten] at hw
    · simp [Attempt.isWritten] at hw

/-- The archive has come about by asking it for one entry after the other. -/
lemma Reached.archive_eq (h : Reached o layers d label x) :
    x.2.archive = (Archive.new d label).appendAll x.2.requests := by
  refine h.invariant (P := fun x => x.2.archive = (Archive.new d label).appendAll x.2.requests)
    rfl ?_
  intro x y _ hm harchive
  cases hm with
  | enter _ _ _ => exact harchive
  | pass _ _ _ => exact harchive
  | leave _ => exact harchive
  | @take i e r r' p c below s s' _ _ _ ht =>
    obtain ⟨records, c₁, -, hs', -⟩ := take_append ht
    have hrequests : s'.requests = s.requests ++ [⟨e.header, p, records, c₁⟩] := by
      simp [WalkState.requests, hs', Archive.attempts_append]
    have harchive : s.archive = (Archive.new d label).appendAll s.requests := harchive
    rw [hs', hrequests, Archive.appendAll_append, ← harchive]
    rfl

/-- A walk that does not fail in the content of an entry leaves the archive as it was when it came
to a halt. -/
lemma walk_unbroken {s : WalkState} {failure : Option Failure}
    (h : walk o layers (.start o layers d label) = (s, failure))
    (hb : failure.any Failure.breaksEntry = false) :
    ∃ x, Reached o layers d label x ∧ x.2.archive = s.archive := by
  obtain ⟨x, hx, hz⟩ := walk_eq_iff.mp h
  refine ⟨x, hx, ?_⟩
  cases hz with
  | ended => rfl
  | done _ => rfl
  | cancelled _ _ => rfl
  | closed _ _ _ => rfl
  | undecodable _ _ => rfl
  | @broken i e r r' p f below s s' _ _ _ ht =>
    rcases take_error ht with ⟨err, -, rfl, -⟩ | ⟨_, _, _, _, _, -, -, -, ⟨m, -, rfl⟩ | ⟨k, -, -, rfl⟩⟩
    · rfl
    · simp [Failure.breaksEntry] at hb
    · simp [Failure.breaksEntry] at hb

/-- The entry is no sparse file, or one that is stored as it is read: its map is all in its header,
and it announces as many bytes as there are. -/
def Attempt.IsGapless (a : Attempt) : Prop :=
  a.header.kind = .sparse → a.header.sparseContinues = false ∧
    announcedWith a.header a.records = .ok a.content.bytes.length

lemma requestFor?_eq {y : Entry × Content} {q : Request} :
    requestFor? y = some q ↔
      y.1.carriedRecords y.2 = .ok (q.records, q.content) ∧ q.header = y.1.header ∧
        q.path = y.1.place := by
  unfold requestFor?
  rcases y.1.carriedRecords y.2 with err | ⟨records, c⟩
  · simp
  · rcases q with ⟨h, p, rs, c'⟩
    simp only [Option.some.injEq, Request.mk.injEq, Except.ok.injEq, Prod.mk.injEq]
    constructor
    · rintro ⟨rfl, rfl, rfl, rfl⟩
      exact ⟨⟨rfl, rfl⟩, rfl, rfl⟩
    · rintro ⟨⟨rfl, rfl⟩, rfl, rfl⟩
      exact ⟨rfl, rfl, rfl, rfl⟩

section Met

variable {i : ℕ} {e : Entry} {c : Content} {a : Attempt}

/-- An entry that has been written without gaps is stored as it is read. -/
lemma Meets.isStorable (hy : Meets o layers d label i e c) (ha : a.IsFor (e, c))
    (hw : a.isWritten = true) (hgapless : a.IsGapless) : a.IsStorable := by
  obtain ⟨r, r', below, s, p, -, -, hn, -, rfl⟩ := hy
  obtain ⟨hr, hheader, hpath⟩ := requestFor?_eq.mp ha.request
  obtain ⟨-, -, hlen⟩ := ha.whole hw
  obtain ⟨hdescribes, stored, hstored, hplain, hsparse⟩ := Reader.next?_announced hn
  obtain ⟨hcarried, hannounced⟩ := announcedWith_of_carried hr (n := stored)
  have hwith : announcedWith a.header a.records = .ok stored := hheader ▸ hannounced hstored
  have hsame : stored = a.content.bytes.length := by
    by_cases hk : a.header.kind = .sparse
    · exact Except.ok.inj (hwith.symm.trans (hgapless hk).2)
    · exact (hplain (hheader ▸ hk)).trans hlen.symm
  refine ⟨⟨_, Path.normalNames_isPlain _, hpath⟩, hcarried, hheader ▸ hdescribes, hsame ▸ hwith, ?_⟩
  by_cases hk : a.header.kind = .sparse
  · obtain ⟨ps, c₁, c₂, k, hps⟩ := hsparse (hheader ▸ hk)
    rw [← hheader, hsame, ← show _ = e.size from hlen] at hps
    exact Header.yields_of_sparsePieces (hgapless hk).1 hk hps
  · exact Header.yields_of_ne hk _

/-- An entry that has been written has not lost its content to its records. -/
lemma Meets.content_eq (hy : Meets o layers d label i e c) (ha : a.IsFor (e, c))
    (hw : a.isWritten = true) : a.content = c := by
  obtain ⟨r, r', below, s, p, hx, -, hn, hmatch, rfl⟩ := hy
  obtain ⟨hr, -, -⟩ := requestFor?_eq.mp ha.request
  rcases carriedRecords_content hr with h | ⟨b, hd⟩
  · exact h
  · obtain ⟨c₁, hd₁, hlen⟩ := ha.whole hw
    have hbounded := (Reader.next?_advances hx.proper hn).proper.bounded
    rw [(Content.drain_leaves hbounded hd).2, Except.ok.injEq, Prod.mk.injEq] at hd₁
    rw [← hd₁.1] at hlen
    exact absurd hlen.symm (Entry.isWanted_iff.mp (match?_some.mp hmatch).1).2.1

end Met

/-- What a walk has written without gaps is stored as it is read. -/
lemma Reached.isStorable {a : Attempt} (h : Reached o layers d label x)
    (ha : a ∈ x.2.archive.attempts) (hw : a.isWritten = true) (hgapless : a.IsGapless) :
    a.IsStorable := by
  obtain ⟨i, e, c, hy, hfor⟩ := h.attempts a ha
  exact hy.isStorable hfor hw hgapless

end Walk

/-- Two entries have the same size and the same content, which is all there. -/
structure SameContent (y z : Entry × Content) : Prop where
  size : z.1.size = y.1.size
  content : ∃ b c c', y.2.drain = .ok (b, c) ∧ z.2.drain = .ok (b, c') ∧ b.length = y.1.size

/-- An entry that has been written is found with the size and the content of the entry that it was
written for. -/
lemma Meets.sameContent {o : Order} {layers : List Layer} {d : Device} {label : String} {i : ℕ}
    {e : Entry} {c : Content} {a : Attempt} {z : Entry × Content}
    (hy : Meets o layers d label i e c) (ha : a.IsFor (e, c)) (hw : a.isWritten = true)
    (hz : Unpacks z a.stored) : SameContent (e, c) z := by
  obtain ⟨c₁, hd, hlen⟩ := ha.whole hw
  obtain ⟨c₂, hd₂⟩ := hz.content
  rw [hy.content_eq ha hw] at hd hlen
  have hstored : a.stored.content = c.bytes := by
    rw [← hy.content_eq ha hw]
    rfl
  rw [hstored] at hd₂
  exact ⟨by rw [hz.size, hstored, hlen], c.bytes, c₁, c₂, hd, hd₂, hlen⟩

section Extract

variable {layers : List Layer} {files : List FileSpec} {cancelled : ℕ → Bool} {d₀ d : Device}
  {label : String} {x : Extracted}

/-- An extraction that has not failed in the content of an entry has its walk to thank for its
attempts and, but for the end of the archive, for its output. -/
lemma extract_unbroken (hx : extract ⟨.ok layers⟩ files cancelled (.ok d₀) label = x)
    (hd : x.device = some d) (hunbroken : ∀ f, x.outcome = .error f → f.breaksEntry = false) :
    ∃ st, Reached (.ofFiles files cancelled) layers d₀ label st ∧
      x.attempts = st.2.archive.attempts ∧
      x.completed = st.2.archive.attempts.filter Attempt.isWritten ∧
      ∃ t, (t = [] ∨ t = trailer) ∧ d.output = st.2.archive.device.output ++ t := by
  let o := Order.ofFiles files cancelled
  rcases hwalk : walk o layers (.start o layers d₀ label) with ⟨s, failure⟩
  have hconclude : x = conclude files layers label s failure := by
    rw [← hx, extract_eq layers files cancelled d₀ label, hwalk]
  have hattempts : x.attempts = s.archive.attempts := by
    rw [hconclude]
    exact (conclude_frame ..).2.1
  have hbreaks : failure.any Failure.breaksEntry = false := by
    cases failure with
    | none => rfl
    | some f => exact hunbroken f (by rw [hconclude, conclude_failure])
  have hcompleted : x.completed = s.archive.attempts.filter Attempt.isWritten := by
    rw [Extracted.completed, ← hattempts, Extracted.settled]
    cases h : x.outcome with
    | ok e => rfl
    | error f => simp [hunbroken f h]
  have hdevice : d = s.archive.finish.1 := by
    rw [hconclude, (conclude_frame ..).2.2] at hd
    exact (Option.some.inj hd).symm
  obtain ⟨st, hst, harchive⟩ := walk_unbroken hwalk hbreaks
  rw [hattempts, hcompleted, hdevice, ← harchive]
  exact ⟨st, hst, rfl, rfl, st.2.archive.finish_output⟩

/-- An extraction that has not failed has not failed in the content of an entry. -/
lemma Extracted.unbroken_of_ok {x : Extracted} {e : Extraction} (h : x.outcome = .ok e) :
    ∀ f, x.outcome = .error f → f.breaksEntry = false := by
  intro f hf
  rw [h] at hf
  simp at hf

end Extract

/-- An extraction that has not failed in the content of an entry leaves an archive that unpacks to
the entries that were written, if what failed has left nothing and what was written has no gaps.
Each of them was written for an entry of a layer, and is found with the size and the content that
this one had. Positions in an archive are numbers of 64 bits. -/
theorem extract_readBack {layers : List Layer} {files : List FileSpec} {cancelled : ℕ → Bool}
    {refuses : ℕ → Bytes → Option String} {label : String} {x : Extracted} {d : Device}
    (hx : extract ⟨.ok layers⟩ files cancelled (.ok ⟨refuses, 0, []⟩) label = x)
    (hd : x.device = some d) (hunbroken : ∀ f, x.outcome = .error f → f.breaksEntry = false)
    (hnothing : ∀ before q after, x.attempts.map Attempt.toRequest = before ++ q :: after →
      ((Archive.new ⟨refuses, 0, []⟩ label).appendAll before).LeavesNothing q)
    (hgapless : ∀ a ∈ x.completed, a.IsGapless) (hfits : d.output.length < Numeral.bound) :
    unpack d.output = .ok (x.completed.map fun a => a.stored) ∧
      List.Forall₂ (fun a z => ∃ l ∈ layers, ∃ y ∈ l.entries,
          requestFor? y = some a.toRequest ∧ SameContent y z)
        x.completed (Reader.ofSource (.ofBytes d.output)).entries := by
  obtain ⟨st, hst, hattempts, hcompleted, t, ht, hout⟩ := extract_unbroken hx hd hunbroken
  have hmade : ∀ a ∈ x.completed, a.isWritten = true ∧ ∃ i e c,
      Meets (.ofFiles files cancelled) layers ⟨refuses, 0, []⟩ label i e c ∧ a.IsFor (e, c) := by
    intro a ha
    rw [hcompleted] at ha
    obtain ⟨ha, hw⟩ := List.mem_filter.mp ha
    exact ⟨hw, hst.attempts a ha⟩
  have hstorable : ∀ a ∈ st.2.archive.attempts, a.isWritten = true → a.IsStorable := by
    intro a ha hw
    have hmem : a ∈ x.completed := hcompleted ▸ List.mem_filter.mpr ⟨ha, hw⟩
    exact hst.isStorable ha hw (hgapless a hmem)
  rw [hattempts] at hnothing
  rw [hout, List.length_append] at hfits
  have hholds : Holds st.2.archive.device.output (x.completed.map fun a => a.stored) := by
    rw [hcompleted]
    have hrun := hst.archive_eq
    rw [hrun] at hstorable hfits ⊢
    exact Archive.holds_appendAll Holds.nil hstorable hnothing (by omega)
  have hunpack : unpack d.output = .ok (x.completed.map fun a => a.stored) := by
    rw [hout, hholds.unpack_iff (by omega)]
    rcases ht with rfl | rfl
    · exact .inl rfl
    · exact .inr zeros_prefix_trailer
  refine ⟨hunpack, ?_⟩
  have hlength := hholds.length
  have hentries := entries_of_unpack hunpack (by rw [hout, List.length_append]; omega)
  rw [List.forall₂_map_right_iff] at hentries
  refine ((List.forall₂_and_left _ _).mpr ⟨hmade, hentries.flip⟩).imp ?_
  rintro a z ⟨⟨hw, i, e, c, hy, hfor⟩, hz⟩
  obtain ⟨l, hl, hmem⟩ := hy.mem_entries
  exact ⟨l, List.mem_of_getElem? hl, (e, c), hmem, hfor.request, hy.sameContent hfor hw hz⟩

/-- A layer with the sparse file `usr/bin/foo`, of which the last five bytes are stored. -/
def sparseLayer (gap : ℕ) : Layer :=
  let h : Header := { bareHeader "usr/bin/foo" 5 with
    kindByte := 83
    tail := .ofBytes 167 (zeros 41 ++ octalField 12 gap ++ octalField 12 5 ++ zeros 73 ++
      octalField 12 (gap + 5)) }
  ⟨"sparse", .ok (.ofBytes (h.withChecksum.toBytes ++ [104, 101, 108, 108, 111] ++ zeros 507 ++
    trailer))⟩

/-- A sparse file without a gap is read back as it was. -/
theorem extract_readBack_solid :
    let x := extract ⟨.ok [sparseLayer 0]⟩ [⟨"/usr/bin/foo", "."⟩] (fun _ => false)
      (.ok .accepting) "out"
    (∃ e, x.outcome = .ok e) ∧ ∃ d, x.device = some d ∧
      unpack d.output = .ok [⟨Utf8.encode "usr/bin/foo", [], [104, 101, 108, 108, 111]⟩] := by
  intro x
  let a₀ := Archive.new .accepting "out"
  have hrun : x.outcome = .ok ⟨[⟨"/usr/bin/foo", "."⟩], [], 1, "out"⟩ ∧
      (x.device.isSome = true ∧
        x.device.all (fun d => d.output.length < Numeral.bound) = true) ∧
      x.completed.map (fun a => a.stored) =
        [⟨Utf8.encode "usr/bin/foo", [], [104, 101, 108, 108, 111]⟩] ∧
      (∀ a ∈ x.completed, a.header.sparseContinues = false ∧
        announcedWith a.header a.records = .ok a.content.bytes.length) ∧
      x.attempts.length = 1 ∧
      ∀ q ∈ x.attempts.map Attempt.toRequest,
        (a₀.append q.header q.path q.records q.content).2.2 = .complete 5 := by
    decide +kernel
  obtain ⟨houtcome, ⟨hsome, hlen⟩, hstored, hgapless, hone, hcomplete⟩ := hrun
  obtain ⟨d, hd⟩ := Option.isSome_iff_exists.mp hsome
  rw [hd, Option.all_some, decide_eq_true_eq] at hlen
  have hnothing : ∀ before q after, x.attempts.map Attempt.toRequest = before ++ q :: after →
      (a₀.appendAll before).LeavesNothing q := by
    intro before q after hq hno
    have hlength := congrArg List.length hq
    simp only [List.length_map, hone, List.length_append, List.length_cons] at hlength
    obtain rfl : before = [] := List.length_eq_zero_iff.mp (by omega)
    exact absurd (hcomplete q (by rw [hq]; simp)) (hno 5)
  have hx : extract ⟨.ok [sparseLayer 0]⟩ [⟨"/usr/bin/foo", "."⟩] (fun _ => false)
      (.ok ⟨fun _ _ => none, 0, []⟩) "out" = x := rfl
  refine ⟨⟨_, houtcome⟩, d, hd, ?_⟩
  rw [← hstored]
  exact (extract_readBack hx hd (Extracted.unbroken_of_ok houtcome) hnothing
    (fun a ha _ => hgapless a ha) hlen).1

/-- A sparse file with a gap is stored with the gap filled in, under a header that does not say so.
The extraction has no warning, and the archive cannot be read: what is left of the content is taken
for a header. -/
theorem extract_sparseGap :
    let x := extract ⟨.ok [sparseLayer 512]⟩ [⟨"/usr/bin/foo", "."⟩] (fun _ => false)
      (.ok .accepting) "out"
    x.outcome = .ok ⟨[⟨"/usr/bin/foo", "."⟩], [], 1, "out"⟩ ∧
      x.completed.map (fun a => (a.path, a.result)) = [("usr/bin/foo", .complete 517)] ∧
      (sparseLayer 512).entries.map (fun y => (y.1.place, y.1.size, y.2.bytes)) =
        [("usr/bin/foo", 517, zeros 512 ++ [104, 101, 108, 108, 111])] ∧
      x.device.map (fun d => unpack d.output) =
        some (.error (.checksumField (.notNumeral "") "hello")) := by
  decide +kernel

end LayerPick
