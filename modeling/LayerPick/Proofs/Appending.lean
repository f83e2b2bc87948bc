import LayerPick.Archive
import LayerPick.Proofs.DeviceOutput
import LayerPick.Proofs.Unpacking

/-!
# Appending to a device that refuses calls

An archive does not take back what it has written of an entry that fails. What that means for the
entries around it is settled entry by entry: the archive unpacks to what was written, at every point
at which it may be ended, just if each failed entry has left nothing at all, and if each entry that
was written is read back with its own path and size.
-/
namespace LayerPick

open Tar

/-- What content delivers, if it can be read to its end. -/
def Tar.Content.bytes (c : Content) : Bytes :=
  match c.drain with
  | .ok (b, _) => b
  | .error _ => []

lemma Tar.Content.bytes_of_drain {c c' : Content} {b : Bytes} (h : c.drain = .ok (b, c')) :
    c.bytes = b := by
  simp [bytes, h]

namespace Request

def unpacked (q : Request) : Unpacked := ⟨Utf8.encode q.path, q.records, q.content.bytes⟩

/-- The request with what comes of it if it is written. -/
def completed (q : Request) : Attempt := ⟨q, .complete q.content.bytes.length⟩

/-- A request for a regular file: a normal path, records that follow an entry, and content of the
size that the header states. -/
structure IsProper (q : Request) : Prop where
  isRegular : q.header.kind = .regular
  isNormal : Path.normalize q.path = q.path
  isCarried : ∀ r ∈ q.records, r.IsCarried
  isReadable : ∃ c, q.content.drain = .ok (q.content.bytes, c)
  states : readNumber q.header.size.bytes = .ok q.content.bytes.length

def stored (q : Request) : Unpacked := ⟨storedPath q.header q.path, q.records, q.content.bytes⟩

/-- A request for an entry whose content is announced, and stored as it is read. -/
structure IsStorable (q : Request) : Prop where
  isPlain : ∃ ns, (∀ n ∈ ns, Path.IsPlain n) ∧ q.path = Path.join ns
  isCarried : ∀ r ∈ q.records, r.IsCarried
  isEntry : q.header.describes = false
  announces : announcedWith q.header q.records = .ok q.content.bytes.length
  yields : q.header.Yields q.content.bytes.length q.content.bytes.length

/-- What is stored for an entry holds it, under the path that it is stored under. -/
lemma IsStorable.holds {q : Request} (hq : q.IsStorable)
    (hplaced : (frontCalls q.header q.path q.records).2 = none)
    (hb : (Pax.encode q.records).length < Numeral.bound) :
    Holds ((frontCalls q.header q.path q.records).1.flatten ++
      (q.content.bytes ++ zeros (padding q.content.bytes.length))) [q.stored] := by
  obtain ⟨ns, hns, hp⟩ := hq.isPlain
  have hsize := (announced_paxData q.header hq.isCarried hb).trans hq.announces
  unfold stored
  rw [hp] at hplaced ⊢
  exact holds_stored hns hq.isCarried hq.isEntry hq.yields hplaced hsize

/-- Nothing that goes with the entry gives it another size or another path. -/
structure IsFaithful (q : Request) : Prop where
  size : ∀ n, Pax.numberIn? "size" q.records = some n → n = q.content.bytes.length
  front : ¬q.header.KeepsFront q.path

end Request

/-- The entries that have been written, as they are to be unpacked. -/
def writtenBy (as : List Attempt) : List Unpacked :=
  (as.filter Attempt.isWritten).map fun a => a.toRequest.unpacked

namespace Archive

def appendAll (a : Archive) (qs : List Request) : Archive :=
  qs.foldl (fun a q => (a.append q.header q.path q.records q.content).1) a

def written (a : Archive) : List Unpacked := writtenBy a.attempts

/-- The bytes of the archive if it is ended here. -/
def ended (a : Archive) : Bytes := a.device.output ++ trailer

/-- A request that is written is read back as it was made, and one that fails leaves nothing. -/
structure TakesCleanly (a : Archive) (q : Request) : Prop where
  whole : ∀ n, (a.append q.header q.path q.records q.content).2.2 = .complete n → q.IsFaithful
  nothing : (∀ n, (a.append q.header q.path q.records q.content).2.2 ≠ .complete n) →
    (a.append q.header q.path q.records q.content).1.device.output = a.device.output

/-- The device holds the entries that have been written, and nothing else. -/
def IsExact (a : Archive) : Prop := Holds a.device.output a.written

lemma finish_ended {a : Archive} {d : Device} (h : a.finish = (d, none)) : d.output = a.ended := by
  unfold finish at h
  rcases hw : a.device.write trailer with ⟨d', _ | m⟩ <;> rw [hw] at h
  · obtain ⟨rfl, -⟩ := Prod.mk.inj h
    exact Device.output_write hw
  · simp at h

lemma appendAll_append (a : Archive) (qs rs : List Request) :
    a.appendAll (qs ++ rs) = (a.appendAll qs).appendAll rs := List.foldl_append ..

section Step

variable {a : Archive} {q : Request}

lemma append_device {d : Device} {c : Content} {r : Copied}
    (hw : writeEntry a.device q.header q.path q.records q.content = (d, c, r)) :
    a.append q.header q.path q.records q.content = (⟨d, a.label, ⟨q, r⟩ :: a.history⟩, c, r) := by
  simp [append, hw]

lemma written_append {d : Device} {r : Copied} :
    written ⟨d, a.label, ⟨q, r⟩ :: a.history⟩ =
      a.written ++ if Attempt.isWritten ⟨q, r⟩ then [q.unpacked] else [] := by
  simp only [written, writtenBy, attempts, List.reverse_cons, List.filter_append, List.map_append]
  cases h : Attempt.isWritten ⟨q, r⟩ <;> simp [h]

lemma isWritten_failed {r : Copied} (hno : ∀ n, r ≠ .complete n) :
    Attempt.isWritten ⟨q, r⟩ = false := by
  cases r with
  | complete n => exact absurd rfl (hno n)
  | refused m => rfl
  | unreadable m => rfl

lemma output_append (a : Archive) (q : Request) :
    ∃ b, (a.append q.header q.path q.records q.content).1.device.output = a.device.output ++ b := by
  rcases hw : writeEntry a.device q.header q.path q.records q.content with ⟨d, c, r⟩
  rw [append_device hw]
  rcases output_writeEntry hw with h | ⟨h₀, more, h⟩
  · exact ⟨[], by simpa using h⟩
  · exact ⟨_, h⟩

lemma output_appendAll (a : Archive) (qs : List Request) :
    ∃ b, (a.appendAll qs).device.output = a.device.output ++ b := by
  induction qs generalizing a with
  | nil => exact ⟨[], by simp [appendAll]⟩
  | cons q qs ih =>
    obtain ⟨b, hb⟩ := output_append a q
    obtain ⟨b', hb'⟩ := ih (a.append q.header q.path q.records q.content).1
    exact ⟨b ++ b', by rw [← List.append_assoc, ← hb]; exact hb'⟩

end Step

end Archive

namespace Request

lemma IsProper.describes {q : Request} (hq : q.IsProper) : q.header.describes = false := by
  simp [Header.describes, hq.isRegular]

lemma IsProper.yields {q : Request} (hq : q.IsProper) (n : ℕ) : q.header.Yields n n :=
  Header.yields_of_ne (by simp [hq.isRegular]) n

lemma IsProper.path {q : Request} (hq : q.IsProper) :
    ∃ ns, (∀ n ∈ ns, Path.IsPlain n) ∧ q.path = Path.join ns :=
  ⟨Path.normalNames q.path, Path.normalNames_isPlain q.path, hq.isNormal.symm⟩

lemma IsProper.isStorable {q : Request} (hq : q.IsProper) (hf : q.IsFaithful) : q.IsStorable := by
  refine ⟨hq.path, hq.isCarried, hq.describes, ?_, hq.yields _⟩
  rw [announcedWith_regular hq.isRegular hq.states]
  cases hs : Pax.numberIn? "size" q.records with
  | none => rfl
  | some m => rw [hf.size m hs]; rfl

/-- An entry is stored as it was asked for, unless its header keeps the front part of another
path. -/
lemma IsStorable.stored_eq_iff {q : Request} (hq : q.IsStorable)
    (hplaced : (frontCalls q.header q.path q.records).2 = none) :
    q.stored = q.unpacked ↔ ¬q.header.KeepsFront q.path := by
  obtain ⟨ns, hns, hp⟩ := hq.isPlain
  rw [frontCalls_snd] at hplaced
  simp only [stored, unpacked, Unpacked.mk.injEq, and_true]
  rw [hp] at hplaced ⊢
  exact storedPath_eq_iff hns hplaced

end Request

namespace Archive

section Step

variable {a : Archive} {q : Request}

lemma output_written {n : ℕ} (hq : q.IsStorable)
    (hr : (a.append q.header q.path q.records q.content).2.2 = .complete n)
    (hfits : (a.append q.header q.path q.records q.content).1.device.output.length <
      Numeral.bound) :
    ∃ b, (a.append q.header q.path q.records q.content).1.device.output = a.device.output ++ b ∧
      Holds b [q.stored] := by
  rcases hw : writeEntry a.device q.header q.path q.records q.content with ⟨d, c, r⟩
  rw [append_device hw] at hr hfits ⊢
  obtain rfl : r = .complete n := hr
  obtain ⟨hplaced, b, hb, hn, hout⟩ := output_complete hw
  have hlen := Reader.length_encode_le q.header q.path q.records
  simp only [hout, List.length_append] at hfits
  have hholds := hq.holds hplaced (by omega)
  rw [Content.bytes_of_drain hb, ← hn] at hholds
  exact ⟨_, hout, hholds⟩

lemma IsExact.append (ha : a.IsExact) (hq : q.IsProper) (hc : a.TakesCleanly q)
    (hfits : (a.append q.header q.path q.records q.content).1.device.output.length <
      Numeral.bound) : (a.append q.header q.path q.records q.content).1.IsExact := by
  rcases hw : writeEntry a.device q.header q.path q.records q.content with ⟨d, c, r⟩
  have happ := append_device hw
  unfold IsExact
  by_cases hr : ∃ n, r = .complete n
  · obtain ⟨n, rfl⟩ := hr
    have hdone : (a.append q.header q.path q.records q.content).2.2 = .complete n := by rw [happ]
    have hfaithful := hc.whole n hdone
    have hstorable := hq.isStorable hfaithful
    obtain ⟨b, hout, hnew⟩ := output_written hstorable hdone hfits
    have hplaced := (output_complete hw).1
    rw [hstorable.stored_eq_iff hplaced |>.mpr hfaithful.front] at hnew
    rw [hout, happ, written_append]
    exact Holds.append ha hnew
  · have hno : ∀ n, r ≠ .complete n := fun n hn => hr ⟨n, hn⟩
    rw [hc.nothing (by rw [happ]; exact hno), happ, written_append, isWritten_failed hno,
      if_neg (by decide), List.append_nil]
    exact ha

lemma not_end_of_header (h : Header) (more : Bytes) :
    ¬(h.withChecksum.toBytes ++ more = [] ∨
      zeros blockSize <+: h.withChecksum.toBytes ++ more) := by
  have hl := h.withChecksum.length_toBytes
  rintro (hnil | hpre)
  · have := congrArg List.length hnil
    simp [hl, blockSize] at this
  · have hz := h.all_zero_withChecksum
    have hpre' := List.prefix_of_prefix_length_le hpre (List.prefix_append ..)
      (show (zeros blockSize).length ≤ h.withChecksum.toBytes.length by simp [zeros, hl])
    have he : zeros blockSize = h.withChecksum.toBytes :=
      hpre'.eq_of_length (by simp [zeros, hl])
    rw [← he] at hz
    simp [zeros] at hz

/-- An entry that is unpacked as it was asked for has nothing that gives it another size or another
path. -/
lemma isFaithful_of_unpack {b : Bytes} {us : List Unpacked} (hb : Holds b us) (hq : q.IsProper)
    (hplaced : (frontCalls q.header q.path q.records).2 = none)
    (hfits : b.length + (frontCalls q.header q.path q.records).1.flatten.length < Numeral.bound)
    (hu : unpack (b ++ ((frontCalls q.header q.path q.records).1.flatten ++
      (q.content.bytes ++ zeros (padding q.content.bytes.length)) ++ trailer)) =
        .ok (us ++ [q.unpacked])) : q.IsFaithful := by
  obtain ⟨ns, hns, hp⟩ := hq.path
  have hlen := Reader.length_encode_le q.header q.path q.records
  have hsize := announced_paxData q.header hq.isCarried (by omega)
  rw [announcedWith_regular hq.isRegular hq.states] at hsize
  obtain ⟨k, r, hat, hnext, hk⟩ := hb.unpack_append _ (by omega)
  rw [hk] at hu
  have hone : r.unpackWithin (k + 1) = .ok [q.unpacked] := by
    obtain ⟨vs, hvs, he⟩ := map_ok.mp hu
    rwa [List.append_cancel_left he] at hvs
  generalize hm : (Pax.numberIn? "size" q.records).getD q.content.bytes.length = m at hsize
  rw [hp] at hat hplaced hfits
  rw [List.append_assoc] at hat
  by_cases hover : r.next + (frontCalls q.header (Path.join ns) q.records).1.flatten.length +
      (m + padding m) < Numeral.bound
  · obtain ⟨s, hstep, -, -⟩ := hat.unpackWithin_stored hns hq.isCarried hq.describes (hq.yields _)
      hplaced hsize hover
    rw [hstep] at hone
    obtain ⟨vs, -, hvs⟩ := map_ok.mp hone
    obtain ⟨hu₁, -⟩ := List.cons.inj hvs
    simp only [Request.unpacked, Unpacked.mk.injEq, true_and] at hu₁
    have hmlen := congrArg List.length hu₁.2
    simp only [List.length_take, List.length_append, zeros, List.length_replicate, trailer,
      blockSize] at hmlen
    have hmeq : m = q.content.bytes.length := by omega
    refine ⟨fun n hn => ?_, ?_⟩
    · rw [hn] at hm
      exact hm.trans hmeq
    · rw [frontCalls_snd] at hplaced
      rw [hp]
      exact (storedPath_eq_iff hns hplaced).mp (hp ▸ hu₁.1)
  · have herr := hat.next?_overflow hns hq.isCarried hplaced hsize (by omega) (by omega)
    simp [Reader.unpackWithin, herr] at hone

/-- If an exact archive unpacks to what has been written also behind a request, the request was
taken cleanly. -/
lemma IsExact.takesCleanly (ha : a.IsExact) (hq : q.IsProper)
    (hfits : (a.append q.header q.path q.records q.content).1.device.output.length <
      Numeral.bound)
    (hu : unpack (a.append q.header q.path q.records q.content).1.ended =
      .ok (a.append q.header q.path q.records q.content).1.written) : a.TakesCleanly q := by
  rcases hw : writeEntry a.device q.header q.path q.records q.content with ⟨d, c, r⟩
  rw [append_device hw] at hfits hu
  rw [written_append] at hu
  simp only [ended] at hu hfits
  refine ⟨fun n hn => ?_, fun hno => ?_⟩
  · rw [append_device hw] at hn
    obtain rfl : r = .complete n := hn
    obtain ⟨hplaced, b, hb, hn, hout⟩ := output_complete hw
    obtain rfl := Content.bytes_of_drain hb
    have : Attempt.isWritten ⟨q, .complete n⟩ = true := rfl
    rw [if_pos this, hout, hn, List.append_assoc] at hu
    rw [hout, List.length_append, List.length_append] at hfits
    exact isFaithful_of_unpack ha hq hplaced (by omega) hu
  · rw [append_device hw] at hno ⊢
    rw [isWritten_failed hno, if_neg (by decide), List.append_nil] at hu
    rcases output_writeEntry hw with h | ⟨h₀, more, h⟩
    · exact h
    · have hl : a.device.output.length < Numeral.bound := by
        rw [h, List.length_append] at hfits
        omega
      rw [h, List.append_assoc, Holds.unpack_iff ha hl, List.append_assoc] at hu
      exact absurd hu (not_end_of_header h₀ _)

end Step

section Run

variable {a : Archive} {qs : List Request}

lemma length_output_le (a : Archive) (before after : List Request) :
    (a.appendAll before).device.output.length ≤
      (a.appendAll (before ++ after)).device.output.length := by
  obtain ⟨b, hb⟩ := output_appendAll (a.appendAll before) after
  rw [appendAll_append, hb, List.length_append]
  exact Nat.le_add_right _ _

lemma IsExact.appendAll (ha : a.IsExact) (hqs : ∀ q ∈ qs, q.IsProper)
    (hfits : (a.appendAll qs).device.output.length < Numeral.bound)
    (hc : ∀ before q after, qs = before ++ q :: after → (a.appendAll before).TakesCleanly q) :
    (a.appendAll qs).IsExact := by
  induction qs generalizing a with
  | nil => exact ha
  | cons q qs ih =>
    have hle := length_output_le a [q] qs
    have hq := ha.append (hqs q (List.mem_cons_self ..)) (hc [] q qs rfl)
      (Nat.lt_of_le_of_lt hle hfits)
    refine ih hq (fun x hx => hqs x (List.mem_cons_of_mem _ hx)) hfits ?_
    intro before x after hx
    exact hc (q :: before) x after (by rw [hx, List.cons_append])

/-- An archive that unpacks to what has been written at every point has taken each request
cleanly. -/
lemma IsExact.takesCleanly_all (ha : a.IsExact) (hqs : ∀ q ∈ qs, q.IsProper)
    (hfits : (a.appendAll qs).device.output.length < Numeral.bound)
    (hu : ∀ before after, qs = before ++ after →
      unpack (a.appendAll before).ended = .ok (a.appendAll before).written) :
    ∀ before q after, qs = before ++ q :: after → (a.appendAll before).TakesCleanly q := by
  induction qs generalizing a with
  | nil => simp
  | cons q qs ih =>
    have hle := length_output_le a [q] qs
    have hlt := Nat.lt_of_le_of_lt hle hfits
    have hq := hqs q (List.mem_cons_self ..)
    have hclean := ha.takesCleanly hq hlt (hu [q] qs rfl)
    have hrest := ih (ha.append hq hclean hlt) (fun x hx => hqs x (List.mem_cons_of_mem _ hx)) hfits
      fun before after hx => hu (q :: before) after (by rw [hx, List.cons_append])
    intro before x after hx
    cases before with
    | nil =>
      obtain ⟨rfl, -⟩ := List.cons.inj hx
      exact hclean
    | cons y before =>
      obtain ⟨rfl, hbefore⟩ := List.cons.inj hx
      exact hrest before x after hbefore

end Run

/-- On a device that may refuse any of its calls, an archive unpacks to what has been written,
wherever it is ended, just if each request that failed has left nothing and each one that was
written has the size and the path that it asked for. The trailer ends it. Positions in an archive
are numbers of 64 bits. -/
theorem unpack_appendAll_iff (refuses : ℕ → Bytes → Option String) (label : String)
    {qs : List Request} (hqs : ∀ q ∈ qs, q.IsProper)
    (hfits : ((new ⟨refuses, 0, []⟩ label).appendAll qs).device.output.length < Numeral.bound) :
    ((∀ before after, qs = before ++ after →
        unpack ((new ⟨refuses, 0, []⟩ label).appendAll before).ended =
          .ok ((new ⟨refuses, 0, []⟩ label).appendAll before).written) ↔
      ∀ before q after, qs = before ++ q :: after →
        ((new ⟨refuses, 0, []⟩ label).appendAll before).TakesCleanly q) ∧
    ∀ d, ((new ⟨refuses, 0, []⟩ label).appendAll qs).finish = (d, none) →
      d.output = ((new ⟨refuses, 0, []⟩ label).appendAll qs).ended := by
  have hnew : (new ⟨refuses, 0, []⟩ label).IsExact := Holds.nil
  refine ⟨⟨hnew.takesCleanly_all hqs hfits, fun hc before after hb => ?_⟩,
    fun d => finish_ended⟩
  subst hb
  have hlt := Nat.lt_of_le_of_lt (length_output_le _ before after) hfits
  have hexact := hnew.appendAll (fun q hq => hqs q (List.mem_append_left _ hq)) hlt
    fun front q back hx => hc front q (back ++ after) (by rw [hx, List.append_assoc]; rfl)
  exact Holds.unpack_trailer hexact hlt

/-- Requests for the files `a` with content `BAD` and `b` with content `ok`. -/
def twoRequests : List Request :=
  [⟨bareHeader "x" 3, "a", [], .ofSource (.ofBytes [66, 65, 68])⟩,
    ⟨bareHeader "y" 2, "b", [], .ofSource (.ofBytes [111, 107])⟩]

lemma twoRequests_isProper : ∀ q ∈ twoRequests, q.IsProper := by
  intro q hq
  simp only [twoRequests, List.mem_cons, List.not_mem_nil, or_false] at hq
  rcases hq with rfl | rfl
  · exact ⟨rfl, by decide, by simp, ⟨_, rfl⟩, readNumber_bareHeader "x" (by decide)⟩
  · exact ⟨rfl, by decide, by simp, ⟨_, rfl⟩, readNumber_bareHeader "y" (by decide)⟩

/-- A device that refuses its first call has nothing of the first file, and the second one is read
back. -/
theorem unpack_twoRequests :
    unpack ((new ⟨fun k _ => if k = 0 then some "write rejected" else none, 0, []⟩
      "out").appendAll twoRequests).ended = .ok [⟨[98], [], [111, 107]⟩] := by
  let a := new ⟨fun k _ => if k = 0 then some "write rejected" else none, 0, []⟩ "out"
  let q : Request := ⟨bareHeader "x" 3, "a", [], .ofSource (.ofBytes [66, 65, 68])⟩
  let q' : Request := ⟨bareHeader "y" 2, "b", [], .ofSource (.ofBytes [111, 107])⟩
  have hq : a.TakesCleanly q := by
    have hr : (a.append q.header q.path q.records q.content).2.2 = .refused "write rejected" := by
      decide +kernel
    refine ⟨fun n hn => ?_, fun _ => by decide +kernel⟩
    rw [hr] at hn
    simp at hn
  have hq' : (a.appendAll [q]).TakesCleanly q' := by
    have hr : ((a.appendAll [q]).append q'.header q'.path q'.records q'.content).2.2 =
        .complete 2 := by
      decide +kernel
    have hform : q'.header.form = .gnu := by decide +kernel
    refine ⟨fun _ _ => ⟨by simp [Pax.numberIn?, q'], fun hf => ?_⟩, fun hno => absurd hr (hno 2)⟩
    rw [Header.KeepsFront, hform] at hf
    simp at hf
  have hiff := (unpack_appendAll_iff (fun k _ => if k = 0 then some "write rejected" else none)
    "out" twoRequests_isProper (by decide +kernel)).1
  rw [hiff.mpr ?_ twoRequests [] (by simp)]
  · decide +kernel
  intro before x after hx
  cases before with
  | nil =>
    obtain ⟨rfl, -⟩ := List.cons.inj hx
    exact hq
  | cons y before =>
    obtain ⟨rfl, htail⟩ := List.cons.inj hx
    cases before with
    | nil =>
      obtain ⟨rfl, -⟩ := List.cons.inj htail
      exact hq'
    | cons z before => simp at htail

/-- A device that refuses the content of the first file has its header already, and so the second
one is not read back. -/
theorem appendAll_poisoned :
    (∀ q ∈ twoRequests, q.IsProper) ∧
      ∃ d, ((new (.rejecting [66, 65, 68] "write rejected") "out").appendAll twoRequests).finish =
          (d, none) ∧
        unpack d.output ≠
          .ok ((new (.rejecting [66, 65, 68] "write rejected") "out").appendAll
            twoRequests).written := by
  have hf : ((new (.rejecting [66, 65, 68] "write rejected") "out").appendAll
      twoRequests).finish.2 = none := by
    decide +kernel
  have hpair : ∀ x : Device × Option Failure, x.2 = none → x = (x.1, none) := by
    rintro ⟨d, r⟩ rfl
    rfl
  refine ⟨twoRequests_isProper, _, hpair _ hf, ?_⟩
  decide +kernel

end Archive

end LayerPick
