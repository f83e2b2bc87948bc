import LayerPick.Proofs.EntryReading
import LayerPick.Proofs.HeaderFields

/-!
# Reading bytes that are all there

A source without failures and without a defect is as good as the bytes it delivers. A reader that
stands before such bytes reads a member off them and then stands before the rest, and it is at the
end where there are no more bytes, or a block of zeros.
-/
namespace LayerPick

namespace Source

/-- A source whose calls do not fail. -/
structure IsCalm (s : Source) : Prop where
  noDefect : s.defect = none
  noFault : ∀ f, Event.fault f ∉ s.events

lemma isCalm_ofBytes (b : Bytes) : (ofBytes b).IsCalm := ⟨rfl, by simp [ofBytes]⟩

lemma data_ofBytes (b : Bytes) : (ofBytes b).data = b := by simp [ofBytes, data, Event.data]

/-- Taking bytes is cutting them off, and what is left is as calm as before. -/
lemma IsCalm.take {s : Source} (h : s.IsCalm) (p : Bool) (n : ℕ) :
    ∃ s', s.take p n = ⟨s.data.take n, s', none⟩ ∧ s'.IsCalm ∧ s'.data = s.data.drop n := by
  rcases s with ⟨es, d⟩
  obtain ⟨rfl, hf⟩ := h
  induction es generalizing n with
  | nil =>
    by_cases hzero : n = 0
    · subst hzero
      exact ⟨⟨[], none⟩, by simp, ⟨rfl, by simp⟩, by simp⟩
    · have hn := Nat.pos_of_ne_zero hzero
      exact ⟨⟨[], none⟩, by simp [take_nil p none hn, data], ⟨rfl, by simp⟩, by simp [data]⟩
  | cons e es ih =>
    have hes : ∀ f, Event.fault f ∉ es := fun f hm => hf f (List.mem_cons_of_mem _ hm)
    by_cases hzero : n = 0
    · subst hzero
      exact ⟨⟨e :: es, none⟩, by simp, ⟨rfl, hf⟩, by simp⟩
    have hn := Nat.pos_of_ne_zero hzero
    cases e with
    | fault f => exact absurd (List.mem_cons_self ..) (hf f)
    | bytes b l =>
      have hdata : data ⟨.bytes b l :: es, none⟩ = b ++ data ⟨es, none⟩ := by
        simp [data, Event.data]
      by_cases hb : n < b.length
      · refine ⟨⟨.bytes (b.drop n) l :: es, none⟩, ?_, ⟨rfl, ?_⟩, ?_⟩
        · rw [take_bytes_of_lt p b l es none hn hb, hdata,
            List.take_append_of_le_length (Nat.le_of_lt hb)]
        · intro f hm
          rcases List.mem_cons.mp hm with he | hm
          · simp at he
          · exact hes f hm
        · rw [hdata, List.drop_append_of_le_length (Nat.le_of_lt hb)]
          simp [data, Event.data]
      · have hle : b.length ≤ n := Nat.not_lt.mp hb
        obtain ⟨s', ht, hc, hd⟩ := ih (n - b.length) hes
        refine ⟨s', ?_, hc, ?_⟩
        · rw [take_bytes_of_le p b l es none hn hle, ht, hdata, List.take_append,
            List.take_of_length_le hle]
          rfl
        · rw [hd, hdata, List.drop_append, List.drop_of_length_le hle, List.nil_append]

lemma drain_ofBytes (p : Bool) (b : Bytes) : ∃ s', (ofBytes b).drain p = ⟨b, s', none⟩ := by
  obtain ⟨s', ht, -⟩ := (isCalm_ofBytes b).take p ((ofBytes b).length + 1)
  refine ⟨s', ?_⟩
  rw [drain, ht, length_eq, data_ofBytes, List.take_of_length_le (Nat.le_succ _)]

end Source

namespace Tar

/-- A member: its header, its content, and zeros up to the next block. -/
def memberBytes (h : Header) (content : Bytes) : Bytes :=
  h.toBytes ++ (content ++ zeros (padding content.length))

lemma length_memberBytes (h : Header) (content : Bytes) :
    (memberBytes h content).length =
      blockSize + (content.length + padding content.length) := by
  simp [memberBytes, h.length_toBytes, zeros]

namespace Content

/-- The content of a member is read off the bytes behind its header. -/
lemma drain_calm {s : Source} (hs : s.IsCalm) (n k : ℕ) :
    ∃ s', drain ⟨[.stored n], s, k⟩ =
        .ok (s.data.take n, ⟨[], s', k + (s.data.take n).length⟩) ∧
      s'.IsCalm ∧ s'.data = s.data.drop n := by
  obtain ⟨s', ht, hc, hd⟩ := hs.take true n
  refine ⟨s', ?_, hc, hd⟩
  rw [drain_stored, ht]
  simp

end Content

namespace Reader

/-- The reader stands before these bytes. -/
def StandsAt (r : Reader) (b : Bytes) : Prop :=
  r.isFile = false ∧ ∃ s, r.skip = .ok ⟨[], s, r.next⟩ ∧ s.IsCalm ∧ s.data = b

lemma standsAt_ofSource {s : Source} (hs : s.IsCalm) : (ofSource s).StandsAt s.data := by
  refine ⟨rfl, s, ?_, hs, rfl⟩
  simp [skip, ofSource]

lemma standsAt_ofBytes (b : Bytes) : (ofSource (.ofBytes b)).StandsAt b := by
  have h := standsAt_ofSource (Source.isCalm_ofBytes b)
  rwa [Source.data_ofBytes] at h

variable {r : Reader} {b rest : Bytes}

lemma StandsAt.nextBlock? {block : Bytes} (hr : r.StandsAt (block ++ rest))
    (hl : block.length = blockSize) (hz : block.all (· == 0) = false) :
    ∃ s, r.nextBlock? = .ok (some (block, s)) ∧ s.IsCalm ∧ s.data = rest := by
  obtain ⟨-, s, hs, hc, hd⟩ := hr
  obtain ⟨s', ht, hc', hd'⟩ := hc.take false blockSize
  refine ⟨s', ?_, hc', ?_⟩
  · rw [nextBlock?_some]
    refine ⟨_, hs, ?_, Nat.le_of_eq hl.symm, hz⟩
    simp only [ht, hd, List.take_left' hl]
  · rw [hd', hd, List.drop_left' hl]

/-- The end is where there are no bytes, or zeros for a block. -/
lemma StandsAt.nextBlock?_none (hr : r.StandsAt b) :
    r.nextBlock? = .ok none ↔ b = [] ∨ zeros blockSize <+: b := by
  obtain ⟨-, s, hs, hc, rfl⟩ := hr
  obtain ⟨s', ht, -, -⟩ := hc.take false blockSize
  rw [Reader.nextBlock?_none]
  constructor
  · rintro ⟨c, hc', -, h⟩
    obtain rfl := Except.ok.inj (hs.symm.trans hc')
    simp only [ht] at h
    rcases h with h | ⟨hl, hz⟩
    · left
      have : blockSize ≠ 0 := by decide
      simpa [List.take_eq_nil_iff, this] using h
    · right
      have he : s.data.take blockSize = zeros blockSize := by
        unfold zeros
        rw [List.eq_replicate_iff]
        refine ⟨?_, fun x hx => by simpa using List.all_eq_true.mp hz x hx⟩
        have := List.length_take_le blockSize s.data
        omega
      exact he ▸ List.take_prefix ..
  · intro h
    refine ⟨_, hs, by simp only [ht], ?_⟩
    simp only [ht]
    rcases h with h | ⟨u, hu⟩
    · left
      simp [h]
    · right
      have he : s.data.take blockSize = zeros blockSize := by
        rw [← hu, List.take_left' (by simp [zeros])]
      rw [he]
      exact ⟨by simp [zeros], by simp [zeros]⟩

/-- A header with a checksum is read as it was written, with what the records before it say. -/
lemma StandsAt.nextMember? {h : Header} (hr : r.StandsAt (h.withChecksum.toBytes ++ rest))
    {pax : Option Bytes} {n : ℕ} (hn : announced h pax = .ok n)
    (hfits : r.next + blockSize + (n + padding n) < Numeral.bound) :
    ∃ s, r.nextMember? pax =
        .ok (some (applyOwners (if isDescribed h then pax else none) h.withChecksum, n,
          ⟨⟨[.stored n], s, r.next + blockSize⟩, r.next + blockSize + (n + padding n), false⟩)) ∧
      s.IsCalm ∧ s.data = rest := by
  obtain ⟨s, hb, hc, hd⟩ :=
    hr.nextBlock? h.withChecksum.length_toBytes h.all_zero_withChecksum
  refine ⟨s, ?_, hc, hd⟩
  rw [nextMember?_some]
  have hsize : n + (blockSize - 1) < Numeral.bound := by
    unfold blockSize at *
    omega
  exact ⟨_, s, hb, headerIn_withChecksum hn, hsize, hfits, by rw [hr.1]⟩

/-- A reader stands before what comes behind the bytes that it is to skip. -/
lemma standsAt_before {ps : List Piece} {s : Source} (hs : s.IsCalm) {k next : ℕ} {b rest : Bytes}
    (hnext : next - k = b.length) (hd : s.data = b ++ rest) :
    StandsAt ⟨⟨ps, s, k⟩, next, false⟩ rest := by
  obtain ⟨s', ht, hc, hd'⟩ := hs.take false b.length
  refine ⟨rfl, s', ?_, hc, ?_⟩
  · rw [skip_ok rfl]
    simp only [hnext, ht, hd, List.take_left' rfl, and_self]
  · rw [hd', hd, List.drop_left' rfl]

/-- Behind the content of a member the reader stands before the bytes behind the member. -/
lemma standsAt_behind {s : Source} (hs : s.IsCalm) {n k : ℕ} {rest : Bytes}
    (hd : s.data = zeros (padding n) ++ rest) :
    StandsAt ⟨⟨[], s, k + n⟩, k + (n + padding n), false⟩ rest :=
  standsAt_before hs (by rw [zeros, List.length_replicate]; omega) hd

/-- A member that describes the next entry is taken in, and what follows it is read on. -/
lemma StandsAt.nextFrom?_described {h : Header} {content : Bytes}
    (hr : r.StandsAt (memberBytes h.withChecksum content ++ rest)) {m : ℕ} {d : Described}
    (hk : isDescribed h = false) (hd : h.describes = true) (hcl : d.clash? h.kind = none)
    (hn : readNumber h.size.bytes = .ok content.length)
    (hfits : r.next + (memberBytes h.withChecksum content).length < Numeral.bound) :
    ∃ r', nextFrom? (m + 1) d r = nextFrom? m (d.add content h.kind) r' ∧ r'.StandsAt rest ∧
      r'.next = r.next + (memberBytes h.withChecksum content).length := by
  rw [length_memberBytes] at hfits ⊢
  have han : announced h d.pax = .ok content.length := by
    simp [announced, hn, hk]
  have hr' : r.StandsAt (h.withChecksum.toBytes ++
      (content ++ zeros (padding content.length) ++ rest)) := by
    simpa only [memberBytes, List.append_assoc] using hr
  obtain ⟨s, hm, hc, hdata⟩ := hr'.nextMember? han (by omega)
  obtain ⟨s', hdr, hc', hdata'⟩ := Content.drain_calm hc content.length (r.next + blockSize)
  rw [hdata, List.append_assoc, List.take_left' rfl] at hdr
  rw [hdata, List.append_assoc, List.drop_left' rfl] at hdata'
  rw [hk] at hm
  refine ⟨_, ?_, standsAt_behind (k := r.next + blockSize) hc' hdata', by simp only; omega⟩
  have hd' : (applyOwners none h.withChecksum).describes = true := hd
  have hk' : (applyOwners none h.withChecksum).kind = h.kind := rfl
  simp only [nextFrom?, hm, ok_bind, Bool.false_eq_true, if_false, hd', hk', if_true, hcl, hdr,
    Except.mapError]

/-- A member that describes the next entry is an error behind another one of its kind. -/
lemma StandsAt.nextFrom?_clash {h : Header} {content : Bytes}
    (hr : r.StandsAt (memberBytes h.withChecksum content ++ rest)) {m : ℕ} {d : Described}
    (hk : isDescribed h = false) (hd : h.describes = true) {err : ReadError}
    (hcl : d.clash? h.kind = some err) (hn : readNumber h.size.bytes = .ok content.length)
    (hfits : r.next + (memberBytes h.withChecksum content).length < Numeral.bound) :
    nextFrom? (m + 1) d r = .error err := by
  rw [length_memberBytes] at hfits
  have han : announced h d.pax = .ok content.length := by
    simp [announced, hn, hk]
  simp only [memberBytes, List.append_assoc] at hr
  obtain ⟨s, hm, -, -⟩ := hr.nextMember? han (by omega)
  rw [hk] at hm
  have hd' : (applyOwners none h.withChecksum).describes = true := hd
  have hk' : (applyOwners none h.withChecksum).kind = h.kind := rfl
  simp only [nextFrom?, hm, ok_bind, Bool.false_eq_true, if_false, hd', hk', if_true, hcl]

end Reader

end Tar

end LayerPick
