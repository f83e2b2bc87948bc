import LayerPick.Proofs.Appending
import LayerPick.Proofs.CutImages

/-!
# Archives that hold files

An archive that holds some files can be read from end to end, each file an entry in it, in any form
of header and under any path that leads to its name. Reading it as a stream, content by content, is
one thing, and moving in it as a file, from header to header, another. Both come to the same
entries, and the content of a regular entry lies where the entry says.
-/
namespace LayerPick

open Tar

namespace Tar

/-- The name under which an entry is looked for. -/
def Entry.blobName (e : Entry) : String := Path.normalize (Utf8.decodeLossy e.path)

/-- Neither a file nor a link: nothing that an index takes in. -/
def Kind.isPassedOver (k : Kind) : Prop := k ≠ .regular ∧ k ≠ .symbolicLink ∧ k ≠ .hardLink

instance (k : Kind) : Decidable k.isPassedOver := inferInstanceAs (Decidable (_ ∧ _))

namespace Reader

/-- The archive can be gone through up to its end, and these files lie in it, one behind the
other. -/
inductive Lists : Reader → List (String × Bytes) → Prop
  | ended {r : Reader} : r.next? = .ok none → Lists r []
  | file {r r' : Reader} {e : Entry} {xs : List (String × Bytes)} :
    r.next? = .ok (some (e, r')) → e.header.kind = .regular → Lists r' xs →
      Lists r ((e.blobName, r'.content.bytes) :: xs)
  | other {r r' : Reader} {e : Entry} {xs : List (String × Bytes)} :
    r.next? = .ok (some (e, r')) → e.header.kind.isPassedOver → Lists r' xs → Lists r xs

/-- What is listed in so many steps, if that is all. -/
def listed? : ℕ → Reader → Option (List (String × Bytes))
  | 0, _ => none
  | n + 1, r =>
    match r.next? with
    | .error _ => none
    | .ok none => some []
    | .ok (some (e, r')) =>
      if e.header.kind = .regular then
        (listed? n r').map ((e.blobName, r'.content.bytes) :: ·)
      else if e.header.kind.isPassedOver then listed? n r'
      else none

lemma lists_of_listed? {n : ℕ} {r : Reader} {xs : List (String × Bytes)}
    (h : listed? n r = some xs) : r.Lists xs := by
  induction n generalizing r xs with
  | zero => simp [listed?] at h
  | succ n ih =>
    rw [listed?] at h
    rcases hx : r.next? with err | _ | ⟨e, r'⟩ <;> simp only [hx] at h
    · simp at h
    · obtain rfl := Option.some.inj h
      exact .ended hx
    · split_ifs at h with hk ho
      · obtain ⟨ys, hys, rfl⟩ := Option.map_eq_some_iff.mp h
        exact .file hx hk (ih hys)
      · exact .other hx ho (ih h)

/-- The reader that moves in the archive instead of reading on. -/
def moving (r : Reader) : Reader := { r with isFile := true }

/-- Calls do not fail, and what comes is the archive `b` from there on. -/
def Lies (b : Bytes) (s : Source) (k : ℕ) : Prop := s.IsCalm ∧ s.data = b.drop k ∧ k ≤ b.length

lemma kept_lies (b : Bytes) : Kept (Lies b) := by
  rintro p m s k ⟨hs, hd, hk⟩ -
  obtain ⟨s', ht, hs', hd'⟩ := hs.take p m
  rw [ht]
  refine ⟨hs', ?_, ?_⟩
  · rw [hd', hd, List.drop_drop]
    rcases Nat.le_total m (b.drop k).length with h | h
    · rw [List.length_take, Nat.min_eq_left h]
    · rw [List.take_of_length_le h, List.length_drop,
        List.drop_of_length_le (by rw [List.length_drop] at h; omega),
        List.drop_of_length_le (by omega)]
  · simp only [hd, List.length_take, List.length_drop]
    omega

lemma Lies.endsAt {b : Bytes} {s : Source} {k : ℕ} (h : Lies b s k) : EndsAt b.length s k := by
  refine ⟨h.1, ?_⟩
  rw [Source.length_eq, h.2.1, List.length_drop]
  have := h.2.2
  omega

section Moving

variable {b : Bytes} {r r' : Reader} (hb : b.length < Numeral.bound / 2) (hr : r.Proper)
  (hlies : Lies b r.content.source r.content.position)

include hb hr hlies

/-- Where reading on does not end early, moving leads to the same place. -/
lemma skip_moving {c : Content} (h : r.skip = .ok c) : r.moving.skip = .ok c := by
  obtain ⟨rfl, -, hl⟩ := (skip_ok hr.isStream).mp h
  have hend := hlies.endsAt.2
  have hlen := Source.take_length false (r.next - r.content.position) r.content.source
  exact (skip_isFile rfl).mpr ⟨by simp only [moving]; omega, by simp only [moving]; omega, rfl⟩

lemma nextBlock?_moving {x : Option (Bytes × Source)} (h : r.nextBlock? = .ok x) :
    r.moving.nextBlock? = .ok x := by
  obtain ⟨c, hc, hx⟩ := bind_ok.mp h
  exact bind_ok.mpr ⟨c, skip_moving hb hr hlies hc, hx⟩

lemma nextMember?_moving {pax : Option Bytes} {h : Header} {size : ℕ}
    (hm : r.nextMember? pax = .ok (some (h, size, r'))) :
    r.moving.nextMember? pax = .ok (some (h, size, r'.moving)) := by
  obtain ⟨block, s, hblock, hin, h₁, h₂, rfl⟩ := nextMember?_some.mp hm
  exact nextMember?_some.mpr
    ⟨block, s, nextBlock?_moving hb hr hlies hblock, hin, h₁, h₂, rfl⟩

omit hb hr hlies in
lemma entryAt_moving {d : Described} {h : Header} {size : ℕ} {e : Entry}
    (he : entryAt d h size r = .ok (e, r')) : entryAt d h size r.moving = .ok (e, r'.moving) := by
  simp only [entryAt, moving] at he ⊢
  split_ifs at he ⊢ with hk
  · obtain ⟨⟨ps, full, c, n⟩, hp, he⟩ := bind_ok.mp he
    obtain ⟨rfl, rfl⟩ := Prod.mk.inj (Except.ok.inj he)
    exact bind_ok.mpr ⟨_, hp, rfl⟩
  · obtain ⟨rfl, rfl⟩ := Prod.mk.inj (Except.ok.inj he)
    rfl

lemma nextFrom?_moving {n : ℕ} {d : Described} {e : Entry}
    (h : nextFrom? n d r = .ok (some (e, r'))) :
    nextFrom? n d r.moving = .ok (some (e, r'.moving)) := by
  induction n generalizing d r with
  | zero => simp [nextFrom?] at h
  | succ n ih =>
    obtain ⟨hd, size, r₁, hm, hcase⟩ := nextFrom?_some.mp h
    have hproper := (nextMember?_advances hr hm).1.proper
    have hlies₁ := (kept_lies b).nextMember? hr hlies hm
    refine nextFrom?_some.mpr ⟨hd, size, r₁.moving, nextMember?_moving hb hr hlies hm, ?_⟩
    refine hcase.imp ?_ fun h => ⟨h.1, entryAt_moving h.2⟩
    rintro ⟨hdes, hcl, data, c, hdr, hn⟩
    exact ⟨hdes, hcl, data, c, hdr, ih (hproper.drained hdr)
      ((kept_lies b).drain hproper.bounded hlies₁ hdr) hn⟩

/-- What is next in the archive does not hang on how one goes there. -/
lemma next?_moving {x : Option (Entry × Reader)} (h : r.next? = .ok x) :
    r.moving.next? = .ok (x.map fun y => (y.1, y.2.moving)) := by
  cases x with
  | none => exact next?_none.mpr (nextBlock?_moving hb hr hlies (next?_none.mp h))
  | some y => exact nextFrom?_moving hb hr hlies h

end Moving

/-- The content of an entry that is not sparse is stored in one piece. -/
lemma nextFrom?_stored {n : ℕ} {d : Described} {r r' : Reader} {e : Entry}
    (h : nextFrom? n d r = .ok (some (e, r'))) (hk : e.header.kind ≠ .sparse) :
    r'.content = ⟨[.stored e.size], r'.content.source, e.start⟩ := by
  induction n generalizing d r with
  | zero => simp [nextFrom?] at h
  | succ n ih =>
    obtain ⟨hd, size, r₁, hm, ⟨-, -, data, c, -, hn⟩ | ⟨-, he⟩⟩ := nextFrom?_some.mp h
    · exact ih hn
    · obtain ⟨block, s, -, -, -, -, rfl⟩ := nextMember?_some.mp hm
      simp only [entryAt] at he
      split_ifs at he with hsparse
      · obtain ⟨⟨ps, full, c, n⟩, -, he⟩ := bind_ok.mp he
        obtain ⟨rfl, -⟩ := Prod.mk.inj (Except.ok.inj he)
        exact absurd hsparse hk
      · obtain ⟨rfl, rfl⟩ := Prod.mk.inj (Except.ok.inj he)
        rfl

/-- The content of a regular entry lies in the archive where the entry says. -/
lemma bytes_regular {b : Bytes} {r r' : Reader} {e : Entry} (hr : r.Proper)
    (hlies : Lies b r.content.source r.content.position) (h : r.next? = .ok (some (e, r')))
    (hk : e.header.kind = .regular) :
    r'.content.bytes = Span.dataIn ⟨e.start, e.size⟩ b := by
  have hcontent := nextFrom?_stored h (by simp [hk])
  have hlies' := (kept_lies b).nextFrom? hr hlies h
  rw [hcontent] at hlies'
  obtain ⟨hcalm, hdata, -⟩ := hlies'
  obtain ⟨s', hdr, -, -⟩ := Content.drain_calm hcalm e.size e.start
  rw [hcontent, Content.bytes_of_drain hdr, hdata]
  rfl

end Reader

/-- The archive holds these files, in any order, and no others. -/
def HoldsFiles (b : Bytes) (files : List (String × Bytes)) : Prop :=
  ∃ listed, (Reader.ofSource (.ofBytes b)).Lists listed ∧ listed.Perm files

end Tar

namespace TarIndex

variable {i : TarIndex}

lemma add_regular {e : Entry} (hk : e.header.kind = .regular) :
    i.add e = (⟨(e.blobName, ⟨e.start, e.size⟩) :: i.spans, i.links⟩, []) := by
  simp only [add, hk]
  rfl

lemma add_passedOver {e : Entry} (hk : e.header.kind.isPassedOver) : i.add e = (i, []) := by
  obtain ⟨h₁, h₂, h₃⟩ := hk
  unfold add
  split
  · exact absurd ‹_› h₁
  · exact absurd ‹_› h₂
  · exact absurd ‹_› h₃
  · rfl

end TarIndex

end LayerPick
