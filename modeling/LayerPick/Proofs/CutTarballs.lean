import LayerPick.Proofs.CutLayers

/-!
# Image tarballs that break off

In a file a reader moves on to the next header without looking at what lies between, and where it
comes out behind the end of the file it takes the archive to be ended. So the index of an image
tarball that is cut off has the entries up to some point. If no name occurs twice, what is found in
it is found at the same place in the index of the whole tarball.
-/
namespace LayerPick

namespace Tar

/-- Calls do not fail, and the bytes left and those taken are `n` in all. -/
def EndsAt (n : ℕ) (s : Source) (k : ℕ) : Prop := s.IsCalm ∧ k + s.length = n

lemma kept_endsAt (n : ℕ) : Kept (EndsAt n) := by
  rintro p m s k ⟨hs, hk⟩ -
  obtain ⟨s', ht, hs', -⟩ := hs.take p m
  have hlen := Source.take_length p m s
  rw [ht] at hlen ⊢
  exact ⟨hs', by simp only at hlen ⊢; omega⟩

namespace Reader

/-- The reader stands in a file of `n` bytes, not behind the next header. -/
structure InFile (n : ℕ) (r : Reader) : Prop where
  isFile : r.isFile = true
  endsAt : EndsAt n r.content.source r.content.position
  within : r.content.position ≤ r.next

lemma inFile_ofFile (b : Bytes) : (ofFile b).InFile b.length :=
  ⟨rfl, ⟨Source.isCalm_ofBytes b, by simp [ofFile, Source.length, Source.data_ofBytes]⟩,
    Nat.le_refl _⟩

/-- Skipping in a file is moving on in it, unless that leads too far. -/
lemma skip_isFile {r : Reader} {c : Content} (hr : r.isFile = true) :
    r.skip = .ok c ↔
      r.next - r.content.position < Numeral.bound / 2 ∧ r.next < Numeral.bound / 2 ∧
        c = ⟨[], (r.content.source.take false (r.next - r.content.position)).rest, r.next⟩ := by
  simp only [skip, hr, if_true]
  split_ifs with h₁ h₂
  · simp only [false_iff]
    omega
  · simp only [false_iff]
    omega
  · simp only [Except.ok.injEq, eq_comm]
    exact ⟨fun h => ⟨by omega, by omega, h⟩, fun h => h.2.2⟩

variable {n size : ℕ} {r r' r₁ : Reader}

lemma InFile.fits (hr : r.InFile n) {b : Bytes} {s : Source}
    (h : r.nextBlock? = .ok (some (b, s))) : r.next + blockSize ≤ n := by
  obtain ⟨hfile, ⟨hcalm, hlength⟩, hwithin⟩ := hr
  obtain ⟨c, hc, hb, hl, -⟩ := nextBlock?_some.mp h
  obtain ⟨-, -, rfl⟩ := (skip_isFile hfile).mp hc
  obtain ⟨s₁, ht, -, -⟩ := hcalm.take false (r.next - r.content.position)
  have hlen₁ := Source.take_length false (r.next - r.content.position) r.content.source
  have hlen₂ := Source.take_length false blockSize s₁
  rw [ht] at hb hlen₁
  simp only at hb hlen₁
  rw [hb] at hlen₂
  rw [List.length_take, ← Source.length_eq] at hlen₁
  have hpos : 0 < blockSize := by decide
  simp only at hlen₂
  omega

lemma InFile.nextBlock? (hr : r.InFile n) (ha : r.Agree n r') {b : Bytes} {s : Source}
    (h : r.nextBlock? = .ok (some (b, s))) :
    EndsAt n s (r.next + blockSize) ∧
      ∃ s', r'.nextBlock? = .ok (some (b, s')) ∧ s.Agree (n - (r.next + blockSize)) s' := by
  have hfits := hr.fits h
  obtain ⟨hfile, hend, hwithin⟩ := hr
  obtain ⟨c, hc, hb, hl, hz⟩ := nextBlock?_some.mp h
  obtain ⟨hdistance, hnext, rfl⟩ := (skip_isFile hfile).mp hc
  have hfault : (r.content.source.take false (r.next - r.content.position)).fault = none := by
    obtain ⟨s₁, ht, -⟩ := hend.1.take false (r.next - r.content.position)
    rw [ht]
  obtain ⟨-, -, hagree, hmoved⟩ := Source.take_agree false ha.content.source
    (show r.next - r.content.position ≤ n - r.content.position by omega)
  rw [hmoved hfault, Nat.sub_sub_sub_cancel_right hwithin] at hagree
  obtain ⟨-, s', ht', hs'⟩ := Source.take_agree_ok false hagree (by omega) hb
  rw [Nat.sub_sub] at hs'
  have hthere := kept_endsAt n false _ _ _ hend hfault
  rw [hmoved hfault, show r.content.position + (r.next - r.content.position) = r.next by omega]
    at hthere
  refine ⟨(kept_endsAt n).block hthere hb hl, s', nextBlock?_some.mpr
    ⟨_, (skip_isFile (ha.isFile.trans hfile)).mpr ⟨?_, ?_, rfl⟩, ?_, hl, hz⟩, hs'⟩
  · rw [ha.next, ha.content.position]
    exact hdistance
  · rw [ha.next]
    exact hnext
  · rw [ha.next, ha.content.position]
    exact ht'

lemma InFile.nextMember? (hr : r.InFile n) (ha : r.Agree n r') {pax : Option Bytes} {h : Header}
    (hm : r.nextMember? pax = .ok (some (h, size, r₁))) :
    r₁.InFile n ∧ r₁.content.IsBounded ∧ r₁.content.reach ≤ r₁.next ∧ r₁.content.stored = size ∧
      ∃ r₁', r'.nextMember? pax = .ok (some (h, size, r₁')) ∧ r₁.Agree n r₁' := by
  obtain ⟨b, s, hb, hh, h₁, h₂, rfl⟩ := nextMember?_some.mp hm
  obtain ⟨hend, s', hb', hs⟩ := hr.nextBlock? ha hb
  refine ⟨⟨hr.isFile, hend, Nat.le_add_right _ _⟩, by simp [Content.IsBounded], ?_, by simp [Content.stored, Piece.total], _,
    nextMember?_some.mpr ⟨b, s', hb', hh, h₁, by rw [ha.next]; exact h₂, rfl⟩, ?_⟩
  · simp only [Content.reach, Content.stored, Piece.total]
    omega
  · exact ⟨⟨rfl, by simp only [ha.next], hs⟩, by simp only [ha.next], ha.isFile⟩

lemma InFile.entryAt (hr : r.InFile n) {d : Described} {h : Header} {e : Entry}
    (hreach : r.content.position + size ≤ r.next) (he : entryAt d h size r = .ok (e, r₁)) :
    r₁.InFile n := by
  have hend := (kept_endsAt n).entryAt hr.endsAt he
  simp only [Reader.entryAt] at he
  split_ifs at he
  · obtain ⟨⟨ps, full, c, k⟩, hp, he⟩ := bind_ok.mp he
    obtain ⟨-, rfl⟩ := Prod.mk.inj (Except.ok.inj he)
    obtain ⟨-, -, hpos, -⟩ := sparsePieces_ok hp
    exact ⟨hr.isFile, hend, by simp only [hpos]; omega⟩
  · obtain ⟨-, rfl⟩ := Prod.mk.inj (Except.ok.inj he)
    exact hr

lemma InFile.nextFrom? {k : ℕ} {d : Described} {e : Entry} (hr : r.InFile n) (ha : r.Agree n r')
    (h : nextFrom? k d r = .ok (some (e, r₁))) :
    r₁.InFile n ∧ ∃ r₁', Reader.nextFrom? k d r' = .ok (some (e, r₁')) ∧ r₁.Agree n r₁' := by
  induction k generalizing d r r' with
  | zero => simp [Reader.nextFrom?] at h
  | succ k ih =>
    obtain ⟨hd, size, r₂, hm, hcase⟩ := nextFrom?_some.mp h
    obtain ⟨hr₂, hbounded, hreach, hstored, r₂', hm', ha₂⟩ := hr.nextMember? ha hm
    rcases hcase with ⟨hdes, hcl, data, c, hdr, hx⟩ | ⟨hdes, he⟩
    · have hin : InFile n { r₂ with content := c } :=
        ⟨hr₂.isFile, (kept_endsAt n).drain hbounded hr₂.endsAt hdr,
          (Content.drain_ok hbounded hdr).2.1.trans hreach⟩
      have hfits : r₂.next + blockSize ≤ n := by
        cases k with
        | zero => simp [Reader.nextFrom?] at hx
        | succ k =>
          obtain ⟨hd', size', r₃, hm₃, -⟩ := nextFrom?_some.mp hx
          obtain ⟨b, s, hb, -⟩ := nextMember?_some.mp hm₃
          exact hin.fits hb
      obtain ⟨c', hdr', hc⟩ := Content.drain_agree ha₂.content hbounded (by omega) hdr
      have hagree : Agree n { r₂ with content := c } { r₂' with content := c' } :=
        ⟨hc, ha₂.next, ha₂.isFile⟩
      obtain ⟨hr₁, r₁', hx', ha₁⟩ := ih hin hagree hx
      exact ⟨hr₁, r₁', nextFrom?_some.mpr
        ⟨hd, size, r₂', hm', .inl ⟨hdes, hcl, data, c', hdr', hx'⟩⟩, ha₁⟩
    · have hpos : r₂.content.position + size ≤ r₂.next := by
        rw [← hstored]
        exact hreach
      have hr₁ := hr₂.entryAt hpos he
      obtain ⟨r₁', he', ha₁⟩ := entryAt_agree ha₂ he (by have := hr₁.endsAt.2; omega)
      exact ⟨hr₁, r₁', nextFrom?_some.mpr ⟨hd, size, r₂', hm', .inr ⟨hdes, he'⟩⟩, ha₁⟩

end Reader

end Tar

namespace TarIndex

open Tar

/-- The index `i'` has all that `i` has, and what it has more was added later. -/
def Extends (i' i : TarIndex) : Prop := i.spans <:+ i'.spans ∧ i.links <:+ i'.links

lemma Extends.refl (i : TarIndex) : i.Extends i := ⟨List.suffix_rfl, List.suffix_rfl⟩

lemma Extends.trans {i₁ i₂ i₃ : TarIndex} (h : i₁.Extends i₂) (h' : i₂.Extends i₃) :
    i₁.Extends i₃ := ⟨h'.1.trans h.1, h'.2.trans h.2⟩

lemma add_extends (i : TarIndex) (e : Entry) : (i.add e).1.Extends i := by
  simp only [add]
  split
  · exact ⟨List.suffix_cons .., List.suffix_rfl⟩
  · cases e.link? with
    | none => exact .refl i
    | some link => exact ⟨List.suffix_rfl, List.suffix_cons ..⟩
  · cases e.link? with
    | none => exact .refl i
    | some link => exact ⟨List.suffix_rfl, List.suffix_cons ..⟩
  · exact .refl i

lemma addAll_extends {i i' : TarIndex} {tries : ℕ} {r : Reader}
    (h : (i.addAll tries r).outcome = .ok i') : i'.Extends i := by
  induction tries generalizing i r with
  | zero =>
    obtain rfl := Except.ok.inj h
    exact .refl i
  | succ tries ih =>
    rw [addAll] at h
    rcases hx : r.next? with err | _ | ⟨e, r₁⟩ <;> simp only [hx] at h
    · simp at h
    · obtain rfl := Except.ok.inj h
      exact .refl i
    · exact (ih h).trans (i.add_extends e)

lemma addAll_agree {n tries tries' : ℕ} {i i₁ i₁' : TarIndex} {r r' : Reader} (hr : r.InFile n)
    (ha : r.Agree n r') (ht : tries ≤ tries') (h : (i.addAll tries r).outcome = .ok i₁)
    (h' : (i.addAll tries' r').outcome = .ok i₁') : i₁'.Extends i₁ := by
  induction tries generalizing i r r' tries' with
  | zero =>
    obtain rfl := Except.ok.inj h
    exact addAll_extends h'
  | succ tries ih =>
    obtain ⟨k, rfl⟩ : ∃ k, tries' = k + 1 := ⟨tries' - 1, by omega⟩
    have hextends := addAll_extends h'
    rw [addAll] at h h'
    rcases hx : r.next? with err | _ | ⟨e, r₁⟩ <;> simp only [hx] at h
    · simp at h
    · obtain rfl := Except.ok.inj h
      exact hextends
    · obtain ⟨hr₁, r₁', hx', ha₁⟩ := hr.nextFrom? ha hx
      simp only [show r'.next? = _ from hx'] at h'
      exact ih hr₁ ha₁ (by omega) h h'

/-- The index of a tarball that is cut off is where that of the whole tarball once was. -/
theorem ofBytes_extends {b b' : Bytes} {i i' : TarIndex} (hb : b' <+: b)
    (h' : (ofBytes b').outcome = .ok i') (h : (ofBytes b).outcome = .ok i) : i.Extends i' := by
  have hagree : (Reader.ofFile b').Agree b'.length (.ofFile b) :=
    ⟨⟨rfl, rfl, agree_begins hb [] [] none none⟩, rfl, rfl⟩
  refine addAll_agree (Reader.inFile_ofFile b') hagree ?_ h' h
  have hblocks := Nat.div_le_div_right (c := blockSize) hb.length_le
  simp only [Reader.mostEntries, Reader.ofFile, Source.length, Source.data_ofBytes]
  omega

/-- No name occurs twice. -/
def NamesOnce (i : TarIndex) : Prop := (i.spans.map Prod.fst ++ i.links.map Prod.fst).Nodup

instance (i : TarIndex) : Decidable i.NamesOnce :=
  inferInstanceAs (Decidable (List.Nodup _))

lemma lookup_eq_none {α : Type} {xs : List (String × α)} {name : String}
    (h : name ∉ xs.map Prod.fst) : xs.lookup name = none := by
  rw [List.lookup_eq_none_iff]
  intro x hx
  rw [bne_iff_ne]
  rintro rfl
  exact h (List.mem_map_of_mem hx)

lemma mem_of_lookup {κ α : Type} [BEq κ] [LawfulBEq κ] {xs : List (κ × α)} {name : κ} {a : α}
    (h : xs.lookup name = some a) : (name, a) ∈ xs := by
  obtain ⟨ys, zs, rfl, -⟩ := List.lookup_eq_some_iff.mp h
  exact List.mem_append_right _ (List.mem_cons_self ..)

/-- In a list that has each name once, a name leads to what stands with it. -/
lemma lookup_iff {α : Type} {xs : List (String × α)} (h : (xs.map Prod.fst).Nodup) {name : String}
    {a : α} : xs.lookup name = some a ↔ (name, a) ∈ xs := by
  refine ⟨mem_of_lookup, fun hm => ?_⟩
  obtain ⟨ys, zs, rfl⟩ := List.append_of_mem hm
  refine List.lookup_eq_some_iff.mpr ⟨ys, zs, rfl, fun y hy => ?_⟩
  rw [List.map_append, List.nodup_append] at h
  rw [bne_iff_ne]
  exact (h.2.2 y.1 (List.mem_map_of_mem hy) name (by simp)).symm

/-- What is found early is found later, where no name occurs twice. -/
lemma Extends.find? {i i' : TarIndex} (h : i.Extends i') (hi : i.NamesOnce) {lookups : ℕ}
    {name : String} {s : Span} (hs : i'.find? lookups name = some s) :
    i.find? lookups name = some s := by
  obtain ⟨hspans, hlinks, hdisjoint⟩ := List.nodup_append.mp hi
  induction lookups generalizing name with
  | zero => simp [TarIndex.find?] at hs
  | succ lookups ih =>
    rw [TarIndex.find?] at hs ⊢
    cases hx : i'.spans.lookup name with
    | some s' =>
      rw [hx] at hs
      rw [(lookup_iff hspans).mpr (h.1.mem (mem_of_lookup hx))]
      exact hs
    | none =>
      rw [hx] at hs
      obtain ⟨target, hl, hs⟩ := Option.bind_eq_some_iff.mp hs
      have hmem := h.2.mem (mem_of_lookup hl)
      have hno : name ∉ i.spans.map Prod.fst :=
        fun hm => hdisjoint name hm name (List.mem_map_of_mem hmem) rfl
      rw [lookup_eq_none hno, (lookup_iff hlinks).mpr hmem]
      exact ih hs

/-- What the cut tarball finds is where the whole tarball finds it, if that lists no name twice. -/
theorem lookup_of_prefix {b b' : Bytes} {i i' : TarIndex} (hb : b' <+: b)
    (h' : (ofBytes b').outcome = .ok i') (h : (ofBytes b).outcome = .ok i) (hi : i.NamesOnce)
    {name : String} {s : Span} (hs : i'.lookup name = some s) : i.lookup name = some s :=
  (ofBytes_extends hb h' h).find? hi hs

end TarIndex

end LayerPick
