import LayerPick.Proofs.ContentReading
import LayerPick.Tar.Reader

/-!
# From member to member

A reader goes to the next member by skipping what is left of the one before. Where it comes out does
not hang on how much of the content was read, nor in which calls: skipping from any place inside
the content leads to the same header as reading the content to its end and skipping the padding.

An entry is the last of a row of members, the others describe it.
-/
namespace LayerPick.Tar

section Outcome

variable {ε ε' α β : Type}

lemma bind_ok {x : Except ε α} {f : α → Except ε β} {b : β} :
    x >>= f = .ok b ↔ ∃ a, x = .ok a ∧ f a = .ok b := by
  cases x with
  | error e => simp [bind, Except.bind]
  | ok a => simp [bind, Except.bind]

@[simp] lemma ok_bind (a : α) (f : α → Except ε β) : Except.ok a >>= f = f a := rfl

@[simp] lemma error_bind (e : ε) (f : α → Except ε β) : Except.error e >>= f = .error e := rfl

@[simp] lemma throw_eq (e : ε) : (throw e : Except ε α) = .error e := rfl

@[simp] lemma pure_eq (a : α) : (pure a : Except ε α) = .ok a := rfl

lemma mapError_ok {x : Except ε α} {f : ε → ε'} {a : α} : x.mapError f = .ok a ↔ x = .ok a := by
  cases x <;> simp [Except.mapError]

lemma map_ok {x : Except ε α} {f : α → β} {b : β} : x.map f = .ok b ↔ ∃ a, x = .ok a ∧ f a = b := by
  cases x <;> simp [Except.map]

end Outcome

/-- How many bytes of the archive pieces take. -/
def Piece.total : List Piece → ℕ
  | [] => 0
  | .stored n :: ps => n + total ps
  | .gap _ :: ps => total ps
  | .rest :: ps => total ps

namespace Content

/-- How many bytes of the archive the content still takes. -/
def stored (c : Content) : ℕ := Piece.total c.pieces

/-- The place in the archive behind the content. -/
def reach (c : Content) : ℕ := c.position + c.stored

/-- Is it settled how far the content goes? -/
def IsBounded (c : Content) : Prop := .rest ∉ c.pieces

lemma IsBounded.tail {p : Piece} {ps : List Piece} {s : Source} {k : ℕ}
    (h : IsBounded ⟨p :: ps, s, k⟩) (s' : Source) (k' : ℕ) : IsBounded ⟨ps, s', k'⟩ :=
  fun hm => h (List.mem_cons_of_mem _ hm)

lemma IsBounded.cons {q : Piece} {ps : List Piece} {s : Source} {k : ℕ}
    (h : IsBounded ⟨ps, s, k⟩) (hq : q ≠ .rest) : IsBounded ⟨q :: ps, s, k⟩ := by
  intro hm
  rcases List.mem_cons.mp hm with he | hm
  · exact hq he.symm
  · exact h hm

/-- The content `c'` is what reading leaves of `c`: it ends no later and has no more before it. -/
structure Leaves (c c' : Content) : Prop where
  bounded : c'.IsBounded
  reach : c'.reach ≤ c.reach
  length : c'.source.length ≤ c.source.length

lemma IsBounded.leaves {c : Content} (h : c.IsBounded) : c.Leaves c :=
  ⟨h, Nat.le_refl _, Nat.le_refl _⟩

lemma Leaves.trans {c₁ c₂ c₃ : Content} (h : c₁.Leaves c₂) (h' : c₂.Leaves c₃) : c₁.Leaves c₃ :=
  ⟨h'.bounded, h'.reach.trans h.reach, h'.length.trans h.length⟩

lemma read_leaves {most : ℕ} (hmost : 0 < most) {c : Content} (hc : c.IsBounded) :
    c.Leaves (c.read most).2 := by
  rcases c with ⟨ps, s, k⟩
  simp only [read]
  induction ps generalizing s k with
  | nil => exact hc.leaves
  | cons p ps ih =>
    cases p with
    | rest => exact absurd (List.mem_cons_self ..) hc
    | gap n =>
      simp only [readPieces]
      split_ifs with hn
      · obtain ⟨hb, hr, hl⟩ := ih s k (hc.tail s k)
        exact ⟨hb, by simpa [reach, stored, Piece.total] using hr, hl⟩
      · exact ⟨(hc.tail s k).cons (by simp), by simp [reach, stored, Piece.total],
          Nat.le_refl _⟩
    | stored n =>
      simp only [readPieces]
      split_ifs with hn
      · obtain ⟨hb, hr, hl⟩ := ih s k (hc.tail s k)
        exact ⟨hb, by simpa [reach, stored, Piece.total, hn] using hr, hl⟩
      · have hmin : 0 < min n most := by omega
        rcases h : s.read (min n most) with ⟨b | _ | f, s'⟩
        · obtain ⟨-, hle, -⟩ := Source.read_chunk hmin h
          have hlen := Source.read_chunk_length hmin h
          refine ⟨(hc.tail s' _).cons (by simp), ?_, by simp only; omega⟩
          simp only [reach, stored, Piece.total]
          omega
        · obtain ⟨rfl, -⟩ := Source.read_ended h
          obtain ⟨hb, hr, hl⟩ := ih ⟨[], none⟩ k (hc.tail _ k)
          refine ⟨hb, hr.trans ?_, hl.trans (Nat.zero_le _)⟩
          simp only [reach, stored, Piece.total]
          omega
        · exact ⟨(hc.tail s' k).cons (by simp), Nat.le_refl _,
            Nat.le_of_eq (Source.read_failed h).2.1⟩

lemma copy_leaves (count : ℕ) (d : Device) {c : Content} (hc : c.IsBounded) :
    c.Leaves (copy c.calls count d c).2.1 := by
  induction hn : c.calls using Nat.strongRecOn generalizing count d c with
  | ind n ih =>
    have hex := explains_read (show 0 < chunkSize by decide) c
    have hread := read_leaves (show 0 < chunkSize by decide) hc
    rw [← hn, copy_eq]
    rcases hr : c.read chunkSize with ⟨b | _ | f, c₁⟩ <;> rw [hr] at hex hread <;> simp only
    · rcases d.write b with ⟨d₁, _ | m⟩
      · exact hread.trans (ih _ (hn ▸ hex.2.2) (count + b.length) d₁ hread.bounded rfl)
      · exact hread
    · exact hread
    · simp only [Explains] at hex
      split_ifs at hex ⊢
      · exact hread.trans (ih _ (hn ▸ hex.2) count d hread.bounded rfl)
      · exact hread

lemma drain_ok {c c' : Content} {b : Bytes} (hc : c.IsBounded) (h : c.drain = .ok (b, c')) :
    c'.pieces = [] ∧ c'.position ≤ c.reach ∧ c'.source.length ≤ c.source.length := by
  rcases c with ⟨ps, s, k⟩
  simp only [reach, stored]
  induction ps generalizing s k b with
  | nil =>
    obtain ⟨-, rfl⟩ := by simpa using h
    simp
  | cons p ps ih =>
    cases p with
    | rest => exact absurd (List.mem_cons_self ..) hc
    | gap n =>
      rw [drain_gap] at h
      rcases hd : drain ⟨ps, s, k⟩ with f | ⟨b₁, c₁⟩ <;> rw [hd] at h
      · simp at h
      · obtain ⟨-, rfl⟩ := by simpa using h
        simpa [Piece.total] using ih s k (hc.tail s k) hd
    | stored n =>
      rw [drain_stored] at h
      have hle := Source.take_data_le true n s
      have hlen := Source.take_length true n s
      cases hf : (s.take true n).fault with
      | some f => simp [hf] at h
      | none =>
        simp only [hf] at h
        rcases hd : drain ⟨ps, (s.take true n).rest, k + (s.take true n).data.length⟩ with
          f | ⟨b₁, c₁⟩ <;> rw [hd] at h
        · simp at h
        · obtain ⟨-, rfl⟩ := by simpa using h
          obtain ⟨hp, hpos, hsrc⟩ := ih _ _ (hc.tail _ _) hd
          refine ⟨hp, ?_, ?_⟩
          · simp only [Piece.total] at hpos ⊢
            omega
          · exact hsrc.trans (by omega)

lemma drain_leaves {c c' : Content} {b : Bytes} (hc : c.IsBounded) (h : c.drain = .ok (b, c')) :
    c.Leaves c' ∧ c'.drain = .ok ([], c') := by
  obtain ⟨hp, hpos, hlen⟩ := drain_ok hc h
  rcases c' with ⟨ps, s, k⟩
  obtain rfl : ps = [] := hp
  exact ⟨⟨by simp [IsBounded], hpos, hlen⟩, rfl⟩

/-- What can be skipped, the content and more behind it, can be read. -/
lemma drain_of_take {c : Content} {n : ℕ} (hc : c.IsBounded) (hn : c.stored ≤ n)
    (hf : (c.source.take false n).fault = none) (hl : (c.source.take false n).data.length = n) :
    ∃ b s' u, c.drain = .ok (b, ⟨[], s', c.reach⟩) ∧
      s'.take false (n - c.stored) = ⟨u, (c.source.take false n).rest, none⟩ ∧
      u.length = n - c.stored := by
  rcases c with ⟨ps, s, k⟩
  simp only [reach, stored] at hn hf hl ⊢
  induction ps generalizing s k n with
  | nil => exact ⟨[], s, (s.take false n).data, by simp [Piece.total], by simp [Piece.total, ← hf],
      by simpa [Piece.total] using hl⟩
  | cons p ps ih =>
    cases p with
    | rest => exact absurd (List.mem_cons_self ..) hc
    | gap m =>
      obtain ⟨b, s', u, hd, ht, hu⟩ := ih s k (hc.tail s k) hn hf hl
      exact ⟨zeros m ++ b, s', u, by rw [drain_gap, hd]; rfl, ht, hu⟩
    | stored m =>
      simp only [Piece.total] at hn ⊢
      obtain ⟨i, rfl⟩ : ∃ i, n = m + i := ⟨n - m, by omega⟩
      have hf₁ := Source.take_fault_none_of_add false m i s hf
      have hadd := Source.take_add false m i s hf₁
      have hlen₁ := Source.take_data_le false m s
      have hlen₂ := Source.take_data_le false i (s.take false m).rest
      rw [hadd] at hf hl
      simp only [Source.Taken.then, List.length_append] at hf hl
      have hm : (s.take false m).data.length = m := by omega
      obtain ⟨b, s', u, hd, ht, hu⟩ :=
        ih (s.take false m).rest (k + m) (hc.tail _ _) (by omega) hf (by omega)
      have he : m + i - (m + Piece.total ps) = i - Piece.total ps := by omega
      refine ⟨(s.take false m).data ++ b, s', u, ?_, ?_, ?_⟩
      · rw [drain_stored, Source.take_patient m s hf₁, hf₁]
        simp only [hm, hd, after_ok, Nat.add_assoc]
      · rw [hadd, he]
        exact ht
      · rw [hu, he]

end Content

namespace Reader

lemma skip_ok {r : Reader} {c : Content} (hr : r.isFile = false) :
    r.skip = .ok c ↔
      c = ⟨[], (r.content.source.take false (r.next - r.content.position)).rest, r.next⟩ ∧
        (r.content.source.take false (r.next - r.content.position)).fault = none ∧
        (r.content.source.take false (r.next - r.content.position)).data.length =
          r.next - r.content.position := by
  have hle := Source.take_data_le false (r.next - r.content.position) r.content.source
  simp only [skip, hr, Bool.false_eq_true, if_false]
  cases (r.content.source.take false (r.next - r.content.position)).fault with
  | some f => simp
  | none =>
    simp only
    split_ifs with h
    · simp
      omega
    · simp only [Except.ok.injEq]
      constructor
      · rintro rfl
        exact ⟨rfl, trivial, by omega⟩
      · rintro ⟨rfl, -⟩
        rfl

/-- Skipping from inside the content is reading the content to its end and skipping from there. -/
lemma skip_drain {r : Reader} {c : Content} (hr : r.isFile = false)
    (hb : r.content.IsBounded) (hn : r.content.reach ≤ r.next) (h : r.skip = .ok c) :
    ∃ b c', r.content.drain = .ok (b, c') ∧ Reader.skip ⟨c', r.next, r.isFile⟩ = .ok c := by
  obtain ⟨rfl, hf, hl⟩ := (skip_ok hr).mp h
  simp only [Content.reach] at hn
  obtain ⟨b, s', u, hd, ht, hu⟩ := Content.drain_of_take hb (by omega) hf hl
  refine ⟨b, ⟨[], s', r.content.reach⟩, hd, ?_⟩
  rw [skip_ok (by exact hr)]
  have he : r.next - r.content.reach = r.next - r.content.position - r.content.stored := by
    simp only [Content.reach]
    omega
  simp only [he, ht, hu, and_self]

lemma headerBlock?_some {t : Source.Taken} {b : Bytes} {s : Source} :
    headerBlock? t = .ok (some (b, s)) ↔
      t = ⟨b, s, none⟩ ∧ blockSize ≤ b.length ∧ b.all (· == 0) = false := by
  rcases t with ⟨d, s', _ | f⟩
  · simp only [headerBlock?]
    split_ifs with h₀ h₁ h₂
    · simp only [Except.ok.injEq, reduceCtorEq, Source.Taken.mk.injEq, false_iff]
      rintro ⟨⟨rfl, -⟩, hl, -⟩
      exact absurd (h₀ ▸ hl) (by decide)
    · simp only [false_iff]
      rintro ⟨⟨⟩, hl, -⟩
      omega
    · simp only [Except.ok.injEq, reduceCtorEq, Source.Taken.mk.injEq, false_iff]
      rintro ⟨⟨rfl, -⟩, -, hz⟩
      exact absurd (h₂.symm.trans hz) (by decide)
    · simp only [Except.ok.injEq, Option.some.injEq, Prod.mk.injEq, Source.Taken.mk.injEq, and_true]
      constructor
      · rintro ⟨rfl, rfl⟩
        exact ⟨⟨rfl, rfl⟩, Nat.not_lt.mp h₁, Bool.not_eq_true _ ▸ h₂⟩
      · exact fun h => h.1
  · simp [headerBlock?]

lemma headerBlock?_none {t : Source.Taken} :
    headerBlock? t = .ok none ↔
      t.fault = none ∧ (t.data.length = 0 ∨ blockSize ≤ t.data.length ∧
        t.data.all (· == 0) = true) := by
  rcases t with ⟨d, s', _ | f⟩
  · simp only [headerBlock?]
    split_ifs with h₀ h₁ h₂
    · simp [h₀]
    · simp only [true_and, false_iff]
      omega
    · simp [h₂, Nat.not_lt.mp h₁]
    · simp [h₀, h₂]
  · simp [headerBlock?]

lemma nextBlock?_some {r : Reader} {b : Bytes} {s : Source} :
    r.nextBlock? = .ok (some (b, s)) ↔
      ∃ c, r.skip = .ok c ∧ c.source.take false blockSize = ⟨b, s, none⟩ ∧
        blockSize ≤ b.length ∧ b.all (· == 0) = false := by
  simp only [nextBlock?, bind_ok, headerBlock?_some]

/-- The end is where no block follows, or an empty one. -/
lemma nextBlock?_none {r : Reader} :
    r.nextBlock? = .ok none ↔
      ∃ c, r.skip = .ok c ∧ (c.source.take false blockSize).fault = none ∧
        ((c.source.take false blockSize).data.length = 0 ∨
          blockSize ≤ (c.source.take false blockSize).data.length ∧
            (c.source.take false blockSize).data.all (· == 0) = true) := by
  simp only [nextBlock?, bind_ok, headerBlock?_none]

lemma nextMember?_none {r : Reader} {pax : Option Bytes} :
    r.nextMember? pax = .ok none ↔ r.nextBlock? = .ok none := by
  simp only [nextMember?, bind_ok]
  constructor
  · rintro ⟨a, ha, h⟩
    cases a with
    | none => exact ha
    | some x =>
      obtain ⟨⟨hd, size⟩, -, h⟩ := bind_ok.mp h
      simp only at h
      split_ifs at h
      simp at h
  · exact fun h => ⟨none, h, rfl⟩

/-- A member is a header, found where skipping leads to, and what it announces. -/
lemma nextMember?_some {r r' : Reader} {pax : Option Bytes} {h : Header} {size : ℕ} :
    r.nextMember? pax = .ok (some (h, size, r')) ↔
      ∃ b s, r.nextBlock? = .ok (some (b, s)) ∧ headerIn b pax = .ok (h, size) ∧
        size + (blockSize - 1) < Numeral.bound ∧
        r.next + blockSize + (size + padding size) < Numeral.bound ∧
        r' = ⟨⟨[.stored size], s, r.next + blockSize⟩,
          r.next + blockSize + (size + padding size), r.isFile⟩ := by
  simp only [nextMember?, bind_ok]
  constructor
  · rintro ⟨_ | ⟨b, s⟩, ha, hm⟩
    · simp at hm
    obtain ⟨⟨h', size'⟩, hh, hm⟩ := bind_ok.mp hm
    simp only at hm
    split_ifs at hm with hc
    simp only [Except.ok.injEq, Option.some.injEq, Prod.mk.injEq] at hm
    obtain ⟨rfl, rfl, rfl⟩ := hm
    exact ⟨b, s, ha, hh, by omega, by omega, rfl⟩
  · rintro ⟨b, s, ha, hh, h₁, h₂, rfl⟩
    refine ⟨some (b, s), ha, bind_ok.mpr ⟨(h, size), hh, ?_⟩⟩
    simp only
    rw [if_neg (by omega)]

/-- The entry behind the next member: the member itself, or what it describes. -/
lemma nextFrom?_some {n : ℕ} {d : Described} {r r' : Reader} {e : Entry} :
    nextFrom? (n + 1) d r = .ok (some (e, r')) ↔
      ∃ h size r₁, r.nextMember? d.pax = .ok (some (h, size, r₁)) ∧
        (h.describes = true ∧ d.clash? h.kind = none ∧
            (∃ data c, r₁.content.drain = .ok (data, c) ∧
              nextFrom? n (d.add data h.kind) { r₁ with content := c } = .ok (some (e, r'))) ∨
          h.describes = false ∧ entryAt d h size r₁ = .ok (e, r')) := by
  simp only [nextFrom?, bind_ok]
  constructor
  · rintro ⟨_ | ⟨h, size, r₁⟩, hm, hn⟩
    · simp only at hn
      split_ifs at hn
      simp at hn
    refine ⟨h, size, r₁, hm, ?_⟩
    simp only at hn
    split_ifs at hn with hd
    · left
      cases hcl : d.clash? h.kind with
      | some err => simp [hcl] at hn
      | none =>
        simp only [hcl] at hn
        obtain ⟨⟨data, c⟩, hdr, hn⟩ := bind_ok.mp hn
        exact ⟨hd, rfl, data, c, mapError_ok.mp hdr, hn⟩
    · right
      obtain ⟨x, hx, hn⟩ := bind_ok.mp hn
      simp only [pure_eq, Except.ok.injEq, Option.some.injEq] at hn
      exact ⟨by simpa using hd, hn ▸ hx⟩
  · rintro ⟨h, size, r₁, hm, ⟨hd, hcl, data, c, hdr, hn⟩ | ⟨hd, he⟩⟩
    · refine ⟨some (h, size, r₁), hm, ?_⟩
      simp only [hd, if_true, hcl]
      exact bind_ok.mpr ⟨(data, c), mapError_ok.mpr hdr, hn⟩
    · refine ⟨some (h, size, r₁), hm, ?_⟩
      simp only [hd, he]
      rfl

lemma isEmpty_add {d : Described} {h : Header} (hd : h.describes = true) (data : Bytes) :
    (d.add data h.kind).isEmpty = false := by
  simp only [Header.describes, decide_eq_true_eq] at hd
  rcases hd.2 with hk | hk | hk <;> simp [Described.add, Described.isEmpty, hk]

lemma nextFrom?_none_step {n : ℕ} (hn : ∀ d r, d.isEmpty = false → nextFrom? n d r ≠ .ok none)
    {d : Described} {r : Reader} :
    nextFrom? (n + 1) d r = .ok none ↔ r.nextBlock? = .ok none ∧ d.isEmpty = true := by
  simp only [nextFrom?, bind_ok]
  constructor
  · rintro ⟨_ | ⟨h, size, r₁⟩, hm, hx⟩
    · simp only at hx
      split_ifs at hx with hd
      exact ⟨nextMember?_none.mp hm, hd⟩
    · simp only at hx
      split_ifs at hx with hd
      · cases hcl : d.clash? h.kind with
        | some err => simp [hcl] at hx
        | none =>
          simp only [hcl] at hx
          obtain ⟨⟨data, c⟩, -, hx⟩ := bind_ok.mp hx
          exact absurd hx (hn _ _ (isEmpty_add hd data))
      · obtain ⟨x, -, hx⟩ := bind_ok.mp hx
        simp at hx
  · rintro ⟨hb, hd⟩
    exact ⟨none, nextMember?_none.mpr hb, by simp [hd]⟩

/-- There is no next entry where there is no next member and nothing described it. -/
lemma nextFrom?_none {n : ℕ} {d : Described} {r : Reader} :
    nextFrom? (n + 1) d r = .ok none ↔ r.nextBlock? = .ok none ∧ d.isEmpty = true := by
  induction n generalizing d r with
  | zero => exact nextFrom?_none_step (by simp [nextFrom?])
  | succ n ih =>
    refine nextFrom?_none_step fun d r hd h => ?_
    simp [ih.mp h] at hd

lemma entryAt_pax {d : Described} {h : Header} {size : ℕ} {r r' : Reader} {e : Entry}
    (he : entryAt d h size r = .ok (e, r')) : e.pax = d.pax := by
  simp only [entryAt] at he
  split_ifs at he
  · obtain ⟨⟨ps, full, c, k⟩, -, he⟩ := bind_ok.mp he
    obtain ⟨rfl, -⟩ := Prod.mk.inj (Except.ok.inj he)
    rfl
  · obtain ⟨rfl, -⟩ := Prod.mk.inj (Except.ok.inj he)
    rfl

lemma nextFrom?_pax {n : ℕ} {d : Described} {data : Bytes} (hd : d.pax = some data)
    {r r' : Reader} {e : Entry} (h : nextFrom? n d r = .ok (some (e, r'))) :
    e.pax = some data := by
  induction n generalizing d r with
  | zero => simp [nextFrom?] at h
  | succ n ih =>
    obtain ⟨hd₁, size, r₁, -, ⟨-, hcl, b, c, -, hn⟩ | ⟨-, he⟩⟩ := nextFrom?_some.mp h
    · refine ih ?_ hn
      unfold Described.add
      split
      · exact hd
      · exact hd
      · next hk => simp [Described.clash?, hk, hd] at hcl
      · exact hd
    · exact (entryAt_pax he).trans hd

end Reader

end LayerPick.Tar
