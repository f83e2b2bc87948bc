import LayerPick.Proofs.GzipStored
import LayerPick.Proofs.MemberReading
import Mathlib.Data.List.Infix

/-!
# More bytes behind deflate data

Unpacking goes from the first bit to the last and never looks ahead. So bytes put behind deflate
data change nothing of what has been unpacked: data that end where they should are unpacked the
same, data that no stream goes on like stay so, and of data that are cut off what could be had is
the beginning of what there is.

A reader of bits is `Steady` if it behaves like that. Steady readers are closed under `bind`, so
each is shown to be steady by going along its definition.
-/
namespace LayerPick.Gzip

open Tar (bind_ok map_ok)

/-- The bits with more bytes behind them. -/
def Bits.before (s : Bits) (t : Bytes) : Bits := ⟨s.current, s.left, s.rest ++ t⟩

lemma Bits.size_before (s : Bits) (t : Bytes) : (s.before t).size = s.size + 8 * t.length := by
  simp only [Bits.size, Bits.before, List.length_append]
  omega

/-- A reader that takes its bits one after the other: what follows behind them changes neither its
result nor that no stream goes on like this. -/
structure Steady {α : Type} (f : Bits → Except Stop (α × Bits)) : Prop where
  ok : ∀ {s a s'}, f s = .ok (a, s') → ∀ t, f (s.before t) = .ok (a, s'.before t)
  corrupt : ∀ {s}, f s = .error .corrupt → ∀ t, f (s.before t) = .error .corrupt
  size : ∀ {s a s'}, f s = .ok (a, s') → s'.size ≤ s.size

section Steady

variable {α β : Type}

lemma steady_ok (a : α) : Steady fun s => .ok (a, s) where
  ok h t := by
    obtain ⟨rfl, rfl⟩ := Prod.mk.inj (Except.ok.inj h)
    rfl
  corrupt h := by simp at h
  size h := by
    obtain ⟨rfl, rfl⟩ := Prod.mk.inj (Except.ok.inj h)
    exact Nat.le_refl _

lemma steady_error (e : Stop) : Steady fun _ => (.error e : Except Stop (α × Bits)) where
  ok h := by simp at h
  corrupt h _ := h
  size h := by simp at h

lemma Steady.bind {f : Bits → Except Stop (α × Bits)} {g : α → Bits → Except Stop (β × Bits)}
    (hf : Steady f) (hg : ∀ a, Steady (g a)) : Steady fun s => f s >>= fun | (a, s) => g a s where
  ok h t := by
    obtain ⟨⟨a, s₁⟩, ha, h⟩ := bind_ok.mp h
    rw [hf.ok ha t]
    exact (hg a).ok h t
  corrupt {s} h t := by
    rcases ha : f s with e | ⟨a, s₁⟩
    · rw [ha] at h
      obtain rfl : e = .corrupt := Except.error.inj h
      rw [hf.corrupt ha t]
      rfl
    · rw [ha] at h
      rw [hf.ok ha t]
      exact (hg a).corrupt h t
  size h := by
    obtain ⟨⟨a, s₁⟩, ha, h⟩ := bind_ok.mp h
    exact ((hg a).size h).trans (hf.size ha)

lemma Steady.of_eq {f g : Bits → Except Stop (α × Bits)} (hf : Steady f) (h : ∀ s, g s = f s) :
    Steady g :=
  (funext h : g = f) ▸ hf

lemma Steady.lift (x : Except Stop α) {g : α → Bits → Except Stop (β × Bits)}
    (hg : ∀ a, Steady (g a)) : Steady fun s => x >>= fun a => g a s := by
  cases x with
  | error e => exact steady_error e
  | ok a => exact hg a

lemma Steady.ite {c : Prop} [Decidable c] {f g : Bits → Except Stop (α × Bits)} (hf : Steady f)
    (hg : Steady g) : Steady fun s => if c then f s else g s := by
  by_cases hc : c
  · simp only [if_pos hc]
    exact hf
  · simp only [if_neg hc]
    exact hg

end Steady

lemma Bits.next_size {s s' : Bits} {b : Bool} (h : s.next = .ok (b, s')) :
    s'.size + 1 = s.size := by
  simp only [Bits.next] at h
  split_ifs at h with hl
  · rcases hr : s.rest with _ | ⟨x, r⟩ <;> rw [hr] at h
    · simp at h
    · obtain ⟨-, rfl⟩ := Prod.mk.inj (Except.ok.inj h)
      simp only [Bits.size, hl, hr, List.length_cons]
      omega
  · obtain ⟨-, rfl⟩ := Prod.mk.inj (Except.ok.inj h)
    simp only [Bits.size]
    omega

lemma steady_next : Steady Bits.next where
  ok {s b s'} h t := by
    by_cases hl : s.left = 0
    · have hl' : (s.before t).left = 0 := hl
      rw [Bits.next, if_pos hl] at h
      rw [Bits.next, if_pos hl']
      rcases hr : s.rest with _ | ⟨x, r⟩ <;> rw [hr] at h
      · simp at h
      · obtain ⟨rfl, rfl⟩ := Prod.mk.inj (Except.ok.inj h)
        simp only [Bits.before, hr, List.cons_append]
    · have hl' : (s.before t).left ≠ 0 := hl
      rw [Bits.next, if_neg hl] at h
      rw [Bits.next, if_neg hl']
      obtain ⟨rfl, rfl⟩ := Prod.mk.inj (Except.ok.inj h)
      rfl
  corrupt {s} h := by
    simp only [Bits.next] at h
    split_ifs at h
    rcases hr : s.rest with _ | ⟨x, r⟩ <;> rw [hr] at h <;> simp at h
  size h := (Nat.le_succ _).trans (Nat.le_of_eq (Bits.next_size h))

lemma steady_number (n : ℕ) : Steady (Bits.number n) := by
  induction n with
  | zero => exact steady_ok 0
  | succ n ih =>
    exact (steady_next.bind fun b => ih.bind fun m => steady_ok (b.toNat + 2 * m)).of_eq
      fun s => rfl

lemma PrefixCode.steady_read (c : PrefixCode) : Steady c.read := by
  induction c with
  | absent => exact steady_error .corrupt
  | leaf k => exact steady_ok k
  | node zero one ih₀ ih₁ =>
    refine (steady_next.bind (g := fun b => if b then one.read else zero.read) fun b => ?_).of_eq
      fun s => ?_
    · cases b
      · exact ih₀
      · exact ih₁
    · rw [PrefixCode.read]
      congr 1
      funext x
      obtain ⟨b, s⟩ := x
      cases b <;> rfl

lemma PrefixCode.read_size {c : PrefixCode} (hc : ∀ k, c ≠ .leaf k) {s s' : Bits} {k : ℕ}
    (h : c.read s = .ok (k, s')) : s'.size < s.size := by
  cases c with
  | absent => simp [PrefixCode.read] at h
  | leaf k => exact absurd rfl (hc k)
  | node zero one =>
    simp only [PrefixCode.read] at h
    obtain ⟨⟨b, s₁⟩, hb, h⟩ := bind_ok.mp h
    have hlt := Bits.next_size hb
    cases b with
    | false =>
      have := zero.steady_read.size h
      omega
    | true =>
      have := one.steady_read.size h
      omega

lemma PrefixCode.ofLengths_ne_leaf {sparse : Bool} {lengths : List ℕ} {c : PrefixCode}
    (h : PrefixCode.ofLengths sparse lengths = .ok c) (k : ℕ) : c ≠ .leaf k := by
  simp only [PrefixCode.ofLengths] at h
  split_ifs at h
  generalize levels lengths (maxWordLength - 1) = row at h
  rcases row with _ | ⟨a, _ | ⟨b, r⟩⟩ <;> obtain rfl := Except.ok.inj h <;> simp

lemma steady_extended (table : Array (ℕ × ℕ)) (symbol : ℕ) : Steady (extended table symbol) := by
  unfold extended
  rcases table[symbol]? with _ | ⟨least, extra⟩
  · exact steady_error .corrupt
  · exact ((steady_number extra).bind fun n => steady_ok (least + n)).of_eq fun s => rfl

def itemOf (distances : PrefixCode) (symbol : ℕ) (bits : Bits) : Except Stop (Item × Bits) := do
  if symbol < 256 then return (.byte (UInt8.ofNat symbol), bits)
  if symbol = 256 then return (.blockEnd, bits)
  let (length, bits) ← extended lengthTable (symbol - 257) bits
  let (symbol, bits) ← distances.read bits
  let (distance, bits) ← extended distanceTable symbol bits
  return (.repetition length distance, bits)

lemma readItem_eq (literals distances : PrefixCode) (s : Bits) :
    readItem literals distances s =
      literals.read s >>= fun | (symbol, s) => itemOf distances symbol s := rfl

lemma steady_itemOf (distances : PrefixCode) (symbol : ℕ) : Steady (itemOf distances symbol) := by
  have hrepetition := (steady_extended lengthTable (symbol - 257)).bind fun length =>
    distances.steady_read.bind fun far => (steady_extended distanceTable far).bind fun distance =>
      steady_ok (Item.repetition length distance)
  exact (Steady.ite (c := symbol < 256) (steady_ok (.byte (UInt8.ofNat symbol)))
    (Steady.ite (c := symbol = 256) (steady_ok .blockEnd) hrepetition)).of_eq fun s => rfl

lemma steady_readItem (literals distances : PrefixCode) :
    Steady (readItem literals distances) :=
  (literals.steady_read.bind fun symbol => steady_itemOf distances symbol).of_eq
    (readItem_eq literals distances)

lemma readItem_size {literals distances : PrefixCode} (hl : ∀ k, literals ≠ .leaf k)
    {s s' : Bits} {x : Item} (h : readItem literals distances s = .ok (x, s')) :
    s'.size < s.size := by
  rw [readItem_eq] at h
  obtain ⟨⟨symbol, s₁⟩, hsymbol, h⟩ := bind_ok.mp h
  exact Nat.lt_of_le_of_lt ((steady_itemOf distances symbol).size h)
    (PrefixCode.read_size hl hsymbol)

lemma steady_readTriples (n : ℕ) : Steady (readTriples n) := by
  induction n with
  | zero => exact steady_ok []
  | succ n ih =>
    exact ((steady_number 3).bind fun k => ih.bind fun ks => steady_ok (k :: ks)).of_eq
      fun s => rfl

/-- Reads how often the last length is repeated, and goes on. -/
def readAgain (code : PrefixCode) (count tries : ℕ) (read : List ℕ) (bits : Bits) :
    Except Stop (List ℕ × Bits) :=
  match read with
  | [] => throw .corrupt
  | l :: _ => do
    let (n, bits) ← bits.number 2
    readLengths code count tries (List.replicate (3 + n) l ++ read) bits

lemma steady_readLengths (code : PrefixCode) (count tries : ℕ) (read : List ℕ) :
    Steady (readLengths code count tries read) := by
  induction tries generalizing read with
  | zero => exact steady_error .corrupt
  | succ tries ih =>
    have hagain : Steady (readAgain code count tries read) := by
      rcases read with _ | ⟨l, r⟩
      · exact steady_error .corrupt
      · exact ((steady_number 2).bind fun n => ih (List.replicate (3 + n) l ++ l :: r)).of_eq
          fun s => rfl
    exact (Steady.ite (c := count = read.length) (steady_ok read.reverse)
      (Steady.ite (c := count < read.length) (steady_error .corrupt)
        (code.steady_read.bind fun symbol =>
          Steady.ite (c := symbol < 16) (ih (symbol :: read))
            (Steady.ite (c := symbol = 16) hagain
              (Steady.ite (c := symbol = 17)
                ((steady_number 3).bind fun n => ih (List.replicate (3 + n) 0 ++ read))
                ((steady_number 7).bind fun n => ih (List.replicate (11 + n) 0 ++ read))))))).of_eq
      fun s => rfl

/-- The two codes that a row of lengths gives. -/
def codesOf (count : ℕ) (all : List ℕ) : Except Stop (PrefixCode × PrefixCode) := do
  let literals ← PrefixCode.ofLengths true (all.take count)
  let distances ← PrefixCode.ofLengths true (all.drop count)
  return (literals, distances)

def readCodePair (bits : Bits) : Except Stop ((PrefixCode × PrefixCode) × Bits) := do
  let (n, bits) ← bits.number 5
  let (m, bits) ← bits.number 5
  let (k, bits) ← bits.number 4
  if 286 < n + 257 ∨ 30 < m + 1 then throw .corrupt
  let (triples, bits) ← readTriples (k + 4) bits
  let code ← PrefixCode.ofLengths false
    ((List.range 19).map fun s => ((lengthOrder.zip triples).lookup s).getD 0)
  let (all, bits) ← readLengths code (n + 257 + (m + 1)) (n + 257 + (m + 1) + 1) [] bits
  let codes ← codesOf (n + 257) all
  return (codes, bits)

lemma map_bind {ε α β γ : Type} (x : Except ε α) (f : α → Except ε β) (g : β → γ) :
    (x >>= f).map g = x >>= fun a => (f a).map g := by
  cases x <;> rfl

lemma readCodes_eq (s : Bits) :
    readCodes s = (readCodePair s).map fun x => (x.1.1, x.1.2, x.2) := by
  rw [readCodes, readCodePair, map_bind]
  refine bind_congr fun ⟨n, s⟩ => ?_
  rw [map_bind]
  refine bind_congr fun ⟨m, s⟩ => ?_
  rw [map_bind]
  refine bind_congr fun ⟨k, s⟩ => ?_
  simp only
  split_ifs
  · rfl
  rw [map_bind]
  refine bind_congr fun ⟨triples, s⟩ => ?_
  simp only [map_bind]
  refine bind_congr fun code => ?_
  refine bind_congr fun ⟨all, s⟩ => ?_
  simp only [codesOf]
  rcases PrefixCode.ofLengths true (all.take (n + 257)) with e | literals
  · rfl
  · rcases PrefixCode.ofLengths true (all.drop (n + 257)) with e | distances <;> rfl

lemma steady_readCodePair : Steady readCodePair :=
  ((steady_number 5).bind fun n => (steady_number 5).bind fun m =>
    (steady_number 4).bind fun k => Steady.ite (c := 286 < n + 257 ∨ 30 < m + 1)
      (steady_error .corrupt) ((steady_readTriples (k + 4)).bind fun triples =>
        Steady.lift (PrefixCode.ofLengths false
          ((List.range 19).map fun s => ((lengthOrder.zip triples).lookup s).getD 0)) fun code =>
            (steady_readLengths code (n + 257 + (m + 1)) (n + 257 + (m + 1) + 1) []).bind fun all =>
              Steady.lift (codesOf (n + 257) all) fun codes => steady_ok codes)).of_eq
    fun _ => rfl

lemma readCodePair_ne_leaf {s s' : Bits} {codes : PrefixCode × PrefixCode}
    (h : readCodePair s = .ok (codes, s')) (k : ℕ) : codes.1 ≠ .leaf k := by
  obtain ⟨⟨n, s₁⟩, -, h⟩ := bind_ok.mp h
  obtain ⟨⟨m, s₂⟩, -, h⟩ := bind_ok.mp h
  obtain ⟨⟨k, s₃⟩, -, h⟩ := bind_ok.mp h
  simp only at h
  split_ifs at h
  · simp at h
  obtain ⟨⟨triples, s₄⟩, -, h⟩ := bind_ok.mp h
  obtain ⟨code, -, h⟩ := bind_ok.mp h
  obtain ⟨⟨all, s₅⟩, -, h⟩ := bind_ok.mp h
  obtain ⟨codes', hcodes, h⟩ := bind_ok.mp h
  obtain ⟨rfl, -⟩ := Prod.mk.inj (Except.ok.inj h)
  obtain ⟨literals, hl, h⟩ := bind_ok.mp hcodes
  obtain ⟨distances, -, h⟩ := bind_ok.mp h
  obtain rfl := Except.ok.inj h
  exact PrefixCode.ofLengths_ne_leaf hl _

/-- What unpacking comes to when there are more bytes behind the data. -/
def Inflation.Becomes (x : Inflation) (t : Bytes) (y : Inflation) : Prop :=
  match x.state with
  | .ok s => y = ⟨x.output, .ok (s.before t)⟩
  | .error .corrupt => y = x
  | .error .incomplete => x.output.toList <+: y.output.toList

lemma repeatBack_grows (distance n : ℕ) (out : Array UInt8) :
    out.toList <+: (repeatBack distance n out).toList := by
  induction n generalizing out with
  | zero => exact List.prefix_rfl
  | succ n ih =>
    refine List.IsPrefix.trans ?_ (ih _)
    simp

lemma inflateItems_grows (literals distances : PrefixCode) (n : ℕ) (out : Array UInt8)
    (s : Bits) : out.toList <+: (inflateItems literals distances n out s).output.toList := by
  induction n generalizing out s with
  | zero => exact List.prefix_rfl
  | succ n ih =>
    rw [inflateItems]
    rcases readItem literals distances s with e | ⟨b | ⟨k, d⟩ | _, s'⟩
    · exact List.prefix_rfl
    · refine List.IsPrefix.trans ?_ (ih _ _)
      simp
    · exact (repeatBack_grows d k out).trans (ih _ _)
    · exact List.prefix_rfl

lemma inflateItems_becomes {literals distances : PrefixCode} (hl : ∀ k, literals ≠ .leaf k)
    {n m : ℕ} (out : Array UInt8) {s : Bits} (t : Bytes) (hn : s.size < n)
    (hm : (s.before t).size < m) :
    (inflateItems literals distances n out s).Becomes t
      (inflateItems literals distances m out (s.before t)) := by
  induction n generalizing m out s with
  | zero => omega
  | succ n ih =>
    obtain ⟨m, rfl⟩ : ∃ k, m = k + 1 := ⟨m - 1, by omega⟩
    have hsteady := steady_readItem literals distances
    rw [inflateItems]
    rcases hx : readItem literals distances s with (_ | _) | ⟨x, s'⟩
    · exact inflateItems_grows ..
    · rw [inflateItems, hsteady.corrupt hx t]
      rfl
    · have hlt := readItem_size hl hx
      have hlt' : (s'.before t).size < m := by
        rw [Bits.size_before] at hm ⊢
        omega
      rw [inflateItems, hsteady.ok hx t]
      cases x with
      | byte b => exact ih _ (by omega) hlt'
      | repetition k d => exact ih _ (by omega) hlt'
      | blockEnd => rfl

lemma inflateItems_size {literals distances : PrefixCode} {n : ℕ} {out : Array UInt8}
    {s s' : Bits} (h : (inflateItems literals distances n out s).state = .ok s') :
    s'.size ≤ s.size := by
  induction n generalizing out s with
  | zero => simp [inflateItems, Inflation.stop] at h
  | succ n ih =>
    rw [inflateItems] at h
    rcases hx : readItem literals distances s with e | ⟨x, s₁⟩ <;> rw [hx] at h
    · simp [Inflation.stop] at h
    · have hle := (steady_readItem literals distances).size hx
      cases x with
      | byte b => exact (ih h).trans hle
      | repetition k d => exact (ih h).trans hle
      | blockEnd =>
        obtain rfl := Except.ok.inj h
        exact hle

lemma inflateStored_short {out : Array UInt8} {s : Bits} (h : s.rest.length < 4) :
    inflateStored out s = .stop out .incomplete := by
  have hs : s.align.rest.length < 4 := h
  simp only [inflateStored, if_pos hs]

lemma inflateStored_cons (out : Array UInt8) {s : Bits} {x y u v : UInt8} {r : Bytes}
    (h : s.rest = x :: y :: u :: v :: r) :
    inflateStored out s =
      if x.toNat + 256 * y.toNat + (u.toNat + 256 * v.toNat) ≠ 65535 then .stop out .corrupt
      else
        ⟨(r.take (x.toNat + 256 * y.toNat)).foldl Array.push out,
          if r.length < x.toNat + 256 * y.toNat then .error .incomplete
          else .ok (.ofBytes (r.drop (x.toNat + 256 * y.toNat)))⟩ := by
  have hs : s.align.rest = x :: y :: u :: v :: r := h
  simp only [inflateStored, hs, List.headD_cons, List.drop_succ_cons, List.drop_zero]
  generalize x.toNat + 256 * y.toNat = n
  have hdrop : (x :: y :: u :: v :: r).drop (4 + n) = r.drop n := by
    rw [← List.drop_drop]
    rfl
  have hlen : (r.take n).length < n ↔ r.length < n := by
    rw [List.length_take]
    omega
  rw [if_neg (by simp), hdrop]
  simp only [hlen, Inflation.stop]
  split_ifs <;> rfl

lemma rest_cases (s : Bits) :
    s.rest.length < 4 ∨ ∃ x y u v r, s.rest = x :: y :: u :: v :: r := by
  rcases s.rest with _ | ⟨x, _ | ⟨y, _ | ⟨u, _ | ⟨v, r⟩⟩⟩⟩
  · exact .inl (by decide)
  · exact .inl (by simp)
  · exact .inl (by simp)
  · exact .inl (by simp)
  · exact .inr ⟨x, y, u, v, r, rfl⟩

lemma inflateStored_grows (out : Array UInt8) (s : Bits) :
    out.toList <+: (inflateStored out s).output.toList := by
  rcases rest_cases s with h | ⟨x, y, u, v, r, h⟩
  · rw [inflateStored_short h]
    exact List.prefix_rfl
  · rw [inflateStored_cons out h]
    split_ifs
    · exact List.prefix_rfl
    · simp only [foldl_push]
      exact List.prefix_append _ _
    · simp only [foldl_push]
      exact List.prefix_append _ _

lemma inflateStored_size {out : Array UInt8} {s s' : Bits}
    (h : (inflateStored out s).state = .ok s') : s'.size ≤ s.size := by
  rcases rest_cases s with hr | ⟨x, y, u, v, r, hr⟩
  · simp [inflateStored_short hr, Inflation.stop] at h
  · rw [inflateStored_cons out hr] at h
    split_ifs at h
    · simp [Inflation.stop] at h
    · obtain rfl := Except.ok.inj h
      simp only [Bits.size, Bits.ofBytes, List.length_drop, hr, List.length_cons]
      omega

lemma inflateStored_becomes (out : Array UInt8) (s : Bits) (t : Bytes) :
    (inflateStored out s).Becomes t (inflateStored out (s.before t)) := by
  rcases rest_cases s with h | ⟨x, y, u, v, r, h⟩
  · rw [inflateStored_short h]
    exact inflateStored_grows ..
  have h' : (s.before t).rest = x :: y :: u :: v :: (r ++ t) := by
    simp only [Bits.before, h, List.cons_append]
  rw [inflateStored_cons out h, inflateStored_cons out h']
  generalize x.toNat + 256 * y.toNat = n
  by_cases hsum : n + (u.toNat + 256 * v.toNat) ≠ 65535
  · rw [if_pos hsum, if_pos hsum]
    rfl
  rw [if_neg hsum, if_neg hsum]
  by_cases hn : r.length < n
  · simp only [Inflation.Becomes, if_pos hn, foldl_push]
    exact (List.prefix_append_right_inj _).mpr (List.IsPrefix.take (List.prefix_append r t) n)
  · have hle : n ≤ r.length := Nat.not_lt.mp hn
    have hn' : ¬(r ++ t).length < n := by
      rw [List.length_append]
      omega
    simp only [Inflation.Becomes, if_neg hn, if_neg hn', List.take_append_of_le_length hle,
      List.drop_append_of_le_length hle]
    rfl

/-- What unpacking one block needs to know of it: it adds to what is there, leaves no more to be
read, and comes out the same before more bytes. -/
structure Extends (f : Array UInt8 → Bits → Inflation) : Prop where
  grows : ∀ out s, out.toList <+: (f out s).output.toList
  size : ∀ {out s s'}, (f out s).state = .ok s' → s'.size ≤ s.size
  becomes : ∀ out s t, (f out s).Becomes t (f out (s.before t))

lemma extends_corrupt : Extends fun out _ => .stop out .corrupt where
  grows _ _ := List.prefix_rfl
  size h := by simp [Inflation.stop] at h
  becomes _ _ _ := rfl

lemma extends_stored : Extends inflateStored :=
  ⟨inflateStored_grows, inflateStored_size, inflateStored_becomes⟩

lemma extends_items {literals : PrefixCode} (distances : PrefixCode)
    (hl : ∀ k, literals ≠ .leaf k) :
    Extends fun out s => inflateItems literals distances (s.size + 1) out s where
  grows _ _ := inflateItems_grows ..
  size h := inflateItems_size h
  becomes out _ t := inflateItems_becomes hl out t (Nat.lt_succ_self _) (Nat.lt_succ_self _)

lemma extends_coded : Extends fun out s =>
    match readCodes s with
    | .error e => .stop out e
    | .ok (literals, distances, s) => inflateItems literals distances (s.size + 1) out s where
  grows _ s := by
    rcases readCodes s with e | ⟨literals, distances, s⟩
    · exact List.prefix_rfl
    · exact inflateItems_grows ..
  size {out s s'} h := by
    rw [readCodes_eq] at h
    rcases hx : readCodePair s with e | ⟨codes, s₁⟩ <;> rw [hx] at h
    · simp [Except.map, Inflation.stop] at h
    · exact (inflateItems_size h).trans (steady_readCodePair.size hx)
  becomes out s t := by
    simp only [readCodes_eq]
    rcases hx : readCodePair s with (_ | _) | ⟨codes, s₁⟩
    · simp only [Except.map, Inflation.Becomes, Inflation.stop]
      rcases readCodePair (s.before t) with e | ⟨codes, s₁⟩
      · exact List.prefix_rfl
      · exact inflateItems_grows ..
    · rw [steady_readCodePair.corrupt hx t]
      rfl
    · rw [steady_readCodePair.ok hx t]
      exact (extends_items codes.2 (readCodePair_ne_leaf hx)).becomes out s₁ t

lemma extends_block (type : ℕ) : Extends (inflateBlock type) := by
  unfold inflateBlock
  by_cases h₀ : type = 0
  · simp only [if_pos h₀]
    exact extends_stored
  by_cases h₁ : type = 1
  · simp only [if_neg h₀, if_pos h₁]
    rcases hl : PrefixCode.ofLengths false fixedLengths with e | literals
    · exact extends_corrupt
    rcases PrefixCode.ofLengths false (List.replicate 32 5) with e | distances
    · exact extends_corrupt
    · exact extends_items distances (PrefixCode.ofLengths_ne_leaf hl)
  by_cases h₂ : type = 2
  · simp only [if_neg h₀, if_neg h₁, if_pos h₂]
    exact extends_coded
  · simp only [if_neg h₀, if_neg h₁, if_neg h₂]
    exact extends_corrupt

/-- Reads what stands before a block: whether it is the last one, and its type. -/
def readBlockStart (s : Bits) : Except Stop ((Bool × ℕ) × Bits) := do
  let (last, s) ← s.next
  let (type, s) ← s.number 2
  return ((last, type), s)

lemma steady_readBlockStart : Steady readBlockStart :=
  (steady_next.bind fun last => (steady_number 2).bind fun type => steady_ok (last, type)).of_eq
    fun _ => rfl

lemma readBlockStart_size {s s' : Bits} {x : Bool × ℕ} (h : readBlockStart s = .ok (x, s')) :
    s'.size < s.size := by
  obtain ⟨⟨last, s₁⟩, hlast, h⟩ := bind_ok.mp h
  obtain ⟨⟨type, s₂⟩, htype, h⟩ := bind_ok.mp h
  obtain ⟨-, rfl⟩ := Prod.mk.inj (Except.ok.inj h)
  have hlt := Bits.next_size hlast
  have hle := (steady_number 2).size htype
  omega

lemma inflateBlocks_succ (n : ℕ) (out : Array UInt8) (s : Bits) :
    inflateBlocks (n + 1) out s =
      match readBlockStart s with
      | .error e => .stop out e
      | .ok ((last, type), s) =>
        match inflateBlock type out s with
        | ⟨out, .ok s⟩ => if last then ⟨out, .ok s⟩ else inflateBlocks n out s
        | r => r := by
  simp only [inflateBlocks, readBlockStart]
  rcases s.next with e | ⟨last, s₁⟩
  · rfl
  · simp only [Tar.ok_bind]
    rcases s₁.number 2 with e | ⟨type, s₂⟩ <;> rfl

lemma inflateBlocks_grows (n : ℕ) (out : Array UInt8) (s : Bits) :
    out.toList <+: (inflateBlocks n out s).output.toList := by
  induction n generalizing out s with
  | zero => exact List.prefix_rfl
  | succ n ih =>
    rw [inflateBlocks_succ]
    rcases readBlockStart s with e | ⟨⟨last, type⟩, s₁⟩
    · exact List.prefix_rfl
    have hgrows := (extends_block type).grows out s₁
    simp only
    rcases hb : inflateBlock type out s₁ with ⟨out', e | s₂⟩ <;> rw [hb] at hgrows
    · exact hgrows
    · simp only
      split_ifs
      · exact hgrows
      · exact hgrows.trans (ih out' s₂)

lemma inflateBlocks_becomes {n m : ℕ} (out : Array UInt8) {s : Bits} (t : Bytes)
    (hn : s.size < n) (hm : (s.before t).size < m) :
    (inflateBlocks n out s).Becomes t (inflateBlocks m out (s.before t)) := by
  induction n generalizing m out s with
  | zero => omega
  | succ n ih =>
    obtain ⟨m, rfl⟩ : ∃ k, m = k + 1 := ⟨m - 1, by omega⟩
    rw [inflateBlocks_succ]
    rcases hx : readBlockStart s with (_ | _) | ⟨⟨last, type⟩, s₁⟩
    · exact inflateBlocks_grows ..
    · rw [inflateBlocks_succ, steady_readBlockStart.corrupt hx t]
      rfl
    rw [inflateBlocks_succ, steady_readBlockStart.ok hx t]
    have hlt := readBlockStart_size hx
    have hblock := (extends_block type).becomes out s₁ t
    have hsize := @(extends_block type).size out s₁
    simp only
    rcases hb : inflateBlock type out s₁ with ⟨out', (_ | _) | s₂⟩ <;> rw [hb] at hblock hsize
    · -- The row may go on, but what this block has given stays at its beginning.
      simp only [Inflation.Becomes] at hblock ⊢
      rcases hb' : inflateBlock type out (s₁.before t) with ⟨out'', e | s₂⟩ <;> rw [hb'] at hblock
      · exact hblock
      · simp only
        split_ifs
        · exact hblock
        · exact List.IsPrefix.trans hblock (inflateBlocks_grows ..)
    · simp only [Inflation.Becomes] at hblock
      rw [hblock]
      rfl
    · simp only [Inflation.Becomes] at hblock
      rw [hblock]
      have hle := hsize rfl
      simp only
      split_ifs
      · rfl
      · refine ih out' (by omega) ?_
        rw [Bits.size_before] at hm ⊢
        omega

/-- Deflate data are unpacked the same before more bytes. -/
theorem inflate_becomes (b t : Bytes) : (inflate b).Becomes t (inflate (b ++ t)) := by
  refine inflateBlocks_becomes (s := .ofBytes b) #[] t ?_ ?_
  · simp only [Bits.size, Bits.ofBytes]
    omega
  · rw [Bits.size_before]
    simp only [Bits.size, Bits.ofBytes, List.length_append]
    omega

end LayerPick.Gzip
