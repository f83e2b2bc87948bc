import LayerPick.Stream.Source
import Mathlib.Order.Nat

/-!
# Reading a source front to back

`Source.take` and `Source.read` pass over the same events. Taking `m` bytes and then `n` more is
taking `m + n` bytes, a call that hands out a chunk takes exactly that chunk, and nothing is lost:
what was taken and what is left make up the source. Waiting for transient failures only matters
where there are some.
-/
namespace LayerPick.Source

/-- Two stretches of bytes taken one behind the other. -/
def Taken.then (t u : Taken) : Taken := ⟨t.data ++ u.data, u.rest, u.fault⟩

lemma takeEvents_got (p : Bool) (d : Option String) (n : ℕ) (es : List Event) (got : List Bytes) :
    takeEvents p d n es got =
      ⟨got.reverse.flatten ++ (takeEvents p d n es []).data, (takeEvents p d n es []).rest,
        (takeEvents p d n es []).fault⟩ := by
  induction es generalizing n got with
  | nil => cases n <;> simp [takeEvents]
  | cons e es ih =>
    cases n with
    | zero => simp [takeEvents]
    | succ n =>
      cases e with
      | bytes b l =>
        by_cases hb : n + 1 < b.length
        · simp [takeEvents, hb]
        · simp only [takeEvents, if_neg hb]
          rw [ih _ (b :: got), ih _ [b]]
          simp
      | fault f =>
        by_cases hf : (p && f.transient) = true
        · simp only [takeEvents, hf, if_true]
          exact ih _ got
        · simp [takeEvents, hf]

@[simp] lemma take_zero (p : Bool) (s : Source) : s.take p 0 = ⟨[], s, none⟩ := by
  cases s with
  | mk es d => cases es <;> rfl

lemma take_nil (p : Bool) (d : Option String) {n : ℕ} (hn : 0 < n) :
    (⟨[], d⟩ : Source).take p n = ⟨[], ⟨[], d⟩, d.map fun m => ⟨false, m⟩⟩ := by
  cases n with
  | zero => omega
  | succ n => simp [take, takeEvents]

lemma take_bytes_of_lt (p : Bool) (b : Bytes) (l : Option ℕ) (es : List Event)
    (d : Option String) {n : ℕ} (hn : 0 < n) (hb : n < b.length) :
    (⟨.bytes b l :: es, d⟩ : Source).take p n =
      ⟨b.take n, ⟨.bytes (b.drop n) l :: es, d⟩, none⟩ := by
  cases n with
  | zero => omega
  | succ n => simp [take, takeEvents, hb]

lemma take_bytes_of_le (p : Bool) (b : Bytes) (l : Option ℕ) (es : List Event)
    (d : Option String) {n : ℕ} (hn : 0 < n) (hb : b.length ≤ n) :
    (⟨.bytes b l :: es, d⟩ : Source).take p n =
      Taken.then ⟨b, ⟨es, d⟩, none⟩ ((⟨es, d⟩ : Source).take p (n - b.length)) := by
  cases n with
  | zero => omega
  | succ n =>
    simp only [take, takeEvents, if_neg (Nat.not_lt.mpr hb)]
    rw [takeEvents_got]
    simp [Taken.then]

lemma take_fault (p : Bool) (f : Fault) (es : List Event) (d : Option String) {n : ℕ}
    (hn : 0 < n) :
    (⟨.fault f :: es, d⟩ : Source).take p n =
      if (p && f.transient) = true then (⟨es, d⟩ : Source).take p n
      else ⟨[], ⟨es, d⟩, some f⟩ := by
  cases n with
  | zero => omega
  | succ n =>
    by_cases hf : (p && f.transient) = true
    · simp only [take, takeEvents, hf, if_true]
    · simp [take, takeEvents, hf]

lemma take_data_append (p : Bool) (n : ℕ) (s : Source) :
    (s.take p n).data ++ (s.take p n).rest.data = s.data ∧
      (s.take p n).data.length ≤ n := by
  rcases s with ⟨es, d⟩
  induction es generalizing n with
  | nil =>
    by_cases hzero : n = 0
    · subst hzero
      simp
    · have hn := Nat.pos_of_ne_zero hzero
      simp [take_nil p d hn]
  | cons e es ih =>
    by_cases hzero : n = 0
    · subst hzero
      simp
    have hn := Nat.pos_of_ne_zero hzero
    cases e with
    | bytes b l =>
      by_cases hb : n < b.length
      · rw [take_bytes_of_lt p b l es d hn hb]
        simp only [data, List.flatMap_cons, Event.data, ← List.append_assoc, List.take_append_drop]
        exact ⟨trivial, (List.length_take_le n b)⟩
      · have hle : b.length ≤ n := Nat.not_lt.mp hb
        have h := ih (n - b.length)
        rw [take_bytes_of_le p b l es d hn hle]
        simp only [Taken.then, List.append_assoc, h.1, List.length_append]
        exact ⟨by simp [data, Event.data], by omega⟩
    | fault f =>
      have h := ih n
      rw [take_fault p f es d hn]
      split_ifs
      · exact ⟨by simpa [data, Event.data] using h.1, h.2⟩
      · simp [data, Event.data]

lemma length_eq (s : Source) : s.length = s.data.length := rfl

lemma take_length (p : Bool) (n : ℕ) (s : Source) :
    (s.take p n).data.length + (s.take p n).rest.length = s.length := by
  have h := congrArg List.length (take_data_append p n s).1
  simpa [length_eq] using h

lemma take_data_le (p : Bool) (n : ℕ) (s : Source) : (s.take p n).data.length ≤ n :=
  (take_data_append p n s).2

/-- Taking bytes in two goes, unless a failure ends the first. -/
lemma take_add (p : Bool) (m n : ℕ) (s : Source) (h : (s.take p m).fault = none) :
    s.take p (m + n) = (s.take p m).then ((s.take p m).rest.take p n) := by
  rcases s with ⟨es, d⟩
  induction es generalizing m with
  | nil =>
    by_cases hzero : m = 0
    · subst hzero
      simp [Taken.then]
    have hm := Nat.pos_of_ne_zero hzero
    have hd : d = none := by simpa [take_nil p d hm] using h
    subst hd
    by_cases hzero : n = 0
    · subst hzero
      simp [Taken.then, take_nil p none hm]
    · have hn := Nat.pos_of_ne_zero hzero
      simp [Taken.then, take_nil p none hm, take_nil p none hn,
        take_nil p none (Nat.add_pos_left hm n)]
  | cons e es ih =>
    by_cases hzero : m = 0
    · subst hzero
      simp [Taken.then]
    have hm := Nat.pos_of_ne_zero hzero
    have hmn : 0 < m + n := by omega
    cases e with
    | bytes b l =>
      by_cases hb : m < b.length
      · rw [take_bytes_of_lt p b l es d hm hb]
        by_cases hzero : n = 0
        · subst hzero
          simp [Taken.then, take_bytes_of_lt p b l es d hm hb]
        have hn := Nat.pos_of_ne_zero hzero
        by_cases hb' : m + n < b.length
        · have hd : n < (b.drop m).length := by simp; omega
          rw [take_bytes_of_lt p b l es d hmn hb', take_bytes_of_lt p _ l es d hn hd]
          simp [Taken.then, List.take_add]
        · have hle : b.length ≤ m + n := by omega
          have hd : (b.drop m).length ≤ n := by simp; omega
          rw [take_bytes_of_le p b l es d hmn hle, take_bytes_of_le p _ l es d hn hd]
          have he : m + n - b.length = n - (b.drop m).length := by simp; omega
          simp [Taken.then, he, ← List.append_assoc]
      · have hle : b.length ≤ m := by omega
        rw [take_bytes_of_le p b l es d hm hle] at h ⊢
        rw [take_bytes_of_le p b l es d hmn (by omega)]
        have he : m + n - b.length = m - b.length + n := by omega
        rw [he, ih _ (by simpa [Taken.then] using h)]
        simp [Taken.then]
    | fault f =>
      rw [take_fault p f es d hm] at h ⊢
      rw [take_fault p f es d hmn]
      split_ifs at h ⊢ with hf
      exact ih _ h

/-- Where no failure is met, it does not matter whether one would have waited. -/
lemma take_patient (n : ℕ) (s : Source) (h : (s.take false n).fault = none) :
    s.take true n = s.take false n := by
  rcases s with ⟨es, d⟩
  induction es generalizing n with
  | nil =>
    by_cases hzero : n = 0
    · subst hzero
      simp
    · have hn := Nat.pos_of_ne_zero hzero
      rw [take_nil _ d hn, take_nil _ d hn]
  | cons e es ih =>
    by_cases hzero : n = 0
    · subst hzero
      simp
    have hn := Nat.pos_of_ne_zero hzero
    cases e with
    | bytes b l =>
      by_cases hb : n < b.length
      · rw [take_bytes_of_lt _ b l es d hn hb, take_bytes_of_lt _ b l es d hn hb]
      · have hle : b.length ≤ n := by omega
        rw [take_bytes_of_le _ b l es d hn hle] at h ⊢
        rw [take_bytes_of_le _ b l es d hn hle, ih _ (by simpa [Taken.then] using h)]
    | fault f =>
      rw [take_fault _ f es d hn] at h
      simp at h

/-- A run of bytes that is taken without a failure is taken so up to each point of it. -/
lemma take_fault_none_of_add (p : Bool) (m n : ℕ) (s : Source)
    (h : (s.take p (m + n)).fault = none) : (s.take p m).fault = none := by
  rcases s with ⟨es, d⟩
  induction es generalizing m with
  | nil =>
    by_cases hzero : m = 0
    · subst hzero
      simp
    · have hm := Nat.pos_of_ne_zero hzero
      rw [take_nil p d (by omega)] at h
      rw [take_nil p d hm]
      exact h
  | cons e es ih =>
    by_cases hzero : m = 0
    · subst hzero
      simp
    have hm := Nat.pos_of_ne_zero hzero
    cases e with
    | bytes b l =>
      by_cases hb : m < b.length
      · rw [take_bytes_of_lt p b l es d hm hb]
      · have hle : b.length ≤ m := by omega
        rw [take_bytes_of_le p b l es d (by omega) (by omega)] at h
        rw [take_bytes_of_le p b l es d hm hle]
        refine ih _ ?_
        have he : m + n - b.length = m - b.length + n := by omega
        simpa [Taken.then, he] using h
    | fault f =>
      rw [take_fault p f es d (by omega)] at h
      rw [take_fault p f es d hm]
      split_ifs at h ⊢ with hf
      exact ih _ h

lemma read_bytes_nil (most : ℕ) (l : Option ℕ) (es : List Event) (d : Option String) :
    (⟨.bytes [] l :: es, d⟩ : Source).read most = (⟨es, d⟩ : Source).read most := rfl

lemma read_chunk {most : ℕ} {s s' : Source} {b : Bytes} (hmost : 0 < most)
    (h : s.read most = (.chunk b, s')) :
    0 < b.length ∧ b.length ≤ most ∧ (∀ p, s.take p b.length = ⟨b, s', none⟩) ∧
      s'.events.length ≤ s.events.length := by
  rcases s with ⟨es, d⟩
  induction es with
  | nil => cases d <;> simp [read, readEvents, atEnd] at h
  | cons e es ih =>
    cases e with
    | fault f => simp [read, readEvents] at h
    | bytes b₀ l =>
      cases b₀ with
      | nil =>
        obtain ⟨hpos, hle, htake, hev⟩ := ih (by rwa [read_bytes_nil] at h)
        refine ⟨hpos, hle, fun p => ?_, Nat.le_succ_of_le hev⟩
        rw [take_bytes_of_le p [] l es d hpos (by simp), List.length_nil, Nat.sub_zero, htake p]
        simp [Taken.then]
      | cons x xs =>
        obtain ⟨n, hn, hread⟩ : ∃ n, (0 < n ∧ n ≤ most) ∧
            read most ⟨.bytes (x :: xs) l :: es, d⟩ = (.chunk ((x :: xs).take n),
              ⟨if (x :: xs).length ≤ n then es else .bytes ((x :: xs).drop n) l :: es, d⟩) := by
          cases l with
          | none => exact ⟨most, ⟨hmost, Nat.le_refl _⟩, rfl⟩
          | some k => exact ⟨min (max k 1) most, by omega, rfl⟩
        rw [hread] at h
        obtain ⟨hchunk, hrest⟩ := Prod.mk.inj h
        have hb : b = (x :: xs).take n := (Reading.chunk.inj hchunk).symm
        have hs := hrest.symm
        have hlen : b.length = min n (x :: xs).length := by rw [hb, List.length_take]
        refine ⟨by rw [hlen]; simp; omega, by omega, fun p => ?_, ?_⟩
        · by_cases hc : (x :: xs).length ≤ n
          · have he : b = x :: xs := by rw [hb, List.take_of_length_le hc]
            rw [hs, if_pos hc, he, take_bytes_of_le p _ l es d (by simp) (Nat.le_refl _), Nat.sub_self,
              take_zero]
            simp [Taken.then]
          · have hl : b.length = n := by omega
            rw [hs, if_neg hc, hl, take_bytes_of_lt p _ l es d hn.1 (by omega), ← hb]
        · rw [hs]
          split_ifs <;> simp

/-- A call that fails stands where taking bytes fails, unless one waits. -/
lemma read_failed {most : ℕ} {s s' : Source} {f : Fault} (h : s.read most = (.failed f, s')) :
    (∀ p n, 0 < n → s.take p n =
        if (p && f.transient) = true then s'.take p n else ⟨[], s', some f⟩) ∧
      s'.length = s.length ∧ s'.events.length ≤ s.events.length ∧
      (f.transient = true → s'.events.length < s.events.length) := by
  rcases s with ⟨es, d⟩
  induction es with
  | nil =>
    cases d with
    | none => simp [read, readEvents, atEnd] at h
    | some m =>
      simp only [read, readEvents, atEnd, Prod.mk.injEq, Reading.failed.injEq] at h
      obtain ⟨rfl, rfl⟩ := h
      refine ⟨fun p n hn => ?_, rfl, Nat.le_refl _, by simp⟩
      rw [take_nil p _ hn]
      simp
  | cons e es ih =>
    cases e with
    | fault g =>
      simp only [read, readEvents, Prod.mk.injEq, Reading.failed.injEq] at h
      obtain ⟨rfl, rfl⟩ := h
      refine ⟨fun p n hn => take_fault p g es d hn, ?_, by simp, by simp⟩
      simp [length, data, Event.data]
    | bytes b l =>
      cases b with
      | nil =>
        obtain ⟨htake, hlen, hev, hlt⟩ := ih (by rwa [read_bytes_nil] at h)
        refine ⟨fun p n hn => ?_, ?_, Nat.le_succ_of_le hev, fun hf => Nat.lt_succ_of_lt (hlt hf)⟩
        · rw [take_bytes_of_le p [] l es d hn (by simp), List.length_nil, Nat.sub_zero,
            htake p n hn]
          simp [Taken.then]
        · simpa [length, data, Event.data] using hlen
      | cons x xs => simp [read, readEvents] at h

/-- A call that meets the end has nothing before it and nothing behind it. -/
lemma read_ended {most : ℕ} {s s' : Source} (h : s.read most = (.ended, s')) :
    s' = ⟨[], none⟩ ∧ s.length = 0 ∧ ∀ p n, 0 < n → s.take p n = ⟨[], s', none⟩ := by
  rcases s with ⟨es, d⟩
  induction es with
  | nil =>
    cases d with
    | some m => simp [read, readEvents, atEnd] at h
    | none =>
      simp only [read, readEvents, atEnd, Prod.mk.injEq, true_and] at h
      subst h
      exact ⟨rfl, rfl, fun p n hn => by simp [take_nil p _ hn]⟩
  | cons e es ih =>
    cases e with
    | fault g => simp [read, readEvents] at h
    | bytes b l =>
      cases b with
      | nil =>
        obtain ⟨hs, hlen, htake⟩ := ih (by rwa [read_bytes_nil] at h)
        refine ⟨hs, by simpa [length, data, Event.data] using hlen, fun p n hn => ?_⟩
        rw [take_bytes_of_le p [] l es d hn (by simp), List.length_nil, Nat.sub_zero,
          htake p n hn]
        simp [Taken.then]
      | cons x xs => simp [read, readEvents] at h

lemma read_chunk_length {most : ℕ} {s s' : Source} {b : Bytes} (hmost : 0 < most)
    (h : s.read most = (.chunk b, s')) : s'.length + b.length = s.length := by
  obtain ⟨_, _, htake, _⟩ := read_chunk hmost h
  have hl := take_length true b.length s
  rw [htake] at hl
  simpa [Nat.add_comm] using hl

end LayerPick.Source
