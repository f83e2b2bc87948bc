import LayerPick.Proofs.CalmReading

/-!
# Streams that are cut anew

What a stream delivers is a row of tokens: bytes, and calls that fail. How the bytes are cut into
portions does not show in it. A stream is cut anew if another one delivers the same bytes and meets
the same failures at the same places, and the same end; at places that are free for it, it may fail
further calls, in such a way that they can be repeated.

To whoever calls until a number of bytes is there the two are the same, as long as no free place is
met by calls that are not repeated.
-/
namespace LayerPick

/-- What a stream delivers next. -/
inductive Token where
  | byte (b : UInt8)
  | fault (f : Fault)

namespace Token

/-- Further transient failures at free places. Every place is told by the number of bytes before
it. -/
inductive Padded (free : ℕ → Prop) : ℕ → List Token → List Token → Prop
  | nil {k : ℕ} : Padded free k [] []
  | byte {k : ℕ} {ts ts' : List Token} (b : UInt8) :
    Padded free (k + 1) ts ts' → Padded free k (.byte b :: ts) (.byte b :: ts')
  | fault {k : ℕ} {ts ts' : List Token} (f : Fault) :
    Padded free k ts ts' → Padded free k (.fault f :: ts) (.fault f :: ts')
  | further {k : ℕ} {ts ts' : List Token} {f : Fault} :
    free k → f.transient = true → Padded free k ts ts' → Padded free k ts (.fault f :: ts')

variable {free free' : ℕ → Prop} {k : ℕ} {ts ts' : List Token}

lemma Padded.refl (free : ℕ → Prop) (k : ℕ) (ts : List Token) : Padded free k ts ts := by
  induction ts generalizing k with
  | nil => exact .nil
  | cons t ts ih =>
    cases t with
    | byte b => exact .byte b (ih _)
    | fault f => exact .fault f (ih _)

lemma Padded.behind {b : Bytes} (h : Padded free (k + b.length) ts ts') :
    Padded free k (b.map .byte ++ ts) (b.map .byte ++ ts') := by
  induction b generalizing k with
  | nil => exact h
  | cons x b ih =>
    refine .byte x (ih ?_)
    rwa [Nat.add_assoc, Nat.add_comm 1]

lemma Padded.mono (h : Padded free k ts ts') (hfree : ∀ q, k ≤ q → free q → free' q) :
    Padded free' k ts ts' := by
  induction h with
  | nil => exact .nil
  | byte b _ ih => exact .byte b (ih fun q hq => hfree q (by omega))
  | fault f _ ih => exact .fault f (ih hfree)
  | further hk hf _ ih => exact .further (hfree _ (Nat.le_refl _) hk) hf (ih hfree)

/-- The bytes among the tokens. -/
def bytes (ts : List Token) : Bytes :=
  ts.flatMap fun
    | .byte b => [b]
    | .fault _ => []

lemma Padded.bytes (h : Padded free k ts ts') : Token.bytes ts = Token.bytes ts' := by
  induction h with
  | nil => rfl
  | byte b _ ih => simpa [Token.bytes] using ih
  | fault f _ ih => simpa [Token.bytes] using ih
  | further _ _ _ ih => simpa [Token.bytes] using ih

/-- Calls until there are `n` bytes: the bytes, the tokens behind them, and the failure that ended
it. -/
def take (patient : Bool) (defect : Option String) :
    ℕ → List Token → Bytes × List Token × Option Fault
  | 0, ts => ([], ts, none)
  | _ + 1, [] => ([], [], defect.map fun m => ⟨false, m⟩)
  | n + 1, .byte b :: ts => (b :: (take patient defect n ts).1, (take patient defect n ts).2)
  | n + 1, .fault f :: ts =>
    if patient && f.transient then take patient defect (n + 1) ts else ([], ts, some f)

variable {p : Bool} {d : Option String} {n : ℕ}

lemma take_bytes_of_lt {b : Bytes} (hn : n < b.length) :
    take p d n (b.map .byte ++ ts) = (b.take n, (b.drop n).map .byte ++ ts, none) := by
  induction b generalizing n with
  | nil => simp at hn
  | cons x b ih =>
    cases n with
    | zero => simp [take]
    | succ n =>
      have hn' : n < b.length := by simpa using hn
      simp only [List.map_cons, List.cons_append, take, ih hn', List.take_succ_cons,
        List.drop_succ_cons]

lemma take_bytes_of_le {b : Bytes} (hn : b.length ≤ n) :
    take p d n (b.map .byte ++ ts) =
      (b ++ (take p d (n - b.length) ts).1, (take p d (n - b.length) ts).2) := by
  induction b generalizing n with
  | nil => simp
  | cons x b ih =>
    cases n with
    | zero => simp at hn
    | succ n =>
      have hn' : b.length ≤ n := by simpa using hn
      simp only [List.map_cons, List.cons_append, take, ih hn', List.length_cons,
        Nat.add_sub_add_right]

def Clear (free : ℕ → Prop) (k m : ℕ) : Prop := ∀ q, free q → k ≤ q → m ≤ q

/-- The same bytes are taken, with the same failure. -/
lemma Padded.take (h : Padded free k ts ts') (hp : p = true ∨ Clear free k (k + n)) :
    (Token.take p d n ts).1 = (Token.take p d n ts').1 ∧
      (Token.take p d n ts).2.2 = (Token.take p d n ts').2.2 ∧
      Padded free (k + (Token.take p d n ts).1.length) (Token.take p d n ts).2.1
        (Token.take p d n ts').2.1 := by
  induction h generalizing n with
  | nil => cases n <;> exact ⟨rfl, rfl, .nil⟩
  | @byte k ts ts' b h ih =>
    cases n with
    | zero => exact ⟨rfl, rfl, .byte b h⟩
    | succ n =>
      have hp' : p = true ∨ Clear free (k + 1) (k + 1 + n) := by
        refine hp.imp_right fun hc q hq hk => ?_
        have := hc q hq (by omega)
        omega
      obtain ⟨hd, hf, hrest⟩ := ih hp'
      simp only [Token.take, List.length_cons]
      refine ⟨by rw [hd], hf, ?_⟩
      rwa [Nat.add_comm _ 1, ← Nat.add_assoc]
  | @fault k ts ts' f h ih =>
    cases n with
    | zero => exact ⟨rfl, rfl, .fault f h⟩
    | succ n =>
      by_cases hw : (p && f.transient) = true
      · simp only [Token.take, if_pos hw]
        exact ih hp
      · simp only [Token.take, if_neg hw]
        exact ⟨trivial, trivial, h⟩
  | @further k ts ts' f hk hf h ih =>
    cases n with
    | zero =>
      obtain ⟨-, -, hrest⟩ := ih (n := 0) (hp.imp_right fun hc => hc)
      exact ⟨by cases ts <;> rfl, by cases ts <;> rfl, by cases ts <;> exact .further hk hf h⟩
    | succ n =>
      rcases hp with rfl | hc
      · simp only [Token.take, hf, Bool.and_self, if_true]
        exact ih (.inl rfl)
      · have := hc k hk (Nat.le_refl k)
        omega

end Token

namespace Source

def eventTokens : Event → List Token
  | .bytes b _ => b.map .byte
  | .fault f => [.fault f]

/-- What a source delivers before its end. -/
def tokens (s : Source) : List Token := s.events.flatMap eventTokens

lemma bytes_tokens (s : Source) : Token.bytes s.tokens = s.data := by
  rcases s with ⟨es, d⟩
  induction es with
  | nil => rfl
  | cons e es ih =>
    have hcons : Token.bytes (tokens ⟨e :: es, d⟩) =
        Token.bytes (eventTokens e) ++ Token.bytes (tokens ⟨es, d⟩) := by
      simp [tokens, Token.bytes]
    have hevent : Token.bytes (eventTokens e) = e.data := by
      cases e with
      | bytes b l => simp [eventTokens, Token.bytes, Event.data, List.flatMap_map]
      | fault f => rfl
    rw [hcons, ih, hevent]
    rfl

lemma take_tokens (p : Bool) (n : ℕ) (s : Source) :
    Token.take p s.defect n s.tokens =
        ((s.take p n).data, (s.take p n).rest.tokens, (s.take p n).fault) ∧
      (s.take p n).rest.defect = s.defect := by
  rcases s with ⟨es, d⟩
  induction es generalizing n with
  | nil =>
    cases n with
    | zero => exact ⟨rfl, rfl⟩
    | succ n =>
      rw [take_nil p d (Nat.succ_pos n)]
      exact ⟨rfl, rfl⟩
  | cons e es ih =>
    by_cases hzero : n = 0
    · subst hzero
      rw [take_zero]
      exact ⟨by rw [Token.take], rfl⟩
    have hn := Nat.pos_of_ne_zero hzero
    cases e with
    | bytes b l =>
      have htokens : tokens ⟨.bytes b l :: es, d⟩ = b.map .byte ++ tokens ⟨es, d⟩ := rfl
      rw [htokens]
      by_cases hb : n < b.length
      · rw [take_bytes_of_lt p b l es d hn hb, Token.take_bytes_of_lt hb]
        exact ⟨rfl, rfl⟩
      · have hle : b.length ≤ n := Nat.not_lt.mp hb
        obtain ⟨ht, hd⟩ := ih (n - b.length)
        rw [take_bytes_of_le p b l es d hn hle, Token.take_bytes_of_le hle, ht]
        exact ⟨rfl, hd⟩
    | fault f =>
      obtain ⟨n, rfl⟩ : ∃ m, n = m + 1 := ⟨n - 1, by omega⟩
      have htokens : tokens ⟨.fault f :: es, d⟩ = .fault f :: tokens ⟨es, d⟩ := rfl
      rw [htokens, take_fault p f es d hn, Token.take]
      split_ifs
      · exact ih (n + 1)
      · exact ⟨rfl, rfl⟩

/-- The source `s'` is `s` cut anew: from place `k` on it delivers the same and meets the same
failures, and further ones at free places. -/
structure Recut (free : ℕ → Prop) (k : ℕ) (s s' : Source) : Prop where
  tokens : Token.Padded free k s.tokens s'.tokens
  defect : s.defect = s'.defect

variable {free free' : ℕ → Prop} {k : ℕ} {s s' : Source}

lemma Recut.refl (free : ℕ → Prop) (k : ℕ) (s : Source) : s.Recut free k s := ⟨.refl _ _ _, rfl⟩

lemma Recut.mono (h : s.Recut free k s') (hfree : ∀ q, k ≤ q → free q → free' q) :
    s.Recut free' k s' := ⟨h.tokens.mono hfree, h.defect⟩

lemma Recut.data (h : s.Recut free k s') : s.data = s'.data := by
  rw [← bytes_tokens, ← bytes_tokens, h.tokens.bytes]

lemma Recut.length (h : s.Recut free k s') : s.length = s'.length := by
  rw [length_eq, length_eq, h.data]

/-- The same bytes, the same failure, and a source that is cut anew behind. -/
structure Taken.Recut (free : ℕ → Prop) (k : ℕ) (t t' : Taken) : Prop where
  data : t.data = t'.data
  fault : t.fault = t'.fault
  rest : t.rest.Recut free (k + t.data.length) t'.rest

lemma Recut.take (h : s.Recut free k s') {p : Bool} {n : ℕ}
    (hp : p = true ∨ Token.Clear free k (k + n)) :
    (s.take p n).Recut free k (s'.take p n) := by
  obtain ⟨ht, hd⟩ := take_tokens p n s
  obtain ⟨ht', hd'⟩ := take_tokens p n s'
  obtain ⟨hdata, hfault, hrest⟩ := h.tokens.take (d := s.defect) hp
  rw [ht] at hdata hfault hrest
  rw [h.defect, ht'] at hdata hfault hrest
  exact ⟨hdata, hfault, hrest, by rw [hd, hd', h.defect]⟩

lemma Recut.drain (h : s.Recut free k s') : (s.drain true).Recut free k (s'.drain true) := by
  rw [Source.drain, Source.drain, h.length]
  exact h.take (.inl rfl)

lemma IsCalm.tokens (h : s.IsCalm) : s.tokens = s.data.map .byte := by
  rcases s with ⟨es, d⟩
  obtain ⟨-, hf⟩ := h
  induction es with
  | nil => rfl
  | cons e es ih =>
    cases e with
    | fault f => exact absurd (List.mem_cons_self ..) (hf f)
    | bytes b l =>
      have := ih fun f hm => hf f (List.mem_cons_of_mem _ hm)
      simp only [Source.tokens, Source.data, List.flatMap_cons, Event.data, List.map_append] at this ⊢
      rw [this]
      rfl

/-- A call among bytes that come one by one may fail transiently at a free place. -/
lemma recut_interrupted {b : Bytes} {n : ℕ} {limit : Option ℕ} {d : Option String} {f : Fault}
    (hk : free (k + n)) (hn : n ≤ b.length) (hf : f.transient = true) :
    Recut free k ⟨[.bytes b none], d⟩
      ⟨[.bytes (b.take n) limit, .fault f, .bytes (b.drop n) limit], d⟩ := by
  refine ⟨?_, rfl⟩
  have htokens : Source.tokens ⟨[.bytes b none], d⟩ =
      (b.take n).map .byte ++ (b.drop n).map .byte := by
    rw [← List.map_append, List.take_append_drop]
    exact List.append_nil _
  have htokens' : Source.tokens ⟨[.bytes (b.take n) limit, .fault f, .bytes (b.drop n) limit], d⟩ =
      (b.take n).map .byte ++ (.fault f :: (b.drop n).map .byte) := by
    simp [Source.tokens, eventTokens]
  rw [htokens, htokens']
  refine .behind (.further ?_ hf (.refl _ _ _))
  rwa [List.length_take, Nat.min_eq_left hn]

/-- Sources that do not fail and deliver the same bytes are cut anew. -/
lemma IsCalm.recut (h : s.IsCalm) (h' : s'.IsCalm) (hd : s.data = s'.data) (free : ℕ → Prop)
    (k : ℕ) : s.Recut free k s' := by
  refine ⟨?_, h.noDefect.trans h'.noDefect.symm⟩
  rw [h.tokens, h'.tokens, hd]
  exact .refl _ _ _

end Source

end LayerPick
