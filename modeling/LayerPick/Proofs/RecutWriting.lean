import LayerPick.Proofs.AlikeExtraction
import LayerPick.Proofs.RecutReading

/-!
# Writing content that is cut anew

Copying to a device that takes everything leaves there what the content delivers before it ends or
fails, however many calls that takes. Content that is cut anew delivers the same, also where it
fails. So an entry is written in the same way, with the same result, and if it is complete, the
archive behind it is cut anew as well.
-/
namespace LayerPick

open Tar

/-- Some bytes, and what comes behind them unless a failure has ended them. -/
def Source.Taken.followed (t : Source.Taken) (f : Source → Bytes) : Bytes :=
  t.data ++ match t.fault with
    | none => f t.rest
    | some _ => []

lemma Source.Taken.followed_then (b : Bytes) (s : Source) (u : Source.Taken) (f : Source → Bytes) :
    (Source.Taken.then ⟨b, s, none⟩ u).followed f = b ++ u.followed f :=
  List.append_assoc ..

namespace Tar

variable {free : ℕ → Prop}

namespace Content

def deliveredPieces : List Piece → Source → Bytes
  | [], _ => []
  | .gap n :: ps, s => zeros n ++ deliveredPieces ps s
  | .stored n :: ps, s => (s.take true n).followed (deliveredPieces ps)
  | .rest :: ps, s => (s.drain true).followed (deliveredPieces ps)

/-- What the content delivers until it ends or fails, when transient failures are waited out. -/
def delivered (c : Content) : Bytes := deliveredPieces c.pieces c.source

/-- What one call says about the bytes that are delivered. -/
def Yields (b : Bytes) : Reading × Content → Prop
  | (.chunk x, c) => b = x ++ c.delivered
  | (.ended, _) => b = []
  | (.failed f, c) => b = if f.transient then c.delivered else []

lemma yields_stored {n : ℕ} {ps : List Piece} {s : Source} {k most : ℕ} (hmost : 0 < most)
    (ih : ∀ s k, Yields (deliveredPieces ps s) (readPieces most s k ps)) :
    Yields (deliveredPieces (.stored n :: ps) s) (readPieces most s k (.stored n :: ps)) := by
  by_cases hzero : n = 0
  · subst hzero
    simpa [readPieces, deliveredPieces, Source.Taken.followed] using ih s k
  have hn := Nat.pos_of_ne_zero hzero
  have hmin : 0 < min n most := by omega
  simp only [readPieces, if_neg hzero, deliveredPieces]
  rcases h : s.read (min n most) with ⟨b | _ | f, s'⟩
  · obtain ⟨-, hle, htake, -⟩ := Source.read_chunk hmin h
    have hsplit : n = b.length + (n - b.length) := by omega
    have hadd := Source.take_add true b.length (n - b.length) s (by rw [htake])
    rw [← hsplit, htake] at hadd
    simp only [Yields, hadd, Source.Taken.followed_then]
    rfl
  · obtain ⟨rfl, -, htake⟩ := Source.read_ended h
    simp only [htake true n hn]
    exact ih ⟨[], none⟩ k
  · have htake := (Source.read_failed h).1 true n hn
    simp only [Yields, htake, Bool.true_and]
    split_ifs <;> rfl

lemma yields_rest {ps : List Piece} {s : Source} {k most : ℕ} (hmost : 0 < most)
    (ih : ∀ s k, Yields (deliveredPieces ps s) (readPieces most s k ps)) :
    Yields (deliveredPieces (.rest :: ps) s) (readPieces most s k (.rest :: ps)) := by
  simp only [readPieces, deliveredPieces, Source.drain]
  rcases h : s.read most with ⟨b | _ | f, s'⟩
  · obtain ⟨-, -, htake, -⟩ := Source.read_chunk hmost h
    have hlen := Source.read_chunk_length hmost h
    have hsplit : s.length + 1 = b.length + (s'.length + 1) := by omega
    have hadd := Source.take_add true b.length (s'.length + 1) s (by rw [htake])
    rw [← hsplit, htake] at hadd
    simp only [Yields, hadd, Source.Taken.followed_then]
    rfl
  · obtain ⟨rfl, -, htake⟩ := Source.read_ended h
    simp only [htake true _ (Nat.succ_pos _)]
    exact ih ⟨[], none⟩ k
  · obtain ⟨htake, hlen, -, -⟩ := Source.read_failed h
    simp only [Yields, htake true _ (Nat.succ_pos _), Bool.true_and]
    split_ifs
    · rw [← hlen]
      rfl
    · rfl

lemma yields_read {most : ℕ} (hmost : 0 < most) (c : Content) : Yields c.delivered (c.read most) := by
  rcases c with ⟨ps, s, k⟩
  simp only [read, delivered]
  induction ps generalizing s k with
  | nil => rfl
  | cons p ps ih =>
    cases p with
    | gap n =>
      by_cases hn : n = 0
      · subst hn
        simpa [readPieces, deliveredPieces, zeros] using ih s k
      · simp only [readPieces, if_neg hn, Yields, deliveredPieces, delivered, zeros,
          ← List.append_assoc, List.replicate_append_replicate]
        congr 2
        omega
    | stored n => exact yields_stored hmost ih
    | rest => exact yields_rest hmost ih

lemma Recut.delivered {c c' : Content} (h : c.Recut free c') : c.delivered = c'.delivered := by
  rcases c with ⟨ps, s, k⟩
  rcases c' with ⟨ps', s', k'⟩
  obtain ⟨hp, hk, hs⟩ := h
  dsimp only at hp hk hs
  subst hp hk
  simp only [Content.delivered]
  have hfollowed : ∀ (f : Source → Bytes) (k : ℕ) (t t' : Source.Taken), t.Recut free k t' →
      (∀ k u u', Source.Recut free k u u' → f u = f u') → t.followed f = t'.followed f := by
    intro f k t t' ht hf
    simp only [Source.Taken.followed, ← ht.data, ← ht.fault, hf _ _ _ ht.rest]
  suffices h : ∀ k s s', Source.Recut free k s s' → deliveredPieces ps s = deliveredPieces ps s' from
    h _ _ _ hs
  clear hs
  induction ps with
  | nil => exact fun _ _ _ _ => rfl
  | cons p ps ih =>
    intro k s s' hs
    cases p with
    | gap n => simp only [deliveredPieces, ih k s s' hs]
    | stored n => exact hfollowed _ k _ _ (hs.take (.inl rfl)) ih
    | rest => exact hfollowed _ k _ _ hs.drain ih

end Content

lemma copy_delivers {count : ℕ} {d d' : Device} {c c' : Content} {r : Copied} (hd : d.Accepts)
    (h : copy c.calls count d c = (d', c', r)) : d'.output = d.output ++ c.delivered := by
  induction hn : c.calls using Nat.strongRecOn generalizing count d c with
  | ind n ih =>
    have hex := Content.explains_read (show 0 < chunkSize by decide) c
    have hy := Content.yields_read (show 0 < chunkSize by decide) c
    rw [copy_eq] at h
    rcases hr : c.read chunkSize with ⟨b | _ | f, c₁⟩ <;> rw [hr] at hex hy h <;>
      simp only [Content.Yields] at hy h
    · obtain ⟨d₁, hw, hd₁, hout⟩ := hd.write b
      rw [hw] at h
      rw [ih _ (hn ▸ hex.2.2) hd₁ h rfl, hout, hy, List.append_assoc]
    · obtain ⟨rfl, -⟩ := Prod.mk.inj h
      rw [hy, List.append_nil]
    · simp only [Content.Explains] at hex
      split_ifs at hex hy h
      · rw [ih _ (hn ▸ hex.2) hd h rfl, hy]
      · obtain ⟨rfl, -⟩ := Prod.mk.inj h
        rw [hy, List.append_nil]

/-- How the writing of an entry has ended, on either side. Behind content that cannot be read
nothing is said of the archive. -/
structure Written.Recut (free : ℕ → Prop) (x x' : Device × Content × Copied) : Prop where
  device : x.1.Alike x'.1
  result : x.2.2 = x'.2.2
  content : (∀ m, x.2.2 ≠ .unreadable m) → x.2.1.Recut free x'.2.1

lemma copy_recut (count : ℕ) {d d' : Device} (h : d.Alike d') {c c' : Content}
    (hc : c.Recut free c') :
    Written.Recut free (copy c.calls count d c) (copy c'.calls count d' c') := by
  rcases hx : copy c.calls count d c with ⟨e, c₁, r⟩
  rcases hx' : copy c'.calls count d' c' with ⟨e', c₁', r'⟩
  obtain ⟨he, hno⟩ := copy_accepting h.accepts hx
  obtain ⟨he', hno'⟩ := copy_accepting h.accepts' hx'
  have hdevice : e.Alike e' :=
    ⟨he, he', by rw [copy_delivers h.accepts hx, copy_delivers h.accepts' hx', h.output, hc.delivered]⟩
  have hex := explains_copy hx
  have hex' := explains_copy hx'
  have hdrain := hc.drain
  cases r with
  | refused m => exact absurd rfl (hno m)
  | complete n =>
    obtain ⟨b, hb, rfl⟩ := hex
    cases r' with
    | refused m => exact absurd rfl (hno' m)
    | complete n' =>
      obtain ⟨b', hb', rfl⟩ := hex'
      rw [hb, hb'] at hdrain
      obtain ⟨rfl, hc₁⟩ : b = b' ∧ c₁.Recut free c₁' := by
        cases hdrain with
        | ok hrel => exact hrel
      exact ⟨hdevice, rfl, fun _ => hc₁⟩
    | unreadable m =>
      obtain ⟨f, hf, -⟩ := hex'
      rw [hb, hf] at hdrain
      cases hdrain
  | unreadable m =>
    obtain ⟨f, hf, rfl⟩ := hex
    cases r' with
    | refused m => exact absurd rfl (hno' m)
    | complete n' =>
      obtain ⟨b', hb', rfl⟩ := hex'
      rw [hf, hb'] at hdrain
      cases hdrain
    | unreadable m =>
      obtain ⟨f', hf', rfl⟩ := hex'
      rw [hf, hf'] at hdrain
      cases hdrain with
      | error => exact ⟨hdevice, rfl, fun hm => absurd rfl (hm _)⟩

lemma writeEntry_recut {d d' : Device} (h : d.Alike d') (hd : Header) (p : String)
    (records : List Pax.Record) {c c' : Content} (hc : c.Recut free c') :
    Written.Recut free (writeEntry d hd p records c) (writeEntry d' hd p records c') := by
  obtain ⟨e, e', hw, hw', he⟩ := h.writeAll (frontCalls hd p records).1
  rw [writeEntry_eq, writeEntry_eq, hw, hw']
  cases (frontCalls hd p records).2 with
  | some err => exact ⟨he, rfl, fun _ => hc⟩
  | none =>
    have hcopy := copy_recut 0 he hc
    rcases hx : copy c.calls 0 e c with ⟨d₁, c₁, r⟩
    rcases hx' : copy c'.calls 0 e' c' with ⟨d₁', c₁', r'⟩
    rw [hx, hx'] at hcopy
    obtain ⟨hd₁, hr, hc₁⟩ := hcopy
    dsimp only at hd₁ hc₁ hr
    subst hr
    simp only [hx, hx']
    cases r with
    | complete n =>
      obtain ⟨d₂, d₂', hz, hz', hd₂⟩ := hd₁.write (zeros (padding n))
      simp only [padCopied, hz, hz']
      exact ⟨hd₂, rfl, fun _ => hc₁ (by simp)⟩
    | refused m => exact ⟨hd₁, rfl, hc₁⟩
    | unreadable m => exact ⟨hd₁, rfl, hc₁⟩

lemma carriedRecords_recut (e : Entry) {c c' : Content} (hc : c.Recut free c') :
    Outcomes (fun u v => u.1 = v.1 ∧ u.2.Recut free v.2) (e.carriedRecords c)
      (e.carriedRecords c') := by
  rw [Entry.carriedRecords, Entry.carriedRecords]
  cases e.pax with
  | some data => exact .bind_same _ fun records => .ok ⟨rfl, hc⟩
  | none =>
    dsimp only
    split_ifs
    · refine (hc.drain.mapError _).bind ?_
      rintro ⟨b, c₁⟩ ⟨b', c₁'⟩ ⟨rfl, hc₁⟩
      exact .bind_same _ fun records => .ok ⟨rfl, hc₁⟩
    · exact .ok ⟨rfl, hc⟩

end Tar

variable {free : ℕ → Prop}

/-- The next states are alike, and what is left of the content is cut anew. -/
structure Step.Recut (free : ℕ → Prop) (x x' : Step) : Prop where
  state : x.1.Alike x'.1
  content : Outcomes (Content.Recut free) x.2 x'.2

lemma settle_recut (i n : ℕ) (p : String) {s s' : WalkState} (hs : s.Alike s') {c c' : Content}
    {r : Copied} (hc : (∀ m, r ≠ .unreadable m) → c.Recut free c') :
    Step.Recut free (settle i p n s c r) (settle i p n s' c' r) := by
  obtain ⟨ha, hs⟩ := hs
  generalize s'.archive = a at ha hs
  subst hs
  cases r with
  | complete k =>
    simp only [settle]
    split_ifs
    · exact ⟨⟨ha, rfl⟩, .error _⟩
    · exact ⟨⟨ha, rfl⟩, .ok (hc (by simp))⟩
  | refused m => exact ⟨⟨ha, rfl⟩, .ok (hc (by simp))⟩
  | unreadable m => exact ⟨⟨ha, rfl⟩, .error _⟩

lemma take_recut (i : ℕ) (p : String) (e : Entry) {s s' : WalkState} (hs : s.Alike s')
    {c c' : Content} (hc : c.Recut free c') :
    Step.Recut free (take i p e s c) (take i p e s' c') := by
  have hrecords := carriedRecords_recut e hc
  rcases hx : e.carriedRecords c with err | ⟨records, c₁⟩ <;>
    rcases hx' : e.carriedRecords c' with err' | ⟨records', c₁'⟩ <;> rw [hx, hx'] at hrecords <;>
    cases hrecords
  · simp only [take, hx, hx']
    obtain ⟨ha, hs⟩ := hs
    generalize s'.archive = a at ha hs
    subst hs
    exact ⟨⟨ha, rfl⟩, .error _⟩
  · rename_i h
    obtain ⟨hr, hc₁⟩ := h
    dsimp only at hr hc₁
    subst hr
    have hwritten := writeEntry_recut hs.archive.device e.header p records hc₁
    rcases hw : writeEntry s.archive.device e.header p records c₁ with ⟨d, c₂, r⟩
    rcases hw' : writeEntry s'.archive.device e.header p records c₁' with ⟨d', c₂', r'⟩
    rw [hw, hw'] at hwritten
    obtain ⟨hd, hr, hc₂⟩ := hwritten
    dsimp only at hd hc₂ hr
    subst hr
    rw [take_eq hx (append_eq.mpr ⟨d, hw, rfl⟩), take_eq hx' (append_eq.mpr ⟨d', hw', rfl⟩)]
    obtain ⟨ha, hs⟩ := hs
    generalize s'.archive = a at ha hs
    subst hs
    refine settle_recut i e.size p ⟨⟨hd, ha.label, ?_⟩, rfl⟩ hc₂
    simp only [WalkState.asked, List.map_cons, ha.history, Attempt.outline]

end LayerPick
