import LayerPick.Proofs.CutWalk
import LayerPick.Proofs.GzipMembers

/-!
# Layers that are cut off

What is unpacked from the beginning of a gzip file is mostly the beginning of what the file holds,
with an error behind it. Where the file is corrupt it may be more: the file takes an unfinished
window with it when it is found to be so. In both cases the shorter stream ends with an error. The
beginning of a layer that is not gzip has no error behind it, so whether the cut shows is up to the
archive.
-/
namespace LayerPick

namespace Gzip

lemma skipExtra_append {b r : Bytes} (h : skipExtra b = .ok r) (t : Bytes) :
    skipExtra (b ++ t) = .ok (r ++ t) := by
  simp only [skipExtra] at h ⊢
  split_ifs at h with hl
  obtain rfl := Except.ok.inj h
  have htake : (b ++ t).take 2 = b.take 2 := List.take_append_of_le_length (by omega)
  rw [htake, if_neg (by rw [List.length_append]; omega),
    List.drop_append_of_le_length (by omega)]

lemma skipText_append {b r : Bytes} (h : skipText b = .ok r) (t : Bytes) :
    skipText (b ++ t) = .ok (r ++ t) := by
  simp only [skipText] at h ⊢
  split_ifs at h with hlong hl
  obtain rfl := Except.ok.inj h
  have htext : (b ++ t).takeWhile (fun x => decide (x ≠ 0)) =
      b.takeWhile fun x => decide (x ≠ 0) := by
    rw [List.takeWhile_append, if_neg (by omega)]
  rw [htext, if_neg hlong, if_neg (by rw [List.length_append]; omega),
    List.drop_append_of_le_length (by omega)]

lemma skipHeaderChecksum_append {whole b r : Bytes} (h : skipHeaderChecksum whole b = .ok r)
    (t : Bytes) : skipHeaderChecksum (whole ++ t) (b ++ t) = .ok (r ++ t) := by
  simp only [skipHeaderChecksum] at h ⊢
  split_ifs at h with hl hsum
  obtain rfl := Except.ok.inj h
  have hbefore : (whole ++ t).take ((whole ++ t).length - (b ++ t).length) =
      whole.take (whole.length - b.length) := by
    rw [List.length_append, List.length_append, Nat.add_sub_add_right,
      List.take_append_of_le_length (Nat.sub_le ..)]
  have htake : (b ++ t).take 2 = b.take 2 := List.take_append_of_le_length (by omega)
  rw [if_neg (by rw [List.length_append]; omega), hbefore, htake, if_pos hsum,
    List.drop_append_of_le_length (by omega)]

/-- An optional part of a header, and the parts behind it. -/
lemma skipPart_append {present : Bool} {skip f g : Bytes → Except Error Bytes} {b r t : Bytes}
    (hskip : ∀ {b r : Bytes}, skip b = .ok r → ∀ t, skip (b ++ t) = .ok (r ++ t))
    (hfg : ∀ b r, f b = .ok r → g (b ++ t) = .ok (r ++ t))
    (h : (if present = true then skip b >>= f else f b) = .ok r) :
    (if present = true then skip (b ++ t) >>= g else g (b ++ t)) = .ok (r ++ t) := by
  split_ifs at h ⊢
  · obtain ⟨r₁, hr₁, hf⟩ := Tar.bind_ok.mp h
    exact Tar.bind_ok.mpr ⟨r₁ ++ t, hskip hr₁ t, hfg _ _ hf⟩
  · exact hfg _ _ h

/-- A header that is there is skipped the same before more bytes. -/
lemma skipHeader_append {b r : Bytes} (h : skipHeader b = .ok r) (t : Bytes) :
    skipHeader (b ++ t) = .ok (r ++ t) := by
  simp only [skipHeader, Tar.ok_bind, Tar.throw_eq, Tar.error_bind] at h ⊢
  by_cases hlen : b.length < 10
  · simp [hlen] at h
  have hlen' : ¬(b ++ t).length < 10 := by
    rw [List.length_append]
    omega
  have hhead (k : ℕ) (hk : k < 10) : ((b ++ t).drop k).headD 0 = (b.drop k).headD 0 := by
    rw [List.drop_append_of_le_length (by omega)]
    obtain ⟨x, xs, hx⟩ := List.exists_cons_of_ne_nil
      (show b.drop k ≠ [] from List.ne_nil_of_length_pos (by rw [List.length_drop]; omega))
    rw [hx]
    rfl
  rw [if_neg hlen] at h
  rw [if_neg hlen', isGzip_append (by omega), hhead 2 (by decide), hhead 3 (by decide),
    List.drop_append_of_le_length (by omega)]
  by_cases hstart : (!isGzip b || (b.drop 2).headD 0 != 8 || hasFlag ((b.drop 3).headD 0) 0xe0) =
      true
  · rw [if_pos hstart] at h
    simp at h
  rw [if_neg hstart] at h ⊢
  refine skipPart_append skipExtra_append (fun b₁ r₁ h₁ => ?_) h
  refine skipPart_append skipText_append (fun b₂ r₂ h₂ => ?_) h₁
  refine skipPart_append skipText_append (fun b₃ r₃ h₃ => ?_) h₂
  split_ifs at h₃ ⊢
  · exact skipHeaderChecksum_append h₃ t
  · rw [Except.ok.inj h₃]

/-- The data end with an error, and are the beginning of other data. -/
def Contents.BreaksOff (c c' : Contents) : Prop := c.error ≠ none ∧ c.data <+: c'.data

/-- What is had of the beginning of a gzip file is all there is, or the beginning of it. If not, the
file is corrupt, and less is had of it. -/
lemma read_append (b t : Bytes) :
    read (b ++ t) = read b ∨ (read b).BreaksOff (read (b ++ t)) ∨
      (read (b ++ t)).BreaksOff (read b) := by
  rcases hskip : skipHeader b with err | r
  · right
    left
    simp only [read, hskip]
    exact ⟨by simp, List.nil_prefix⟩
  have hbecomes := inflate_becomes r t
  simp only [read, hskip, skipHeader_append hskip t]
  rcases hr : inflate r with ⟨out, state⟩
  rw [hr] at hbecomes
  rcases state with (_ | _) | s <;> simp only [Inflation.Becomes] at hbecomes
  · rcases hrt : inflate (r ++ t) with ⟨out', state'⟩
    rw [hrt] at hbecomes
    rcases state' with (_ | _) | s'
    · exact .inr (.inl ⟨by simp, hbecomes⟩)
    · rcases List.prefix_or_prefix_of_prefix hbecomes
        (List.take_prefix ((out'.size - 1) / windowSize * windowSize) out'.toList) with h | h
      · exact .inr (.inl ⟨by simp, h⟩)
      · exact .inr (.inr ⟨by simp, h⟩)
    · exact .inr (.inl ⟨by simp, hbecomes⟩)
  · rw [hbecomes]
    exact .inl rfl
  · rw [hbecomes]
    simp only [Bits.align, Bits.before]
    cases hcheck : checkTrailer out.toList s.rest with
    | none =>
      rw [checkTrailer_append hcheck]
      exact .inl rfl
    | some err => exact .inr (.inl ⟨by simp, List.prefix_rfl⟩)

end Gzip

lemma gunzip_ofBytes (b : Bytes) :
    gunzip (.ofBytes b) = ⟨.bytes (Gzip.read b).data none ::
      ((Gzip.read b).error.map fun e => Event.fault (unpackingFault none e)).toList, none⟩ := by
  rw [gunzip, Source.data_ofBytes]
  rfl

lemma agree_begins {b b' : Bytes} (h : b' <+: b) (es es' : List Event) (d d' : Option String) :
    Source.Agree b'.length ⟨.bytes b' none :: es', d'⟩ ⟨.bytes b none :: es, d⟩ := by
  refine .within none es' es (Nat.le_refl _) h.length_le ?_
  rw [List.take_length]
  exact List.prefix_iff_eq_take.mp h

lemma sealed_gunzip {b : Bytes} (h : (Gzip.read b).error ≠ none) : (gunzip (.ofBytes b)).Sealed := by
  obtain ⟨e, he⟩ := Option.ne_none_iff_exists'.mp h
  refine ⟨[.bytes (Gzip.read b).data none], unpackingFault none e, ?_, ?_⟩
  · simp [gunzip_ofBytes, he]
  · cases e <;> rfl

lemma endsIn_gunzip {b b' : Bytes} (h : (Gzip.read b').BreaksOff (Gzip.read b)) :
    Tar.Reader.EndsIn (Gzip.read b').data.length (.ofSource (gunzip (.ofBytes b')))
      (.ofSource (gunzip (.ofBytes b))) := by
  obtain ⟨herr, hdata⟩ := h
  obtain ⟨e, he⟩ := Option.ne_none_iff_exists'.mp herr
  have hlength : (gunzip (.ofBytes b')).length = (Gzip.read b').data.length := by
    simp [gunzip_ofBytes, he, Source.length, Source.data, Event.data]
  refine ⟨⟨⟨rfl, rfl, ?_⟩, rfl, rfl⟩, ?_, ?_⟩
  · rw [gunzip_ofBytes, gunzip_ofBytes]
    exact agree_begins hdata _ _ _ _
  · exact Tar.Reader.holds_ofSource (by rw [hlength, Nat.zero_add])
  · exact Tar.Reader.not_runsOut_of_sealed (Tar.Reader.proper_ofSource _)
      (Tar.Reader.holds_ofSource (sealed_gunzip herr))

lemma agree_peeked {b b' : Bytes} (h : b' <+: b) : (peeked b').Agree b'.length (peeked b) := by
  obtain ⟨t, rfl⟩ := h
  rcases b' with _ | ⟨x, c⟩
  · exact .done _ _
  generalize hb : x :: c = b'
  have hevents (u : Bytes) (hu : u ≠ []) : (peeked u).events = .bytes (u.take peekSize) none ::
      if peekSize < u.length then [.bytes (u.drop peekSize) none] else [] := by
    obtain ⟨y, v, rfl⟩ := List.exists_cons_of_ne_nil hu
    rfl
  have hne : b' ≠ [] := hb ▸ List.cons_ne_nil _ _
  rw [Source.Agree, hevents b' hne, hevents (b' ++ t) (by simp [hne])]
  by_cases hlong : peekSize < b'.length
  · have hlong' : peekSize < (b' ++ t).length := by
      rw [List.length_append]
      omega
    have htake : (b' ++ t).take peekSize = b'.take peekSize :=
      List.take_append_of_le_length (by omega)
    have hdrop : (b' ++ t).drop peekSize = b'.drop peekSize ++ t :=
      List.drop_append_of_le_length (by omega)
    have hlen : b'.length = (b'.take peekSize).length + (b'.drop peekSize).length := by
      rw [← List.length_append, List.take_append_drop]
    rw [if_pos hlong, if_pos hlong', htake, hdrop, hlen]
    exact .bytes _ _ (agree_begins (List.prefix_append ..) [] [] none none)
  · have hwhole : b'.take peekSize = b' := List.take_of_length_le (by omega)
    rw [if_neg hlong, hwhole]
    refine agree_begins ?_ _ _ none none
    rw [List.take_append, hwhole]
    exact List.prefix_append ..

/-- The data `b` of a layer are cut to `b'`, and it shows: nothing is missing, or what is left does
not run out. -/
def ShowsCut (b b' : Bytes) : Prop :=
  b' = b ∨ ∀ name src, unpackedBlob name (.ofBytes b') = .ok src →
    ¬(Tar.Reader.ofSource src).RunsOut

lemma runsOut_nil : (Tar.Reader.ofSource (peeked [])).RunsOut := .here rfl ⟨_, _, rfl, rfl⟩

lemma next?_single (x : UInt8) :
    (Tar.Reader.ofSource (peeked [x])).next? = .error .incompleteBlock := rfl

/-- A layer that is cut so that it shows is paired with the whole layer. -/
lemma Layer.paired_of_prefix {b b' : Bytes} (name : String) (h : b' <+: b) (hs : ShowsCut b b') :
    Layer.Paired ⟨name, unpackedBlob name (.ofBytes b)⟩
      ⟨name, unpackedBlob name (.ofBytes b')⟩ := by
  refine ⟨rfl, fun src src' ho ho' => ?_⟩
  rcases hs with rfl | hs
  · obtain rfl := Except.ok.inj (ho.symm.trans ho')
    exact .inl (.inl rfl)
  have hn := hs name src' ho'
  obtain rfl := Except.ok.inj ((unpackedBlob_ofBytes name b).symm.trans ho)
  obtain rfl := Except.ok.inj ((unpackedBlob_ofBytes name b').symm.trans ho')
  obtain ⟨t, rfl⟩ := h
  rcases b' with _ | ⟨x, _ | ⟨y, c⟩⟩
  · exact absurd runsOut_nil hn
  · -- One byte does not tell whether the layer is gzip, but it is no header either.
    have hplain : Gzip.isGzip [x] = false := by simp [Gzip.isGzip]
    rw [hplain]
    exact .inr ⟨_, next?_single x⟩
  · left
    generalize hb : x :: y :: c = b' at hn ⊢
    have hlen : 2 ≤ b'.length := by simp [← hb]
    rw [Gzip.isGzip_append hlen]
    split_ifs at hn ⊢
    · rcases Gzip.read_append b' t with heq | hbreak | hbreak
      · rw [gunzip_ofBytes, gunzip_ofBytes, heq]
        exact .inl rfl
      · exact .inr ⟨_, .inr (endsIn_gunzip hbreak)⟩
      · exact .inr ⟨_, .inl (endsIn_gunzip hbreak)⟩
    · refine .inr ⟨b'.length, .inr ⟨⟨⟨rfl, rfl, agree_peeked (List.prefix_append ..)⟩, rfl, rfl⟩,
        Tar.Reader.holds_ofSource ?_, hn⟩⟩
      rw [Source.length, data_peeked, Nat.zero_add]

end LayerPick
