import LayerPick.Proofs.MemberReading

/-!
# Writing an entry

What an entry puts before its content is a row of calls that does not hang on the device:
`frontCalls`. The content is copied behind it and filled up to a block. How this ends is told by
`Copied.Explains`: whatever was refused, the content left over stands somewhere between where it
was and its end.
-/
namespace LayerPick

namespace Device

lemma writeAll_append (d : Device) (xs ys : List Bytes) :
    d.writeAll (xs ++ ys) =
      match d.writeAll xs with
      | (d', none) => d'.writeAll ys
      | (d', some m) => (d', some m) := by
  induction xs generalizing d with
  | nil => rfl
  | cons x xs ih =>
    simp only [List.cons_append, writeAll]
    rcases d.write x with ⟨d₁, _ | m⟩
    · exact ih d₁
    · rfl

end Device

namespace Tar

/-- The calls before the content of an entry, and why its header does not take its path. -/
def frontCalls (h : Header) (p : String) (records : List Pax.Record) :
    List Bytes × Option PathError :=
  let calls := (if records.isEmpty then [] else extendedCalls records) ++ (placePath h p).1
  match (placePath h p).2.2 with
  | some e => (calls, some e)
  | none => (calls ++ [(placePath h p).2.1.withChecksum.toBytes], none)

/-- A path goes into a member of its own only if the header is then written. -/
lemma placePath_before (h : Header) (p : String) :
    (placePath h p).1 = [] ∨
      (placePath h p).1 = longNameCalls (Utf8.encode p) ∧ (placePath h p).2.2 = none := by
  unfold placePath
  rcases h.setPath p with ⟨h₁, _ | e₁⟩
  · exact .inl rfl
  · simp only
    by_cases hl : (Utf8.encode p).length < 100
    · rw [if_pos hl]
      exact .inl rfl
    · rw [if_neg hl]
      rcases h₁.setCutPath (beginning 100 p) with ⟨h₂, _ | e₂⟩
      · exact .inr ⟨rfl, rfl⟩
      · exact .inl rfl

lemma frontCalls_snd (h : Header) (p : String) (records : List Pax.Record) :
    (frontCalls h p records).2 = (placePath h p).2.2 := by
  rcases hp : placePath h p with ⟨before, h', _ | e⟩ <;> simp [frontCalls, hp]

lemma frontCalls_records (h : Header) (p : String) (records : List Pax.Record) :
    ∃ calls, (frontCalls h p records).1 =
      (if records.isEmpty then [] else extendedCalls records) ++ calls := by
  rcases hp : placePath h p with ⟨before, h', _ | e⟩
  · exact ⟨before ++ [h'.withChecksum.toBytes], by simp [frontCalls, hp]⟩
  · exact ⟨before, by simp [frontCalls, hp]⟩

lemma frontCalls_placed {h : Header} {p : String} {records : List Pax.Record}
    (hp : (frontCalls h p records).2 = none) :
    (frontCalls h p records).1 = (if records.isEmpty then [] else extendedCalls records) ++
      ((placePath h p).1 ++ [(placePath h p).2.1.withChecksum.toBytes]) := by
  rw [frontCalls_snd] at hp
  simp [frontCalls, hp]

/-- Fills copied content up to a block. -/
def padCopied : Device × Content × Copied → Device × Content × Copied
  | (d, c, .complete n) =>
    match d.write (zeros (padding n)) with
    | (d, some m) => (d, c, .refused m)
    | (d, none) => (d, c, .complete n)
  | x => x

lemma writeEntry_eq (d : Device) (h : Header) (p : String) (records : List Pax.Record)
    (c : Content) :
    writeEntry d h p records c =
      match d.writeAll (frontCalls h p records).1 with
      | (d', some m) => (d', c, .refused m)
      | (d', none) =>
        match (frontCalls h p records).2 with
        | some e => (d', c, .refused e.message)
        | none => padCopied (copy c.calls 0 d' c) := by
  rcases hp : placePath h p with ⟨before, h', _ | e⟩
  · simp only [writeEntry, frontCalls, hp, Device.writeAll_append]
    rcases d.writeAll (if records.isEmpty then [] else extendedCalls records) with ⟨d₁, _ | m⟩
    · simp only
      rcases d₁.writeAll before with ⟨d₂, _ | m⟩
      · simp only [Device.writeAll]
        rcases d₂.write h'.withChecksum.toBytes with ⟨d₃, _ | m⟩
        · simp only
          rcases copy c.calls 0 d₃ c with ⟨d₄, c', n | m | m⟩ <;> rfl
        · rfl
      · rfl
    · rfl
  · simp only [writeEntry, frontCalls, hp, Device.writeAll_append]
    rcases d.writeAll (if records.isEmpty then [] else extendedCalls records) with ⟨d₁, _ | m⟩
    · rcases hb : d₁.writeAll before with ⟨d₂, _ | m⟩ <;> simp only [hb]
    · rfl

lemma writeEntry_cases {d d' : Device} {h : Header} {p : String} {records : List Pax.Record}
    {c c' : Content} {r : Copied} (hw : writeEntry d h p records c = (d', c', r)) :
    (c' = c ∧ ∃ m, r = .refused m) ∨
      ∃ d₁ d₂ r₁, copy c.calls 0 d₁ c = (d₂, c', r₁) ∧
        (r = r₁ ∨ ∃ n m, r₁ = .complete n ∧ r = .refused m) := by
  rw [writeEntry_eq] at hw
  rcases hd : d.writeAll (frontCalls h p records).1 with ⟨d₁, _ | m⟩ <;> rw [hd] at hw
  · simp only at hw
    rcases he : (frontCalls h p records).2 with _ | e <;> rw [he] at hw
    · right
      simp only at hw
      rcases hc : copy c.calls 0 d₁ c with ⟨d₂, c₂, r₁⟩
      refine ⟨d₁, d₂, r₁, ?_⟩
      rw [hc] at hw
      cases r₁ with
      | complete n =>
        simp only [padCopied] at hw
        rcases hz : d₂.write (zeros (padding n)) with ⟨d₃, _ | m⟩ <;> rw [hz] at hw <;>
          obtain ⟨-, rfl, rfl⟩ := by simpa only [Prod.mk.injEq] using hw
        · exact ⟨hc, .inl rfl⟩
        · exact ⟨hc, .inr ⟨n, m, rfl, rfl⟩⟩
      | refused m =>
        obtain ⟨-, rfl, rfl⟩ := by simpa only [padCopied, Prod.mk.injEq] using hw
        exact ⟨hc, .inl rfl⟩
      | unreadable m =>
        obtain ⟨-, rfl, rfl⟩ := by simpa only [padCopied, Prod.mk.injEq] using hw
        exact ⟨hc, .inl rfl⟩
    · obtain ⟨-, rfl, rfl⟩ := by simpa only [Prod.mk.injEq] using hw
      exact .inl ⟨rfl, _, rfl⟩
  · obtain ⟨-, rfl, rfl⟩ := by simpa only [Prod.mk.injEq] using hw
    exact .inl ⟨rfl, _, rfl⟩

lemma explains_writeEntry {d d' : Device} {h : Header} {p : String} {records : List Pax.Record}
    {c c' : Content} {r : Copied} (hc : c.IsBounded)
    (hw : writeEntry d h p records c = (d', c', r)) : r.Explains 0 c c' := by
  rcases writeEntry_cases hw with ⟨rfl, m, rfl⟩ | ⟨d₁, d₂, r₁, hcopy, rfl | ⟨n, m, rfl, rfl⟩⟩
  · exact ⟨[], by simp⟩
  · exact explains_copy hcopy
  · obtain ⟨b, hb, -⟩ := explains_copy hcopy
    exact ⟨b, by rw [hb, (Content.drain_leaves hc hb).2]; simp⟩

lemma writeEntry_leaves {d d' : Device} {h : Header} {p : String} {records : List Pax.Record}
    {c c' : Content} {r : Copied} (hc : c.IsBounded)
    (hw : writeEntry d h p records c = (d', c', r)) : c.Leaves c' := by
  rcases writeEntry_cases hw with ⟨rfl, -⟩ | ⟨d₁, d₂, r₁, hcopy, -⟩
  · exact hc.leaves
  · have h := Content.copy_leaves 0 d₁ hc
    rw [hcopy] at h
    exact h

end Tar

end LayerPick
