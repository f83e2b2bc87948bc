import LayerPick.Proofs.EntryWriting
import LayerPick.Proofs.HeaderFields

/-!
# What writing leaves on a device

A call that is taken is behind the output, a call that is refused has left nothing. So an entry that
is complete is behind the output as a whole. Of any other entry there is nothing, or there is a
header with what may have come behind it.
-/
namespace LayerPick

namespace Device

variable {d d' : Device}

lemma output_write {b : Bytes} {r : Option String} (h : d.write b = (d', r)) :
    d'.output = if r = none then d.output ++ b else d.output := by
  unfold write at h
  by_cases hb : b.isEmpty = true
  · rw [if_pos hb] at h
    obtain ⟨rfl, rfl⟩ := Prod.mk.inj h
    simp [List.isEmpty_iff.mp hb]
  · rw [if_neg hb] at h
    cases hr : d.refuses d.calls b with
    | none =>
      rw [hr] at h
      obtain ⟨rfl, rfl⟩ := Prod.mk.inj h
      simp [output]
    | some m =>
      rw [hr] at h
      obtain ⟨rfl, rfl⟩ := Prod.mk.inj h
      simp [output]

/-- Of a row of calls the first ones are taken, and all of them if none is refused. -/
lemma output_writeAll {calls : List Bytes} {r : Option String} (h : d.writeAll calls = (d', r)) :
    ∃ k, d'.output = d.output ++ (calls.take k).flatten ∧ (r = none → k = calls.length) := by
  induction calls generalizing d with
  | nil =>
    obtain ⟨rfl, rfl⟩ := Prod.mk.inj h
    exact ⟨0, by simp⟩
  | cons b bs ih =>
    rcases hw : d.write b with ⟨d₁, _ | m⟩ <;> simp only [writeAll, hw] at h
    · obtain ⟨k, hk, hn⟩ := ih h
      have hb := output_write hw
      rw [if_pos rfl] at hb
      refine ⟨k + 1, ?_, fun hr => by simp [hn hr]⟩
      rw [hk, hb, List.take_succ_cons, List.flatten_cons, List.append_assoc]
    · obtain ⟨rfl, rfl⟩ := Prod.mk.inj h
      have hb := output_write hw
      exact ⟨0, by simpa using hb, by simp⟩

def Accepts (d : Device) : Prop := ∀ k b, d.refuses k b = none

lemma accepts_accepting : accepting.Accepts := fun _ _ => rfl

lemma Accepts.write (hd : d.Accepts) (b : Bytes) :
    ∃ d', d.write b = (d', none) ∧ d'.Accepts ∧ d'.output = d.output ++ b := by
  have hw : (d.write b).2 = none ∧ (d.write b).1.Accepts := by
    unfold Device.write
    by_cases hb : b.isEmpty = true
    · rw [if_pos hb]
      exact ⟨rfl, hd⟩
    · rw [if_neg hb, hd d.calls b]
      exact ⟨rfl, hd⟩
  rcases h : d.write b with ⟨d', r⟩
  rw [h] at hw
  obtain ⟨rfl, hd'⟩ := hw
  exact ⟨d', rfl, hd', by simpa using output_write h⟩

lemma Accepts.writeAll (hd : d.Accepts) (calls : List Bytes) :
    ∃ d', d.writeAll calls = (d', none) ∧ d'.Accepts ∧ d'.output = d.output ++ calls.flatten := by
  induction calls generalizing d with
  | nil => exact ⟨d, rfl, hd, by simp⟩
  | cons b bs ih =>
    obtain ⟨d₁, hw, hd₁, hb⟩ := hd.write b
    obtain ⟨d₂, hw₂, hd₂, hbs⟩ := ih hd₁
    refine ⟨d₂, ?_, hd₂, ?_⟩
    · simp only [Device.writeAll, hw]
      exact hw₂
    · rw [hbs, hb, List.flatten_cons, List.append_assoc]

end Device

namespace Tar

lemma output_copy {count : ℕ} {d d' : Device} {c c' : Content} {r : Copied}
    (h : copy c.calls count d c = (d', c', r)) :
    ∃ b, d'.output = d.output ++ b ∧ ∀ n, r = .complete n → c.drain = .ok (b, c') := by
  induction hn : c.calls using Nat.strongRecOn generalizing count d c with
  | ind n ih =>
    have hex := Content.explains_read (show 0 < chunkSize by decide) c
    rw [copy_eq] at h
    rcases hr : c.read chunkSize with ⟨b | _ | f, c₁⟩ <;> rw [hr] at hex h <;> simp only at h
    · obtain ⟨-, hdrain, hlt⟩ := hex
      rcases hw : d.write b with ⟨d₁, _ | m⟩ <;> rw [hw] at h <;> simp only at h <;>
        have hb := Device.output_write hw
      · obtain ⟨b₁, hb₁, hc⟩ := ih _ (hn ▸ hlt) h rfl
        rw [if_pos rfl] at hb
        refine ⟨b ++ b₁, by rw [hb₁, hb, List.append_assoc], fun k hk => ?_⟩
        rw [hdrain, hc k hk]
        rfl
      · obtain ⟨rfl, rfl, rfl⟩ := by simpa only [Prod.mk.injEq] using h
        exact ⟨[], by simpa using hb, by simp⟩
    · obtain ⟨rfl, rfl, rfl⟩ := by simpa only [Prod.mk.injEq] using h
      exact ⟨[], by simp, fun _ _ => hex⟩
    · simp only [Content.Explains] at hex
      split_ifs at hex h with hf
      · obtain ⟨b₁, hb₁, hc⟩ := ih _ (hn ▸ hex.2) h rfl
        exact ⟨b₁, hb₁, fun k hk => by rw [hex.1, hc k hk]⟩
      · obtain ⟨rfl, rfl, rfl⟩ := by simpa only [Prod.mk.injEq] using h
        exact ⟨[], by simp, by simp⟩

section Entry

variable {d d' : Device} {h : Header} {p : String} {rs : List Pax.Record} {c c' : Content}

/-- An entry that is complete is behind the output as a whole. -/
theorem output_complete {n : ℕ} (hw : writeEntry d h p rs c = (d', c', .complete n)) :
    (frontCalls h p rs).2 = none ∧ ∃ b, c.drain = .ok (b, c') ∧ n = b.length ∧
      d'.output = d.output ++ ((frontCalls h p rs).1.flatten ++ (b ++ zeros (padding n))) := by
  rw [writeEntry_eq] at hw
  rcases hf : d.writeAll (frontCalls h p rs).1 with ⟨d₁, _ | m⟩ <;> rw [hf] at hw <;>
    simp only at hw
  swap
  · simp at hw
  obtain ⟨k, hk, hall⟩ := Device.output_writeAll hf
  rw [hall rfl, List.take_length] at hk
  cases he : (frontCalls h p rs).2 with
  | some e => simp [he] at hw
  | none =>
    simp only [he] at hw
    rcases hc : copy c.calls 0 d₁ c with ⟨d₂, c₂, n₂ | m | m⟩ <;> rw [hc] at hw <;>
      simp only [padCopied] at hw
    · obtain ⟨b, hb, hdrain⟩ := output_copy hc
      obtain ⟨b', hb', hn⟩ := explains_copy hc
      rcases hz : d₂.write (zeros (padding n₂)) with ⟨d₃, _ | m⟩ <;> rw [hz] at hw <;>
        simp only [Prod.mk.injEq, Copied.complete.injEq, reduceCtorEq, and_false] at hw
      obtain ⟨rfl, rfl, rfl⟩ := hw
      have hbb : b = b' := by
        have := (hdrain _ rfl).symm.trans hb'
        simpa using this
      subst hbb
      have hout := Device.output_write hz
      rw [if_pos rfl] at hout
      refine ⟨rfl, b, hdrain _ rfl, by omega, ?_⟩
      rw [hout, hb, hk]
      simp only [List.append_assoc]
    · simp at hw
    · simp at hw

/-- Where a path cannot be written, only records come before the failure. -/
lemma frontCalls_error {e : PathError} (he : (frontCalls h p rs).2 = some e) :
    (frontCalls h p rs).1 = if rs.isEmpty then [] else extendedCalls rs := by
  have hbefore := placePath_before h p
  rcases hplace : placePath h p with ⟨before, h', _ | e'⟩
  · simp [frontCalls, hplace] at he
  · rw [hplace] at hbefore
    obtain rfl : before = [] := by simpa using hbefore
    simp [frontCalls, hplace]

lemma frontCalls_head {first : Bytes} {calls : List Bytes}
    (hf : (frontCalls h p rs).1 = first :: calls) :
    ∃ h₀ : Header, first = h₀.withChecksum.toBytes := by
  cases hrs : rs.isEmpty with
  | false =>
    refine ⟨extendedHeader (Pax.encode rs).length, ?_⟩
    rcases hplace : placePath h p with ⟨before, h', _ | e⟩ <;>
      simp only [frontCalls, hplace, hrs, Bool.false_eq_true, if_false, extendedCalls, memberCalls,
        List.cons_append, List.cons.injEq] at hf <;>
      rw [withChecksum_extendedHeader, ← hf.1]
  | true =>
    have hbefore := placePath_before h p
    rcases hplace : placePath h p with ⟨before, h', _ | e⟩ <;> rw [hplace] at hbefore <;>
      simp only [frontCalls, hplace, hrs, if_true, List.nil_append] at hf hbefore
    · rcases hbefore with rfl | ⟨rfl, -⟩
      · exact ⟨h', (List.cons.inj hf).1.symm⟩
      · refine ⟨longNameHeader (Utf8.encode p).length, ?_⟩
        rw [withChecksum_longNameHeader]
        exact (List.cons.inj hf).1.symm
    · simp at hbefore
      simp [hbefore] at hf

lemma frontCalls_ne_nil (he : (frontCalls h p rs).2 = none) : (frontCalls h p rs).1 ≠ [] := by
  rw [frontCalls_placed he]
  simp

lemma output_padCopied {x : Device × Content × Copied} :
    ∃ b, (padCopied x).1.output = x.1.output ++ b := by
  rcases x with ⟨d, c, n | m | m⟩
  · simp only [padCopied]
    rcases hz : d.write (zeros (padding n)) with ⟨d', _ | m⟩ <;> have hb := Device.output_write hz
    · exact ⟨_, by simpa using hb⟩
    · exact ⟨[], by simpa using hb⟩
  · exact ⟨[], by simp [padCopied]⟩
  · exact ⟨[], by simp [padCopied]⟩

/-- Behind the first calls there is more only if all of them were taken. -/
lemma output_front {r : Copied} (hw : writeEntry d h p rs c = (d', c', r)) :
    ∃ k more, d'.output = d.output ++ (((frontCalls h p rs).1.take k).flatten ++ more) ∧
      (more ≠ [] → k = (frontCalls h p rs).1.length ∧ (frontCalls h p rs).2 = none) := by
  rw [writeEntry_eq] at hw
  rcases hf : d.writeAll (frontCalls h p rs).1 with ⟨d₁, _ | m⟩ <;> rw [hf] at hw <;>
    simp only at hw <;> obtain ⟨k, hk, hall⟩ := Device.output_writeAll hf
  · cases he : (frontCalls h p rs).2 with
    | some e =>
      simp only [he] at hw
      obtain ⟨rfl, -⟩ := Prod.mk.inj hw
      exact ⟨k, [], by simpa using hk, by simp⟩
    | none =>
      simp only [he] at hw
      rcases hc : copy c.calls 0 d₁ c with ⟨d₂, c₂, r₂⟩
      obtain ⟨b, hb, -⟩ := output_copy hc
      obtain ⟨b', hb'⟩ := output_padCopied (x := (d₂, c₂, r₂))
      rw [hc] at hw
      rw [hw] at hb'
      refine ⟨k, b ++ b', ?_, fun _ => ⟨hall rfl, rfl⟩⟩
      simp only at hb'
      rw [hb', hb, hk]
      simp only [List.append_assoc]
  · obtain ⟨rfl, -⟩ := Prod.mk.inj hw
    exact ⟨k, [], by simpa using hk, by simp⟩

/-- Whatever becomes of an entry, it has left nothing or a header with something behind it. -/
theorem output_writeEntry {r : Copied} (hw : writeEntry d h p rs c = (d', c', r)) :
    d'.output = d.output ∨
      ∃ (h₀ : Header) (more : Bytes), d'.output = d.output ++ (h₀.withChecksum.toBytes ++ more) := by
  obtain ⟨k, more, hout, hmore⟩ := output_front hw
  by_cases hk : (frontCalls h p rs).1.take k = []
  · have : more = [] := by
      by_contra hne
      obtain ⟨rfl, he⟩ := hmore hne
      rw [List.take_length] at hk
      exact frontCalls_ne_nil he hk
    left
    simpa [hk, this] using hout
  · obtain ⟨first, calls, hf⟩ := List.exists_cons_of_ne_nil hk
    obtain ⟨rest, hrest⟩ : ∃ rest, (frontCalls h p rs).1 = first :: rest := by
      have hpre := List.take_prefix k (frontCalls h p rs).1
      rw [hf] at hpre
      obtain ⟨t, ht⟩ := hpre
      exact ⟨calls ++ t, by rw [← ht, List.cons_append]⟩
    obtain ⟨h₀, rfl⟩ := frontCalls_head hrest
    right
    refine ⟨h₀, calls.flatten ++ more, ?_⟩
    rw [hout, hf, List.flatten_cons, List.append_assoc]

lemma copy_accepting {tries count : ℕ} (hd : d.Accepts) {r : Copied}
    (hc : copy tries count d c = (d', c', r)) : d'.Accepts ∧ ∀ m, r ≠ .refused m := by
  induction tries generalizing count d c with
  | zero =>
    obtain ⟨rfl, -, rfl⟩ := by simpa only [copy, Prod.mk.injEq] using hc
    exact ⟨hd, by simp⟩
  | succ tries ih =>
    rcases hr : c.read chunkSize with ⟨b | _ | f, c₁⟩ <;> simp only [copy, hr] at hc
    · obtain ⟨d₁, hw, hd₁, -⟩ := hd.write b
      rw [hw] at hc
      exact ih hd₁ hc
    · obtain ⟨rfl, -, rfl⟩ := by simpa only [Prod.mk.injEq] using hc
      exact ⟨hd, by simp⟩
    · by_cases hf : f.transient = true
      · rw [if_pos hf] at hc
        exact ih hd hc
      · rw [if_neg hf] at hc
        obtain ⟨rfl, -, rfl⟩ := by simpa only [Prod.mk.injEq] using hc
        exact ⟨hd, by simp⟩

/-- On a device that takes everything an entry fails only at its path, or else its header has been
written. -/
theorem writeEntry_accepting (hd : d.Accepts) {r : Copied}
    (hw : writeEntry d h p rs c = (d', c', r)) :
    d'.Accepts ∧
      ((∃ e : PathError, (frontCalls h p rs).2 = some e ∧ r = .refused e.message ∧
          d'.output = d.output ++ (frontCalls h p rs).1.flatten) ∨
        (frontCalls h p rs).2 = none ∧ (∀ m, r ≠ .refused m) ∧
          ∃ more, d'.output = d.output ++ ((frontCalls h p rs).1.flatten ++ more)) := by
  obtain ⟨d₁, hf, hd₁, hout⟩ := hd.writeAll (frontCalls h p rs).1
  rw [writeEntry_eq, hf] at hw
  cases he : (frontCalls h p rs).2 with
  | some e =>
    simp only [he, Prod.mk.injEq] at hw
    obtain ⟨rfl, -, rfl⟩ := hw
    exact ⟨hd₁, .inl ⟨e, rfl, rfl, hout⟩⟩
  | none =>
    simp only [he] at hw
    rcases hc : copy c.calls 0 d₁ c with ⟨d₂, c₂, r₂⟩
    obtain ⟨hd₂, hno⟩ := copy_accepting hd₁ hc
    obtain ⟨b, hb, -⟩ := output_copy hc
    rw [hc] at hw
    have hfront : ∀ d₃ : Device, (∃ b', d₃.output = d₂.output ++ b') →
        ∃ more, d₃.output = d.output ++ ((frontCalls h p rs).1.flatten ++ more) := by
      rintro d₃ ⟨b', hb'⟩
      exact ⟨b ++ b', by rw [hb', hb, hout]; simp only [List.append_assoc]⟩
    cases r₂ with
    | complete n =>
      obtain ⟨d₃, hz, hd₃, hpad⟩ := hd₂.write (zeros (padding n))
      simp only [padCopied, hz, Prod.mk.injEq] at hw
      obtain ⟨rfl, -, rfl⟩ := hw
      exact ⟨hd₃, .inr ⟨rfl, by simp, hfront _ ⟨_, hpad⟩⟩⟩
    | refused m => exact absurd rfl (hno m)
    | unreadable m =>
      simp only [padCopied, Prod.mk.injEq] at hw
      obtain ⟨rfl, -, rfl⟩ := hw
      exact ⟨hd₂, .inr ⟨rfl, by simp, hfront _ ⟨[], by simp⟩⟩⟩

end Entry

end Tar

end LayerPick
