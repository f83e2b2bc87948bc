import LayerPick.Proofs.Footprints
import LayerPick.Proofs.GzipStored
import LayerPick.Proofs.WalkSteps

/-!
# Archives that a failure has left

An extraction that fails ends its archive all the same. On a device that takes everything, what is
then in the archive hangs on where it failed. Between entries there are the footprints of the
attempts. In the content of an entry, the header of that entry has been written, and the zeros that
end the archive are taken for the content that is missing.
-/
namespace LayerPick

open Tar

/-- Is the failure one of the content of an entry, which comes behind its header? -/
def Failure.breaksEntry : Failure → Bool
  | ⟨[.readLayerEntry _], .entryUnreadable _ _⟩ => true
  | ⟨[.readLayerEntry _], .entryTruncated _ _ _⟩ => true
  | _ => false

namespace Archive

/-- The device holds what the attempts have left. -/
structure IsIntact (a : Archive) : Prop where
  accepts : a.device.Accepts
  sound : ∀ x ∈ a.attempts, x.IsSound
  output : a.device.output = footprints a.attempts

/-- The last attempt has been broken off behind its first header. -/
structure IsBroken (a : Archive) : Prop where
  accepts : a.device.Accepts
  sound : ∀ x ∈ a.attempts.dropLast, x.IsSound
  output : ∃ (h : Header) (more : Bytes),
    a.device.output = footprints a.attempts.dropLast ++ (h.withChecksum.toBytes ++ more)

/-- What a failure leaves of an archive, or what a walk leaves that has not failed. -/
def IsLeftBy (a : Archive) (failure : Option Failure) : Prop :=
  if failure.any Failure.breaksEntry then a.IsBroken else a.IsIntact

lemma IsIntact.isLeftBy {a : Archive} (ha : a.IsIntact) {failure : Option Failure}
    (h : failure.any Failure.breaksEntry = false) : a.IsLeftBy failure := by
  unfold IsLeftBy
  rw [h]
  exact ha

lemma IsBroken.isLeftBy {a : Archive} (ha : a.IsBroken) {failure : Option Failure}
    (h : failure.any Failure.breaksEntry = true) : a.IsLeftBy failure := by
  unfold IsLeftBy
  rw [h]
  exact ha

lemma isIntact_new (label : String) : (new .accepting label).IsIntact :=
  ⟨Device.accepts_accepting, by simp [new, attempts], rfl⟩

section Append

variable {a a' : Archive} {h : Header} {p : String} {records : List Pax.Record} {c c' : Content}
  {r : Copied}

/-- Behind an attempt that has written its entry or failed at its path the archive is intact. -/
lemma IsIntact.append (ha : a.IsIntact) (hp : ∃ ns, (∀ n ∈ ns, Path.IsPlain n) ∧ p = Path.join ns)
    (hrecords : ∀ x ∈ records, x.IsCarried) (hd : h.describes = false)
    (hsize : ∀ n, r = .complete n → h.kind ≠ .sparse → announcedWith h records = .ok n)
    (hr : ∀ m, r ≠ .unreadable m) (happ : a.append h p records c = (a', c', r)) :
    a'.IsIntact := by
  obtain ⟨d, hw, rfl⟩ := append_eq.mp happ
  obtain ⟨hd', hends⟩ := writeEntry_accepting ha.accepts hw
  have hattempts : attempts ⟨d, a.label, ⟨⟨h, p, records, c⟩, r⟩ :: a.history⟩ =
      a.attempts ++ [⟨⟨h, p, records, c⟩, r⟩] := by
    simp [attempts]
  suffices hone : (⟨⟨h, p, records, c⟩, r⟩ : Attempt).IsSound ∧
      d.output = a.device.output ++ (⟨⟨h, p, records, c⟩, r⟩ : Attempt).footprint by
    refine ⟨hd', ?_, ?_⟩
    · rw [hattempts]
      intro x hx
      rcases List.mem_append.mp hx with hx | hx
      · exact ha.sound x hx
      · obtain rfl := List.mem_singleton.mp hx
        exact hone.1
    · rw [hattempts, hone.2, ha.output]
      simp [footprints]
  cases r with
  | complete n =>
    obtain ⟨hplaced, b, hb, rfl, hout⟩ := output_complete hw
    have hbytes : c.bytes = b := Content.bytes_of_drain hb
    refine ⟨⟨hp, hrecords, hd, iff_of_true hplaced rfl, fun _ hk => ?_⟩, ?_⟩
    · rw [hbytes]
      exact hsize _ rfl hk
    · rw [footprint_written rfl, hbytes]
      exact hout
  | refused m =>
    rcases hends with ⟨e, he, -, hout⟩ | ⟨-, hno, -⟩
    · refine ⟨⟨hp, hrecords, hd, iff_of_false (by simp [he]) (by simp [Attempt.isWritten]),
        by simp [Attempt.isWritten]⟩, ?_⟩
      rw [footprint_failed rfl, hout, frontCalls_error he]
    · exact absurd rfl (hno m)
  | unreadable m => exact absurd rfl (hr m)

/-- Behind an attempt whose content has failed there is a header. -/
lemma IsIntact.append_broken (ha : a.IsIntact) (hr : ∀ m, r ≠ .refused m)
    (happ : a.append h p records c = (a', c', r)) : a'.IsBroken := by
  obtain ⟨d, hw, rfl⟩ := append_eq.mp happ
  obtain ⟨hd', ⟨e, -, hrefused, -⟩ | ⟨hplaced, -, more, hout⟩⟩ :=
    writeEntry_accepting ha.accepts hw
  · exact absurd hrefused (hr _)
  have hattempts : (attempts ⟨d, a.label, ⟨⟨h, p, records, c⟩, r⟩ :: a.history⟩).dropLast =
      a.attempts := by
    simp [attempts]
  refine ⟨hd', hattempts ▸ ha.sound, ?_⟩
  rw [hattempts]
  obtain ⟨first, calls, hf⟩ := List.exists_cons_of_ne_nil (frontCalls_ne_nil hplaced)
  obtain ⟨h₀, rfl⟩ := frontCalls_head hf
  refine ⟨h₀, calls.flatten ++ more, ?_⟩
  rw [hout, hf, ha.output, List.flatten_cons, List.append_assoc]

end Append

end Archive

section Walk

variable {o : Order} {i : ℕ} {s s' : WalkState} {f : Failure}

lemma take_intact {p : String} {e : Entry} {r r' : Reader} {c c' : Content}
    (hs : s.archive.IsIntact) (hm : o.match? s.resolved e = some p)
    (hn : r.next? = .ok (some (e, r'))) (h : take i p e s c = (s', .ok c')) :
    s'.archive.IsIntact := by
  obtain ⟨-, -, rfl⟩ := match?_some.mp hm
  obtain ⟨hdescribes, stored, hstored, hsize, -⟩ := Reader.next?_announced hn
  obtain ⟨records, c₁, a, res, hrecords, ha, hend⟩ := take_ok h
  obtain ⟨hcarried, hannounced⟩ := announcedWith_of_carried hrecords (n := e.size)
  have hplain : ∃ ns, (∀ n ∈ ns, Path.IsPlain n) ∧ e.place = Path.join ns :=
    ⟨_, Path.normalNames_isPlain _, rfl⟩
  have harchive : s'.archive = a := by
    rcases hend with ⟨-, rfl⟩ | ⟨m, -, rfl⟩ <;> rfl
  rw [harchive]
  refine hs.append hplain hcarried hdescribes ?_ ?_ ha
  · rintro n rfl hk
    obtain ⟨hres, -⟩ | ⟨m, hres, -⟩ := hend
    · rw [Copied.complete.inj hres]
      exact hannounced (hsize hk ▸ hstored)
    · simp at hres
  · rintro m rfl
    obtain ⟨hres, -⟩ | ⟨m, hres, -⟩ := hend <;> simp at hres

/-- An entry that the walk fails at is broken off, or has not been begun. -/
lemma take_failed {p : String} {e : Entry} {c : Content} (hs : s.archive.IsIntact)
    (h : take i p e s c = (s', .error f)) : s'.archive.IsLeftBy (some f) := by
  rcases take_error h with ⟨err, -, rfl, rfl⟩ | ⟨records, c₁, a, c', res, -, ha, rfl, hend⟩
  · exact hs.isLeftBy rfl
  · have hno : ∀ m, res ≠ .refused m := by
      rintro m rfl
      obtain ⟨m, hm, -⟩ | ⟨k, hk, -⟩ := hend
      · simp at hm
      · simp at hk
    have hbreaks : f.breaksEntry = true := by
      obtain ⟨m, -, rfl⟩ | ⟨k, -, -, rfl⟩ := hend <;> rfl
    exact (hs.append_broken hno ha).isLeftBy hbreaks

lemma walkEntries_left {n : ℕ} {r : Reader} (hs : s.archive.IsIntact) :
    (walkEntries o i n s r).1.archive.IsLeftBy (walkEntries o i n s r).2 := by
  induction n generalizing s r with
  | zero => exact hs.isLeftBy rfl
  | succ n ih =>
    simp only [walkEntries]
    rcases hn : r.next? with err | _ | ⟨e, r'⟩ <;> simp only
    · exact hs.isLeftBy rfl
    · exact hs.isLeftBy rfl
    cases hm : o.match? s.resolved e with
    | none => exact ih hs
    | some p =>
      rcases ht : take i p e s r'.content with ⟨s₁, f | c⟩ <;> simp only [ht]
      · exact take_failed hs ht
      · have hs₁ := take_intact hs hm hn ht
        by_cases hdone : o.isDone s₁ = true
        · rw [if_pos hdone]
          exact hs₁.isLeftBy rfl
        · rw [if_neg hdone]
          exact ih hs₁

lemma walkLayer_left {l : Layer} (hs : s.archive.IsIntact) :
    (walkLayer o i l s).1.archive.IsLeftBy (walkLayer o i l s).2 := by
  simp only [walkLayer]
  cases l.openLayer with
  | error f =>
    exact hs.isLeftBy rfl
  | ok src => exact walkEntries_left (by exact hs)

/-- A walk leaves the archive intact unless it fails in the content of an entry. -/
lemma walkLayers_left (o : Order) (total : ℕ) (ls : List (Layer × ℕ)) (hs : s.archive.IsIntact) :
    (walkLayers o total ls s).1.archive.IsLeftBy (walkLayers o total ls s).2 := by
  induction ls generalizing s with
  | nil => exact hs.isLeftBy rfl
  | cons x ls ih =>
    obtain ⟨l, i⟩ := x
    simp only [walkLayers]
    by_cases hdone : o.isDone s = true
    · rw [if_pos hdone]
      exact Archive.IsIntact.isLeftBy (by exact hs) rfl
    rw [if_neg hdone]
    by_cases hcancelled : o.cancelled i = true
    · rw [if_pos hcancelled]
      exact hs.isLeftBy rfl
    rw [if_neg hcancelled]
    have hlayer := walkLayer_left (o := o) (i := i) (l := l) hs
    rcases hw : walkLayer o i l s with ⟨s₁, _ | f⟩ <;> rw [hw] at hlayer
    · exact ih (by exact hlayer)
    · exact hlayer

end Walk

/-- The attempts that had come to their end when the extraction ended. -/
def Extracted.settled (x : Extracted) : List Attempt :=
  match x.outcome with
  | .error f => if f.breaksEntry then x.attempts.dropLast else x.attempts
  | .ok _ => x.attempts

/-- The attempts that had written their entries when the extraction ended. -/
def Extracted.completed (x : Extracted) : List Attempt := x.settled.filter Attempt.isWritten

section Extract

variable {layers : List Layer} {files : List FileSpec} {label : String} {s : WalkState}
  {f : Failure} {d : Device}

lemma output_conclude {failure : Option Failure} (ha : s.archive.device.Accepts)
    (hd : (conclude files layers label s failure).device = some d) :
    d.output = s.archive.device.output ++ trailer := by
  obtain ⟨d', hw, -, hout⟩ := ha.write trailer
  have hfinish : s.archive.finish = (d', none) := by
    simp only [Archive.finish, hw]
  rw [(conclude_frame ..).2.2, hfinish, Option.some.injEq] at hd
  rw [← hd, hout]

lemma settled_conclude :
    (conclude files layers label s (some f)).settled =
      if f.breaksEntry then s.archive.attempts.dropLast else s.archive.attempts := by
  unfold Extracted.settled
  rw [conclude_failure, (conclude_frame ..).2.1]

/-- The archive that a failed walk leaves is exact just if the failure was not in the content of an
entry and all attempts were clean. -/
lemma unpack_conclude (hs : s.archive.IsLeftBy (some f))
    (hd : (conclude files layers label s (some f)).device = some d)
    (hk : ∀ a ∈ (conclude files layers label s (some f)).completed, a.header.kind ≠ .sparse)
    (hfits : d.output.length < Numeral.bound) :
    unpack d.output = .ok (writtenBy (conclude files layers label s (some f)).settled) ↔
      f.breaksEntry = false ∧
        ∀ a ∈ (conclude files layers label s (some f)).attempts, a.IsClean := by
  have hk' : ∀ a ∈ (conclude files layers label s (some f)).settled, a.isWritten = true →
      a.header.kind ≠ .sparse := fun a ha hw => hk a (List.mem_filter.mpr ⟨ha, hw⟩)
  rw [settled_conclude] at hk' ⊢
  rw [(conclude_frame ..).2.1]
  unfold Archive.IsLeftBy at hs
  rw [Option.any_some] at hs
  cases hb : f.breaksEntry with
  | true =>
    rw [hb] at hs hk'
    rw [if_pos rfl] at hs hk' ⊢
    obtain ⟨ha, hsound, h, more, hout⟩ := hs
    have hend := output_conclude ha hd
    rw [hout, List.append_assoc, List.append_assoc] at hend
    rw [hend, List.length_append] at hfits
    rw [hend, unpack_footprints hsound hk' (by omega)]
    constructor
    · rintro ⟨-, hnone⟩
      exact absurd hnone (Archive.not_end_of_header h (more ++ trailer))
    · rintro ⟨hno, -⟩
      simp at hno
  | false =>
    rw [hb] at hs hk'
    rw [if_neg (by decide)] at hs hk' ⊢
    have hend := output_conclude hs.accepts hd
    rw [hs.output] at hend
    rw [hend, List.length_append] at hfits
    rw [hend, unpack_footprints hs.sound hk' (by omega)]
    simp [zeros_prefix_trailer]

end Extract

/-- An extraction that fails when its output has been created, on a device that takes everything,
leaves a complete compressed stream. The archive in it holds just the entries that had been
completed if and only if the failure did not come in the content of an entry, each attempt that
failed had no records, and no header that was written keeps the front part of another path.
Positions in an archive are numbers of 64 bits; entries in pieces are left aside. -/
theorem extract_failed {image : Image} {files : List FileSpec} {cancelled : ℕ → Bool}
    {label : String} {f : Failure} {d : Device}
    (hf : (extract image files cancelled (.ok .accepting) label).outcome = .error f)
    (hd : (extract image files cancelled (.ok .accepting) label).device = some d)
    (hk : ∀ a ∈ (extract image files cancelled (.ok .accepting) label).completed,
      a.header.kind ≠ .sparse)
    (hfits : d.output.length < Numeral.bound) :
    Gzip.read (Gzip.encode d.output) = ⟨d.output, none⟩ ∧
      (unpack d.output = .ok ((extract image files cancelled (.ok .accepting) label).completed.map
          fun a => a.toRequest.unpacked) ↔
        f.breaksEntry = false ∧
          ∀ a ∈ (extract image files cancelled (.ok .accepting) label).attempts,
            (a.isWritten = false → a.records = []) ∧
              (a.isWritten = true → ¬a.header.KeepsFront a.path)) := by
  refine ⟨Gzip.read_encode d.output, ?_⟩
  rcases image with ⟨err | layers⟩
  · simp [extract] at hd
  let o := Order.ofFiles files cancelled
  have hleft := walkLayers_left (s := .start o layers .accepting label) o layers.length
    layers.zipIdx.reverse (Archive.isIntact_new label)
  have hx := extract_eq layers files cancelled .accepting label
  rcases hw : walk o layers (.start o layers .accepting label) with ⟨s, failure⟩
  rw [hw] at hx
  rw [show walkLayers o _ _ _ = _ from hw] at hleft
  rw [hx] at hf hd hk ⊢
  have hfailure : failure = some f := by
    cases failure with
    | some g =>
      rw [conclude_failure] at hf
      rw [Except.error.inj hf]
    | none =>
      obtain ⟨d', hout, -, -⟩ := hleft.accepts.write trailer
      rw [conclude_success, hout] at hf
      simp at hf
  subst hfailure
  have hiff := unpack_conclude hleft hd hk hfits
  constructor
  · intro hu
    obtain ⟨hb, hclean⟩ := hiff.mp hu
    exact ⟨hb, fun a ha => ⟨(hclean a ha).nothing, (hclean a ha).front⟩⟩
  · rintro ⟨hb, hclean⟩
    exact hiff.mpr ⟨hb, fun a ha => ⟨(hclean a ha).1, (hclean a ha).2⟩⟩

/-- A layer that holds the file `usr/bin/foo`. -/
def fooLayer : Layer :=
  ⟨"foo", .ok (.ofBytes ((bareHeader "usr/bin/foo" 5).toBytes ++ [104, 101, 108, 108, 111] ++
    zeros 507 ++ trailer))⟩

/-- A file from the upper one of two layers is in the archive, although the lower one does not open
and so another file cannot be looked for. -/
theorem extract_belowFoo :
    let x := extract ⟨.ok [⟨"base", .error (.of .notImage)⟩, fooLayer]⟩
      [⟨"/usr/bin/foo", "."⟩, ⟨"/usr/bin/bar", "."⟩] (fun _ => false) (.ok .accepting) "out"
    ∃ f d, x.outcome = .error f ∧ x.device = some d ∧
      unpack d.output = .ok [⟨Utf8.encode "usr/bin/foo", [], [104, 101, 108, 108, 111]⟩] := by
  intro x
  let f : Failure := ⟨[.openLayer 0 "base"], .notImage⟩
  have hrun : (x.outcome = .error f ∧ x.device.isSome = true) ∧
      x.device.all (fun d => d.output.length < Numeral.bound) = true ∧
      (∀ a ∈ x.completed, a.header.kind ≠ .sparse) ∧
      x.completed.map (fun a => a.toRequest.unpacked) =
        [⟨Utf8.encode "usr/bin/foo", [], [104, 101, 108, 108, 111]⟩] ∧
      ∀ a ∈ x.attempts, a.records = [] ∧ a.header.form = .gnu := by
    decide +kernel
  obtain ⟨⟨hf, hsome⟩, hlen, hk, hcompleted, hclean⟩ := hrun
  obtain ⟨d, hd⟩ := Option.isSome_iff_exists.mp hsome
  rw [hd, Option.all_some, decide_eq_true_eq] at hlen
  refine ⟨f, d, hf, hd, ?_⟩
  rw [← hcompleted]
  have hiff := (extract_failed hf hd hk hlen).2
  rw [hiff]
  constructor
  · rfl
  · intro a ha
    obtain ⟨hrecords, hform⟩ := hclean a ha
    refine ⟨fun _ => hrecords, fun _ hfront => ?_⟩
    rw [Header.KeepsFront, hform] at hfront
    simp at hfront

/-- A layer that ends in the content of the file `usr/bin/foo`. -/
def brokenLayer : Layer :=
  ⟨"foo", .ok (.ofBytes ((bareHeader "usr/bin/foo" 12).toBytes ++ [104, 101, 108, 108, 111]))⟩

/-- A file that has been copied in part is in the archive as a complete one, filled up with zeros of
the trailer. -/
theorem extract_brokenFoo :
    let x := extract ⟨.ok [brokenLayer]⟩ [⟨"/usr/bin/foo", "."⟩] (fun _ => false) (.ok .accepting)
      "out"
    x.outcome = .error ⟨[.readLayerEntry 0], .entryTruncated "usr/bin/foo" 12 5⟩ ∧
      x.completed = [] ∧
      x.device.map (fun d => unpack d.output) =
        some (.ok [⟨Utf8.encode "usr/bin/foo", [], [104, 101, 108, 108, 111] ++ zeros 7⟩]) := by
  decide +kernel

end LayerPick
