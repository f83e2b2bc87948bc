import LayerPick.Proofs.PaxGrammar
import LayerPick.Proofs.RereadRows

/-!
# Extracting once more

An output archive can itself be the layer of an image. If the same files are picked out of it once
more, the walk comes upon just the entries that were written, in the order in which they were
written, and all of them are looked for. So it asks for the same row of requests, and the same bytes
are written.
-/
namespace LayerPick

open Tar

section First

variable {o : Order} {layers : List Layer} {d : Device} {label : String} {i : ℕ} {e : Entry}
  {c : Content} {a : Attempt}

/-- A regular file that has been written without the ustar form is found again as it is. -/
lemma Meets.isKept (hy : Meets o layers d label i e c) (ha : a.IsFor (e, c)) (hsound : a.IsSound)
    (hw : a.isWritten = true) (hk : a.header.kind = .regular) (hform : a.header.form ≠ .ustar) :
    a.toRequest.IsKept := by
  obtain ⟨r, r', below, s, p, -, -, hn, -, rfl⟩ := hy
  obtain ⟨hrecords, hheader, -⟩ := requestFor?_eq.mp ha.request
  refine ⟨hsound.isStorable hw (by simp [hk]), hform, hk, hsound.placed.mpr hw, ?_⟩
  rw [hheader] at hk ⊢
  exact ownedBy_of_carried hn hk hrecords

lemma Meets.isSought (hy : Meets o layers d label i e c) (ha : a.IsFor (e, c))
    (hw : a.isWritten = true) : a.toRequest.IsSought o.targets := by
  obtain ⟨r, r', below, s, p, -, -, -, hmatch, rfl⟩ := hy
  obtain ⟨-, -, hpath⟩ := requestFor?_eq.mp ha.request
  obtain ⟨-, hsize, hne, hstays, htarget⟩ := Entry.isWanted_iff.mp (match?_some.mp hmatch).1
  obtain ⟨-, -, hlen⟩ := ha.whole hw
  refine ⟨?_, hpath ▸ hne, hpath ▸ hstays, hpath ▸ htarget, hlen ▸ hsize⟩
  rw [hpath]
  exact Path.normalize_join (Path.normalNames_isPlain _) (Path.not_climbs_of_stays hstays)

end First

lemma footprints_completed (qs : List Request) :
    footprints (qs.map Request.completed) = qs.flatMap Request.bytes := by
  rw [footprints, List.flatMap_map]
  exact List.flatMap_congr fun q _ => footprint_written rfl

section Extract

variable {layers : List Layer} {files : List FileSpec} {cancelled : ℕ → Bool} {d : Device}
  {label : String} {x : Extracted} {e : Extraction}

/-- The files that are found are those whose paths the archive was asked to take, no path twice. -/
lemma extract_locations (hx : extract ⟨.ok layers⟩ files cancelled (.ok d) label = x)
    (he : x.outcome = .ok e) :
    ((overlay files layers).map Request.path).Nodup ∧
      e.locations =
        files.filter fun f => decide (f.target ∈ (overlay files layers).map Request.path) := by
  obtain ⟨below, s, hreached, -, hrequests, -, -, rfl⟩ := extract_halt hx he
  have hpaths : (overlay files layers).map Request.path = s.resolved.paths.reverse := by
    rw [← hrequests, ← hreached.consistent.attempted, WalkState.requests, List.map_map]
    rfl
  rw [hpaths]
  exact ⟨List.nodup_reverse.mpr s.resolved.nodup,
    List.filter_congr fun f _ => by simp only [Resolved.contains, List.mem_reverse]⟩

/-- Without a refusal, all that was asked for has been written and is found again. -/
lemma extract_kept (hx : extract ⟨.ok layers⟩ files cancelled (.ok .accepting) label = x)
    (he : x.outcome = .ok e) (hw : e.warnings = [])
    (hregular : ∀ a ∈ x.attempts, a.header.kind = .regular ∧ a.header.form ≠ .ustar) :
    ∀ q ∈ overlay files layers, q.IsKept ∧ q.IsSought (files.map FileSpec.target) := by
  obtain ⟨below, s, hreached, -, hrequests, hattempts, -, rfl⟩ := extract_halt hx he
  rw [← hrequests]
  intro q hq
  obtain ⟨a, ha, rfl⟩ := List.mem_map.mp hq
  have hwritten := hreached.allWritten hw a ha
  obtain ⟨i, e, c, hmeets, hfor⟩ := hreached.attempts a ha
  obtain ⟨hkind, hform⟩ := hregular a (hattempts ▸ ha)
  have hsought := hmeets.isSought hfor hwritten
  exact ⟨hmeets.isKept hfor (hreached.isIntact.sound a ha) hwritten hkind hform,
    ⟨hsought.isNormal, hsought.nonempty, hsought.stays, List.mem_eraseDups.mp hsought.isTarget,
      hsought.holds⟩⟩

/-- Where each header takes its path, there are no warnings. -/
lemma extract_placed (hx : extract ⟨.ok layers⟩ files cancelled (.ok .accepting) label = x)
    (he : x.outcome = .ok e)
    (hplaced : ∀ q ∈ overlay files layers, (frontCalls q.header q.path q.records).2 = none) :
    e.warnings = [] := by
  obtain ⟨below, s, hreached, -, hrequests, -, -, rfl⟩ := extract_halt hx he
  have htells := hreached.tells
  have hfailed : s.archive.failed = [] := by
    refine List.filter_eq_nil_iff.mpr fun a ha => ?_
    have hmem : a.toRequest ∈ overlay files layers := hrequests ▸ List.mem_map_of_mem ha
    have hwritten := ((hreached.isIntact.sound a ha).placed).mp (hplaced _ hmem)
    simp [hwritten]
  rw [hfailed] at htells
  exact List.forall₂_nil_right_iff.mp htells

end Extract

/-- Extracting once more changes nothing. Let files be picked out of an image without a failure and
without a warning, onto a device that takes everything, and let all that was written be regular files
with headers of the old or the GNU form. If the output archive is then the only layer of an image,
the same files are picked out of that one without a failure and without a warning, the files that are
found are the same, and so is the output archive, byte for byte. Positions in an archive are numbers
of 64 bits. -/
theorem extract_again {image : Image} {files : List FileSpec} {cancelled : ℕ → Bool}
    {label : String} {e : Extraction} {d : Device}
    (he : (extract image files cancelled (.ok .accepting) label).outcome = .ok e)
    (hw : e.warnings = [])
    (hd : (extract image files cancelled (.ok .accepting) label).device = some d)
    (hregular : ∀ a ∈ (extract image files cancelled (.ok .accepting) label).attempts,
      a.isWritten = true → a.header.kind = .regular ∧ (a.header.form = .gnu ∨ a.header.form = .old))
    (hfits : d.output.length < Numeral.bound) {l : Layer} {s : Source}
    (ho : l.openLayer = .ok s) (hs : s.IsCalm) (hdata : s.data = d.output)
    {cancelled' : ℕ → Bool} (hcancel : ∀ i, cancelled' i = false) (label' : String) :
    ∃ e' d', (extract ⟨.ok [l]⟩ files cancelled' (.ok .accepting) label').outcome = .ok e' ∧
      e'.warnings = [] ∧ e'.locations = e.locations ∧
      (extract ⟨.ok [l]⟩ files cancelled' (.ok .accepting) label').device = some d' ∧
      d'.output = d.output := by
  obtain ⟨f | layers⟩ := image
  · simp [extract] at he
  obtain ⟨hattempts, hout⟩ := extract_smooth rfl he hw
  have hforms : ∀ a ∈ (extract ⟨.ok layers⟩ files cancelled (.ok .accepting) label).attempts,
      a.header.kind = .regular ∧ a.header.form ≠ .ustar := by
    intro a ha
    obtain ⟨q, -, rfl⟩ := List.mem_map.mp (hattempts ▸ ha)
    obtain ⟨hkind, hform⟩ := hregular _ ha rfl
    exact ⟨hkind, by rcases hform with h | h <;> simp [h]⟩
  have hkept := extract_kept rfl he hw hforms
  obtain ⟨hnodup, hlocations⟩ := extract_locations rfl he
  rw [hd, hattempts, footprints_completed, Option.map_some, Option.some.injEq] at hout
  rw [hout, List.length_append] at hfits
  obtain ⟨hwhole, hrecords, hrow⟩ := overlay_reread (fun q hq => (hkept q hq).1)
    (fun q hq => (hkept q hq).2) hnodup (by omega) ho hs (hdata.trans hout)
  obtain ⟨hpaths, hbytes, hplaced⟩ := same_row hrow
  have hnone : (walk (.ofFiles files cancelled') [l]
      (.start (.ofFiles files cancelled') [l] .accepting label')).2 = none := by
    refine walk_whole (fun i _ l' hl' => ?_) hcancel fun i e c hmeets => ?_
    · obtain rfl := List.mem_singleton.mp (List.mem_of_getElem? hl')
      exact hwhole
    · obtain ⟨l', hl', hmem⟩ := hmeets.mem_entries
      obtain rfl := List.mem_singleton.mp (List.mem_of_getElem? hl')
      exact hrecords _ hmem
  obtain ⟨e', he'⟩ := extract_ok_iff.mpr hnone
  have hw' := extract_placed rfl he' hplaced
  obtain ⟨hattempts', hout'⟩ := extract_smooth rfl he' hw'
  obtain ⟨d', hd', houtput⟩ := Option.map_eq_some_iff.mp hout'
  refine ⟨e', d', he', hw', ?_, hd', ?_⟩
  · rw [(extract_locations rfl he').2, hpaths, hlocations]
  · rw [houtput, hattempts', footprints_completed, hbytes, hout]

/-- A layer with a file whose records give its owner. -/
def ownedLayer : Layer :=
  ⟨"base", .ok (.ofBytes ([⟨bareHeader "x" 3, "a", [⟨Utf8.encode "uid", Utf8.encode "1000"⟩],
      .ofSource (.ofBytes [66, 65, 68])⟩].flatMap Request.bytes ++ trailer))⟩

/-- The owner is written into the header when the file is first extracted. After that nothing
changes. -/
theorem extract_again_owned :
    let files : List FileSpec := [⟨"/a", "."⟩, ⟨"./b", "."⟩]
    let x := extract ⟨.ok [ownedLayer]⟩ files (fun _ => false) (.ok .accepting) "out"
    let again := fun d : Device =>
      extract ⟨.ok [⟨"again", .ok (.ofBytes d.output)⟩]⟩ files (fun _ => false) (.ok .accepting) "out"
    ∃ e d, x.outcome = .ok e ∧ x.device = some d ∧
      ownedLayer.openLayer.toOption ≠ some (.ofBytes d.output) ∧
      ∃ e' d', (again d).outcome = .ok e' ∧ e'.warnings = [] ∧ e'.locations = e.locations ∧
        (again d).device = some d' ∧ d'.output = d.output := by
  intro files x again
  have hrun : x.outcome = .ok ⟨[⟨"/a", "."⟩], [], 1, "out"⟩ ∧
      (∀ a ∈ x.attempts, a.header.kind = .regular ∧ a.header.form = .gnu) ∧
      (x.device.any fun d => decide (d.output.length < Numeral.bound ∧
        ownedLayer.openLayer.toOption ≠ some (.ofBytes d.output))) = true := by
    decide +kernel
  obtain ⟨he, hregular, hdevice⟩ := hrun
  rcases hd : x.device with _ | d
  · simp [hd] at hdevice
  rw [hd, Option.any_some, decide_eq_true_eq] at hdevice
  obtain ⟨hfits, hchanged⟩ := hdevice
  exact ⟨_, d, he, rfl, hchanged, extract_again he rfl hd
    (fun a ha _ => ⟨(hregular a ha).1, .inl (hregular a ha).2⟩) hfits (l := ⟨"again", _⟩) rfl
    (Source.isCalm_ofBytes _) (Source.data_ofBytes _) (fun _ => rfl) "out"⟩

end LayerPick
