import LayerPick.Proofs.ArchiveListings

/-!
# The entries of an archive

An archive that can be gone through to its end has entries, each with its content. In a file one
moves from header to header, and comes by the same entries as somebody who reads everything between
them, as far as both get: who moves does not notice that the end is missing.

The index of an archive takes in its entries, one after the other.
-/
namespace LayerPick

open Tar

namespace Tar.Reader

/-- The archive can be gone through up to its end, and these are the entries on the way, each with
its content. -/
inductive HasEntries : Reader → List (Entry × Bytes) → Prop
  | ended {r : Reader} : r.next? = .ok none → HasEntries r []
  | entry {r r' : Reader} {e : Entry} {xs : List (Entry × Bytes)} :
    r.next? = .ok (some (e, r')) → HasEntries r' xs → HasEntries r ((e, r'.content.bytes) :: xs)

lemma HasEntries.unique {r : Reader} {xs ys : List (Entry × Bytes)} (h : r.HasEntries xs)
    (h' : r.HasEntries ys) : xs = ys := by
  induction h generalizing ys with
  | ended hx =>
    cases h' with
    | ended => rfl
    | entry hy => simp [hx] at hy
  | entry hx _ ih =>
    cases h' with
    | ended hy => simp [hx] at hy
    | entry hy hys =>
      obtain ⟨rfl, rfl⟩ := Prod.mk.inj (Option.some.inj (Except.ok.inj (hx.symm.trans hy)))
      rw [ih hys]

/-- The entries that are come by in so many steps, if these are all. -/
def entriesWithin? : ℕ → Reader → Option (List (Entry × Bytes))
  | 0, _ => none
  | n + 1, r =>
    match r.next? with
    | .error _ => none
    | .ok none => some []
    | .ok (some (e, r')) => (entriesWithin? n r').map ((e, r'.content.bytes) :: ·)

lemma hasEntries_of_within {n : ℕ} {r : Reader} {xs : List (Entry × Bytes)}
    (h : entriesWithin? n r = some xs) : r.HasEntries xs := by
  induction n generalizing r xs with
  | zero => simp [entriesWithin?] at h
  | succ n ih =>
    rw [entriesWithin?] at h
    rcases hx : r.next? with err | _ | ⟨e, r'⟩ <;> simp only [hx] at h
    · simp at h
    · obtain rfl := Option.some.inj h
      exact .ended hx
    · obtain ⟨ys, hys, rfl⟩ := Option.map_eq_some_iff.mp h
      exact .entry hx (ih hys)

section Moving

variable {b : Bytes} {r r₁ : Reader} (hr : r.Proper)
  (hlies : Lies b r.content.source r.content.position)

include hr hlies

/-- A header to which one moves is one to which one can read on, since it lies in the file. -/
lemma nextBlock?_of_moving {x : Bytes × Source} (h : r.moving.nextBlock? = .ok (some x)) :
    r.nextBlock? = .ok (some x) := by
  obtain ⟨block, s⟩ := x
  have hwithin : r.content.position ≤ r.next := (Nat.le_add_right _ _).trans hr.reach
  have hin : r.moving.InFile b.length := ⟨rfl, hlies.endsAt, hwithin⟩
  have hfits : r.next + blockSize ≤ b.length := hin.fits h
  obtain ⟨c, hc, ht, hl, hz⟩ := nextBlock?_some.mp h
  obtain ⟨-, -, rfl⟩ := (skip_isFile rfl).mp hc
  refine nextBlock?_some.mpr ⟨_, (skip_ok hr.isStream).mpr ⟨rfl, ?_, ?_⟩, ht, hl, hz⟩
  all_goals
    obtain ⟨s', htake, -, -⟩ := hlies.1.take false (r.next - r.content.position)
    rw [htake]
  simp only [hlies.2.1, List.length_take, List.length_drop]
  omega

lemma nextMember?_of_moving {pax : Option Bytes} {h : Header} {size : ℕ}
    (hm : r.moving.nextMember? pax = .ok (some (h, size, r₁))) :
    ∃ r', r₁ = r'.moving ∧ r.nextMember? pax = .ok (some (h, size, r')) := by
  obtain ⟨block, s, hblock, hin, h₁, h₂, rfl⟩ := nextMember?_some.mp hm
  exact ⟨_, rfl, nextMember?_some.mpr
    ⟨block, s, nextBlock?_of_moving hr hlies hblock, hin, h₁, h₂, rfl⟩⟩

omit hr hlies in
lemma entryAt_of_moving {d : Described} {h : Header} {size : ℕ} {e : Entry}
    (he : entryAt d h size r.moving = .ok (e, r₁)) :
    ∃ r', r₁ = r'.moving ∧ entryAt d h size r = .ok (e, r') := by
  simp only [entryAt, moving] at he ⊢
  split_ifs at he ⊢ with hk
  · obtain ⟨⟨ps, full, c, n⟩, hp, he⟩ := bind_ok.mp he
    obtain ⟨rfl, rfl⟩ := Prod.mk.inj (Except.ok.inj he)
    exact ⟨_, rfl, bind_ok.mpr ⟨_, hp, rfl⟩⟩
  · obtain ⟨rfl, rfl⟩ := Prod.mk.inj (Except.ok.inj he)
    exact ⟨r, rfl, rfl⟩

lemma nextFrom?_of_moving {n : ℕ} {d : Described} {e : Entry}
    (h : nextFrom? n d r.moving = .ok (some (e, r₁))) :
    ∃ r', r₁ = r'.moving ∧ nextFrom? n d r = .ok (some (e, r')) := by
  induction n generalizing d r with
  | zero => simp [nextFrom?] at h
  | succ n ih =>
    obtain ⟨hd, size, r₂, hm, hcase⟩ := nextFrom?_some.mp h
    obtain ⟨r₃, rfl, hm'⟩ := nextMember?_of_moving hr hlies hm
    have hproper := (nextMember?_advances hr hm').1.proper
    have hlies₃ := (kept_lies b).nextMember? hr hlies hm'
    rcases hcase with ⟨hdes, hcl, data, c, hdr, hn⟩ | ⟨hdes, he⟩
    · obtain ⟨r', rfl, hn'⟩ := ih (hproper.drained hdr)
        ((kept_lies b).drain hproper.bounded hlies₃ hdr) hn
      exact ⟨r', rfl, nextFrom?_some.mpr ⟨hd, size, r₃, hm', .inl ⟨hdes, hcl, data, c, hdr, hn'⟩⟩⟩
    · obtain ⟨r', rfl, he'⟩ := entryAt_of_moving he
      exact ⟨r', rfl, nextFrom?_some.mpr ⟨hd, size, r₃, hm', .inr ⟨hdes, he'⟩⟩⟩

lemma next?_of_moving {e : Entry} (h : r.moving.next? = .ok (some (e, r₁))) :
    ∃ r', r₁ = r'.moving ∧ r.next? = .ok (some (e, r')) :=
  nextFrom?_of_moving hr hlies h

/-- Who gets through an archive by reading everything comes by the same entries as who moves. -/
lemma HasEntries.moving (hb : b.length < Numeral.bound / 2) {xs : List (Entry × Bytes)}
    (h : r.HasEntries xs) : r.moving.HasEntries xs := by
  induction h with
  | ended hx => exact .ended (next?_moving hb hr hlies hx)
  | @entry r r' e xs hx _ ih =>
    have hnext := ih (next?_advances hr hx).proper ((kept_lies b).nextFrom? hr hlies hx)
    have hmoved : r.moving.next? = .ok (some (e, r'.moving)) := next?_moving hb hr hlies hx
    exact (HasEntries.entry hmoved hnext :)

end Moving

lemma lies_ofBytes (b : Bytes) : Lies b (Source.ofBytes b) 0 :=
  ⟨Source.isCalm_ofBytes b, Source.data_ofBytes b, Nat.zero_le _⟩

lemma hasEntries_ofFile {b : Bytes} (hb : b.length < Numeral.bound / 2)
    {xs : List (Entry × Bytes)} (h : (ofSource (.ofBytes b)).HasEntries xs) :
    (ofFile b).HasEntries xs :=
  h.moving (proper_ofSource _) (lies_ofBytes b) hb

end Tar.Reader

namespace Tar

/-- What an entry puts under its name: the data of a file, or the name that a link leads to. -/
inductive Binding where
  | file (data : Bytes)
  | link (target : String)
  deriving DecidableEq

def Binding.isFile : Binding → Bool
  | .file _ => true
  | .link _ => false

/-- What an entry puts under its name. A link without a target, and whatever is neither a file nor a
link, puts nothing there. -/
def Entry.binding? (e : Entry) (data : Bytes) : Option Binding :=
  match e.header.kind with
  | .regular => some (.file data)
  | .symbolicLink | .hardLink => e.link?.map fun link =>
      .link (TarIndex.linkTarget (e.header.kind = .symbolicLink) e.blobName (Utf8.decodeLossy link))
  | _ => none

/-- The name of an entry, and what it puts there. -/
def Entry.bound? (x : Entry × Bytes) : Option (String × Binding) :=
  (x.1.binding? x.2).map (x.1.blobName, ·)

/-- What entries put under their names, in their order. -/
def bindings (xs : List (Entry × Bytes)) : List (String × Binding) := xs.filterMap Entry.bound?

lemma bindings_cons (x : Entry × Bytes) (xs : List (Entry × Bytes)) :
    bindings (x :: xs) = (Entry.bound? x).toList ++ bindings xs := by
  rw [bindings, List.filterMap_cons]
  cases Entry.bound? x <;> rfl

lemma bound?_regular {e : Entry} (hk : e.header.kind = .regular) (data : Bytes) :
    Entry.bound? (e, data) = some (e.blobName, .file data) := by
  simp [Entry.bound?, Entry.binding?, hk]

lemma bound?_passedOver {e : Entry} (hk : e.header.kind.isPassedOver) (data : Bytes) :
    Entry.bound? (e, data) = none := by
  obtain ⟨h₁, h₂, h₃⟩ := hk
  rw [Entry.bound?, Entry.binding?]
  split <;> first | contradiction | rfl

/-- An archive in which files are listed has entries, which put these files under their names. -/
lemma Reader.Lists.hasEntries {r : Reader} {xs : List (String × Bytes)} (h : r.Lists xs) :
    ∃ ys, r.HasEntries ys ∧ bindings ys = xs.map fun x => (x.1, .file x.2) := by
  induction h with
  | ended hx => exact ⟨[], .ended hx, rfl⟩
  | file hx hk _ ih =>
    obtain ⟨ys, hys, hbs⟩ := ih
    exact ⟨_, .entry hx hys, by rw [bindings_cons, bound?_regular hk, hbs]; rfl⟩
  | other hx hk _ ih =>
    obtain ⟨ys, hys, hbs⟩ := ih
    exact ⟨_, .entry hx hys, by rw [bindings_cons, bound?_passedOver hk, hbs]; rfl⟩

end Tar

namespace TarIndex

/-- The index has what these entries of the archive put under their names: the files and the links,
latest first. -/
structure Shows (i : TarIndex) (b : Bytes) (bs : List (String × Binding)) : Prop where
  files : i.spans.map (fun x => (x.1, Binding.file (x.2.dataIn b))) =
    (bs.filter (·.2.isFile)).reverse
  links : i.links.map (fun x => (x.1, Binding.link x.2)) = (bs.filter (!·.2.isFile)).reverse

variable {b : Bytes} {i : TarIndex} {bs : List (String × Binding)}

lemma Shows.nil : ({} : TarIndex).Shows b [] := ⟨rfl, rfl⟩

lemma add_link {e : Entry} (hk : e.header.kind = .symbolicLink ∨ e.header.kind = .hardLink) :
    (i.add e).1 = ⟨i.spans, (e.link?.map fun link => (e.blobName, linkTarget
      (e.header.kind = .symbolicLink) e.blobName (Utf8.decodeLossy link))).toList ++ i.links⟩ := by
  rcases hk with hk | hk <;>
  · simp only [add, hk]
    cases e.link? <;> rfl

lemma Shows.add (h : i.Shows b bs) {e : Entry} {data : Bytes}
    (hdata : e.header.kind = .regular → data = Span.dataIn ⟨e.start, e.size⟩ b) :
    (i.add e).1.Shows b (bs ++ (Entry.bound? (e, data)).toList) := by
  obtain ⟨hfiles, hlinks⟩ := h
  have hlinked (hk : e.header.kind = .symbolicLink ∨ e.header.kind = .hardLink) :
      (i.add e).1.Shows b (bs ++ ((e.link?.map fun link => Binding.link (linkTarget
        (e.header.kind = .symbolicLink) e.blobName (Utf8.decodeLossy link))).map
          (e.blobName, ·)).toList) := by
    rw [add_link hk]
    cases e.link? with
    | none => exact ⟨by simpa using hfiles, by simpa using hlinks⟩
    | some link =>
      exact ⟨by simpa [Binding.isFile] using hfiles, by simpa [Binding.isFile] using hlinks⟩
  rw [Entry.bound?, Entry.binding?]
  split
  · next hk =>
    rw [add_regular hk, hdata hk]
    exact ⟨by simpa [Binding.isFile] using hfiles, by simpa [Binding.isFile] using hlinks⟩
  · next hk => exact hlinked (.inl hk)
  · next hk => exact hlinked (.inr hk)
  · next h₁ h₂ h₃ =>
    rw [add_passedOver ⟨h₁, h₂, h₃⟩]
    exact ⟨by simpa using hfiles, by simpa using hlinks⟩

/-- An index that is made without a failure has what the entries of the archive put under their
names. -/
lemma addAll_shows {r : Reader} {i' : TarIndex} {tries : ℕ} (hr : r.Proper)
    (hlies : Reader.Lies b r.content.source r.content.position) (ht : r.mostEntries < tries)
    (hi : i.Shows b bs) (h : (i.addAll tries r.moving).outcome = .ok i') :
    ∃ xs, r.moving.HasEntries xs ∧ i'.Shows b (bs ++ bindings xs) := by
  induction tries generalizing i bs r with
  | zero => exact absurd ht (Nat.not_lt_zero _)
  | succ tries ih =>
    rw [addAll] at h
    rcases hx : r.moving.next? with err | _ | ⟨e, r₁⟩ <;> simp only [hx] at h
    · simp at h
    · obtain rfl := Except.ok.inj h
      exact ⟨[], .ended hx, by simpa [bindings] using hi⟩
    · obtain ⟨r', rfl, hx'⟩ := Reader.next?_of_moving hr hlies hx
      have hadvances := Reader.next?_advances hr hx'
      have hlt := hadvances.mostEntries_lt
      obtain ⟨xs, hxs, hshows⟩ := ih hadvances.proper
        ((Reader.kept_lies b).nextFrom? hr hlies hx') (by omega)
        (hi.add fun hk => Reader.bytes_regular hr hlies hx' hk) h
      refine ⟨_, .entry hx hxs, ?_⟩
      rwa [bindings_cons, ← List.append_assoc]

lemma addAll_ok {r : Reader} {xs : List (Entry × Bytes)} (h : r.HasEntries xs) (i : TarIndex)
    (tries : ℕ) : ∃ i', (i.addAll tries r).outcome = .ok i' := by
  induction h generalizing i tries with
  | ended hx =>
    cases tries with
    | zero => exact ⟨i, rfl⟩
    | succ tries => exact ⟨i, by rw [addAll, hx]; rfl⟩
  | entry hx _ ih =>
    cases tries with
    | zero => exact ⟨i, rfl⟩
    | succ tries =>
      obtain ⟨i', hi'⟩ := ih (i.add _).1 tries
      exact ⟨i', by rw [addAll, hx]; exact hi'⟩

/-- The index of an archive has what the entries of the archive put under their names. -/
theorem ofBytes_shows (h : (ofBytes b).outcome = .ok i) :
    ∃ xs, (Reader.ofFile b).HasEntries xs ∧ i.Shows b (bindings xs) :=
  addAll_shows (r := .ofSource (.ofBytes b)) (Reader.proper_ofSource _) (Reader.lies_ofBytes b)
    (Nat.lt_succ_self _) .nil h

/-- An archive in which one can move from entry to entry has an index, with what these entries put
under their names. -/
theorem ofBytes_ok {xs : List (Entry × Bytes)} (h : (Reader.ofFile b).HasEntries xs) :
    ∃ i, (ofBytes b).outcome = .ok i ∧ i.Shows b (bindings xs) := by
  obtain ⟨i, hi⟩ := addAll_ok h {} ((Reader.ofFile b).mostEntries + 1)
  obtain ⟨ys, hys, hshows⟩ := ofBytes_shows hi
  obtain rfl := hys.unique h
  exact ⟨i, hi, hshows⟩

end TarIndex

end LayerPick
