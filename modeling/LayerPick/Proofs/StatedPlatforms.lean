import LayerPick.Platform
import LayerPick.Store.Blobs
import LayerPick.Proofs.MemberReading

/-!
# The platforms that documents state

A configuration, and a record in an index, state a platform in three fields. Reading them takes the
texts as they are, but for one architecture, which is read as another.
-/
namespace LayerPick

open Json

namespace Json.Value

/-- What a record with these fields has in the place of one of them. -/
def field? (fields : List String) (name : String) (v : Value) : Option Slot := do
  (fields.zip (← v.slots? fields)).lookup name

structure States (fields : List String) (v : Value) (os architecture : String)
    (variant : Option String) : Prop where
  os : (v.field? fields "os").bind (Slot.required text?) = some os
  architecture : (v.field? fields "architecture").bind (Slot.required text?) = some architecture
  variant : (v.field? fields "variant").bind (Slot.optional text?) = some variant

lemma mem_of_mapM {α β : Type} {f : α → Option β} {xs : List α} {ys : List β}
    (h : xs.mapM f = some ys) {y : β} (hy : y ∈ ys) : ∃ x ∈ xs, f x = some y := by
  induction xs generalizing ys with
  | nil =>
    obtain rfl : [] = ys := by simpa using h
    simp at hy
  | cons x xs ih =>
    simp only [List.mapM_cons, bind, Option.bind_eq_some_iff, pure, Option.some.injEq] at h
    obtain ⟨z, hz, zs, hzs, rfl⟩ := h
    rcases List.mem_cons.mp hy with rfl | hy
    · exact ⟨x, List.mem_cons_self .., hz⟩
    · obtain ⟨w, hw, hwy⟩ := ih hzs hy
      exact ⟨w, List.mem_cons_of_mem _ hw, hwy⟩

end Json.Value

namespace Oci

def readArchitecture (text : String) : String := if text = "armbe" then "arm64be" else text

lemma architecture?_some {v : Value} {a : String} (h : architecture? v = some a) :
    ∃ t, v.text? = some t ∧ a = readArchitecture t := by
  rw [architecture?, Option.map_eq_some_iff] at h
  obtain ⟨t, ht, rfl⟩ := h
  exact ⟨t, ht, rfl⟩

def Config.fields : List String :=
  ["created", "author", "architecture", "os", "os.version", "os.features", "variant", "config",
    "rootfs", "history"]

/-- The fields of the platform of a descriptor. -/
def Offer.fields : List String :=
  ["architecture", "os", "os_version", "os_features", "variant", "features"]

def Descriptor.fields : List String :=
  ["mediaType", "digest", "size", "urls", "annotations", "platform", "artifactType", "data"]

def Index.fields : List String :=
  ["schemaVersion", "mediaType", "artifactType", "manifests", "subject", "annotations"]

lemma required_architecture {s : Slot} {a : String} (h : s.required architecture? = some a) :
    ∃ t, s.required Value.text? = some t ∧ a = readArchitecture t := by
  cases s with
  | given v => exact architecture?_some h
  | missing => simp [Slot.required] at h
  | beyond => simp [Slot.required] at h

/-- What a configuration is read as is what its document states, but for the architecture. -/
lemma Config.states {v : Value} {c : Config} (h : Config.ofValue? v = some c) :
    ∃ a, v.States Config.fields c.os a c.variant ∧ c.architecture = readArchitecture a := by
  simp only [Config.ofValue?, bind, Option.bind_eq_some_iff] at h
  obtain ⟨slots, hslots, h⟩ := h
  split at h
  · simp only [Option.bind_eq_some_iff, pure, Option.some.injEq] at h
    obtain ⟨_, -, _, -, arch, harch, os, hos, _, -, _, -, variant, hvariant, _, -, _, -, _, -,
      rfl⟩ := h
    obtain ⟨t, ht, rfl⟩ := required_architecture harch
    refine ⟨t, ⟨?_, ?_, ?_⟩, rfl⟩
    · simpa [Value.field?, hslots, Config.fields, List.lookup_cons] using hos
    · simpa [Value.field?, hslots, Config.fields, List.lookup_cons] using ht
    · simpa [Value.field?, hslots, Config.fields, List.lookup_cons] using hvariant
  · simp at h

/-- What an offer is read as is what its record states, but for the architecture. -/
lemma Offer.states {v : Value} {o : Offer} (h : Offer.ofValue? v = some o) :
    ∃ a, v.States Offer.fields o.os a o.variant ∧ o.architecture = readArchitecture a := by
  simp only [Offer.ofValue?, bind, Option.bind_eq_some_iff] at h
  obtain ⟨slots, hslots, h⟩ := h
  split at h
  · simp only [Option.bind_eq_some_iff, pure, Option.some.injEq] at h
    obtain ⟨arch, harch, os, hos, _, -, _, -, variant, hvariant, _, -, rfl⟩ := h
    obtain ⟨t, ht, rfl⟩ := required_architecture harch
    refine ⟨t, ⟨?_, ?_, ?_⟩, rfl⟩
    · simpa [Value.field?, hslots, Offer.fields, List.lookup_cons] using hos
    · simpa [Value.field?, hslots, Offer.fields, List.lookup_cons] using ht
    · simpa [Value.field?, hslots, Offer.fields, List.lookup_cons] using hvariant
  · simp at h

/-- The document of an index lists a descriptor with this record as its platform. -/
def Index.Offers (v : Value) (d : Descriptor) (platform : Value) : Prop :=
  ∃ items w, v.field? Index.fields "manifests" = some (.given (.array items)) ∧ w ∈ items ∧
    Descriptor.ofValue? w = some d ∧
      w.field? Descriptor.fields "platform" = some (.given platform)

/-- Where a descriptor has a platform, it is what a record is read as. -/
lemma Descriptor.platform_given {w : Value} {d : Descriptor} {o : Offer}
    (h : Descriptor.ofValue? w = some d) (ho : d.platform = some o) :
    ∃ x, w.field? Descriptor.fields "platform" = some (.given x) ∧ Offer.ofValue? x = some o := by
  simp only [Descriptor.ofValue?, bind, Option.bind_eq_some_iff] at h
  obtain ⟨slots, hslots, h⟩ := h
  split at h
  · next platform _ _ =>
    simp only [Option.bind_eq_some_iff, pure, Option.some.injEq] at h
    obtain ⟨_, -, _, -, _, -, _, -, _, -, p, hp, _, -, _, -, rfl⟩ := h
    obtain rfl : p = some o := ho
    have hx : ∃ x, platform = .given x ∧ Offer.ofValue? x = some o := by
      cases platform with
      | given x =>
        refine ⟨x, rfl, ?_⟩
        cases x with
        | null => simp [Slot.optional] at hp
        | _ => simpa [Slot.optional] using hp
      | missing => simp [Slot.optional] at hp
      | beyond => simp [Slot.optional] at hp
    obtain ⟨x, rfl, hx⟩ := hx
    exact ⟨x, by simp [Value.field?, hslots, Descriptor.fields, List.lookup_cons], hx⟩
  · simp at h

lemma Index.offers {v : Value} {i : Index} {d : Descriptor} {o : Offer}
    (h : Index.ofValue? v = some i) (hd : d ∈ i.manifests) (ho : d.platform = some o) :
    ∃ x, Index.Offers v d x ∧ Offer.ofValue? x = some o := by
  simp only [Index.ofValue?, bind, Option.bind_eq_some_iff] at h
  obtain ⟨slots, hslots, h⟩ := h
  split at h
  · next manifests _ _ =>
    simp only [Option.bind_eq_some_iff, pure, Option.some.injEq] at h
    obtain ⟨_, -, _, -, _, -, ds, hds, _, -, _, -, rfl⟩ := h
    have hitems : ∃ items, manifests = .given (.array items) ∧
        items.mapM Descriptor.ofValue? = some ds := by
      cases manifests with
      | given x => cases x <;> first | exact ⟨_, rfl, hds⟩ | simp [Slot.required, Value.list?] at hds
      | missing => simp [Slot.required] at hds
      | beyond => simp [Slot.required] at hds
    obtain ⟨items, rfl, hmap⟩ := hitems
    obtain ⟨w, hw, hwd⟩ := Value.mem_of_mapM hmap hd
    obtain ⟨x, hx, hxo⟩ := Descriptor.platform_given hwd ho
    refine ⟨x, ⟨items, w, ?_, hw, hwd, hx⟩, hxo⟩
    simp [Value.field?, hslots, Index.fields, List.lookup_cons]
  · simp at h

end Oci

/-- A platform fits what is asked for: operating system and architecture are equal, and so is the
variant, if one is asked for. -/
structure Platform.Fits (p : Platform) (os architecture : String) (variant : Option String) :
    Prop where
  os : os = p.os
  architecture : architecture = p.architecture
  variant : ∀ v, p.variant = some v → variant = some v

lemma Platform.matchesParts_iff {p : Platform} {os architecture : String}
    {variant : Option String} :
    p.matchesParts os architecture variant = true ↔ p.Fits os architecture variant := by
  rw [matchesParts, Bool.and_eq_true, Bool.and_eq_true, beq_iff_eq, beq_iff_eq]
  constructor
  · rintro ⟨⟨hos, ha⟩, hv⟩
    refine ⟨hos.symm, ha.symm, fun v he => ?_⟩
    rw [he] at hv
    simpa using hv
  · rintro ⟨hos, ha, hv⟩
    refine ⟨⟨hos.symm, ha.symm⟩, ?_⟩
    rcases he : p.variant with _ | v
    · rfl
    · simpa using hv v he

/-- The store has this document under the name. -/
def BlobStore.Has (s : BlobStore) (name : String) (v : Value) : Prop :=
  ∃ src, s.openBlob name = .ok src ∧ (src.drain true).fault = none ∧
    parse? (src.drain true).data = some v

lemma BlobStore.has_of_readDocument {s : BlobStore} {name : String} {α : Type} {stage : Stage}
    {f : Value → Option α} {a : α} (h : s.readDocument name stage f = .ok a) :
    ∃ v, s.Has name v ∧ f v = some a := by
  obtain ⟨src, hsrc, h⟩ := Tar.bind_ok.mp h
  simp only at h
  split at h
  · simp at h
  · next hfault =>
    split at h
    · next b hb =>
      obtain ⟨v, hv, hfv⟩ := Option.bind_eq_some_iff.mp hb
      obtain rfl : b = a := by simpa using h
      exact ⟨v, ⟨src, hsrc, hfault, hv⟩, hfv⟩
    · simp at h

end LayerPick
