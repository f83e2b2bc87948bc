import LayerPick.Proofs.LayoutConfinement
import LayerPick.Proofs.LinkChains

/-!
# Names and links that climb

Names that lead out of a tree name nothing in a layout folder. An archive store has no such rule: it
has whatever entries the archive has. A link in a folder whose target climbs too far leads to a name
outside, but a link at the top leads into the archive, since its target is read from the root there,
where nothing can be climbed.
-/
namespace LayerPick

open Tar

namespace TarIndex

lemma normalize_linkTarget (symbolic : Bool) (name target : String) :
    Path.normalize (linkTarget symbolic name target) = linkTarget symbolic name target := by
  rw [linkTarget]
  split_ifs <;> exact Path.normalize_normalize _

lemma folderOf_normalize (p : String) :
    folderOf (Path.normalize p) = Path.join (Path.normalNames p).dropLast := by
  by_cases hne : Path.normalNames p = []
  · rw [folderOf, Path.normalize, hne]
    rfl
  · rw [folderOf, Path.normalize, Path.split_join (Path.normalNames_isPlain p) hne]

variable {p target : String} (htarget : Path.rooted target = false)

include htarget

lemma linkTarget_folder (hfolder : folderOf (Path.normalize p) ≠ "") :
    linkTarget true (Path.normalize p) target =
      Path.normalize (Path.inFolder (folderOf (Path.normalize p)) target) := by
  have hends : Path.endsInSeparator (folderOf (Path.normalize p)) = false := by
    rw [folderOf_normalize]
    exact Path.endsInSeparator_join fun n hn =>
      Path.normalNames_isPlain p n (List.mem_of_mem_dropLast hn)
  have hempty : (folderOf (Path.normalize p)).isEmpty = false := by simpa using hfolder
  simp [linkTarget, Path.inFolder, htarget, hends, hempty]

lemma linkTarget_top (hfolder : folderOf p = "") :
    linkTarget true p target =
      Path.join ((Path.normalNames target).dropWhile (· = Path.parentName)) := by
  rw [← Path.normalize_root htarget]
  simp [linkTarget, htarget, hfolder]

end TarIndex

namespace Tar

/-- The entry is a symbolic link with this relative target, which climbs out of the tree from the
folder of the link. -/
def Entry.Climbs (e : Entry) (target : String) : Prop :=
  e.header.kind = .symbolicLink ∧ e.link?.map Utf8.decodeLossy = some target ∧
    Path.rooted target = false ∧
    Path.escapes (Path.normalize (Path.inFolder (TarIndex.folderOf e.blobName) target)) = true

instance (e : Entry) (target : String) : Decidable (e.Climbs target) :=
  inferInstanceAs (Decidable (_ ∧ _ ∧ _ ∧ _))

lemma Entry.Climbs.binding? {e : Entry} {target : String} (h : e.Climbs target) (data : Bytes) :
    e.binding? data = some (.link (TarIndex.linkTarget true e.blobName target)) := by
  obtain ⟨hk, hl, -, -⟩ := h
  obtain ⟨link, hlink, rfl⟩ := Option.map_eq_some_iff.mp hl
  simp [Entry.binding?, hk, hlink]

lemma normalize_of_mem_bindings {xs : List (Entry × Bytes)} {x : String × Binding}
    (h : x ∈ bindings xs) : Path.normalize x.1 = x.1 := by
  obtain ⟨y, -, hbound⟩ := List.mem_filterMap.mp h
  obtain ⟨z, -, rfl⟩ := Option.map_eq_some_iff.mp hbound
  exact Path.normalize_normalize _

end Tar

/-- Nothing is reached by climbing out of the archive with these entries: names that lead out of it
name nothing, and links that lead out of it lead to nothing. -/
structure BlobStore.Confined (s : BlobStore) (xs : List (Entry × Bytes)) : Prop where
  names : ∀ name, Path.escapes (Path.normalize name) = true → s.Serves name none
  links : ∀ x ∈ xs, ∀ target, x.1.Climbs target → ∀ m, x.1.binding? x.2 = some (.link m) →
    s.Serves m none ∧ (filesFirst (bindings xs) x.1.blobName = some (.link m) →
      ∀ name, Path.normalize name = x.1.blobName → s.Serves name none)

namespace Tarball

section Climbing

variable {t : FileTree} {path : String} {o : Opened} {xs : List (Entry × Bytes)}
  (h : (openAt t path).outcome = .ok o) (hxs : o.HasEntries t xs)

include h hxs

/-- If nothing is served under the names of entries that lead out of the archive, nothing is served
under any such name. -/
lemma serves_escaping
    (hentries : ∀ x ∈ bindings xs, Path.escapes x.1 = true → (o.store t).Serves x.1 none)
    {name : String} (hescapes : Path.escapes (Path.normalize name) = true) :
    (o.store t).Serves name none := by
  rw [serves_iff h hxs]
  by_cases hbound : ∃ x, (Path.normalize name, x) ∈ bindings xs
  · obtain ⟨x, hx⟩ := hbound
    have hnone := (serves_iff h hxs).mp (hentries _ hx hescapes)
    rwa [Path.normalize_normalize] at hnone
  · have hfree : filesFirst (bindings xs) (Path.normalize name) = none := by
      rw [filesFirst_of_not_mem fun data hmem => hbound ⟨_, hmem⟩]
      exact latest_eq_none.mpr fun x hx => hbound ⟨x, hx⟩
    rw [TarIndex.maxLookups, follow, hfree]

lemma serves_link {m : String} (hm : Path.normalize m = m) (hnone : (o.store t).Serves m none)
    {n name : String} (hstands : filesFirst (bindings xs) n = some (.link m))
    (hname : Path.normalize name = n) : (o.store t).Serves name none := by
  rw [serves_iff h hxs, hm] at hnone
  rw [serves_iff h hxs, hname, TarIndex.maxLookups, follow, hstands]
  -- From the name of the link there is one name less to look up.
  exact follow_none_of_le (by decide) hnone

omit h hxs in
/-- A climbing link in a folder leads out of the archive, and one at the top leads into it. -/
lemma serves_climbing {e : Entry} {target : String} (hclimbs : e.Climbs target)
    (hnames : ∀ name, Path.escapes (Path.normalize name) = true → (o.store t).Serves name none)
    (htop : TarIndex.folderOf e.blobName = "" → (o.store t).Serves
      (Path.join ((Path.normalNames target).dropWhile (· = Path.parentName))) none) :
    (o.store t).Serves (TarIndex.linkTarget true e.blobName target) none := by
  obtain ⟨-, -, hrelative, hescapes⟩ := hclimbs
  by_cases hfolder : TarIndex.folderOf e.blobName = ""
  · rw [TarIndex.linkTarget_top hrelative hfolder]
    exact htop hfolder
  · have hread : TarIndex.linkTarget true e.blobName target =
        Path.normalize (Path.inFolder (TarIndex.folderOf e.blobName) target) :=
      TarIndex.linkTarget_folder hrelative hfolder
    refine hnames _ ?_
    rw [hread, Path.normalize_normalize]
    exact hescapes

end Climbing

/-- A layout folder has nothing under a name that leads out of it. An image tarball may have one:
nothing is reached by climbing out of its archive just if nothing is served under the names of
entries that lead out of it, nor under what is left of the target of a climbing link at the top
without the names that climb. -/
theorem confined_iff {t : FileTree} {path : String} {o : Opened} {xs : List (Entry × Bytes)}
    (h : (openAt t path).outcome = .ok o) (hxs : o.HasEntries t xs) :
    (∀ root name, Path.escapes (Path.normalize name) = true →
      (Layout.store t root).contains name = false ∧
        (Layout.store t root).openBlob name = .error (.of (.blobEscapes name))) ∧
    ((o.store t).Confined xs ↔
      (∀ x ∈ bindings xs, Path.escapes x.1 = true → (o.store t).Serves x.1 none) ∧
      ∀ x ∈ xs, ∀ target, x.1.Climbs target → TarIndex.folderOf x.1.blobName = "" →
        (o.store t).Serves
          (Path.join ((Path.normalNames target).dropWhile (· = Path.parentName))) none) := by
  refine ⟨fun root name hname => Layout.store_escapes hname t root, ⟨fun hconf => ⟨?_, ?_⟩, ?_⟩⟩
  · intro x hx hescapes
    exact hconf.names x.1 (by rwa [normalize_of_mem_bindings hx])
  · intro x hx target hclimbs hfolder
    rw [← TarIndex.linkTarget_top hclimbs.2.2.1 hfolder]
    exact (hconf.links x hx target hclimbs _ (hclimbs.binding? x.2)).1
  · rintro ⟨hentries, htop⟩
    have hnames : ∀ name, Path.escapes (Path.normalize name) = true →
        (o.store t).Serves name none := fun _ => serves_escaping h hxs hentries
    refine ⟨hnames, fun x hx target hclimbs m hm => ?_⟩
    obtain rfl : TarIndex.linkTarget true x.1.blobName target = m := by
      simpa [hclimbs.binding?] using hm
    have hnone := serves_climbing hclimbs hnames (htop x hx target hclimbs)
    exact ⟨hnone, fun hstands _ => serves_link h hxs (TarIndex.normalize_linkTarget ..) hnone hstands⟩

/-- A link that climbs from a folder, and one that climbs from the top to a name without an
entry. -/
theorem confined_iff_folder :
    let bs : List (String × Binding) :=
      [("x", .file [1]), ("d/l", .link "../../x"), ("l", .link "../y")]
    let t := imageFile (archiveWith bs)
    ∃ o xs, (openAt t "image").outcome = .ok o ∧ o.HasEntries t xs ∧
      (o.store t).Confined xs := by
  intro bs t
  let bound : List (String × Binding) :=
    [("x", .file [1]), ("d/l", .link "../x"), ("l", .link "y")]
  obtain ⟨o, xs, ho, hxs, hbs⟩ := opened_imageFile (b := archiveWith bs) (a := bound) 4 bindings
    (by decide +kernel) (by decide +kernel)
  refine ⟨o, xs, ho, hxs, (confined_iff ho hxs).2.mpr ⟨?_, fun x hx target hclimbs hfolder => ?_⟩⟩
  · rw [hbs]
    have hstay : ∀ x ∈ bound, Path.escapes x.1 = false := by decide +kernel
    intro x hx hescapes
    rw [hstay x hx] at hescapes
    cases hescapes
  · have hmem : (x.1.blobName, Binding.link (TarIndex.linkTarget true x.1.blobName target)) ∈
        bound := by
      rw [← hbs]
      exact List.mem_filterMap.mpr ⟨x, hx, by simp [Entry.bound?, hclimbs.binding?]⟩
    rw [← TarIndex.linkTarget_top hclimbs.2.2.1 hfolder]
    have htop : ∀ y ∈ bound, ∀ m, y.2 = .link m → TarIndex.folderOf y.1 = "" → m = "y" := by
      intro y hy m hm hf
      simp only [bound, List.mem_cons, List.not_mem_nil, or_false] at hy
      rcases hy with rfl | rfl | rfl
      · cases hm
      · exact absurd hf (by decide +kernel)
      · exact (Binding.link.inj hm).symm
    rw [htop _ hmem _ rfl hfolder, serves_iff ho hxs, hbs]
    decide +kernel

/-- What climbing comes by: an entry whose name leads out of the archive, and a link at the top that
climbs. -/
theorem not_confined :
    (let t := imageFile (archiveWith [("../x", .file [1])])
      ∃ o, (openAt t "image").outcome = .ok o ∧
        Path.escapes (Path.normalize "../x") = true ∧ (o.store t).Serves "../x" (some [1])) ∧
    (let t := imageFile (archiveWith [("x", .file [1]), ("l", .link "../x")])
      ∃ o xs, (openAt t "image").outcome = .ok o ∧ o.HasEntries t xs ∧
        (∃ x ∈ xs, x.1.blobName = "l" ∧ x.1.Climbs "../x") ∧
        (o.store t).Serves "l" (some [1])) := by
  refine ⟨?_, ?_⟩
  · intro t
    obtain ⟨o, xs, ho, hxs, hbs⟩ := opened_imageFile (b := archiveWith [("../x", .file [1])])
      (a := [("../x", .file [1])]) 2 bindings (by decide +kernel) (by decide +kernel)
    refine ⟨o, ho, by decide +kernel, (serves_iff ho hxs).mpr ?_⟩
    rw [hbs]
    decide +kernel
  · intro t
    obtain ⟨o, xs, ho, hxs, hshown⟩ := opened_imageFile
      (b := archiveWith [("x", .file [1]), ("l", .link "../x")])
      (a := ([("x", .file [1]), ("l", .link "x")], ["l"])) 3
      (fun xs => (bindings xs, (xs.filter (·.1.Climbs "../x")).map (·.1.blobName)))
      (by decide +kernel) (by decide +kernel)
    obtain ⟨hbs, hclimbing⟩ := Prod.mk.inj hshown
    obtain ⟨x, hx, hname⟩ := List.mem_map.mp (hclimbing ▸ List.mem_cons_self ..)
    obtain ⟨hmem, hclimbs⟩ := List.mem_filter.mp hx
    refine ⟨o, xs, ho, hxs, ⟨x, hmem, hname, by simpa using hclimbs⟩, (serves_iff ho hxs).mpr ?_⟩
    rw [hbs]
    decide +kernel

end Tarball

end LayerPick
