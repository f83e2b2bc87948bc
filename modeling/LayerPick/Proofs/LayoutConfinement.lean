import LayerPick.Proofs.ReducedPaths
import LayerPick.Proofs.FileFolders

/-!
# What a layout folder looks at

A layout folder looks at one path for each name, and this path starts with the path of the folder
and goes down from there by the names of the normal form. For a name that leads out of the folder it
looks at nothing. So as long as there are no links in the folder, all that is found is in it.
-/
namespace LayerPick

namespace Path

/-- The path is that of the folder, and then goes down by these names, none of which is empty, `.`
or `..`, or holds a separator. -/
structure LiesIn (folder path : String) (ns : List Name) : Prop where
  plain : ∀ n ∈ ns, IsPlain n
  descends : parentName ∉ ns
  text : path = inFolder folder (join ns)
  begins : folder.toList <+: path.toList
  components : components path = components folder ++ ns.map .name

lemma prefix_inFolder (folder name : String) :
    folder.toList <+: (inFolder folder name).toList := by
  rw [inFolder]
  split_ifs
  · rw [String.toList_append]
    exact List.prefix_append ..
  · rw [String.toList_append, String.toList_append, List.append_assoc]
    exact List.prefix_append ..

lemma laterComponents_append (xs ys : List Name) :
    laterComponents (xs ++ ys) = laterComponents xs ++ laterComponents ys :=
  List.filterMap_append

lemma map_component {ns : List Name} (hns : parentName ∉ ns) : ns.map component = ns.map .name := by
  refine List.map_congr_left fun n hn => ?_
  have hn' : n ≠ parentName := fun he => hns (he ▸ hn)
  rw [component, if_neg hn']

section Row

variable {ns : List Name} (hplain : ∀ n ∈ ns, IsPlain n) (hns : parentName ∉ ns)

include hplain hns

lemma laterComponents_split_join : laterComponents (split (join ns)) = ns.map .name := by
  by_cases hne : ns = []
  · subst hne
    rfl
  · rw [split_join hplain hne, laterComponents_of_isPlain hplain, map_component hns]

lemma components_inFolder (folder : String) :
    components (inFolder folder (join ns)) = components folder ++ ns.map .name := by
  by_cases hf : folder = ""
  · subst hf
    rw [inFolder, if_pos (by rfl), String.empty_append, components_join hplain,
      map_component hns]
    rfl
  obtain ⟨parts, tail, hsplit, htail, hsplit'⟩ := split_inFolder folder (join ns) hf
  have htail' : laterComponents tail = [] := by rcases htail with rfl | rfl <;> rfl
  cases parts with
  | nil =>
    exfalso
    rw [List.nil_append] at hsplit
    rcases htail with rfl | rfl
    · exact List.splitOn_ne_nil _ _ hsplit
    · apply hf
      rw [← join_split folder, hsplit]
      rfl
  | cons first more =>
    simp only [components, hsplit, hsplit', List.cons_append, rooted_inFolder (join ns) hf,
      laterComponents_append, htail', List.append_nil, laterComponents_split_join hplain hns,
      List.append_assoc]

lemma liesIn_inFolder (folder : String) : LiesIn folder (inFolder folder (join ns)) ns where
  plain := hplain
  descends := hns
  text := rfl
  begins := prefix_inFolder ..
  components := components_inFolder hplain hns folder

end Row

end Path

namespace FileTree

variable {t : FileTree} {p at_ q : Place} {n : FileNode}

/-- Nothing at or below this place is a link. -/
def NoLinkIn (t : FileTree) (p : Place) : Prop :=
  ∀ q target, t.get? (p ++ q) ≠ some (.link target)

lemma walkParts_below {follow : Place → List String → Except SystemError Found}
    {parts : List String} (hlinks : t.NoLinkIn p)
    (hparts : ∀ part ∈ parts, part = "" ∨ Path.IsPart part) (hat : p <+: at_)
    (h : t.walkParts follow at_ parts = .ok (.node q n)) : p <+: q := by
  induction parts generalizing at_ with
  | nil =>
    rw [walkParts] at h
    split at h
    · obtain ⟨rfl, -⟩ := by simpa only [Except.ok.injEq, Found.node.injEq] using h
      exact hat
    · simp at h
  | cons part rest ih =>
    have hrest : ∀ k ∈ rest, k = "" ∨ Path.IsPart k := fun k hk => hparts k (.tail _ hk)
    rcases hparts part (List.mem_cons_self ..) with rfl | hpart
    · exact ih hrest hat (by simpa [walkParts] using h)
    have hbelow : p <+: at_ ++ [part] := hat.trans (List.prefix_append ..)
    rw [walkParts_part rest hpart] at h
    by_cases hlong : maxName < (Utf8.encode part).length
    · simp [hlong] at h
    rw [if_neg hlong] at h
    have hhere : ∀ k : FileNode, (if rest.isEmpty then .ok (.node (at_ ++ [part]) k)
        else .error .notFolder : Except SystemError Found) = .ok (.node q n) → p <+: q := by
      intro k hk
      split_ifs at hk
      obtain ⟨rfl, -⟩ := by simpa only [Except.ok.injEq, Found.node.injEq] using hk
      exact hbelow
    rcases hthere : t.get? (at_ ++ [part]) with _ | b | _ | target | _ <;>
      simp only [hthere] at h
    · split_ifs at h
      simp at h
    · exact hhere _ h
    · exact ih hrest hbelow h
    · obtain ⟨r, hr⟩ := hbelow
      exact absurd (hr ▸ hthere) (hlinks r target)
    · exact hhere _ h

/-- What is found on a path that lies in a folder without links is in the folder. -/
lemma resolve_below {root path : String} {ns : List Path.Name} (hpath : Path.LiesIn root path ns)
    (hroot : t.resolve root = .ok (.node p .folder)) (hlinks : t.NoLinkIn p)
    (h : t.resolve path = .ok (.node q n)) : p <+: q := by
  obtain ⟨hplain, hdescends, rfl, -, -⟩ := hpath
  have hparts : ∀ part ∈ placeOf (Path.join ns), part = "" ∨ Path.IsPart part := by
    by_cases hne : ns = []
    · subst hne
      simp [placeOf, Path.split, Path.join]
    · intro part hpart
      rw [placeOf, Path.split_join hplain hne] at hpart
      obtain ⟨k, hk, rfl⟩ := List.mem_map.mp hpart
      exact .inr (Path.isPart_of_isPlain (hplain k hk) fun he => hdescends (he ▸ hk))
  obtain ⟨hnul, -, hlength, -⟩ := resolve_ok.mp h
  obtain ⟨left, hleft⟩ := resolve_inFolder hroot hnul hlength
  rw [hleft] at h
  cases left <;> exact walkParts_below hlinks hparts (List.prefix_refl p) h

end FileTree

namespace Layout

lemma store_escapes {name : String} (h : Path.escapes (Path.normalize name) = true)
    (t : FileTree) (root : String) :
    (store t root).contains name = false ∧
      (store t root).openBlob name = .error (.of (.blobEscapes name)) := by
  simp [store, path?, h]

/-- A name that leads out of a layout folder names nothing, whatever files there are. Any other
name, absolute or not, has one path that is looked at, and this path lies in the folder: it starts
with the path of the folder, and goes down from there. So what is found there is in the folder, if
no link in it leads elsewhere. -/
theorem store_confined (root name : String) :
    (Path.escapes (Path.normalize name) = true ∧
      ∀ t, (store t root).contains name = false ∧
        (store t root).openBlob name = .error (.of (.blobEscapes name))) ∨
    (Path.escapes (Path.normalize name) = false ∧ ∃ path ns, Path.LiesIn root path ns ∧
      ∀ t, (store t root).contains name = t.isFile path ∧
        (store t root).openBlob name =
          (t.openFile path).mapError (fun e => ⟨[.openBlob path], .system e⟩) ∧
        ∀ p q n, t.resolve root = .ok (.node p .folder) → t.NoLinkIn p →
          t.resolve path = .ok (.node q n) → p <+: q) := by
  cases hescapes : Path.escapes (Path.normalize name) with
  | true => exact .inl ⟨rfl, fun t => store_escapes hescapes t root⟩
  | false =>
    have hlies := Path.liesIn_inFolder (Path.normalNames_isPlain name)
      (Path.not_climbs_of_stays hescapes) root
    refine .inr ⟨rfl, _, _, hlies, fun t => ?_⟩
    have hpath : path? root name =
        some (Path.inFolder root (Path.join (Path.normalNames name))) := by
      simp only [path?, hescapes]
      rfl
    refine ⟨?_, ?_, fun p q n => FileTree.resolve_below hlies⟩
    · simp [store, hpath]
    · simp [store, hpath]

/-- An absolute name, spelled in a roundabout way, is looked for in the folder and found there. -/
theorem store_confined_absolute :
    let t := ((FileTree.empty.put ["work", "image"] .folder).put ["work", "image", "blobs"]
      .folder).put ["work", "image", "blobs", "x"] (.file [1])
    let name := "/../blobs//./x"
    t.resolve "image" = .ok (.node ["work", "image"] .folder) ∧ t.NoLinkIn ["work", "image"] ∧
      (store t "image").contains name = true ∧
      ∃ path ns, Path.LiesIn "image" path ns ∧ t.isFile path = true ∧
        ∀ q n, t.resolve path = .ok (.node q n) → ["work", "image"] <+: q := by
  intro t name
  have hroot : t.resolve "image" = .ok (.node ["work", "image"] .folder) := by decide +kernel
  have hlinks : t.NoLinkIn ["work", "image"] := by
    intro q target h
    obtain ⟨before, after, hnodes, -⟩ := List.lookup_eq_some_iff.mp h
    have hmem : (["work", "image"] ++ q, FileNode.link target) ∈ t.nodes := by simp [hnodes]
    simp [t, FileTree.put, FileTree.empty] at hmem
  have hfound : (store t "image").contains name = true := by decide +kernel
  rcases store_confined "image" name with ⟨hescapes, -⟩ | ⟨-, path, ns, hlies, hlooks⟩
  · exact absurd hescapes (by decide)
  · obtain ⟨hcontains, -, hbelow⟩ := hlooks t
    exact ⟨hroot, hlinks, hfound, path, ns, hlies, hcontains ▸ hfound,
      fun q n => hbelow _ q n hroot hlinks⟩

end Layout

end LayerPick
