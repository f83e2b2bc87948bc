import LayerPick.Proofs.PathCuts
import LayerPick.Store.Layout

/-!
# Files in a folder

Following a path to a folder and going on from there is following the longer path. So in a folder
that holds some files and nothing else, a path leads to a regular file just if it is the name of one
of them, and is one that the system takes.
-/
namespace LayerPick

/-- Where a file with this name lies in a folder. -/
def placeOf (name : String) : Place := (Path.split name).map String.ofList

namespace Path

/-- The parts of a path in a folder: those of the folder, but for a separator at its end, and those
of the path. -/
lemma split_inFolder (folder name : String) (hf : folder ≠ "") :
    ∃ parts tail, split folder = parts ++ tail ∧ (tail = [] ∨ tail = [[]]) ∧
      split (inFolder folder name) = parts ++ split name := by
  have hempty : folder.isEmpty = false := by simpa using hf
  by_cases hend : endsInSeparator folder = true
  · obtain ⟨cs, hcs⟩ : ∃ cs, folder.toList = cs ++ ['/'] :=
      List.getLast?_eq_some_iff.mp (by simpa [endsInSeparator] using hend)
    refine ⟨cs.splitOn '/', [[]], ?_, .inr rfl, ?_⟩
    · rw [split, hcs, splitOn_append]
      rfl
    · rw [inFolder, hempty, hend, Bool.false_or, if_pos rfl, split, String.toList_append, hcs,
        List.append_assoc]
      exact splitOn_append ..
  · refine ⟨split folder, [], (List.append_nil _).symm, .inl rfl, ?_⟩
    rw [inFolder, hempty, Bool.false_or, if_neg hend, split, String.toList_append,
      String.toList_append, List.append_assoc]
    exact splitOn_append ..

lemma rooted_inFolder {folder : String} (name : String) (hf : folder ≠ "") :
    rooted (inFolder folder name) = rooted folder := by
  obtain ⟨c, cs, hc⟩ := List.exists_cons_of_ne_nil (show folder.toList ≠ [] by simpa using hf)
  rw [inFolder]
  split_ifs <;> simp [rooted, String.toList_append, hc]

/-- A part of a path that is the name of something. -/
structure IsPart (part : String) : Prop where
  ne_nil : part ≠ ""
  ne_self : part ≠ "."
  ne_parent : part ≠ ".."

lemma isPart_of_isPlain {n : Name} (h : IsPlain n) (hne : n ≠ parentName) :
    IsPart (String.ofList n) := by
  refine ⟨?_, ?_, ?_⟩ <;> intro he <;> have hl := congrArg String.toList he <;>
    rw [String.toList_ofList] at hl
  · exact h.ne_nil hl
  · exact h.ne_self hl
  · exact hne hl

/-- The name of a file in an image: a normal path, not empty, that stays in the tree. -/
structure IsFileName (name : String) : Prop where
  normal : normalize name = name
  stays : escapes name = false
  nonempty : name ≠ ""

lemma IsFileName.names {name : String} (h : IsFileName name) :
    ∃ ns, (∀ n ∈ ns, IsPlain n) ∧ parentName ∉ ns ∧ name = join ns ∧
      placeOf name = ns.map String.ofList := by
  have hstays := h.stays
  rw [← h.normal] at hstays
  have hne : normalNames name ≠ [] := by
    intro hnil
    apply h.nonempty
    rw [← h.normal, normalize, hnil]
    rfl
  refine ⟨normalNames name, normalNames_isPlain name, not_climbs_of_stays hstays, h.normal.symm, ?_⟩
  rw [placeOf, ← split_join (normalNames_isPlain name) hne, ← normalize, h.normal]

lemma IsFileName.isPart {name : String} (h : IsFileName name) :
    ∀ part ∈ placeOf name, IsPart part := by
  obtain ⟨ns, hplain, hclimbs, -, hplace⟩ := h.names
  rw [hplace]
  intro part hpart
  obtain ⟨n, hn, rfl⟩ := List.mem_map.mp hpart
  exact isPart_of_isPlain (hplain n hn) fun he => hclimbs (he ▸ hn)

lemma IsFileName.placeOf_inj {name name' : String} (h : IsFileName name) (h' : IsFileName name')
    (hplace : placeOf name = placeOf name') : name = name' := by
  obtain ⟨ns, -, -, rfl, hns⟩ := h.names
  obtain ⟨ns', -, -, rfl, hns'⟩ := h'.names
  rw [hns, hns'] at hplace
  have hinj : Function.Injective String.ofList := fun _ _ => String.ofList_inj.mp
  rw [List.map_injective_iff.mpr hinj hplace]

end Path

namespace FileTree

variable {t : FileTree} {p : Place}

/-- A walk to a folder is gone on with from there, if that is so behind links. A separator at its
end changes nothing. -/
lemma walkParts_append {follow : Place → List String → Except SystemError Found} {links : ℕ}
    {at_ : Place} {parts tail : List String} (hwalk : t.walkFrom links = t.walkParts follow)
    (htail : tail = [] ∨ tail = [""])
    (hfollow : ∀ at_ parts, follow at_ (parts ++ tail) = .ok (.node p .folder) →
      ∃ left, ∀ more, follow at_ (parts ++ more) = t.walkFrom left p more)
    (h : t.walkParts follow at_ (parts ++ tail) = .ok (.node p .folder)) :
    ∃ left, ∀ more, t.walkParts follow at_ (parts ++ more) = t.walkFrom left p more := by
  induction parts generalizing at_ with
  | nil =>
    have hhere : t.walkParts follow at_ [] = .ok (.node p .folder) := by
      rcases htail with rfl | rfl
      · exact h
      · simpa [walkParts] using h
    rw [walkParts] at hhere
    split at hhere
    · obtain ⟨rfl, -⟩ := by simpa only [Except.ok.injEq, Found.node.injEq] using hhere
      exact ⟨links, fun more => by rw [hwalk]; rfl⟩
    · simp at hhere
  | cons part rest ih =>
    rw [List.cons_append] at h
    simp only [List.cons_append]
    by_cases hskip : part = "" ∨ part = "."
    · simp only [walkParts, if_pos hskip] at h ⊢
      exact ih h
    by_cases hup : part = ".."
    · simp only [walkParts, if_neg hskip, if_pos hup] at h ⊢
      exact ih h
    by_cases hlong : maxName < (Utf8.encode part).length
    · simp [walkParts, hskip, hup, hlong] at h
    simp only [walkParts, if_neg hskip, if_neg hup, if_neg hlong] at h ⊢
    rcases hthere : t.get? (at_ ++ [part]) with _ | b | _ | target | _ <;>
      simp only [hthere] at h ⊢
    · split_ifs at h
      simp at h
    · split_ifs at h
      simp at h
    · exact ih h
    · split_ifs at h ⊢ <;>
      · rw [← List.append_assoc] at h
        simp only [← List.append_assoc]
        exact hfollow _ _ h
    · split_ifs at h
      simp at h

/-- A walk to a folder is gone on with from there, through the links that are left. -/
lemma walkFrom_append {links : ℕ} {at_ : Place} {parts tail : List String}
    (htail : tail = [] ∨ tail = [""])
    (h : t.walkFrom links at_ (parts ++ tail) = .ok (.node p .folder)) :
    ∃ left, ∀ more, t.walkFrom links at_ (parts ++ more) = t.walkFrom left p more := by
  induction links generalizing at_ parts with
  | zero => exact walkParts_append (rfl : t.walkFrom 0 = _) htail (fun _ _ h => by simp at h) h
  | succ links ih =>
    exact walkParts_append (rfl : t.walkFrom (links + 1) = _) htail (fun _ _ h => ih h) h

/-- The folder at this place holds these files. There is nothing else in it but the folders that they
are in, and further folders. -/
structure Holds (t : FileTree) (p : Place) (files : List (String × Bytes)) : Prop where
  root : t.get? p = some .folder
  file : ∀ x ∈ files, t.get? (p ++ placeOf x.1) = some (.file x.2)
  inner : ∀ x ∈ files, ∀ q r, r ≠ [] → placeOf x.1 = q ++ r → t.get? (p ++ q) = some .folder
  only : ∀ q n, t.get? (p ++ q) = some n → n = .folder ∨ ∃ x ∈ files, q = placeOf x.1

/-- The system takes the path: it holds no NUL, and neither it nor a part of it is too long. -/
structure Takes (path : String) : Prop where
  noNul : Char.ofNat 0 ∉ path.toList
  length : (Utf8.encode path).length < pathLimit
  part : ∀ part ∈ Path.split path, (Utf8.encode (String.ofList part)).length ≤ maxName

lemma walkParts_part {follow : Place → List String → Except SystemError Found} {at_ : Place}
    {part : String} (rest : List String) (h : Path.IsPart part) :
    t.walkParts follow at_ (part :: rest) =
      if maxName < (Utf8.encode part).length then .error .nameTooLong
      else
        match t.get? (at_ ++ [part]) with
        | none =>
          if rest.all (· = "") then .ok (.vacant (at_ ++ [part]) (!rest.isEmpty))
          else .error .notFound
        | some .folder => t.walkParts follow (at_ ++ [part]) rest
        | some (.link target) =>
          if target = "" then .error .notFound
          else follow (if Path.rooted target then [] else at_)
            ((Path.split target).map String.ofList ++ rest)
        | some n => if rest.isEmpty then .ok (.node (at_ ++ [part]) n) else .error .notFolder := by
  exact (if_neg (not_or.mpr ⟨h.ne_nil, h.ne_self⟩)).trans (if_neg h.ne_parent)

section Holds

variable {files : List (String × Bytes)} {follow : Place → List String → Except SystemError Found}

lemma Holds.walk_file (h : t.Holds p files) {x : String × Bytes} (hx : x ∈ files)
    {q r : List String} (hq : placeOf x.1 = q ++ r) (hparts : ∀ part ∈ r, Path.IsPart part)
    (hshort : ∀ part ∈ r, (Utf8.encode part).length ≤ maxName) :
    t.walkParts follow (p ++ q) r = .ok (.node (p ++ placeOf x.1) (.file x.2)) := by
  induction r generalizing q with
  | nil =>
    rw [List.append_nil] at hq
    rw [walkParts, ← hq, h.file x hx]
  | cons part rest ih =>
    have hlong : ¬ maxName < (Utf8.encode part).length :=
      Nat.not_lt.mpr (hshort part (List.mem_cons_self ..))
    rw [walkParts_part rest (hparts part (List.mem_cons_self ..)), if_neg hlong, List.append_assoc]
    by_cases hrest : rest = []
    · subst hrest
      rw [← hq, h.file x hx]
      rfl
    · have hq' : placeOf x.1 = (q ++ [part]) ++ rest := by rw [hq, List.append_assoc]; rfl
      rw [h.inner x hx _ _ hrest hq']
      exact ih hq' (fun k hk => hparts k (List.mem_cons_of_mem _ hk))
        fun k hk => hshort k (List.mem_cons_of_mem _ hk)

lemma Holds.walk_only (h : t.Holds p files) {q r : List String} {p' : Place} {n : FileNode}
    (hq : t.get? (p ++ q) = some .folder) (hparts : ∀ part ∈ r, Path.IsPart part)
    (hr : t.walkParts follow (p ++ q) r = .ok (.node p' n)) :
    n = .folder ∨ ∃ x ∈ files, q ++ r = placeOf x.1 ∧ n = .file x.2 := by
  induction r generalizing q with
  | nil =>
    rw [walkParts, hq] at hr
    obtain ⟨-, rfl⟩ := by simpa using hr
    exact .inl rfl
  | cons part rest ih =>
    rw [walkParts_part rest (hparts part (List.mem_cons_self ..)), List.append_assoc] at hr
    by_cases hlong : maxName < (Utf8.encode part).length
    · simp [hlong] at hr
    rw [if_neg hlong] at hr
    cases hthere : t.get? (p ++ (q ++ [part])) with
    | none =>
      simp only [hthere] at hr
      split_ifs at hr
      simp at hr
    | some k =>
      rcases h.only _ _ hthere with rfl | ⟨x, hx, hplace⟩
      · simp only [hthere] at hr
        rw [← List.singleton_append, ← List.append_assoc]
        exact ih hthere (fun k hk => hparts k (List.mem_cons_of_mem _ hk)) hr
      · have hfile := h.file x hx
        rw [← hplace, hthere] at hfile
        obtain rfl := Option.some.inj hfile
        simp only [hthere] at hr
        split_ifs at hr with hrest
        obtain ⟨-, rfl⟩ := by simpa using hr
        obtain rfl : rest = [] := by simpa using hrest
        exact .inr ⟨x, hx, hplace, rfl⟩

lemma resolve_ok {path : String} {f : Found} :
    t.resolve path = .ok f ↔
      Char.ofNat 0 ∉ path.toList ∧ path ≠ "" ∧ (Utf8.encode path).length < pathLimit ∧
        t.walkFrom maxLinks (if Path.rooted path then [] else workingPlace)
          ((Path.split path).map String.ofList) = .ok f := by
  simp only [resolve, List.contains_iff_mem]
  by_cases hnul : Char.ofNat 0 ∈ path.toList
  · rw [if_pos hnul]
    simp [hnul]
  by_cases hne : path = ""
  · rw [if_neg hnul, if_pos hne]
    simp [hne]
  by_cases hlong : pathLimit ≤ (Utf8.encode path).length
  · rw [if_neg hnul, if_neg hne, if_pos hlong]
    simp [Nat.not_lt.mpr hlong]
  · rw [if_neg hnul, if_neg hne, if_neg hlong]
    simp [hnul, hne, Nat.not_le.mp hlong]

lemma resolve_inFolder {root : String} (hroot : t.resolve root = .ok (.node p .folder))
    {name : String} (hnul : Char.ofNat 0 ∉ (Path.inFolder root name).toList)
    (hlength : (Utf8.encode (Path.inFolder root name)).length < pathLimit) :
    ∃ left, ∀ f, t.resolve (Path.inFolder root name) = .ok f ↔
      t.walkFrom left p (placeOf name) = .ok f := by
  obtain ⟨-, hne, -, hwalk⟩ := resolve_ok.mp hroot
  have hne' : Path.inFolder root name ≠ "" := by
    rw [Path.inFolder]
    split_ifs <;> simp [hne]
  obtain ⟨parts, tail, hsplit, htail, hsplit'⟩ := Path.split_inFolder root name hne
  rw [hsplit, List.map_append] at hwalk
  have htail' : tail.map String.ofList = [] ∨ tail.map String.ofList = [""] := by
    rcases htail with rfl | rfl
    · exact .inl rfl
    · exact .inr rfl
  obtain ⟨left, hleft⟩ := walkFrom_append htail' hwalk
  refine ⟨left, fun f => ?_⟩
  rw [resolve_ok, Path.rooted_inFolder name hne, hsplit', List.map_append, hleft, placeOf]
  simp [hnul, hne', hlength]

/-- The file with this name is found in the folder, if the system takes its path. -/
lemma Holds.find?_file (h : t.Holds p files) {root : String}
    (hroot : t.resolve root = .ok (.node p .folder)) {x : String × Bytes} (hx : x ∈ files)
    (hname : Path.IsFileName x.1) (htakes : Takes (Path.inFolder root x.1)) :
    t.find? (Path.inFolder root x.1) = .ok (.file x.2) := by
  obtain ⟨-, hne, -, -⟩ := resolve_ok.mp hroot
  obtain ⟨left, hleft⟩ := resolve_inFolder hroot htakes.noNul htakes.length
  have hshort : ∀ part ∈ placeOf x.1, (Utf8.encode part).length ≤ maxName := by
    intro part hpart
    obtain ⟨n, hn, rfl⟩ := List.mem_map.mp hpart
    obtain ⟨parts, tail, -, -, hsplit⟩ := Path.split_inFolder root x.1 hne
    exact htakes.part n (hsplit ▸ List.mem_append_right _ hn)
  have hwalk : t.walkFrom left p (placeOf x.1) = .ok (.node (p ++ placeOf x.1) (.file x.2)) := by
    have hfile (follow : Place → List String → Except SystemError Found) :
        t.walkParts follow (p ++ []) (placeOf x.1) = .ok (.node (p ++ placeOf x.1) (.file x.2)) :=
      h.walk_file hx (List.nil_append _).symm hname.isPart hshort
    simp only [List.append_nil] at hfile
    cases left <;> exact hfile _
  rw [find?, (hleft _).mpr hwalk]

lemma Holds.find?_only (h : t.Holds p files) {root : String}
    (hroot : t.resolve root = .ok (.node p .folder)) (hfiles : ∀ x ∈ files, Path.IsFileName x.1)
    {name : String} (hnormal : Path.normalize name = name) (hstays : Path.escapes name = false)
    {n : FileNode} (hn : t.find? (Path.inFolder root name) = .ok n) :
    n = .folder ∨ ∃ b, (name, b) ∈ files ∧ n = .file b := by
  obtain ⟨p', hresolve⟩ : ∃ p', t.resolve (Path.inFolder root name) = .ok (.node p' n) := by
    rw [find?] at hn
    rcases hr : t.resolve (Path.inFolder root name) with e | ⟨p', k⟩ | ⟨p', k⟩ <;> rw [hr] at hn
    · simp at hn
    · exact ⟨p', by rw [Except.ok.inj hn]⟩
    · simp at hn
  obtain ⟨hnul, -, hlength, -⟩ := resolve_ok.mp hresolve
  obtain ⟨left, hleft⟩ := resolve_inFolder hroot hnul hlength
  rw [hleft] at hresolve
  by_cases hempty : name = ""
  · subst hempty
    have hwalk : t.walkFrom left p (placeOf "") = .ok (.node p .folder) := by
      cases left <;> simp [walkFrom, placeOf, Path.split, walkParts, h.root]
    obtain ⟨-, rfl⟩ := by simpa using hwalk.symm.trans hresolve
    exact .inl rfl
  · have hname : Path.IsFileName name := ⟨hnormal, hstays, hempty⟩
    have honly : ∀ follow, t.walkParts follow p (placeOf name) = .ok (.node p' n) →
        n = .folder ∨ ∃ x ∈ files, placeOf name = placeOf x.1 ∧ n = .file x.2 := by
      intro follow hr
      exact h.walk_only (q := []) (by rw [List.append_nil]; exact h.root) hname.isPart
        (by rwa [List.append_nil])
    have hcases : n = .folder ∨ ∃ x ∈ files, placeOf name = placeOf x.1 ∧ n = .file x.2 := by
      cases left <;> exact honly _ hresolve
    refine hcases.imp_right ?_
    rintro ⟨⟨name', b⟩, hx, hplace, rfl⟩
    obtain rfl := hname.placeOf_inj (hfiles _ hx) hplace
    exact ⟨b, hx, rfl⟩

end Holds

end FileTree

end LayerPick
