import LayerPick.Image.Local
import LayerPick.Proofs.InflateExtension
import LayerPick.Proofs.RecutExtraction

/-!
# Gzip files of several members

A gzip file is a row of members, and what it holds is what they hold, one behind the other. `read`
takes the first member and does not look further. So a layer or an image tarball is unpacked whole
just if the members behind the first one are empty, and the texts in the header of the first are not
longer than `read` goes along with.
-/
namespace LayerPick

namespace Gzip

/-- A member of a gzip file, by the fields of RFC 1952. -/
structure Member where
  isText : Bool := false
  hasChecksum : Bool := false
  extra : Option Bytes := none
  name : Option Bytes := none
  comment : Option Bytes := none
  time : UInt32 := 0
  extraFlags : UInt8 := 0
  system : UInt8 := 255
  /-- Deflate data, up to the last byte. -/
  packed : Bytes
  data : Bytes
  extra_length : ∀ b ∈ extra, b.length < 65536 := by simp
  name_text : ∀ b ∈ name, 0 ∉ b := by simp
  comment_text : ∀ b ∈ comment, 0 ∉ b := by simp
  inflates : ∃ s, inflate packed = ⟨data.toArray, .ok s⟩ ∧ s.rest = []

def optional (f : Bytes → Bytes) : Option Bytes → Bytes
  | none => []
  | some b => f b

/-- A field with two bytes of length before it. -/
def withLength (b : Bytes) : Bytes := toLittleEndian 2 b.length ++ b

/-- A text with a NUL behind it. -/
def withNul (b : Bytes) : Bytes := b ++ [0]

namespace Member

def flags (m : Member) : UInt8 :=
  UInt8.ofNat (m.isText.toNat + 2 * m.hasChecksum.toNat + 4 * m.extra.isSome.toNat +
    8 * m.name.isSome.toNat + 16 * m.comment.isSome.toNat)

/-- The header up to its checksum. -/
def fields (m : Member) : Bytes :=
  [0x1f, 0x8b, 8, m.flags] ++ (toLittleEndian 4 m.time.toNat ++ ([m.extraFlags, m.system] ++
    (optional withLength m.extra ++ (optional withNul m.name ++ optional withNul m.comment))))

/-- The checksum of the header, if it has one. -/
def headerChecksum (m : Member) : Bytes :=
  if m.hasChecksum then toLittleEndian 2 ((crc32 m.fields).toNat % 65536) else []

/-- What stands behind the deflate data. -/
def trailer (m : Member) : Bytes :=
  toLittleEndian 4 (crc32 m.data).toNat ++ toLittleEndian 4 (m.data.length % UInt32.size)

/-- The bytes of the member. -/
def bytes (m : Member) : Bytes :=
  m.fields ++ (m.headerChecksum ++ (m.packed ++ m.trailer))

/-- The texts in the header are not longer than is gone along with. -/
def HasShortTexts (m : Member) : Prop :=
  (∀ b ∈ m.name, b.length ≤ maxHeaderText) ∧ ∀ b ∈ m.comment, b.length ≤ maxHeaderText

instance (m : Member) : Decidable m.HasShortTexts := inferInstanceAs (Decidable (_ ∧ _))

/-- The member that stores its data as they are. -/
def stored (b : Bytes) : Member where
  packed := storedBlocks (b.length / maxStored) b
  data := b
  inflates := by
    have hall := inflate_stored b []
    rw [List.append_nil] at hall
    exact ⟨_, hall, rfl⟩

end Member

lemma hasFlag_flags (m : Member) :
    hasFlag m.flags 0xe0 = false ∧ hasFlag m.flags 4 = m.extra.isSome ∧
      hasFlag m.flags 8 = m.name.isSome ∧ hasFlag m.flags 16 = m.comment.isSome ∧
      hasFlag m.flags 2 = m.hasChecksum := by
  unfold Member.flags
  generalize m.isText = a, m.hasChecksum = b, m.extra.isSome = c, m.name.isSome = d,
    m.comment.isSome = e
  revert a b c d e
  decide

lemma skipExtra_withLength {b : Bytes} (hb : b.length < 65536) (t : Bytes) :
    skipExtra (withLength b ++ t) = .ok t := by
  have hlen := length_toLittleEndian 2 b.length
  have htake : (withLength b ++ t).take 2 = toLittleEndian 2 b.length := by
    rw [withLength, List.append_assoc, List.take_left' hlen]
  have hdrop : (withLength b ++ t).drop (2 + b.length) = t := by
    refine List.drop_left' ?_
    rw [withLength, List.length_append, hlen]
  simp only [skipExtra, htake, littleEndian_toLittleEndian (show b.length < 256 ^ 2 from hb), hdrop]
  rw [if_neg]
  simp only [withLength, List.length_append, hlen]
  omega

lemma skipText_withNul {b : Bytes} (hb : 0 ∉ b) (t : Bytes) :
    skipText (withNul b ++ t) =
      if b.length ≤ maxHeaderText then .ok t else .error .headerTooLong := by
  have htext : (withNul b ++ t).takeWhile (fun x => decide (x ≠ 0)) = b := by
    have hall : ∀ x ∈ b, decide (x ≠ 0) = true := by
      intro x hx
      rw [decide_eq_true_eq]
      rintro rfl
      exact hb hx
    rw [withNul, List.append_assoc, List.takeWhile_append_of_pos hall]
    simp
  have hdrop : (withNul b ++ t).drop (b.length + 1) = t := by
    refine List.drop_left' ?_
    rw [withNul, List.length_append, List.length_singleton]
  simp only [skipText, htext, hdrop]
  by_cases hlong : maxHeaderText < b.length
  · rw [if_pos hlong, if_neg (by omega)]
  · rw [if_neg hlong, if_neg, if_pos (by omega)]
    simp only [withNul, List.length_append, List.length_singleton]
    omega

lemma skip_optional {present : Bool} {x : Option Bytes} {skip : Bytes → Except Error Bytes}
    {f : Bytes → Bytes} {t : Bytes} {r : Except Error Bytes} {k : Bytes → Except Error Bytes}
    (hp : present = x.isSome) (hsome : ∀ b ∈ x, skip (f b ++ t) = r) (hnone : x = none → r = .ok t) :
    (if present = true then skip (optional f x ++ t) >>= k else k (optional f x ++ t)) =
      r >>= k := by
  subst hp
  cases x with
  | none =>
    rw [hnone rfl]
    rfl
  | some b =>
    rw [← hsome b rfl]
    rfl

lemma skip_text {present : Bool} {x : Option Bytes} {t : Bytes} {k : Bytes → Except Error Bytes}
    (hp : present = x.isSome) (hx : ∀ b ∈ x, 0 ∉ b)
    [Decidable (∀ b ∈ x, b.length ≤ maxHeaderText)] :
    (if present = true then skipText (optional withNul x ++ t) >>= k
      else k (optional withNul x ++ t)) =
      if ∀ b ∈ x, b.length ≤ maxHeaderText then k t else .error .headerTooLong := by
  rw [skip_optional (r := if ∀ b ∈ x, b.length ≤ maxHeaderText then .ok t
    else .error .headerTooLong) hp]
  · split_ifs <;> rfl
  · intro b hb
    rw [skipText_withNul (hx b hb)]
    simp only [Option.mem_def.mp hb, Option.mem_def, Option.some.injEq, forall_eq']
  · rintro rfl
    simp

lemma skipHeaderChecksum_member (m : Member) (t : Bytes) :
    (if m.hasChecksum = true then
      skipHeaderChecksum (m.fields ++ (m.headerChecksum ++ t)) (m.headerChecksum ++ t)
    else .ok (m.headerChecksum ++ t)) = .ok t := by
  unfold Member.headerChecksum
  split_ifs with h
  · have hlen := length_toLittleEndian 2 ((crc32 m.fields).toNat % 65536)
    have hsum : (crc32 m.fields).toNat % 65536 < 256 ^ 2 := Nat.mod_lt _ (by decide)
    simp only [skipHeaderChecksum, List.length_append, hlen, Nat.add_sub_cancel,
      List.take_left' rfl, List.take_left' hlen, List.drop_left' hlen,
      littleEndian_toLittleEndian hsum, if_true]
    rw [if_neg (by omega)]
  · rfl

/-- The header of a member is skipped, unless a text in it is too long. -/
lemma skipHeader_member (m : Member) (t : Bytes) :
    skipHeader (m.fields ++ (m.headerChecksum ++ t)) =
      if m.HasShortTexts then .ok t else .error .headerTooLong := by
  obtain ⟨hreserved, hextra, hname, hcomment, hsum⟩ := hasFlag_flags m
  have hfields : m.fields ++ (m.headerChecksum ++ t) = [0x1f, 0x8b, 8, m.flags] ++
      (toLittleEndian 4 m.time.toNat ++ ([m.extraFlags, m.system] ++
        (optional withLength m.extra ++ (optional withNul m.name ++ (optional withNul m.comment ++
          (m.headerChecksum ++ t)))))) := by
    simp only [Member.fields, List.append_assoc]
  have hlen : ¬(m.fields ++ (m.headerChecksum ++ t)).length < 10 := by
    rw [hfields]
    simp only [toLittleEndian, List.length_append, List.length_cons]
    omega
  have hflags : ((m.fields ++ (m.headerChecksum ++ t)).drop 3).headD 0 = m.flags := by
    rw [hfields]
    rfl
  have hstart : (!isGzip (m.fields ++ (m.headerChecksum ++ t)) ||
      ((m.fields ++ (m.headerChecksum ++ t)).drop 2).headD 0 != 8 || hasFlag m.flags 0xe0) =
        false := by
    rw [hreserved, hfields]
    rfl
  have hdrop : (m.fields ++ (m.headerChecksum ++ t)).drop 10 = optional withLength m.extra ++
      (optional withNul m.name ++ (optional withNul m.comment ++ (m.headerChecksum ++ t))) := by
    rw [hfields]
    rfl
  simp only [skipHeader, if_neg hlen, hflags, hstart, Bool.false_eq_true, if_false, hdrop,
    Tar.ok_bind]
  rw [skip_optional (r := .ok _) hextra (fun b hb => skipExtra_withLength (m.extra_length b hb) _)
    fun _ => rfl, Tar.ok_bind, skip_text hname m.name_text]
  by_cases hn : ∀ b ∈ m.name, b.length ≤ maxHeaderText
  · rw [if_pos hn, skip_text hcomment m.comment_text]
    by_cases hc : ∀ b ∈ m.comment, b.length ≤ maxHeaderText
    · rw [if_pos hc, hsum, if_pos (show m.HasShortTexts from ⟨hn, hc⟩)]
      exact skipHeaderChecksum_member m t
    · rw [if_neg hc, if_neg fun h => hc h.2]
  · rw [if_neg hn, if_neg fun h => hn h.1]

lemma read_member (m : Member) (t : Bytes) :
    read (m.bytes ++ t) =
      if m.HasShortTexts then ⟨m.data, none⟩ else ⟨[], some .headerTooLong⟩ := by
  have hbytes : m.bytes ++ t = m.fields ++ (m.headerChecksum ++ (m.packed ++ (m.trailer ++ t))) := by
    simp only [Member.bytes, List.append_assoc]
  rw [hbytes, read, skipHeader_member]
  split_ifs with hshort
  · obtain ⟨s, hs, hrest⟩ := m.inflates
    have hbecomes := inflate_becomes m.packed (m.trailer ++ t)
    rw [hs] at hbecomes
    simp only [Inflation.Becomes] at hbecomes
    simp only [hbecomes, Bits.align, Bits.before, hrest, List.nil_append]
    rw [Member.trailer, checkTrailer_append (checkTrailer_written m.data)]
  · rfl

lemma read_bytes (m : Member) :
    read m.bytes = if m.HasShortTexts then ⟨m.data, none⟩ else ⟨[], some .headerTooLong⟩ := by
  have h := read_member m []
  rwa [List.append_nil] at h

lemma isGzip_bytes (m : Member) : isGzip m.bytes = true := rfl

lemma isGzip_iff (b : Bytes) : isGzip b = (b.take 2 == [0x1f, 0x8b]) := by
  rcases b with _ | ⟨x, _ | ⟨y, b⟩⟩
  · rfl
  · simp [isGzip]
  · by_cases hx : x = 0x1f
    · by_cases hy : y = 0x8b
      · subst hx hy
        rfl
      · simp [isGzip, hx, hy]
    · simp [isGzip, hx]

lemma isGzip_append {b : Bytes} (h : 2 ≤ b.length) (t : Bytes) : isGzip (b ++ t) = isGzip b := by
  rw [isGzip_iff, isGzip_iff, List.take_append_of_le_length h]

def held (ms : List Member) : Bytes := ms.flatMap Member.data

/-- The bytes of a row of members. -/
def row (ms : List Member) : Bytes := ms.flatMap Member.bytes

def UnpackedWhole (m : Member) (ms : List Member) : Prop := m.HasShortTexts ∧ held ms = []

lemma isGzip_row (m : Member) (ms : List Member) : isGzip (row (m :: ms)) = true := rfl

lemma read_row (m : Member) (ms : List Member) :
    read (row (m :: ms)) = ⟨held (m :: ms), none⟩ ↔ UnpackedWhole m ms := by
  rw [row, List.flatMap_cons, read_member, held, List.flatMap_cons, ← held, UnpackedWhole]
  split_ifs with hshort
  · simp [hshort]
  · simp [hshort]

end Gzip

/-- The stream of a blob that is not gzip: what one call gives, and the rest. -/
def peeked : Bytes → Source
  | [] => ⟨[], none⟩
  | x :: b => ⟨.bytes ((x :: b).take peekSize) none ::
      if peekSize < (x :: b).length then [.bytes ((x :: b).drop peekSize) none] else [], none⟩

lemma isCalm_peeked (b : Bytes) : (peeked b).IsCalm := by
  cases b with
  | nil => exact ⟨rfl, by simp [peeked]⟩
  | cons x b =>
    refine ⟨rfl, ?_⟩
    simp only [peeked]
    split_ifs <;> simp

lemma data_peeked (b : Bytes) : (peeked b).data = b := by
  cases b with
  | nil => rfl
  | cons x b =>
    simp only [peeked, Source.data]
    split_ifs with h
    · simp only [List.flatMap_cons, List.flatMap_nil, Event.data, List.append_nil,
        List.take_append_drop]
    · simp only [List.flatMap_cons, List.flatMap_nil, Event.data, List.append_nil]
      exact List.take_of_length_le (by omega)

lemma unpackedBlob_ofBytes (name : String) (b : Bytes) :
    unpackedBlob name (.ofBytes b) =
      .ok (if Gzip.isGzip b = true then gunzip (.ofBytes b) else peeked b) := by
  rcases b with _ | ⟨x, b⟩
  · rfl
  have hread : (Source.ofBytes (x :: b)).read peekSize =
      (.chunk ((x :: b).take peekSize),
        ⟨if peekSize < (x :: b).length then [.bytes ((x :: b).drop peekSize) none] else [],
          none⟩) := by
    simp only [Source.ofBytes, Source.read, Source.readEvents]
    congr 2
    split_ifs <;> first | rfl | omega
  have hmagic : Gzip.isGzip ((x :: b).take peekSize) = Gzip.isGzip (x :: b) := by
    rw [Gzip.isGzip_iff, Gzip.isGzip_iff, List.take_take]
    rfl
  have hsame : gunzip (peeked (x :: b)) = gunzip (.ofBytes (x :: b)) := by
    rw [gunzip, gunzip, data_peeked, Source.data_ofBytes]
    rfl
  simp only [unpackedBlob, hread, hmagic]
  rw [← hsame]
  rfl

namespace Tarball

lemma index_outcome (path : Option String) (b : Bytes) :
    (index path b).outcome = (TarIndex.ofBytes b).outcome := by
  simp only [index, bind, Traced.bind]
  cases (TarIndex.ofBytes b).outcome <;> rfl

lemma openAt_outcome {t : FileTree} {path : String} {b : Bytes}
    (h : t.openFile path = .ok (.ofBytes b)) :
    (openAt t path).outcome =
      if Gzip.isGzip b = true then
        match (Gzip.read b).error with
        | some e => .error ⟨[.unpackTarball path], .stream e.message⟩
        | none => (TarIndex.ofBytes (Gzip.read b).data).outcome.map fun i =>
            ⟨i, path, some (Gzip.read b).data⟩
      else (TarIndex.ofBytes b).outcome.map fun i => ⟨i, path, none⟩ := by
  obtain ⟨s', hdrain⟩ := Source.drain_ofBytes false b
  simp only [openAt, h, Except.mapError, Traced.ofExcept, bind, Traced.bind, hdrain]
  split_ifs
  · simp only [Traced.say]
    cases (Gzip.read b).error with
    | some e => rfl
    | none =>
      simp only [index_outcome]
      cases (TarIndex.ofBytes (Gzip.read b).data).outcome <;> rfl
  · simp only [index_outcome]
    cases (TarIndex.ofBytes b).outcome <;> rfl

end Tarball

/-- All calls succeed, and these are the bytes they give. -/
def Source.Delivers (s : Source) (b : Bytes) : Prop := s.IsCalm ∧ s.data = b

lemma delivers_peeked (b : Bytes) : (peeked b).Delivers b := ⟨isCalm_peeked b, data_peeked b⟩

lemma delivers_gunzip (b whole : Bytes) :
    (gunzip (.ofBytes b)).Delivers whole ↔ Gzip.read b = ⟨whole, none⟩ := by
  have hgunzip : gunzip (.ofBytes b) = ⟨.bytes (Gzip.read b).data none ::
      ((Gzip.read b).error.map fun e => Event.fault (unpackingFault none e)).toList, none⟩ := by
    rw [gunzip, Source.data_ofBytes]
    rfl
  rw [hgunzip]
  rcases Gzip.read b with ⟨data, _ | e⟩
  · simp only [Gzip.Contents.mk.injEq, and_true]
    constructor
    · rintro ⟨-, hd⟩
      simpa [Source.data, Event.data] using hd
    · rintro rfl
      exact ⟨⟨rfl, by simp⟩, by simp [Source.data, Event.data]⟩
  · simp only [Gzip.Contents.mk.injEq, reduceCtorEq, and_false, iff_false]
    rintro ⟨hcalm, -⟩
    exact hcalm.noFault (unpackingFault none e) (by simp)

lemma Source.Delivers.recut {s s' : Source} {b : Bytes} (h : s.Delivers b) (h' : s'.Delivers b)
    (free : ℕ → Prop) (k : ℕ) : s.Recut free k s' :=
  h.1.recut h'.1 (h.2.trans h'.2.symm) free k

/-- Where `s` has a gzip file of several members that is unpacked whole, `s'` has what it holds. All
else is the same. -/
def PlainIn (s s' : BlobStore) (name : String) : Prop :=
  s'.openBlob name = s.openBlob name ∨
    ∃ m ms, Gzip.UnpackedWhole m ms ∧ Gzip.isGzip (Gzip.held (m :: ms)) = false ∧
      s.openBlob name = .ok (.ofBytes (Gzip.row (m :: ms))) ∧
      s'.openBlob name = .ok (.ofBytes (Gzip.held (m :: ms)))

lemma unpackedBlob_row (name : String) (m : Gzip.Member) (ms : List Gzip.Member) :
    unpackedBlob name (.ofBytes (Gzip.row (m :: ms))) =
      .ok (gunzip (.ofBytes (Gzip.row (m :: ms)))) := by
  rw [unpackedBlob_ofBytes, if_pos (Gzip.isGzip_row m ms)]

lemma PlainIn.alike {s s' : BlobStore} {name : String} (h : PlainIn s s' name) :
    Layer.Recut (fun _ => False) ⟨name, do unpackedBlob name (← s.openBlob name)⟩
      ⟨name, do unpackedBlob name (← s'.openBlob name)⟩ := by
  rcases h with heq | ⟨m, ms, hwhole, hplain, hs, hs'⟩
  · rw [heq]
    exact .refl _ _
  · have hrow := (delivers_gunzip _ _).mpr ((Gzip.read_row m ms).mpr hwhole)
    refine ⟨rfl, ?_⟩
    simp only [hs, hs', Tar.ok_bind]
    rw [unpackedBlob_row, unpackedBlob_ofBytes, hplain, if_neg Bool.false_ne_true]
    exact .ok (hrow.recut (delivers_peeked _) _ _)

/-- A gzip file of one or more members. The stream of a layer delivers what the file holds just if
the members behind the first are empty, and the texts in its header are not longer than is gone
along with. Then the extraction, on a device that takes every call, is as from the same layers
stored plain. And an image tarball is indexed as a whole in the same case. -/
theorem gzip_row_unpacked (m : Gzip.Member) (ms : List Gzip.Member) :
    let blob := Gzip.row (m :: ms)
    let whole := Gzip.held (m :: ms)
    (∀ name, ∃ src, unpackedBlob name (.ofBytes blob) = .ok src ∧
        (src.Delivers whole ↔ Gzip.UnpackedWhole m ms)) ∧
      (∀ (s s' : BlobStore) (names : List String) (files : List FileSpec) (cancelled : ℕ → Bool)
          (d : Device) (label : String), (∀ name ∈ names, PlainIn s s' name) → d.Accepts →
        (extract ⟨.ok (blobLayers s names)⟩ files cancelled (.ok d) label).Alike
          (extract ⟨.ok (blobLayers s' names)⟩ files cancelled (.ok d) label)) ∧
      ∀ (t : FileTree) (path : String) (i : TarIndex), t.openFile path = .ok (.ofBytes blob) →
        ((Tarball.openAt t path).outcome = .ok ⟨i, path, some whole⟩ ↔
          Gzip.UnpackedWhole m ms ∧ (TarIndex.ofBytes whole).outcome = .ok i) := by
  intro blob whole
  refine ⟨?_, ?_, ?_⟩
  · intro name
    exact ⟨_, unpackedBlob_row name m ms, (delivers_gunzip _ _).trans (Gzip.read_row m ms)⟩
  · intro s s' names files cancelled d label hplain hd
    refine extract_alike ?_ files cancelled hd label
    rw [blobLayers, blobLayers, List.forall₂_map_left_iff, List.forall₂_map_right_iff,
      List.forall₂_same]
    intro name hname
    exact (hplain name hname).alike
  · intro t path i hopen
    rw [Tarball.openAt_outcome hopen, if_pos (Gzip.isGzip_row m ms), ← Gzip.read_row]
    rcases hread : Gzip.read (Gzip.row (m :: ms)) with ⟨data, _ | e⟩
    · simp only [Gzip.Contents.mk.injEq, and_true]
      constructor
      · intro h
        rcases hi : (TarIndex.ofBytes data).outcome with err | j <;> rw [hi] at h
        · simp [Except.map] at h
        · simp only [Except.map, Except.ok.injEq, Tarball.Opened.mk.injEq, Option.some.injEq,
            true_and] at h
          obtain ⟨rfl, hdata⟩ := h
          exact ⟨hdata, hdata ▸ hi⟩
      · rintro ⟨hdata, hi⟩
        subst hdata
        rw [hi]
        rfl
    · simp

/-- A layer, or an image tarball, with an empty second member. -/
theorem gzip_row_unpacked_foo :
    let whole : Bytes := (Tar.bareHeader "usr/bin/foo" 5).toBytes ++ [104, 101, 108, 108, 111] ++
      Tar.zeros 507 ++ Tar.trailer
    let blob := Gzip.row [.stored whole, .stored []]
    let x (b : Bytes) := extract ⟨.ok (blobLayers ⟨fun _ => true, fun _ => .ok (.ofBytes b)⟩
      ["layer"])⟩ [⟨"/usr/bin/foo", "."⟩] (fun _ => false) (.ok .accepting) "out"
    (∃ src, unpackedBlob "layer" (.ofBytes blob) = .ok src ∧ src.Delivers whole) ∧
      (x blob).Alike (x whole) ∧
      ∃ i, (Tarball.openAt (FileTree.empty.put ["work", "image"] (.file blob)) "image").outcome =
        .ok ⟨i, "image", some whole⟩ := by
  intro whole blob x
  have hheld : Gzip.held [.stored whole, .stored []] = whole := by
    simp [Gzip.held, Gzip.Member.stored]
  have hwhole : Gzip.UnpackedWhole (.stored whole) [.stored []] :=
    ⟨by simp [Gzip.Member.HasShortTexts, Gzip.Member.stored], rfl⟩
  have hplain : Gzip.isGzip whole = false := by decide +kernel
  have hindex : ((TarIndex.ofBytes whole).outcome.toOption.map fun i => i.spans.map Prod.fst) =
      some ["usr/bin/foo"] := by
    decide +kernel
  obtain ⟨hstream, hextract, hopen⟩ := gzip_row_unpacked (.stored whole) [.stored []]
  rw [hheld] at hstream hopen
  refine ⟨?_, ?_, ?_⟩
  · obtain ⟨src, hsrc, hdelivers⟩ := hstream "layer"
    exact ⟨src, hsrc, hdelivers.mpr hwhole⟩
  · refine hextract _ _ _ _ _ _ _ (fun name _ => .inr ⟨_, _, hwhole, ?_, rfl, ?_⟩)
      Device.accepts_accepting
    · rw [hheld]
      exact hplain
    · rw [hheld]
  · rcases hi : (TarIndex.ofBytes whole).outcome with err | i
    · rw [hi] at hindex
      simp [Except.toOption] at hindex
    · exact ⟨i, (hopen _ _ i rfl).mpr ⟨hwhole, hi⟩⟩

/-- Of two members with a byte each, only the first is unpacked. -/
theorem gzip_row_first :
    ∃ src, unpackedBlob "layer" (.ofBytes (Gzip.row [.stored [97], .stored [98]])) = .ok src ∧
      src.data = [97] ∧ Gzip.held [.stored [97], .stored [98]] = [97, 98] := by
  have hshort : (Gzip.Member.stored [97]).HasShortTexts := by
    simp [Gzip.Member.HasShortTexts, Gzip.Member.stored]
  have hread : Gzip.read (Gzip.row [.stored [97], .stored [98]]) = ⟨[97], none⟩ := by
    rw [Gzip.row, List.flatMap_cons, Gzip.read_member, if_pos hshort]
    rfl
  exact ⟨_, unpackedBlob_row .., ((delivers_gunzip _ _).mpr hread).2, rfl⟩

end LayerPick
