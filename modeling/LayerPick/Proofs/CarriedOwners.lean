import LayerPick.Proofs.StoredEntry

/-!
# Owners that follow an entry

The owners that PAX records give are written into the header of the entry as it is read. They are in
the header when the entry is written again, and the records say the same once more. So whoever reads
it then finds the owners already there.
-/
namespace LayerPick.Tar

namespace Reader

lemma applyOwners_again (pax : Option Bytes) (h : Header) :
    applyOwners pax (applyOwners pax h) = applyOwners pax h := by
  unfold applyOwners
  cases pax.bind (Pax.number? "uid") <;> cases pax.bind (Pax.number? "gid") <;> rfl

lemma applyOwners_eq_self {pax : Option Bytes} {h : Header} :
    applyOwners pax h = h ↔
      (∀ n, pax.bind (Pax.number? "uid") = some n → h.userId = .ofBytes 8 (numberField 8 n)) ∧
        ∀ n, pax.bind (Pax.number? "gid") = some n →
          h.groupId = .ofBytes 8 (numberField 8 n) := by
  unfold applyOwners
  rcases h with ⟨⟩
  cases pax.bind (Pax.number? "uid") <;> cases pax.bind (Pax.number? "gid") <;>
    simp [eq_comm]

lemma next?_owned {r r' : Reader} {e : Entry} (h : r.next? = .ok (some (e, r')))
    (hd : isDescribed e.header = true) : applyOwners e.pax e.header = e.header := by
  obtain ⟨-, b, stored, hh, -⟩ := nextFrom?_header h
  obtain ⟨hheader, hsame, -⟩ := headerIn_ok hh
  rw [← hsame, hd, if_pos rfl] at hheader
  rw [hheader, applyOwners_again]

end Reader

/-- The owners in the header are those that the records give, as far as they give any. -/
structure Header.OwnedBy (h : Header) (rs : List Pax.Record) : Prop where
  userId : ∀ n, Pax.numberIn? "uid" rs = some n → h.userId = .ofBytes 8 (numberField 8 n)
  groupId : ∀ n, Pax.numberIn? "gid" rs = some n → h.groupId = .ofBytes 8 (numberField 8 n)

/-- The records that follow a regular file give the owners that are in its header. -/
theorem ownedBy_of_carried {r r' : Reader} {e : Entry} {c c' : Content} {rs : List Pax.Record}
    (hn : r.next? = .ok (some (e, r'))) (hk : e.header.kind = .regular)
    (hc : e.carriedRecords c = .ok (rs, c')) : e.header.OwnedBy rs := by
  have howned := Reader.applyOwners_eq_self.mp
    (Reader.next?_owned hn (by simp [Reader.isDescribed, hk]))
  simp only [Entry.carriedRecords, hk, reduceCtorEq, or_self, if_false] at hc
  cases hp : e.pax with
  | none =>
    rw [hp] at hc
    obtain ⟨rfl, -⟩ := Prod.mk.inj (Except.ok.inj hc)
    exact ⟨by simp [Pax.numberIn?], by simp [Pax.numberIn?]⟩
  | some data =>
    rw [hp] at hc howned
    obtain ⟨rs', hrs, hc⟩ := bind_ok.mp hc
    obtain ⟨rfl, -⟩ := Prod.mk.inj (Except.ok.inj hc)
    constructor
    · rw [← number?_carriedFrom (by decide) hrs]
      exact howned.1
    · rw [← number?_carriedFrom (by decide) hrs]
      exact howned.2

/-- A reader writes the same owners into the header. -/
theorem Header.OwnedBy.applyOwners {h : Header} {rs : List Pax.Record} (ho : h.OwnedBy rs)
    (hrs : ∀ r ∈ rs, r.IsLine) (hb : (Pax.encode rs).length < Numeral.bound) :
    Reader.applyOwners (paxData rs) h = h := by
  rw [Reader.applyOwners_eq_self, paxData_numberIn? hrs hb, paxData_numberIn? hrs hb]
  exact ⟨ho.userId, ho.groupId⟩

end LayerPick.Tar
