import MultiVac.Lib.Table

/-!
# Tables whose entries claim resources

Every entry of a table claims some resources, and a list on the side says which are
taken. The list is right if it holds the claims of all entries and no resource is
claimed twice. It stays right when an entry with new claims is added, when an entry
is replaced by one with the same claims, and when an entry is deleted with its claims.
-/

namespace MultiVac.Lib

variable {κ ν ρ : Type} [DecidableEq κ]

namespace Table

variable {table : Table κ ν}

/-- An entry and the rest of the table. -/
theorem perm_erase {key : κ} {value : ν} (present : table.lookup key = some value) :
    table.entries.Perm (⟨key, value⟩ :: (table.erase key).entries) := by
  have inKeys : key ∈ table.entries.keys := List.mem_keys_of_mem (AList.mem_lookup_iff.mp present)
  obtain ⟨stored, before, after, _, split, erased⟩ := List.exists_of_kerase inKeys
  have isStored : table.lookup key = some stored := by
    refine AList.mem_lookup_iff.mpr ?_
    rw [split]
    simp
  obtain rfl := Option.some.inj (present.symm.trans isStored)
  have rest : (table.erase key).entries = before ++ after := erased
  rw [rest, split]
  exact List.perm_middle

/-- Writing an entry that is there replaces it. -/
theorem entries_insert (table : Table κ ν) (key : κ) (value : ν) :
    (table.insert key value).entries = ⟨key, value⟩ :: (table.erase key).entries := rfl

theorem mem_erase_iff {key : κ} {entry : Sigma fun _ : κ => ν} :
    entry ∈ (table.erase key).entries ↔ entry.1 ≠ key ∧ entry ∈ table.entries := by
  rw [← AList.mem_lookup_iff, ← AList.mem_lookup_iff]
  by_cases same : entry.1 = key
  · rw [same, AList.lookup_erase]
    simp
  · rw [AList.lookup_erase_ne same]
    simp [same]

/-- The resources that the entries claim. -/
def claimed (claims : ν → List ρ) (table : Table κ ν) : List ρ :=
  table.entries.flatMap fun entry => claims entry.2

variable {claims : ν → List ρ} {table : Table κ ν} {key : κ}

theorem claimed_insert (absent : key ∉ table) (value : ν) :
    claimed claims (table.insert key value) = claims value ++ claimed claims table := by
  rw [claimed, AList.entries_insert_of_notMem absent]
  rfl

theorem claimed_perm {value : ν} (present : table.lookup key = some value) :
    (claimed claims table).Perm (claims value ++ claimed claims (table.erase key)) :=
  (perm_erase present).flatMap_right _

end Table

/-- A list holds exactly what the entries claim, and no two claims meet. -/
structure Booked (claims : ν → List ρ) (table : Table κ ν) (taken : List ρ) : Prop where
  perm : taken.Perm (Table.claimed claims table)
  nodup : (Table.claimed claims table).Nodup

namespace Booked

variable {claims : ν → List ρ} {table : Table κ ν} {taken : List ρ} {key : κ}

theorem insert {value : ν} (booked : Booked claims table taken) (absent : key ∉ table)
    (distinct : (claims value).Nodup) (fresh : ∀ resource ∈ claims value, resource ∉ taken) :
    Booked claims (table.insert key value) (claims value ++ taken) := by
  constructor
  · rw [Table.claimed_insert absent]
    exact booked.perm.append_left _
  · rw [Table.claimed_insert absent, List.nodup_append']
    refine ⟨distinct, booked.nodup, fun resource inValue inTable => ?_⟩
    exact fresh resource inValue (booked.perm.mem_iff.mpr inTable)

theorem replace {old new : ν} (booked : Booked claims table taken)
    (present : table.lookup key = some old)
    (same : claims new = claims old) : Booked claims (table.insert key new) taken := by
  have perm : (Table.claimed claims table).Perm (Table.claimed claims (table.insert key new)) := by
    rw [Table.claimed, Table.claimed, Table.entries_insert, List.flatMap_cons, same]
    exact Table.claimed_perm present
  exact ⟨booked.perm.trans perm, perm.nodup booked.nodup⟩

theorem erase [DecidableEq ρ] {value : ν} (booked : Booked claims table taken)
    (present : table.lookup key = some value) :
    Booked claims (table.erase key) (taken.filter (· ∉ claims value)) := by
  have perm : (Table.claimed claims table).Perm
      (claims value ++ Table.claimed claims (table.erase key)) := Table.claimed_perm present
  obtain ⟨_, nodup, apart⟩ := List.nodup_append'.mp (perm.nodup booked.nodup)
  have rest : (claims value ++ Table.claimed claims (table.erase key)).filter
      (· ∉ claims value) = Table.claimed claims (table.erase key) := by
    rw [List.filter_append, List.filter_eq_nil_iff.mpr (by simp), List.nil_append,
      List.filter_eq_self]
    intro resource inRest
    exact decide_eq_true fun inValue => apart inValue inRest
  refine ⟨?_, nodup⟩
  rw [← rest]
  exact (booked.perm.trans perm).filter _

end Booked
end MultiVac.Lib
