import Mathlib.Data.List.AList
import MultiVac.Lib.Outcome

/-!
# Finite maps

A map with finitely many entries, and the loop that visits every entry and keeps,
changes or deletes it. The result does not depend on the order of the visit, since
every entry is changed on its own.
-/

namespace MultiVac.Lib

/-- A finite map. -/
abbrev Table (κ ν : Type) := AList fun _ : κ => ν

namespace Table

variable {ε κ ν : Type} [DecidableEq κ]

/-- Write or delete an entry. -/
def put (key : κ) (value : Option ν) (table : Table κ ν) : Table κ ν :=
  match value with
  | some value => table.insert key value
  | none => table.erase key

@[simp]
theorem lookup_put (key : κ) (value : Option ν) (table : Table κ ν) :
    (table.put key value).lookup key = value := by
  cases value with
  | none => exact AList.lookup_erase key table
  | some value => exact AList.lookup_insert table

theorem lookup_put_of_ne {key other : κ} (different : other ≠ key) (value : Option ν)
    (table : Table κ ν) : (table.put key value).lookup other = table.lookup other := by
  cases value with
  | none => exact AList.lookup_erase_ne different
  | some value => exact AList.lookup_insert_ne different

/-- Delete the entries whose key fails a test. -/
def keep (test : κ → Bool) (table : Table κ ν) : Table κ ν where
  entries := table.entries.filter fun entry => test entry.1
  nodupKeys := table.nodupKeys.sublist List.filter_sublist

variable {table : Table κ ν}

theorem lookup_keep_eq_some {test : κ → Bool} {key : κ} {value : ν} :
    (table.keep test).lookup key = some value ↔ test key = true ∧ table.lookup key = some value := by
  rw [← Option.mem_def, ← Option.mem_def, AList.mem_lookup_iff, AList.mem_lookup_iff]
  simp [keep, and_comm]

/-- Visit every entry; the step says what becomes of it. -/
def refresh (step : κ → ν → Except ε (Option ν)) (table : Table κ ν) : Except ε (Table κ ν) :=
  table.entries.foldlM
    (fun current entry => do return current.put entry.1 (← step entry.1 entry.2)) table

variable {step : κ → ν → Except ε (Option ν)}

theorem lookup_foldlM_put {entries : List (Sigma fun _ : κ => ν)} (distinct : entries.NodupKeys)
    {table result : Table κ ν} (looped : entries.foldlM
      (fun current entry => do return current.put entry.1 (← step entry.1 entry.2)) table =
        .ok result) :
    (∀ entry ∈ entries, step entry.1 entry.2 = .ok (result.lookup entry.1)) ∧
      ∀ key, key ∉ entries.keys → result.lookup key = table.lookup key := by
  induction entries generalizing table with
  | nil =>
    obtain rfl := pure_eq_ok.mp looped
    simp
  | cons entry entries ih =>
    obtain ⟨fresh, distinctRest⟩ := List.nodupKeys_cons.mp distinct
    rw [List.foldlM_cons, bind_eq_ok] at looped
    obtain ⟨next, stepped, rest⟩ := looped
    obtain ⟨value, stepValue, same⟩ := bind_eq_ok.mp stepped
    obtain rfl := pure_eq_ok.mp same
    obtain ⟨visited, others⟩ := ih distinctRest rest
    refine ⟨List.forall_mem_cons.mpr ⟨?_, visited⟩, fun key notIn => ?_⟩
    · rw [others _ fresh, lookup_put, stepValue]
    · rw [List.keys_cons, List.mem_cons, not_or] at notIn
      rw [others _ notIn.2, lookup_put_of_ne notIn.1]

end Table
end MultiVac.Lib
