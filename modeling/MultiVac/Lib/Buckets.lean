import Mathlib.Tactic

/-!
# Lists in the order of a key

The elements of a list bucket by bucket, for positive integer keys up to a bound. A list
that is in the order of its keys is not changed.
-/

namespace MultiVac.Lib

variable {α : Type}

/-- The elements whose keys are from one to `count`, by increasing key; elements of one
key keep their order. -/
def byKey (key : α → Int) (count : Nat) (elements : List α) : List α :=
  (List.range count).flatMap fun index : Nat =>
    elements.filter fun element => key element = (index : Int) + 1

variable {key : α → Int} {elements : List α}

/-- The last bucket of a list in order is its end. -/
theorem filter_le_add_one (inOrder : elements.Pairwise fun first second => key first ≤ key second)
    (bound : Int) :
    elements.filter (fun element => key element ≤ bound + 1) =
      elements.filter (fun element => key element ≤ bound) ++
        elements.filter (fun element => key element = bound + 1) := by
  induction elements with
  | nil => rfl
  | cons element elements ih =>
    obtain ⟨least, inOrder⟩ := List.pairwise_cons.mp inOrder
    have others := ih inOrder
    by_cases small : key element ≤ bound
    · have different : key element ≠ bound + 1 := by omega
      have smaller : key element ≤ bound + 1 := by omega
      simp [small, smaller, different, others]
    · -- nothing after the element is in an earlier bucket
      have noEarlier : elements.filter (fun other => key other ≤ bound) = [] := by
        rw [List.filter_eq_nil_iff]
        intro other inElements
        have := least other inElements
        simp only [decide_eq_true_eq]
        omega
      rw [noEarlier, List.nil_append] at others
      by_cases last : key element = bound + 1
      · simp [last, noEarlier, others]
      · have large : ¬key element ≤ bound + 1 := by omega
        simp [small, last, large, noEarlier, others]

theorem byKey_eq_filter (inOrder : elements.Pairwise fun first second => key first ≤ key second)
    (positive : ∀ element ∈ elements, 1 ≤ key element) (count : Nat) :
    byKey key count elements = elements.filter fun element => key element ≤ count := by
  induction count with
  | zero =>
    symm
    rw [byKey, List.range_zero, List.flatMap_nil, List.filter_eq_nil_iff]
    intro element inElements
    have := positive element inElements
    simp only [decide_eq_true_eq]
    omega
  | succ count ih =>
    have split := filter_le_add_one inOrder (count : Int)
    rw [byKey, List.range_succ, List.flatMap_append, List.flatMap_singleton]
    rw [byKey] at ih
    rw [ih, ← split]
    push_cast
    rfl

/-- A list in order is not changed. -/
theorem byKey_eq_self (inOrder : elements.Pairwise fun first second => key first ≤ key second)
    (positive : ∀ element ∈ elements, 1 ≤ key element) {count : Nat}
    (bounded : ∀ element ∈ elements, key element ≤ count) :
    byKey key count elements = elements := by
  rw [byKey_eq_filter inOrder positive, List.filter_eq_self]
  intro element inElements
  exact decide_eq_true (bounded element inElements)

end MultiVac.Lib
