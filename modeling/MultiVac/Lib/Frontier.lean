import Mathlib.Order.Bounds.Basic
import Mathlib.Data.Finset.Card
import Mathlib.Tactic

/-!
# The end of an unbroken run of numbers

Numbers arrive in any order. The frontier above a base is the last number up to which
all numbers above the base are present. A loop that goes on as long as the next number
is present finds it, if it may take as many steps as there are numbers.
-/

namespace MultiVac.Lib

/-- All numbers above the base and up to the frontier are present, and the next one is
not. -/
structure IsFrontier (present : Int → Prop) (base frontier : Int) : Prop where
  base_le : base ≤ frontier
  filled : ∀ number, base < number → number ≤ frontier → present number
  next_absent : ¬ present (frontier + 1)

namespace IsFrontier

variable {present : Int → Prop} {base frontier other : Int}

theorem le (isFrontier : IsFrontier present base frontier)
    (filled : ∀ number, base < number → number ≤ other → present number) : other ≤ frontier := by
  by_contra above
  have := isFrontier.base_le
  exact isFrontier.next_absent (filled (frontier + 1) (by omega) (by omega))

theorem unique (isFrontier : IsFrontier present base frontier)
    (isOther : IsFrontier present base other) : frontier = other :=
  le_antisymm (isOther.le isFrontier.filled) (isFrontier.le isOther.filled)

end IsFrontier

/-- Go on as long as the next number is present. -/
def advance (present : Int → Bool) : Nat → Int → Int
  | 0, number => number
  | fuel + 1, number => if present (number + 1) then advance present fuel (number + 1) else number

theorem isFrontier_advance {present : Int → Bool} (support : Finset Int)
    (inSupport : ∀ number, present number = true → number ∈ support) {fuel : Nat}
    {base number : Int} (enough : (support.filter (number < ·)).card ≤ fuel)
    (base_le : base ≤ number)
    (filled : ∀ other, base < other → other ≤ number → present other = true) :
    IsFrontier (present · = true) base (advance present fuel number) := by
  induction fuel generalizing number with
  | zero =>
    refine ⟨base_le, filled, fun isPresent => ?_⟩
    have none : support.filter (number < ·) = ∅ := Finset.card_eq_zero.mp (by omega)
    have inFilter : number + 1 ∈ support.filter (number < ·) :=
      Finset.mem_filter.mpr ⟨inSupport _ isPresent, by omega⟩
    rw [none] at inFilter
    exact absurd inFilter (Finset.notMem_empty _)
  | succ fuel ih =>
    rw [advance]
    split
    · rename_i isPresent
      refine ih ?_ (by omega) fun other above below => ?_
      · -- the next number is not counted any more
        have fewer : support.filter (number + 1 < ·) ⊂ support.filter (number < ·) := by
          refine Finset.ssubset_iff_subset_ne.mpr ⟨fun other inFilter => ?_, fun same => ?_⟩
          · obtain ⟨inSet, above⟩ := Finset.mem_filter.mp inFilter
            exact Finset.mem_filter.mpr ⟨inSet, by omega⟩
          · have inFilter : number + 1 ∈ support.filter (number < ·) :=
              Finset.mem_filter.mpr ⟨inSupport _ isPresent, by omega⟩
            rw [← same] at inFilter
            exact absurd (Finset.mem_filter.mp inFilter).2 (lt_irrefl _)
        have := Finset.card_lt_card fewer
        omega
      · rcases (show other ≤ number ∨ other = number + 1 by omega) with old | rfl
        · exact filled other above old
        · exact isPresent
    · rename_i absent
      exact ⟨base_le, filled, absent⟩

end MultiVac.Lib
