import MultiVac.Lib.CompactTree
import MultiVac.Merkle.Path

/-!
# Full Merkle trees

`FullMerkleTree`, built from the hashes of all its leaves. The tree is the one
that appending the leaves one by one builds: a perfect tree for each power of
two in the number of leaves, joined from the right.
-/

namespace MultiVac.Merkle

open Lib

/-- A Merkle tree over the hashes of its leaves. -/
abbrev Tree := HashTree MerkleHash

/-- The hash of the root node. -/
def treeRoot (tree : Tree) : MerkleHash := tree.digest nodeHash

/-- `buildPerfectSubtree` on `2 ^ depth` leaves; on a list of another length the
source panics. -/
def buildPerfectSubtree : Nat → List MerkleHash → Option Tree
  | 0, [leaf] => some (.leaf leaf)
  | 0, _ => none
  | depth + 1, leaves => do
    let left ← buildPerfectSubtree depth (leaves.take (2 ^ depth))
    let right ← buildPerfectSubtree depth (leaves.drop (2 ^ depth))
    return .node left right

/-- The lowest one bit of a number, `number & ^(number - 1)` in Go. -/
def lowestBit (number : Nat) : Nat := number - (number &&& (number - 1))

/-- The loop of `FullMerkleTree.init`: the leaves that are not in the tree yet,
and the tree over the leaves after them. -/
def joinSubtrees : Nat → List MerkleHash → Option Tree → Option Tree
  | 0, _, node => node
  | fuel + 1, leaves, node =>
    if leaves.isEmpty then node else do
      let lsb := lowestBit leaves.length
      let rest := leaves.length - lsb
      let subtree ← buildPerfectSubtree lsb.log2 (leaves.drop rest)
      let joined := match node with
        | none => subtree
        | some right => .node subtree right
      joinSubtrees fuel (leaves.take rest) (some joined)

/-- `NewFullMerkleTree`; `none` is the tree without leaves. -/
def fullTree (leaves : List MerkleHash) : Option Tree :=
  joinSubtrees leaves.length leaves none

/-- The root of a full tree, or the empty hash when there are no leaves. -/
def fullRoot (leaves : List MerkleHash) : MerkleHash :=
  match fullTree leaves with
  | none => emptyHash
  | some tree => treeRoot tree

/-! ### The leaves of a full tree -/

variable {depth : Nat} {leaves : List MerkleHash}

theorem leaves_buildPerfectSubtree (length : leaves.length = 2 ^ depth) :
    ∃ tree, buildPerfectSubtree depth leaves = some tree ∧ tree.leaves = leaves := by
  induction depth generalizing leaves with
  | zero =>
    obtain ⟨leaf, rfl⟩ := List.length_eq_one_iff.mp (by simpa using length)
    exact ⟨.leaf leaf, rfl, rfl⟩
  | succ depth ih =>
    rw [pow_succ] at length
    obtain ⟨left, builtLeft, leftLeaves⟩ := @ih (leaves.take (2 ^ depth)) (by
        rw [List.length_take]
        omega)
    obtain ⟨right, builtRight, rightLeaves⟩ := @ih (leaves.drop (2 ^ depth)) (by
        rw [List.length_drop]
        omega)
    refine ⟨.node left right, by simp [buildPerfectSubtree, builtLeft, builtRight], ?_⟩
    rw [HashTree.leaves, leftLeaves, rightLeaves, List.take_append_drop]

theorem lowestBit_double (number : Nat) : lowestBit (2 * number) = 2 * lowestBit number := by
  rcases Nat.eq_zero_or_pos number with rfl | positive
  · rfl
  have halves : (2 * number) &&& (2 * number - 1) = 2 * (number &&& (number - 1)) := by
    apply Nat.eq_of_testBit_eq
    intro bit
    cases bit with
    | zero =>
      rw [Nat.testBit_and, Nat.testBit_zero, Nat.testBit_zero, Nat.testBit_zero]
      simp
    | succ bit =>
      rw [Nat.testBit_and, Nat.testBit_succ, Nat.testBit_succ, Nat.testBit_succ,
        Nat.mul_div_cancel_left _ (by decide), Nat.mul_div_cancel_left _ (by decide),
        show (2 * number - 1) / 2 = number - 1 by omega, Nat.testBit_and]
  unfold lowestBit
  omega

theorem lowestBit_odd (number : Nat) : lowestBit (2 * number + 1) = 1 := by
  have halves : (2 * number + 1) &&& (2 * number + 1 - 1) = 2 * number := by
    apply Nat.eq_of_testBit_eq
    intro bit
    cases bit with
    | zero =>
      rw [Nat.testBit_and, Nat.testBit_zero, Nat.testBit_zero]
      simp
    | succ bit =>
      rw [Nat.testBit_and, Nat.testBit_succ, Nat.testBit_succ, Nat.testBit_succ,
        show (2 * number + 1) / 2 = number by omega,
        show (2 * number + 1 - 1) / 2 = number by omega,
        show (2 * number) / 2 = number by omega, Bool.and_self]
  unfold lowestBit
  omega

/-- The lowest bit is the largest power of two that divides the number. -/
theorem lowestBit_eq_two_pow {number : Nat} (positive : 0 < number) :
    ∃ exponent, lowestBit number = 2 ^ exponent ∧ 2 ^ exponent ∣ number ∧
      ¬ 2 ^ (exponent + 1) ∣ number := by
  induction number using Nat.strong_induction_on with
  | h number ih =>
    obtain ⟨half, rfl | rfl⟩ := Nat.even_or_odd' number
    · obtain ⟨exponent, lowest, divides, maximal⟩ := ih half (by omega) (by omega)
      refine ⟨exponent + 1, ?_, ?_, ?_⟩
      · rw [lowestBit_double, lowest]
        ring
      · rw [pow_succ']
        exact Nat.mul_dvd_mul_left 2 divides
      · rw [pow_succ']
        exact fun double => maximal (Nat.dvd_of_mul_dvd_mul_left (by decide) double)
    · exact ⟨0, lowestBit_odd half, one_dvd _, by omega⟩

/-- Without its lowest bit, a number has a lowest bit at least twice as large. -/
theorem two_mul_lowestBit_le {number : Nat} (more : lowestBit number < number) :
    2 * lowestBit number ≤ lowestBit (number - lowestBit number) := by
  obtain ⟨exponent, lowest, ⟨factor, rfl⟩, maximal⟩ := lowestBit_eq_two_pow (Nat.zero_lt_of_lt more)
  rw [lowest] at more ⊢
  obtain ⟨other, otherLowest, otherDivides, otherMaximal⟩ :=
    lowestBit_eq_two_pow (Nat.sub_pos_of_lt more)
  rw [otherLowest, ← pow_succ']
  apply Nat.pow_le_pow_right (by decide)
  by_contra less
  apply otherMaximal
  refine (Nat.pow_dvd_pow 2 (show other + 1 ≤ exponent + 1 by omega)).trans ?_
  -- The factor is odd, so the difference is divisible once more.
  obtain ⟨half, even | odd⟩ := Nat.even_or_odd' factor
  · exact absurd ⟨half, by rw [even, pow_succ]; ring⟩ maximal
  · refine ⟨half, ?_⟩
    rw [odd, Nat.mul_add, Nat.mul_one, Nat.add_sub_cancel, pow_succ]
    ring

variable {fuel : Nat} {node : Option Tree}

theorem leaves_joinSubtrees (enough : leaves.length ≤ fuel) :
    (joinSubtrees fuel leaves node).map HashTree.leaves =
      if leaves = [] then node.map HashTree.leaves
      else some (leaves ++ (node.map HashTree.leaves).getD []) := by
  induction fuel generalizing leaves node with
  | zero =>
    obtain rfl := List.length_eq_zero_iff.mp (Nat.le_zero.mp enough)
    rfl
  | succ fuel ih =>
    by_cases empty : leaves = []
    · subst empty
      rfl
    · have positive : 0 < leaves.length := List.length_pos_iff.mpr empty
      obtain ⟨exponent, lowest, divides, -⟩ := lowestBit_eq_two_pow positive
      have bound := Nat.le_of_dvd positive divides
      have lastLength : (leaves.drop (leaves.length - lowestBit leaves.length)).length =
          2 ^ exponent := by
        rw [List.length_drop, lowest]
        omega
      obtain ⟨subtree, built, subtreeLeaves⟩ := leaves_buildPerfectSubtree lastLength
      have shorter : (leaves.take (leaves.length - lowestBit leaves.length)).length ≤ fuel := by
        have := Nat.two_pow_pos exponent
        rw [List.length_take, lowest]
        omega
      have exponentEq : (lowestBit leaves.length).log2 = exponent := by
        rw [lowest, Nat.log2_two_pow]
      simp only [joinSubtrees, List.isEmpty_iff, empty, if_false, exponentEq, built,
        Option.bind_eq_bind, Option.bind_some]
      rw [ih shorter]
      have parts := List.take_append_drop (leaves.length - lowestBit leaves.length) leaves
      -- The leaves before the subtree and those of the subtree are all leaves.
      have joinedLeaves : (match node with
          | none => subtree
          | some right => .node subtree right : Tree).leaves =
            leaves.drop (leaves.length - lowestBit leaves.length) ++
              (node.map HashTree.leaves).getD [] := by
        cases node <;> simp [HashTree.leaves, subtreeLeaves]
      simp only [Option.map_some, Option.getD_some, joinedLeaves]
      split
      · next noneBefore =>
        rw [noneBefore, List.nil_append] at parts
        rw [parts]
      · rw [← List.append_assoc, parts]

/-- A full tree has the given leaves. -/
theorem leaves_fullTree (leaves : List MerkleHash) :
    (fullTree leaves).map HashTree.leaves = if leaves = [] then none else some leaves := by
  rw [fullTree, leaves_joinSubtrees (le_refl _)]
  simp

variable {tree : Tree}

theorem leaves_of_fullTree (built : fullTree leaves = some tree) : tree.leaves = leaves := by
  have leavesEq := leaves_fullTree leaves
  rw [built] at leavesEq
  split at leavesEq <;> simp_all

/-! ### The shape of a full tree -/

theorem compact_buildPerfectSubtree (built : buildPerfectSubtree depth leaves = some tree) :
    tree.Compact ∧ tree.count = 2 ^ depth := by
  induction depth generalizing leaves tree with
  | zero =>
    match leaves, built with
    | [leaf], rfl => exact ⟨trivial, rfl⟩
  | succ depth ih =>
    simp only [buildPerfectSubtree, Option.bind_eq_bind, Option.bind_eq_some_iff,
      Option.pure_def, Option.some.injEq] at built
    obtain ⟨left, builtLeft, right, builtRight, rfl⟩ := built
    obtain ⟨leftCompact, leftCount⟩ := ih builtLeft
    obtain ⟨rightCompact, rightCount⟩ := ih builtRight
    refine ⟨⟨leftCompact, rightCompact, depth, leftCount, Nat.le_of_eq rightCount⟩, ?_⟩
    rw [HashTree.count_node, leftCount, rightCount]
    ring

/-- The loop of `init` keeps the tree compact, because the tree over the later
leaves is never larger than the next perfect subtree. -/
theorem compact_joinSubtrees
    (compact : ∀ right ∈ node, right.Compact ∧ (leaves ≠ [] → right.count ≤ lowestBit leaves.length))
    (built : joinSubtrees fuel leaves node = some tree) : tree.Compact := by
  induction fuel generalizing leaves node with
  | zero => exact (compact tree built).1
  | succ fuel ih =>
    by_cases empty : leaves = []
    · subst empty
      exact (compact tree built).1
    · have positive : 0 < leaves.length := List.length_pos_iff.mpr empty
      obtain ⟨exponent, lowest, -, -⟩ := lowestBit_eq_two_pow positive
      simp only [joinSubtrees, List.isEmpty_iff, empty, if_false, Option.bind_eq_bind,
        Option.bind_eq_some_iff, lowest, Nat.log2_two_pow] at built
      obtain ⟨subtree, builtSubtree, built⟩ := built
      obtain ⟨subtreeCompact, subtreeCount⟩ := compact_buildPerfectSubtree builtSubtree
      refine ih ?_ built
      rintro joined ⟨⟩
      have remaining : leaves.take (leaves.length - 2 ^ exponent) ≠ [] → 2 * 2 ^ exponent ≤
            lowestBit (leaves.take (leaves.length - 2 ^ exponent)).length := by
        intro more
        have less : lowestBit leaves.length < leaves.length := by
          have := List.length_pos_iff.mpr more
          rw [List.length_take] at this
          omega
        have larger := two_mul_lowestBit_le less
        rw [lowest] at larger
        rwa [List.length_take, Nat.min_eq_left (Nat.sub_le _ _)]
      cases node with
      | none =>
        refine ⟨subtreeCompact, fun more => ?_⟩
        have := remaining more
        simp only [subtreeCount]
        omega
      | some right =>
        obtain ⟨rightCompact, rightCount⟩ := compact right rfl
        have rightBound := rightCount empty
        rw [lowest] at rightBound
        refine ⟨⟨subtreeCompact, rightCompact, exponent, subtreeCount, rightBound⟩, ?_⟩
        intro more
        have := remaining more
        simp only [HashTree.count_node, subtreeCount]
        omega

theorem compact_fullTree (built : fullTree leaves = some tree) : tree.Compact :=
  compact_joinSubtrees (by rintro right ⟨⟩) built

/-- A compact tree is the full tree over its leaves. -/
theorem fullTree_leaves {tree : Tree} (compact : tree.Compact) :
    fullTree tree.leaves = some tree := by
  have sameLeaves := leaves_fullTree tree.leaves
  rw [if_neg tree.leaves_ne_nil, Option.map_eq_some_iff] at sameLeaves
  obtain ⟨full, built, sameLeaves⟩ := sameLeaves
  rw [built, (compact_fullTree built).eq_of_leaves_eq compact sameLeaves]

theorem fullRoot_leaves {tree : Tree} (compact : tree.Compact) :
    fullRoot tree.leaves = treeRoot tree := by
  rw [fullRoot, fullTree_leaves compact]

theorem fullRoot_singleton (hash : MerkleHash) : fullRoot [hash] = hash := by
  simp [fullRoot, fullTree, joinSubtrees, lowestBit, show Nat.log2 1 = 0 by decide,
    buildPerfectSubtree, treeRoot, HashTree.digest]

end MultiVac.Merkle
