import MultiVac.Merkle.Append

/-!
# The shape of full trees

`FullMerkleTree.Append`, and the roots that it leads to. Appending in batches
gives the root that building the tree at once gives, and both are the recursive
hash that splits the leaves at the largest power of two below their number. The
map of a full tree is keyed by hash, so this needs that no leaf has the hash of an
inner node.
-/

namespace MultiVac.Merkle

open Lib

/-- `FullMerkleTree`. -/
abbrev FullMerkleTree := MerkleTree

/-- `NewFullMerkleTree()`. The root, nil in the source, is not read before it has
been set. -/
def emptyFullMerkleTree : FullMerkleTree where
  node := fun _ => default
  nextNode := 0
  nodeMap := fun _ => none
  size := 0
  merkleRoot := emptyHash
  lastNodeHash := none
  hasListener := true

namespace FullMerkleTree

/-- `updateMerkleRoot`. -/
def updateMerkleRoot (tree : FullMerkleTree) : Go FullMerkleTree :=
  match tree.lastNodeHash.bind tree.nodeMap with
  | none => Go.panic
  | some id => do
    let top ← tree.topOf (tree.nextNode + 1) id
    return { tree with merkleRoot := (tree.node top).hash }

/-- `FullMerkleTree.Append`. -/
def append (tree : FullMerkleTree) (leaves : List MerkleHash) : Go FullMerkleTree := do
  let tree ← MerkleTree.append tree leaves
  updateMerkleRoot tree

/-- Append one batch of leaves after the other. -/
def appendBatches (tree : FullMerkleTree) (batches : List (List MerkleHash)) :
    Go FullMerkleTree :=
  batches.foldlM append tree

end FullMerkleTree

/-- The recursive hash of a list of leaves: more than one leaf is split at the
largest power of two below their number. -/
def recursiveRoot : List MerkleHash → MerkleHash
  | [] => emptyHash
  | [leaf] => leaf
  | first :: second :: rest =>
    let largest := 2 ^ (rest.length + 1).log2
    nodeHash (recursiveRoot ((first :: second :: rest).take largest))
      (recursiveRoot ((first :: second :: rest).drop largest))
termination_by leaves => leaves.length
decreasing_by
  · have small : 2 ^ (rest.length + 1).log2 ≤ rest.length + 1 :=
      Nat.log2_self_le (Nat.succ_ne_zero _)
    simp only [List.length_take, List.length_cons]
    omega
  · have positive := Nat.two_pow_pos (rest.length + 1).log2
    simp only [List.length_drop, List.length_cons]
    omega

/-- The hashes of the inner nodes of the full tree over given leaves. -/
def innerHashes (leaves : List MerkleHash) : List MerkleHash :=
  match fullTree leaves with
  | none => []
  | some tree => (tree.pairs nodeHash).map fun pair => nodeHash pair.1 pair.2

theorem recursiveRoot_leaves {tree : Tree} (compact : tree.Compact) :
    recursiveRoot tree.leaves = treeRoot tree := by
  induction tree with
  | leaf value => simp [HashTree.leaves, recursiveRoot, treeRoot, HashTree.digest]
  | node left right leftIh rightIh =>
    obtain ⟨leftCompact, rightCompact, exponent, leftCount, rightCount⟩ := compact
    have leftPositive := left.count_pos
    have rightPositive := right.count_pos
    have total : (HashTree.node left right).leaves.length = left.count + right.count :=
      HashTree.count_node left right
    rcases leavesEq : (HashTree.node left right).leaves with _ | ⟨first, _ | ⟨second, rest⟩⟩
    · simp [leavesEq] at total; omega
    · simp [leavesEq] at total; omega
    · have splitEq : (rest.length + 1).log2 = exponent := by
        rw [leavesEq, List.length_cons, List.length_cons] at total
        refine (Nat.log2_eq_iff (Nat.succ_ne_zero _)).mpr ?_
        rw [pow_succ]
        omega
      rw [recursiveRoot, splitEq, ← leavesEq, HashTree.leaves,
        List.take_left' leftCount, List.drop_left' leftCount, leftIh leftCompact,
        rightIh rightCompact]
      rfl

/-! ### Appending in batches -/

open MerkleTree (Spined)

/-- A full tree with its map, its size and its root up to date. -/
structure FullMerkleTree.Holds (tree : FullMerkleTree) (leaves : List MerkleHash) : Prop where
  hasListener : tree.hasListener = true
  size : tree.size = leaves.length
  merkleRoot : tree.merkleRoot = fullRoot leaves
  stored : ∃ sketch last, Spined id tree sketch last ∧ sketch.whole.leaves = leaves ∧
    (tree.lastNodeHash.bind tree.nodeMap) = some last

/-- The end of `Append`, after the loop. -/
theorem updateMerkleRoot_holds {grown : MerkleTree} {sketch : Sketch} {last : NodeId}
    (spined : Spined id grown sketch last) (listens : grown.hasListener = true)
    (known : grown.nodeMap sketch.whole.lastLeaf = some last) (size : Int)
    (sizeEq : size = sketch.whole.leaves.length) :
    ∃ new, FullMerkleTree.updateMerkleRoot
        { grown with size := size, lastNodeHash := some (grown.node last).hash } = .ok new ∧
      FullMerkleTree.Holds new sketch.whole.leaves := by
  have hashEq := spined.hash_last
  have topEq : MerkleTree.topOf
      { grown with size := size, lastNodeHash := some (grown.node last).hash }
      (grown.nextNode + 1) last = .ok sketch.id :=
    Spined.topOf ⟨spined.stored, spined.nodup, spined.bound, spined.compact, spined.spine⟩
  refine ⟨{ grown with
    size := size, lastNodeHash := some (grown.node last).hash,
    merkleRoot := (grown.node sketch.id).hash }, ?_, listens, sizeEq, ?_, ?_⟩
  · simp only [FullMerkleTree.updateMerkleRoot, Option.bind_some, hashEq, id, known]
    simp only [hashEq, id] at topEq
    simp only [topEq, bind, Except.bind]
    rfl
  · rw [fullRoot_leaves spined.compact]
    simpa using spined.stored.hash
  · refine ⟨sketch, last, ⟨spined.stored, spined.nodup, spined.bound, spined.compact,
      spined.spine⟩, rfl, ?_⟩
    rw [Option.bind_some, hashEq]
    exact known

section Batches

variable {hashed : Set (MerkleHash × MerkleHash)} {atoms : Set MerkleHash}
  {tree : FullMerkleTree} {leaves batch : List MerkleHash}

section

variable (disjoint : ∀ pair ∈ hashed, nodeHash pair.1 pair.2 ∉ atoms)
include disjoint

/-- A batch appended to a tree that is not empty. -/
theorem FullMerkleTree.Holds.append (holds : tree.Holds leaves) (nonempty : batch ≠ [])
    (small : leaves.length + batch.length < 2 ^ 63)
    (within : ∀ extra, extra <+: batch → ∀ grown : Tree, grown.Compact →
      grown.leaves = leaves ++ extra → HashTree.Within nodeHash hashed atoms grown) :
    ∃ new, FullMerkleTree.append tree batch = .ok new ∧ new.Holds (leaves ++ batch) := by
  obtain ⟨listens, size, -, sketch, last, spined, rfl, lastEq⟩ := holds
  obtain ⟨grown, newSketch, newLast, appends, growth⟩ :=
    MerkleTree.append_growth disjoint spined size lastEq (fun _ _ => rfl) small
      (fun extra isPrefix other compact leavesEq =>
        within extra isPrefix other compact (by simpa using leavesEq))
  obtain ⟨new, updates, newHolds⟩ := updateMerkleRoot_holds growth.spined
    (growth.hasListener.trans listens) (growth.known_lastLeaf nonempty)
    (tree.size + batch.length) (by
      rw [growth.leaves, size]
      simp)
  rw [growth.leaves] at newHolds
  refine ⟨new, ?_, newHolds⟩
  simp only [FullMerkleTree.append, appends, bind, Except.bind]
  exact updates

/-- The first batch of a tree. -/
theorem append_emptyFullMerkleTree (nonempty : batch ≠ []) (small : batch.length < 2 ^ 63)
    (within : ∀ extra, extra <+: batch → ∀ grown : Tree, grown.Compact →
      grown.leaves = extra → HashTree.Within nodeHash hashed atoms grown) :
    ∃ new, FullMerkleTree.append emptyFullMerkleTree batch = .ok new ∧ new.Holds batch := by
  obtain ⟨hash, rest, rfl⟩ := List.exists_cons_of_ne_nil nonempty
  -- The first leaf is the whole tree; the loop goes on from there.
  let first : MerkleTree := { (emptyFullMerkleTree.createNode hash).2 with merkleRoot := hash }
  have spined : Spined id first (.stub 0 (.leaf hash)) 0 :=
    ⟨rfl, List.nodup_singleton 0, by simp [Sketch.ids, first, MerkleTree.createNode,
      emptyFullMerkleTree], trivial, hash, [], by simp, rfl⟩
  rw [List.length_cons] at small
  obtain ⟨newLast, grown, sketch, appends, growth⟩ :=
    MerkleTree.appendAll_growth disjoint spined (fun _ _ => rfl)
      (show 1 + rest.length < 2 ^ 63 by omega)
      (fun extra isPrefix other compact leavesEq =>
        within (hash :: extra) ((List.prefix_cons_inj hash).mpr isPrefix) other compact leavesEq)
  have known : grown.nodeMap sketch.whole.lastLeaf = some newLast := by
    by_cases alone : rest = []
    · subst alone
      obtain ⟨sameLast, sameTree⟩ := Prod.mk.inj (Except.ok.inj appends)
      have lastLeaf : sketch.whole.lastLeaf = hash :=
        @HashTree.lastLeaf_eq_of_leaves _ _ [] _ growth.leaves
      rw [lastLeaf, ← sameTree, ← sameLast]
      exact Function.update_self _ _ _
    · exact growth.known_lastLeaf alone
  obtain ⟨new, updates, holds⟩ := updateMerkleRoot_holds growth.spined growth.hasListener known
    (0 + (hash :: rest).length) (by
      rw [growth.leaves]
      simp [Sketch.whole, HashTree.leaves])
  rw [growth.leaves] at holds
  refine ⟨new, ?_, holds⟩
  have appended : MerkleTree.append emptyFullMerkleTree (hash :: rest) = .ok
      { grown with
        size := 0 + (hash :: rest).length
        lastNodeHash := some (grown.node newLast).hash } :=
    MerkleTree.append_eq (le_refl 0) appends
  simp only [FullMerkleTree.append, appended, bind, Except.bind]
  exact updates

/-- More batches for a tree that is not empty. -/
theorem FullMerkleTree.Holds.appendBatches (holds : tree.Holds leaves)
    {batches : List (List MerkleHash)} (nonempty : ∀ batch ∈ batches, batch ≠ [])
    (small : leaves.length + batches.flatten.length < 2 ^ 63)
    (within : ∀ extra, extra <+: batches.flatten → ∀ grown : Tree, grown.Compact →
      grown.leaves = leaves ++ extra → HashTree.Within nodeHash hashed atoms grown) :
    ∃ new, FullMerkleTree.appendBatches tree batches = .ok new ∧
      new.Holds (leaves ++ batches.flatten) := by
  induction batches generalizing tree leaves with
  | nil => exact ⟨tree, rfl, by simpa using holds⟩
  | cons batch batches ih =>
    rw [List.flatten_cons, List.length_append] at small
    obtain ⟨next, appends, nextHolds⟩ := holds.append disjoint (nonempty batch List.mem_cons_self)
      (by omega) (fun extra isPrefix => within extra (by
        rw [List.flatten_cons]
        exact isPrefix.trans (List.prefix_append _ _)))
    obtain ⟨new, rest, newHolds⟩ := ih nextHolds
      (fun other inBatches => nonempty other (List.mem_cons_of_mem _ inBatches))
      (by rw [List.length_append]; omega)
      (by
        intro extra isPrefix grown compact leavesEq
        refine within (batch ++ extra) ?_ grown compact (by rw [leavesEq, List.append_assoc])
        rw [List.flatten_cons]
        exact (List.prefix_append_right_inj batch).mpr isPrefix)
    refine ⟨new, ?_, by rwa [List.flatten_cons, ← List.append_assoc]⟩
    simp only [FullMerkleTree.appendBatches, List.foldlM_cons, appends, bind, Except.bind]
    exact rest

end

end Batches

/-- Building a full tree at once gives the recursive hash of the leaves, and so does
appending them in any batches, as long as no leaf has the hash of an inner node of
the trees on the way. -/
theorem fullRoot_eq_recursiveRoot_and_appendBatches {leaves : List MerkleHash}
    (nonempty : leaves ≠ []) (small : leaves.length < 2 ^ 63) :
    fullRoot leaves = recursiveRoot leaves ∧
      ((∀ part, part <+: leaves → ∀ hash ∈ innerHashes part, hash ∉ leaves) →
        ∀ batches : List (List MerkleHash), (∀ batch ∈ batches, batch ≠ []) →
          batches.flatten = leaves →
          ∃ tree, FullMerkleTree.appendBatches emptyFullMerkleTree batches = .ok tree ∧
            tree.merkleRoot = fullRoot leaves) := by
  constructor
  · have built := leaves_fullTree leaves
    rw [if_neg nonempty, Option.map_eq_some_iff] at built
    obtain ⟨tree, built, rfl⟩ := built
    rw [recursiveRoot_leaves (compact_fullTree built), fullRoot_leaves (compact_fullTree built)]
  · intro distinct batches batchesNonempty flattened
    let hashed : Set (MerkleHash × MerkleHash) :=
      { pair | ∃ part, part <+: leaves ∧ ∃ tree, fullTree part = some tree ∧
        pair ∈ tree.pairs nodeHash }
    have disjoint : ∀ pair ∈ hashed, nodeHash pair.1 pair.2 ∉ { leaf | leaf ∈ leaves } := by
      rintro pair ⟨part, isPrefix, tree, built, inTree⟩
      refine distinct part isPrefix _ ?_
      rw [innerHashes, built]
      exact List.mem_map_of_mem inTree
    have within : ∀ part, part <+: leaves → ∀ grown : Tree, grown.Compact → grown.leaves = part →
        HashTree.Within nodeHash hashed { leaf | leaf ∈ leaves } grown := by
      rintro part isPrefix grown compact rfl
      exact ⟨fun pair inTree => ⟨_, isPrefix, grown, fullTree_leaves compact, inTree⟩,
        fun leaf inLeaves => isPrefix.subset inLeaves⟩
    match batches, flattened with
    | [], flattened => exact absurd flattened.symm nonempty
    | batch :: rest, flattened =>
      rw [List.flatten_cons] at flattened
      have batchPrefix : batch <+: leaves := flattened ▸ List.prefix_append _ _
      have lengths := congrArg List.length flattened
      rw [List.length_append] at lengths
      obtain ⟨first, appends, firstHolds⟩ := append_emptyFullMerkleTree disjoint
        (batchesNonempty batch List.mem_cons_self) (by omega)
        (fun extra isPrefix => within extra (isPrefix.trans batchPrefix))
      obtain ⟨tree, restAppends, treeHolds⟩ := firstHolds.appendBatches disjoint
        (fun other inRest => batchesNonempty other (List.mem_cons_of_mem _ inRest)) (by omega)
        (by
          intro extra isPrefix grown compact leavesEq
          refine within (batch ++ extra) ?_ grown compact leavesEq
          rw [← flattened]
          exact (List.prefix_append_right_inj batch).mpr isPrefix)
      rw [flattened] at treeHolds
      refine ⟨tree, ?_, treeHolds.merkleRoot⟩
      simp only [FullMerkleTree.appendBatches, List.foldlM_cons, appends, bind, Except.bind]
      exact restAppends

/-- Three leaves. -/
def sampleLeaves : List MerkleHash := [sha256 [1], sha256 [2], sha256 [3]]

/-- One leaf, then the others. -/
theorem appendBatches_sampleLeaves :
    sampleLeaves ≠ [] ∧ sampleLeaves.length < 2 ^ 63 ∧
      (fullRoot sampleLeaves = recursiveRoot sampleLeaves ∧
        ∃ tree, FullMerkleTree.appendBatches emptyFullMerkleTree
            [sampleLeaves.take 1, sampleLeaves.drop 1] = .ok tree ∧
          tree.merkleRoot = fullRoot sampleLeaves) := by
  have result := @fullRoot_eq_recursiveRoot_and_appendBatches sampleLeaves (by decide)
    (by decide)
  have distinct : ∀ part ∈ sampleLeaves.inits, ∀ hash ∈ innerHashes part, hash ∉ sampleLeaves := by
    decide +kernel
  refine ⟨by decide, by decide, result.1, result.2 (fun part isPrefix =>
    distinct part ((List.mem_inits part _).mpr isPrefix)) _ (by decide) rfl⟩

/-- A leaf with the hash of the root before it makes the map of nodes forget that
leaf, and the next lookup of the last node fails. -/
theorem appendBatches_innerHash_panics :
    (FullMerkleTree.appendBatches emptyFullMerkleTree
        [sampleLeaves, [fullRoot sampleLeaves]]).map MerkleTree.merkleRoot = Go.panic := by
  decide +kernel

end MultiVac.Merkle
