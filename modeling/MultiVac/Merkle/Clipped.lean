import MultiVac.Merkle.Refresh

/-!
# Clipped Merkle trees

`GetMerklePath` of a full tree, and the clipped tree that is rebuilt from some
neighbouring leaves and the Merkle paths of the first and the last of them. The
missing subtrees on either side are taken from the two paths.
-/

namespace MultiVac.Merkle

open Wire (MerklePath)
open Lib

/-- A node with the frames above it. -/
abbrev Place := Tree × List (HashTree.Frame MerkleHash)

/-- A node below one more frame. -/
def placeUnder (frame : HashTree.Frame MerkleHash) (place : Place) : Place :=
  (place.1, place.2 ++ [frame])

/-- The nodes of a full tree with the frames above them, in the order in which
`NewFullMerkleTree` creates them: a perfect subtree from left to right, and the
perfect subtrees from right to left. -/
def places : Tree → List Place
  | .leaf hash => [(.leaf hash, [])]
  | .node left right =>
    let inLeft := (places left).map (placeUnder ⟨false, right⟩)
    let inRight := (places right).map (placeUnder ⟨true, left⟩)
    (if left.count = right.count then inLeft ++ inRight else inRight ++ inLeft) ++
      [(.node left right, [])]

/-- `GetMerklePath` of a tree with the given root whose nodes were created in the
given order. The map of nodes holds the node that was created last for a hash. -/
def getMerklePathAmong (created : List Place) (root hash : MerkleHash) : Go MerklePath :=
  match created.reverse.find? fun place => treeRoot place.1 = hash with
  | none => Go.fail "can't find hash in merkle tree"
  | some place => do
    verify (pathOf hash (place.2.map stepOf)) root
    return pathOf hash (place.2.map stepOf)

/-- `GetMerklePath` of the full tree over some leaves. -/
def fullMerklePath (leaves : List MerkleHash) (hash : MerkleHash) : Go MerklePath :=
  match fullTree leaves with
  | none => Go.fail "can't find hash in merkle tree"
  | some tree => getMerklePathAmong (places tree) (treeRoot tree) hash

/-! ### The builder -/

/-- A node of a clipped tree, with it and the nodes below it in the order of their
creation. -/
structure ClippedTree where
  tree : Tree
  created : List Place

namespace ClippedTree

/-- A node without children. -/
def ofHash (hash : MerkleHash) : ClippedTree := ⟨.leaf hash, [(.leaf hash, [])]⟩

/-- A node over two others. -/
def join (leftFirst : Bool) (left right : ClippedTree) : ClippedTree where
  tree := .node left.tree right.tree
  created :=
    let inLeft := left.created.map (placeUnder ⟨false, right.tree⟩)
    let inRight := right.created.map (placeUnder ⟨true, left.tree⟩)
    (if leftFirst then inLeft ++ inRight else inRight ++ inLeft) ++
      [(.node left.tree right.tree, [])]

/-- `GetMerklePath`. -/
def getMerklePath (clipped : ClippedTree) (hash : MerkleHash) : Go MerklePath :=
  getMerklePathAmong clipped.created (treeRoot clipped.tree) hash

end ClippedTree

/-- What `buildPerfectSubtree` returns: the node, if any of its leaves is known, and
whether the first and the last known leaf are below it. -/
structure ClippedSubtree where
  node : Option ClippedTree
  useLeft : Bool
  useRight : Bool

/-- How far the builder has climbed along the two Merkle paths. -/
structure ClippedDepths where
  leftDepth : Nat
  rightDepth : Nat

/-- The fields of `clippedMerkleTreeBuilder` that do not change. -/
structure ClippedBuilder where
  size : Int
  startIndex : Int
  leaves : List MerkleHash
  leftMerklePath : MerklePath
  rightMerklePath : MerklePath

namespace ClippedBuilder

variable (builder : ClippedBuilder)

/-- `StartIndex + NumLeaves`. Where this overflows in the source, neither the source
nor the model reaches the end of the known leaves. -/
def endIndex : Int := builder.startIndex + builder.leaves.length

/-- `getLeave`. -/
def getLeave (index : Int) : Option MerkleHash :=
  let index := index - builder.startIndex
  if 0 ≤ index ∧ index < builder.leaves.length then builder.leaves[index.toNat]? else none

/-- `path.Hashes[depth]`. -/
def hashAt (path : MerklePath) (depth : Nat) : Go MerkleHash :=
  match path.hashes.elems[depth]? with
  | none => Go.panic
  | some hash => .ok hash

/-- `createParentNode`. The flag says which of the two children was created first. -/
def createParentNode (leftFirst : Bool) (leftNode rightNode : Option ClippedTree)
    (useLeft useRight : Bool) (depths : ClippedDepths) : Go (ClippedSubtree × ClippedDepths) := do
  let depths : ClippedDepths :=
    { leftDepth := if useLeft then depths.leftDepth + 1 else depths.leftDepth
      rightDepth := if useRight then depths.rightDepth + 1 else depths.rightDepth }
  match leftNode, rightNode with
  | none, none => return (⟨none, useLeft, useRight⟩, depths)
  | none, some right =>
    let leftHash ← hashAt builder.leftMerklePath depths.leftDepth
    return (⟨some (.join false (.ofHash leftHash) right), useLeft, useRight⟩, depths)
  | some left, none =>
    let rightHash ← hashAt builder.rightMerklePath depths.rightDepth
    return (⟨some (.join true left (.ofHash rightHash)), useLeft, useRight⟩, depths)
  | some left, some right =>
    return (⟨some (.join leftFirst left right), useLeft, useRight⟩, depths)

/-- `end <= builder.StartIndex || start >= builder.StartIndex+builder.NumLeaves`. -/
def Outside (start stop : Int) : Prop :=
  stop ≤ builder.startIndex ∨ builder.endIndex ≤ start

instance (start stop : Int) : Decidable (builder.Outside start stop) :=
  inferInstanceAs (Decidable (_ ∨ _))

/-- `buildPerfectSubtree` on the `2 ^ depth` leaves from an index on. -/
def buildPerfectSubtree : Nat → Int → ClippedDepths → Go (ClippedSubtree × ClippedDepths)
  | 0, start, depths =>
    if builder.Outside start (start + 1) then
      return (⟨none, false, false⟩, depths)
    else
      return (⟨(builder.getLeave start).map .ofHash, start = builder.startIndex,
        builder.endIndex = start + 1⟩, depths)
  | depth + 1, start, depths =>
    if builder.Outside start (start + 2 ^ (depth + 1)) then
      return (⟨none, false, false⟩, depths)
    else do
      let (left, depths) ← buildPerfectSubtree depth start depths
      let (right, depths) ← buildPerfectSubtree depth (start + 2 ^ depth) depths
      builder.createParentNode true left.node right.node (left.useLeft || right.useLeft)
        (left.useRight || right.useRight) depths

/-- One iteration of the loop of `build`, on the perfect subtree that ends with the
given leaf. There is no right subtree before the first one. -/
def joinSubtree (numberOfNodes : Nat) (rightChild : Option ClippedSubtree)
    (depths : ClippedDepths) : Go (ClippedSubtree × ClippedDepths) := do
  let lsb := lowestBit numberOfNodes
  let (left, depths) ← builder.buildPerfectSubtree lsb.log2 (numberOfNodes - lsb : Nat) depths
  match rightChild with
  | none => return (left, depths)
  | some right =>
    builder.createParentNode false left.node right.node (right.useLeft || left.useLeft)
      (right.useRight || left.useRight) depths

/-- The loop of `build`. -/
def joinSubtrees : Nat → Nat → Option ClippedSubtree → ClippedDepths → Go (Option ClippedSubtree)
  | 0, _, rightChild, _ => .ok rightChild
  | fuel + 1, numberOfNodes, rightChild, depths =>
    if numberOfNodes = 0 then .ok rightChild
    else do
      let (joined, depths) ← builder.joinSubtree numberOfNodes rightChild depths
      joinSubtrees fuel (numberOfNodes - lowestBit numberOfNodes) (some joined) depths

/-- `build`. -/
def build : Go ClippedTree := do
  let size := builder.size.toNat
  match ← builder.joinSubtrees size size none ⟨0, 0⟩ with
  | none => Go.fail "Left merkle path and right merkle path must be used. There is a bug in the code"
  | some built => do
    Go.require (built.useLeft && built.useRight)
      "Left merkle path and right merkle path must be used. There is a bug in the code"
    match built.node with
    | none => Go.panic
    | some node => return node

/-- `NewClippedMerkleTree`. `Size` and the hash of the last leaf of the tree are not
kept: no caller reads them. -/
def newClippedMerkleTree : Go ClippedTree := do
  Go.require (!builder.leaves.isEmpty) "At least one leaf is needed"
  builder.build

/-! ### The leaves of a clipped tree -/

/-- The known leaves with an index from `start` on and below `stop`. -/
def known (start stop : Int) : List MerkleHash :=
  (builder.leaves.take (stop - builder.startIndex).toNat).drop (start - builder.startIndex).toNat

variable {builder} {start middle stop : Int}

theorem known_append (lower : start ≤ middle) (upper : middle ≤ stop) :
    builder.known start middle ++ builder.known middle stop = builder.known start stop := by
  obtain ⟨first, firstEq⟩ : ∃ first, first = (start - builder.startIndex).toNat := ⟨_, rfl⟩
  obtain ⟨second, secondEq⟩ : ∃ second, second = (middle - builder.startIndex).toNat := ⟨_, rfl⟩
  obtain ⟨third, thirdEq⟩ : ∃ third, third = (stop - builder.startIndex).toNat := ⟨_, rfl⟩
  have firstLe : first ≤ second := by omega
  have secondLe : second ≤ third := by omega
  simp only [known, ← firstEq, ← secondEq, ← thirdEq]
  apply List.ext_getElem?
  intro index
  rw [List.getElem?_append]
  simp only [List.length_drop, List.length_take, List.getElem?_drop, List.getElem?_take]
  split_ifs <;> grind

theorem known_of_outside
    (outside : builder.Outside start stop) : builder.known start stop = [] := by
  rw [known, List.drop_eq_nil_iff, List.length_take]
  rcases outside with before | after
  · omega
  · rw [endIndex] at after
    omega

/-- What is known of a subtree over the leaves from `start` on and below `stop`: its
leaves are the known ones, and hashes from the Merkle paths on either side. -/
structure Covers (builder : ClippedBuilder) (start stop : Int) (subtree : ClippedSubtree) :
    Prop where
  useLeft : subtree.useLeft = true → start ≤ builder.startIndex
  useRight : subtree.useRight = true → builder.endIndex ≤ stop
  outside : subtree.node = none → builder.Outside start stop
  inside : ∀ node ∈ subtree.node, ¬ builder.Outside start stop ∧
    ∃ before after, node.tree.leaves = before ++ (builder.known start stop ++ after) ∧
      (builder.startIndex ≤ start → before = []) ∧ (stop ≤ builder.endIndex → after = [])

theorem covers_none
    (outside : builder.Outside start stop) : builder.Covers start stop ⟨none, false, false⟩ :=
  ⟨by simp, by simp, fun _ => outside, by simp⟩

theorem hashAt_eq_ok (path : MerklePath) (depth : Nat) (hash : MerkleHash) :
    hashAt path depth = .ok hash ↔ path.hashes.elems[depth]? = some hash := by
  unfold hashAt
  cases path.hashes.elems[depth]? <;> simp

variable {depths after : ClippedDepths} {subtree : ClippedSubtree}
  {leftFirst useLeft useRight : Bool}

/-- What `createParentNode` makes of its children. -/
theorem createParentNode_cases {leftNode rightNode : Option ClippedTree}
    (created : builder.createParentNode leftFirst leftNode rightNode useLeft useRight depths =
      .ok (subtree, after)) :
    subtree.useLeft = useLeft ∧ subtree.useRight = useRight ∧
      ((leftNode = none ∧ rightNode = none ∧ subtree.node = none) ∨
        (∃ right hash, leftNode = none ∧ rightNode = some right ∧
          subtree.node = some (.join false (.ofHash hash) right)) ∨
        (∃ left hash, leftNode = some left ∧ rightNode = none ∧
          subtree.node = some (.join true left (.ofHash hash))) ∨
        ∃ left right, leftNode = some left ∧ rightNode = some right ∧
          subtree.node = some (.join leftFirst left right)) := by
  cases leftNode <;> cases rightNode <;>
    simp only [createParentNode, bind_eq_ok, pure_eq_ok, Prod.mk.injEq] at created
  · obtain ⟨rfl, -⟩ := created
    exact ⟨rfl, rfl, .inl ⟨rfl, rfl, rfl⟩⟩
  · obtain ⟨hash, -, rfl, -⟩ := created
    exact ⟨rfl, rfl, .inr (.inl ⟨_, hash, rfl, rfl, rfl⟩)⟩
  · obtain ⟨hash, -, rfl, -⟩ := created
    exact ⟨rfl, rfl, .inr (.inr (.inl ⟨_, hash, rfl, rfl, rfl⟩))⟩
  · obtain ⟨rfl, -⟩ := created
    exact ⟨rfl, rfl, .inr (.inr (.inr ⟨_, _, rfl, rfl, rfl⟩))⟩

theorem Covers.createParentNode (nonempty : builder.leaves ≠ []) (lower : start < middle)
    (upper : middle < stop) {left right : ClippedSubtree}
    (leftCovers : builder.Covers start middle left) (rightCovers : builder.Covers middle stop right)
    (leftUsed : useLeft = true → left.useLeft = true ∨ right.useLeft = true)
    (rightUsed : useRight = true → left.useRight = true ∨ right.useRight = true)
    (created : builder.createParentNode leftFirst left.node right.node useLeft useRight depths =
      .ok (subtree, after)) :
    builder.Covers start stop subtree := by
  have someLeaf : builder.startIndex < builder.endIndex := by
    have := List.length_pos_iff.mpr nonempty
    rw [endIndex]
    omega
  obtain ⟨sameLeft, sameRight, made⟩ := createParentNode_cases created
  have parts : builder.known start middle ++ builder.known middle stop =
      builder.known start stop := known_append lower.le upper.le
  refine ⟨?_, ?_, ?_, ?_⟩
  · intro used
    rcases leftUsed (sameLeft ▸ used) with inLeft | inRight
    · exact leftCovers.useLeft inLeft
    · exact lower.le.trans (rightCovers.useLeft inRight)
  · intro used
    rcases rightUsed (sameRight ▸ used) with inLeft | inRight
    · exact (leftCovers.useRight inLeft).trans upper.le
    · exact rightCovers.useRight inRight
  · intro noNode
    obtain ⟨noLeft, noRight, -⟩ | ⟨_, _, -, -, made⟩ | ⟨_, _, -, -, made⟩ | ⟨_, _, -, -, made⟩ := made
    · have leftOutside := leftCovers.outside noLeft
      have rightOutside := rightCovers.outside noRight
      simp only [Outside] at leftOutside rightOutside ⊢
      omega
    all_goals simp [noNode] at made
  · intro node isNode
    obtain ⟨-, -, made⟩ | ⟨child, hash, noLeft, isRight, made⟩ | ⟨child, hash, isLeft, noRight, made⟩ |
      ⟨leftChild, rightChild, isLeft, isRight, made⟩ := made
    · simp [made] at isNode
    · obtain rfl : _ = node := by simpa [made] using isNode
      obtain ⟨rightInside, before, after, leavesEq, noBefore, noAfter⟩ :=
        rightCovers.inside child (by simp [isRight])
      have leftOutside := leftCovers.outside noLeft
      rw [known_of_outside leftOutside, List.nil_append] at parts
      simp only [Outside] at leftOutside rightInside ⊢
      refine ⟨by omega, hash :: before, after, ?_, by omega, noAfter⟩
      rw [← parts]
      simp [ClippedTree.join, ClippedTree.ofHash, HashTree.leaves, leavesEq]
    · obtain rfl : _ = node := by simpa [made] using isNode
      obtain ⟨leftInside, before, after, leavesEq, noBefore, noAfter⟩ :=
        leftCovers.inside child (by simp [isLeft])
      have rightOutside := rightCovers.outside noRight
      rw [known_of_outside rightOutside, List.append_nil] at parts
      simp only [Outside] at leftInside rightOutside ⊢
      refine ⟨by omega, before, after ++ [hash], ?_, noBefore, by omega⟩
      rw [← parts]
      simp [ClippedTree.join, ClippedTree.ofHash, HashTree.leaves, leavesEq]
    · obtain rfl : _ = node := by simpa [made] using isNode
      obtain ⟨leftInside, before, nothing, leftLeaves, noBefore, isNothing⟩ :=
        leftCovers.inside leftChild (by simp [isLeft])
      obtain ⟨rightInside, nothingToo, after, rightLeaves, isNothingToo, noAfter⟩ :=
        rightCovers.inside rightChild (by simp [isRight])
      simp only [Outside] at leftInside rightInside ⊢
      obtain rfl := isNothing (by omega)
      obtain rfl := isNothingToo (by omega)
      refine ⟨by omega, before, after, ?_, noBefore, noAfter⟩
      rw [← parts]
      simp [ClippedTree.join, HashTree.leaves, leftLeaves, rightLeaves]

theorem covers_leaf (inside : ¬ builder.Outside start (start + 1)) :
    builder.Covers start (start + 1) ⟨(builder.getLeave start).map .ofHash,
      start = builder.startIndex, builder.endIndex = start + 1⟩ := by
  have bounds := inside
  simp only [Outside, endIndex] at bounds
  obtain ⟨offset, offsetEq⟩ : ∃ offset, offset = (start - builder.startIndex).toNat := ⟨_, rfl⟩
  have inLeaves : offset < builder.leaves.length := by omega
  have isLeaf : builder.getLeave start = some builder.leaves[offset] := by
    rw [getLeave, if_pos (by omega), ← offsetEq, List.getElem?_eq_getElem inLeaves]
  have onlyLeaf : builder.known start (start + 1) = [builder.leaves[offset]] := by
    rw [known, ← offsetEq, show (start + 1 - builder.startIndex).toNat = offset + 1 by omega,
      List.take_succ_eq_append_getElem inLeaves, List.drop_append_of_le_length (by simp; omega),
      List.drop_take_self, List.nil_append]
  refine ⟨fun used => ?_, fun used => ?_, ?_, ?_⟩
  · exact (of_decide_eq_true used).le
  · exact (of_decide_eq_true used).le
  · simp [isLeaf]
  · simp only [isLeaf, onlyLeaf, Option.map_some, Option.mem_some_iff, forall_eq']
    exact ⟨inside, [], [], rfl, fun _ => rfl, fun _ => rfl⟩

theorem covers_buildPerfectSubtree (nonempty : builder.leaves ≠ []) {depth : Nat}
    (built : builder.buildPerfectSubtree depth start depths = .ok (subtree, after)) :
    builder.Covers start (start + 2 ^ depth) subtree := by
  induction depth generalizing start depths after subtree with
  | zero =>
    rw [buildPerfectSubtree] at built
    split at built
    · next outside =>
      cases built
      exact covers_none outside
    · next inside =>
      cases built
      exact covers_leaf inside
  | succ depth ih =>
    rw [buildPerfectSubtree] at built
    split at built
    · next outside =>
      cases built
      exact covers_none outside
    · simp only [bind_eq_ok, Prod.exists] at built
      obtain ⟨left, afterLeft, builtLeft, right, afterRight, builtRight, created⟩ := built
      have positive : (0 : Int) < 2 ^ depth := by positivity
      have rightCovers := ih builtRight
      rw [add_assoc, show (2 : Int) ^ depth + 2 ^ depth = 2 ^ (depth + 1) by ring] at rightCovers
      refine Covers.createParentNode nonempty (by omega) ?_ (ih builtLeft)
        rightCovers (by simp) (by simp) created
      rw [pow_succ]
      omega

variable {rightChild : Option ClippedSubtree} {numberOfNodes size : Nat}

/-- The loop of `build` covers the leaves from `numberOfNodes` on. -/
theorem covers_joinSubtree (nonempty : builder.leaves ≠ []) (positive : 0 < numberOfNodes)
    (covered : ∀ right ∈ rightChild, builder.Covers numberOfNodes size right ∧ numberOfNodes < size)
    (first : rightChild = none → numberOfNodes = size) {joined : ClippedSubtree}
    (built : builder.joinSubtree numberOfNodes rightChild depths = .ok (joined, after)) :
    builder.Covers (numberOfNodes - lowestBit numberOfNodes : Nat) size joined := by
  obtain ⟨exponent, lowest, divides, -⟩ := lowestBit_eq_two_pow positive
  have bound := Nat.le_of_dvd positive divides
  have small := Nat.two_pow_pos exponent
  simp only [joinSubtree, lowest, Nat.log2_two_pow, bind_eq_ok, Prod.exists] at built
  obtain ⟨left, afterLeft, builtLeft, built⟩ := built
  have leftCovers := covers_buildPerfectSubtree nonempty builtLeft
  have stopEq : ((numberOfNodes - 2 ^ exponent : Nat) : Int) + 2 ^ exponent = numberOfNodes := by
    push_cast [bound]
    ring
  rw [stopEq] at leftCovers
  rw [lowest]
  cases rightChild with
  | none =>
    cases built
    rw [first rfl] at leftCovers ⊢
    exact leftCovers
  | some right =>
    obtain ⟨rightCovers, more⟩ := covered right rfl
    exact Covers.createParentNode nonempty (by omega) (by omega) leftCovers rightCovers
      (by simp [or_comm]) (by simp [or_comm]) built

theorem covers_joinSubtrees (nonempty : builder.leaves ≠ []) {fuel : Nat}
    (enough : numberOfNodes ≤ fuel)
    (covered : ∀ right ∈ rightChild, builder.Covers numberOfNodes size right ∧ numberOfNodes < size)
    (first : rightChild = none → numberOfNodes = size)
    (built : builder.joinSubtrees fuel numberOfNodes rightChild depths = .ok (some subtree)) :
    builder.Covers 0 size subtree := by
  induction fuel generalizing numberOfNodes rightChild depths with
  | zero =>
    obtain rfl := Nat.le_zero.mp enough
    exact (covered subtree (Except.ok.inj built)).1
  | succ fuel ih =>
    rw [joinSubtrees] at built
    split at built
    · next done =>
      subst done
      exact (covered subtree (Except.ok.inj built)).1
    · next more =>
      simp only [bind_eq_ok, Prod.exists] at built
      obtain ⟨joined, after, builtJoined, built⟩ := built
      have positive := Nat.pos_of_ne_zero more
      obtain ⟨exponent, lowest, divides, -⟩ := lowestBit_eq_two_pow positive
      have small := Nat.two_pow_pos exponent
      have notMore : numberOfNodes ≤ size := by
        cases rightChild with
        | none => exact (first rfl).le
        | some right => exact (covered right rfl).2.le
      refine ih ?_ ?_ (by simp) built
      · omega
      · rintro right ⟨⟩
        exact ⟨covers_joinSubtree nonempty positive covered first builtJoined, by omega⟩

/-- The leaves of a clipped tree: the known ones, after others unless the known ones
start the tree, and before others unless they end it. -/
theorem leaves_newClippedMerkleTree {clipped : ClippedTree}
    (built : builder.newClippedMerkleTree = .ok clipped) :
    builder.leaves ≠ [] ∧ ∃ before after,
      clipped.tree.leaves = before ++ (builder.leaves ++ after) ∧
        (builder.startIndex = 0 → before = []) ∧
        (builder.endIndex = builder.size → after = []) := by
  simp only [newClippedMerkleTree, build, bind_eq_ok, Go.require_eq_ok, Bool.not_eq_true',
    List.isEmpty_eq_false_iff] at built
  obtain ⟨-, nonempty, joined, joinedEq, built⟩ := built
  refine ⟨nonempty, ?_⟩
  cases joined with
  | none => simp at built
  | some subtree =>
    simp only [bind_eq_ok, Go.require_eq_ok, Bool.and_eq_true] at built
    obtain ⟨-, ⟨useLeft, useRight⟩, built⟩ := built
    have covers := covers_joinSubtrees nonempty (le_refl _) (by simp) (fun _ => rfl) joinedEq
    have startLe := covers.useLeft useLeft
    have endLe := covers.useRight useRight
    cases isNode : subtree.node with
    | none => simp [isNode] at built
    | some node =>
      simp only [isNode, pure_eq_ok] at built
      subst built
      obtain ⟨inside, before, after, leavesEq, noBefore, noAfter⟩ := covers.inside node isNode
      have allKnown : builder.known 0 builder.size.toNat = builder.leaves := by
        rw [endIndex] at endLe
        rw [known, List.take_of_length_le (by omega),
          show (0 - builder.startIndex).toNat = 0 by omega, List.drop_zero]
      rw [allKnown] at leavesEq
      refine ⟨before, after, leavesEq, fun atStart => noBefore atStart.le, fun atEnd => ?_⟩
      apply noAfter
      rw [endIndex] at atEnd ⊢
      omega

end ClippedBuilder

end MultiVac.Merkle
