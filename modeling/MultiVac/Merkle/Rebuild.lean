import MultiVac.Merkle.Clipped

/-!
# Rebuilding a part of a full tree

Given neighbouring leaves of a full tree and the Merkle paths of the first and the
last of them, the builder of clipped trees succeeds, and the tree it builds has the
root and the Merkle paths of the full tree.
-/

namespace MultiVac.Merkle

open Wire (MerklePath)
open Lib

/-! ### Places of a tree -/

/-- A created node stands for a node of the whole tree. -/
def StandsIn (whole : Tree) (place : Place) : Prop :=
  ∃ sub frames, HashTree.plug sub frames = whole ∧ treeRoot sub = treeRoot place.1 ∧
    frames.map stepOf = place.2.map stepOf

theorem standsIn_self (whole : Tree) : StandsIn whole (whole, []) :=
  ⟨whole, [], rfl, rfl, rfl⟩

variable {place : Place}

theorem StandsIn.under {child sibling : Tree} (stands : StandsIn child place) {onLeft : Bool}
    {other : Tree} (sameRoot : treeRoot sibling = treeRoot other) :
    StandsIn (child.up ⟨onLeft, sibling⟩) (placeUnder ⟨onLeft, other⟩ place) := by
  obtain ⟨sub, frames, rfl, root, steps⟩ := stands
  refine ⟨sub, frames ++ [⟨onLeft, sibling⟩], HashTree.plug_append _ _ _, root, ?_⟩
  simp [placeUnder, stepOf, steps, sameRoot]

variable {left right other : Tree}

theorem StandsIn.inLeft (stands : StandsIn left place)
    (sameRoot : treeRoot right = treeRoot other) :
    StandsIn (.node left right) (placeUnder ⟨false, other⟩ place) :=
  @StandsIn.under place left right stands false other sameRoot

theorem StandsIn.inRight (stands : StandsIn right place)
    (sameRoot : treeRoot left = treeRoot other) :
    StandsIn (.node left right) (placeUnder ⟨true, other⟩ place) :=
  @StandsIn.under place right left stands true other sameRoot

theorem mem_places_node (left right : Tree) (place : Place) :
    place ∈ places (.node left right) ↔ place ∈ (places left).map (placeUnder ⟨false, right⟩) ∨
        place ∈ (places right).map (placeUnder ⟨true, left⟩) ∨ place = (.node left right, []) := by
  simp only [places]
  split <;> simp only [List.mem_append, List.mem_singleton] <;> tauto

variable {whole : Tree}

theorem standsIn_of_mem_places (isPlace : place ∈ places whole) : StandsIn whole place := by
  induction whole generalizing place with
  | leaf hash =>
    obtain rfl := List.mem_singleton.mp isPlace
    exact standsIn_self _
  | node left right leftIh rightIh =>
    rcases (mem_places_node left right place).mp isPlace with inLeft | inRight | rfl
    · obtain ⟨lower, isLower, rfl⟩ := List.mem_map.mp inLeft
      exact (leftIh isLower).inLeft rfl
    · obtain ⟨lower, isLower, rfl⟩ := List.mem_map.mp inRight
      exact (rightIh isLower).inRight rfl
    · exact standsIn_self _

variable {hash : MerkleHash}

theorem exists_mem_places
    (isLeaf : hash ∈ whole.leaves) : ∃ place ∈ places whole, treeRoot place.1 = hash := by
  induction whole with
  | leaf own =>
    obtain rfl := List.mem_singleton.mp isLeaf
    exact ⟨_, List.mem_cons_self, rfl⟩
  | node left right leftIh rightIh =>
    rcases List.mem_append.mp isLeaf with inLeft | inRight
    · obtain ⟨place, isPlace, root⟩ := leftIh inLeft
      exact ⟨_, (mem_places_node _ _ _).mpr (.inl (List.mem_map_of_mem isPlace)), root⟩
    · obtain ⟨place, isPlace, root⟩ := rightIh inRight
      exact ⟨_, (mem_places_node _ _ _).mpr (.inr (.inl (List.mem_map_of_mem isPlace))), root⟩

/-- The Merkle path of the leaf at an index. -/
def leafPath (tree : Tree) (index : Nat) : MerklePath :=
  pathOf (tree.leaves.getD index emptyHash) ((tree.framesAt index).map stepOf)

/-- Among nodes that stand for nodes of a tree, `GetMerklePath` finds the path of a leaf
whose hash no other node has. -/
theorem getMerklePathAmong_eq (nodup : whole.leaves.Nodup) {index : Nat}
    (isLeaf : whole.leaves[index]? = some hash)
    (alone : ∀ sub ∈ whole.subtrees, treeRoot sub = hash → sub = .leaf hash) {created : List Place}
    (stand : ∀ place ∈ created, StandsIn whole place)
    (present : ∃ place ∈ created, treeRoot place.1 = hash) :
    getMerklePathAmong created (treeRoot whole) hash = .ok (leafPath whole index) := by
  obtain ⟨place, isCreated, root⟩ := present
  have found : (created.reverse.find? fun place => treeRoot place.1 = hash).isSome :=
    List.find?_isSome.mpr ⟨place, List.mem_reverse.mpr isCreated, by simpa using root⟩
  obtain ⟨last, isLast⟩ := Option.isSome_iff_exists.mp found
  obtain ⟨sub, frames, plugged, subRoot, steps⟩ :=
    stand last (List.mem_reverse.mp (List.mem_of_find?_eq_some isLast))
  have lastRoot : treeRoot last.1 = hash := by simpa using List.find?_some isLast
  have plugsLeaf := HashTree.plug_framesAt isLeaf
  -- The node is the leaf itself, and a leaf has one place.
  have isLeafNode : sub = .leaf hash :=
    alone sub ((HashTree.mem_subtrees_iff _ _).mpr ⟨frames, plugged⟩) (subRoot.trans lastRoot)
  subst isLeafNode
  have sameFrames : frames = whole.framesAt index :=
    HashTree.frames_eq_of_plug_eq (plugged ▸ nodup) (plugged.trans plugsLeaf.symm)
  have verified : verify (pathOf hash ((whole.framesAt index).map stepOf)) (treeRoot whole) =
      .ok () := by
    rw [verify_pathOf, show hash = treeRoot (.leaf hash) from rfl, climb_stepOf, plugsLeaf]
  rw [getMerklePathAmong, isLast, leafPath, List.getD_eq_getElem?_getD, isLeaf]
  simp only [← steps, sameFrames, verified]
  rfl

/-! ### Building a part of a tree -/

/-- An index belongs to a tree whose first leaf has the index `start`. -/
def Inside (tree : Tree) (start index : Nat) : Prop := start ≤ index ∧ index < start + tree.count

instance (tree : Tree) (start index : Nat) : Decidable (Inside tree start index) :=
  inferInstanceAs (Decidable (_ ∧ _))

theorem inside_node_iff (left right : Tree) (start index : Nat) :
    Inside (.node left right) start index ↔
      Inside left start index ∨ Inside right (start + left.count) index := by
  simp only [Inside, HashTree.count_node]
  omega

/-- The hashes of the siblings on the way from a leaf to the root of a tree. -/
def siblingsOf (tree : Tree) (start index : Nat) : List MerkleHash :=
  if Inside tree start index then
    (tree.framesAt (index - start)).map fun frame => treeRoot frame.sibling
  else []

variable {start index : Nat}

theorem siblingsOf_node_left {left : Tree} (inLeft : Inside left start index) (right : Tree) :
    siblingsOf (.node left right) start index = siblingsOf left start index ++ [treeRoot right] := by
  have inside := (inside_node_iff left right start index).mpr (.inl inLeft)
  rw [siblingsOf, if_pos inside, siblingsOf, if_pos inLeft, HashTree.framesAt,
    if_pos (by unfold Inside at inLeft; omega), List.map_append]
  rfl

variable {left right : Tree}

theorem siblingsOf_node_right (inRight : Inside right (start + left.count) index) :
    siblingsOf (.node left right) start index =
      siblingsOf right (start + left.count) index ++ [treeRoot left] := by
  have inside := (inside_node_iff left right start index).mpr (.inr inRight)
  rw [siblingsOf, if_pos inside, siblingsOf, if_pos inRight, HashTree.framesAt,
    if_neg (by unfold Inside at inRight; omega), List.map_append, Nat.sub_sub]
  rfl

theorem length_siblingsOf_node (left right : Tree) (start index : Nat) :
    (siblingsOf (.node left right) start index).length = (siblingsOf left start index).length +
        (siblingsOf right (start + left.count) index).length +
        if Inside (.node left right) start index then 1 else 0 := by
  by_cases inLeft : Inside left start index
  · have notRight : ¬ Inside right (start + left.count) index := by
      unfold Inside at inLeft ⊢
      omega
    have inside := (inside_node_iff left right start index).mpr (.inl inLeft)
    rw [siblingsOf_node_left inLeft, if_pos inside, siblingsOf.eq_1 right, if_neg notRight]
    simp
  · by_cases inRight : Inside right (start + left.count) index
    · have inside := (inside_node_iff left right start index).mpr (.inr inRight)
      rw [siblingsOf_node_right inRight, if_pos inside, siblingsOf.eq_1 left, if_neg inLeft]
      simp
    · have outside : ¬ Inside (.node left right) start index := by
        rw [inside_node_iff]
        tauto
      rw [siblingsOf, siblingsOf, siblingsOf, if_neg outside, if_neg inLeft, if_neg inRight,
        if_neg outside]
      rfl

/-- A builder knows the leaves from `first` on and below `past`, and the paths of the
first and the last of them. -/
structure PartOf (leaves : List MerkleHash) (first past : Nat) (builder : ClippedBuilder) :
    Prop where
  start : builder.startIndex = first
  nonempty : first < past
  bound : past ≤ leaves.length
  leaves : builder.leaves = (leaves.take past).drop first

variable {leaves : List MerkleHash}

theorem PartOf.endIndex {first past : Nat} {builder : ClippedBuilder}
    (part : PartOf leaves first past builder) : builder.endIndex = past := by
  have := part.nonempty
  have := part.bound
  rw [ClippedBuilder.endIndex, part.start, part.leaves, List.length_drop, List.length_take]
  omega

/-- A node stands for a tree, and has nodes for the known leaves of it. -/
structure Clips (leaves : List MerkleHash) (first past : Nat) (tree : Tree) (start : Nat)
    (clipped : ClippedTree) : Prop where
  root : treeRoot clipped.tree = treeRoot tree
  stand : ∀ place ∈ clipped.created, StandsIn tree place
  present : ∀ index hash, first ≤ index → index < past → Inside tree start index →
    leaves[index]? = some hash → ∃ place ∈ clipped.created, treeRoot place.1 = hash

variable {first past start : Nat}

theorem clips_ofHash {tree : Tree} (outside : start + tree.count ≤ first ∨ past ≤ start) :
    Clips leaves first past tree start (.ofHash (treeRoot tree)) where
  root := rfl
  stand := by
    intro place isPlace
    obtain rfl := List.mem_singleton.mp isPlace
    exact ⟨tree, [], rfl, rfl, rfl⟩
  present := by
    intro index hash lower upper inside
    unfold Inside at inside
    omega

theorem mem_created_join (leftFirst : Bool) (left right : ClippedTree) (place : Place) :
    place ∈ (ClippedTree.join leftFirst left right).created ↔
      place ∈ left.created.map (placeUnder ⟨false, right.tree⟩) ∨
        place ∈ right.created.map (placeUnder ⟨true, left.tree⟩) ∨
        place = (.node left.tree right.tree, []) := by
  simp only [ClippedTree.join]
  split <;> simp only [List.mem_append, List.mem_singleton] <;> tauto

theorem Clips.join {leftClipped rightClipped : ClippedTree}
    (leftClips : Clips leaves first past left start leftClipped)
    (rightClips : Clips leaves first past right (start + left.count) rightClipped)
    (leftFirst : Bool) :
    Clips leaves first past (.node left right) start
      (.join leftFirst leftClipped rightClipped) where
  root := congrArg₂ nodeHash leftClips.root rightClips.root
  stand := by
    intro place isPlace
    rcases (mem_created_join _ _ _ _).mp isPlace with inLeft | inRight | rfl
    · obtain ⟨lower, isLower, rfl⟩ := List.mem_map.mp inLeft
      exact (leftClips.stand lower isLower).inLeft rightClips.root.symm
    · obtain ⟨lower, isLower, rfl⟩ := List.mem_map.mp inRight
      exact (rightClips.stand lower isLower).inRight leftClips.root.symm
    · exact ⟨.node left right, [], rfl,
        (congrArg₂ nodeHash leftClips.root rightClips.root).symm, rfl⟩
  present := by
    intro index hash lower upper inside isLeaf
    rcases (inside_node_iff left right start index).mp inside with inLeft | inRight
    · obtain ⟨place, isPlace, root⟩ := leftClips.present index hash lower upper inLeft isLeaf
      exact ⟨_, (mem_created_join _ _ _ _).mpr (.inl (List.mem_map_of_mem isPlace)), root⟩
    · obtain ⟨place, isPlace, root⟩ := rightClips.present index hash lower upper inRight isLeaf
      exact ⟨_, (mem_created_join _ _ _ _).mpr (.inr (.inl (List.mem_map_of_mem isPlace))), root⟩

/-- What the builder returns for a tree whose first leaf has the index `start`. -/
structure Rebuilt (leaves : List MerkleHash) (first past : Nat) (tree : Tree) (start : Nat)
    (subtree : ClippedSubtree) : Prop where
  useLeft : subtree.useLeft = decide (Inside tree start first)
  useRight : subtree.useRight = decide (Inside tree start (past - 1))
  outside : start + tree.count ≤ first ∨ past ≤ start → subtree.node = none
  inside : ¬ (start + tree.count ≤ first ∨ past ≤ start) →
    ∃ node, subtree.node = some node ∧ Clips leaves first past tree start node

/-- The depths after a tree has been built. -/
def ClippedDepths.after (depths : ClippedDepths) (first past : Nat) (tree : Tree) (start : Nat) :
    ClippedDepths where
  leftDepth := depths.leftDepth + (siblingsOf tree start first).length
  rightDepth := depths.rightDepth + (siblingsOf tree start (past - 1)).length

/-- The paths of a builder lead through a tree, and no part of them has been used. -/
structure OnPaths (builder : ClippedBuilder) (first past : Nat) (depths : ClippedDepths)
    (tree : Tree) (start : Nat) : Prop where
  left : siblingsOf tree start first <+: builder.leftMerklePath.hashes.elems.tail
  right : siblingsOf tree start (past - 1) <+: builder.rightMerklePath.hashes.elems.tail
  leftUnused : Inside tree start first → depths.leftDepth = 0
  rightUnused : Inside tree start (past - 1) → depths.rightDepth = 0

section OnPaths

variable {builder : ClippedBuilder} {first past : Nat} {depths : ClippedDepths}
variable {left right : Tree} {start : Nat}

theorem siblingsOf_eq_nil {tree : Tree} {index : Nat}
    (outside : ¬ Inside tree start index) : siblingsOf tree start index = [] := if_neg outside

theorem siblingsOf_left_isInitial (left right : Tree) (start index : Nat) :
    siblingsOf left start index <+: siblingsOf (.node left right) start index := by
  by_cases inLeft : Inside left start index
  · rw [siblingsOf_node_left inLeft]
    exact List.prefix_append _ _
  · rw [siblingsOf_eq_nil inLeft]
    exact List.nil_prefix

theorem siblingsOf_right_isInitial (left right : Tree) (start index : Nat) :
    siblingsOf right (start + left.count) index <+: siblingsOf (.node left right) start index := by
  by_cases inRight : Inside right (start + left.count) index
  · rw [siblingsOf_node_right inRight]
    exact List.prefix_append _ _
  · rw [siblingsOf_eq_nil inRight]
    exact List.nil_prefix

theorem not_inside_both (left right : Tree) (start index : Nat) :
    ¬ (Inside left start index ∧ Inside right (start + left.count) index) := by
  unfold Inside
  omega

theorem OnPaths.leftChild (onPaths : OnPaths builder first past depths (.node left right) start) :
    OnPaths builder first past depths left start where
  left := (siblingsOf_left_isInitial _ _ _ _).trans onPaths.left
  right := (siblingsOf_left_isInitial _ _ _ _).trans onPaths.right
  leftUnused := fun inside => onPaths.leftUnused ((inside_node_iff _ _ _ _).mpr (.inl inside))
  rightUnused := fun inside => onPaths.rightUnused ((inside_node_iff _ _ _ _).mpr (.inl inside))

theorem OnPaths.rightChild (onPaths : OnPaths builder first past depths (.node left right) start) :
    OnPaths builder first past depths right (start + left.count) where
  left := (siblingsOf_right_isInitial _ _ _ _).trans onPaths.left
  right := (siblingsOf_right_isInitial _ _ _ _).trans onPaths.right
  leftUnused := fun inside => onPaths.leftUnused ((inside_node_iff _ _ _ _).mpr (.inr inside))
  rightUnused := fun inside => onPaths.rightUnused ((inside_node_iff _ _ _ _).mpr (.inr inside))

/-- Building one tree does not use the paths for another. -/
theorem OnPaths.after {tree other : Tree} {otherStart : Nat}
    (onPaths : OnPaths builder first past depths tree start)
    (apart : ∀ index, ¬ (Inside tree start index ∧ Inside other otherStart index)) :
    OnPaths builder first past (depths.after first past other otherStart) tree start where
  left := onPaths.left
  right := onPaths.right
  leftUnused := by
    intro inside
    have := siblingsOf_eq_nil fun inOther => apart first ⟨inside, inOther⟩
    rw [ClippedDepths.after, this, onPaths.leftUnused inside]
    rfl
  rightUnused := by
    intro inside
    have := siblingsOf_eq_nil fun inOther => apart (past - 1) ⟨inside, inOther⟩
    rw [ClippedDepths.after, this, onPaths.rightUnused inside]
    rfl

theorem ClippedDepths.after_leaf (depths : ClippedDepths) (hash : MerkleHash) :
    depths.after first past (.leaf hash) start = depths := by
  simp [ClippedDepths.after, siblingsOf, HashTree.framesAt]

theorem ClippedDepths.after_comm (depths : ClippedDepths) (otherStart : Nat) :
    (depths.after first past left start).after first past right otherStart =
      (depths.after first past right otherStart).after first past left start := by
  simp [ClippedDepths.after, Nat.add_right_comm]

end OnPaths

namespace ClippedBuilder

variable {builder : ClippedBuilder} {leaves : List MerkleHash} {first past : Nat}
  {hash : MerkleHash}

theorem hashAt_of_siblings {path : MerklePath} {lower : List MerkleHash}
    (known : lower ++ [hash] <+: path.hashes.elems.tail) :
    hashAt path (lower.length + 1) = .ok hash := by
  obtain ⟨rest, known⟩ := known
  rw [hashAt_eq_ok, ← List.getElem?_tail, ← known]
  simp

variable {depths : ClippedDepths} {start : Nat}

theorem createParentNode_rebuilt (nonempty : first < past) {left right : Tree}
    {leftSubtree rightSubtree : ClippedSubtree}
    (leftRebuilt : Rebuilt leaves first past left start leftSubtree)
    (rightRebuilt : Rebuilt leaves first past right (start + left.count) rightSubtree)
    {useLeft useRight : Bool} (leftUsed : useLeft = (leftSubtree.useLeft || rightSubtree.useLeft))
    (rightUsed : useRight = (leftSubtree.useRight || rightSubtree.useRight))
    (onPaths : OnPaths builder first past depths (.node left right) start) (leftFirst : Bool) :
    ∃ subtree, builder.createParentNode leftFirst leftSubtree.node rightSubtree.node useLeft useRight
        ((depths.after first past left start).after first past right (start + left.count)) =
          .ok (subtree, depths.after first past (.node left right) start) ∧
      Rebuilt leaves first past (.node left right) start subtree := by
  have leftFlag : useLeft = decide (Inside (.node left right) start first) := by
    rw [leftUsed, leftRebuilt.useLeft, rightRebuilt.useLeft, ← Bool.decide_or]
    exact decide_eq_decide.mpr (inside_node_iff _ _ _ _).symm
  have rightFlag : useRight = decide (Inside (.node left right) start (past - 1)) := by
    rw [rightUsed, leftRebuilt.useRight, rightRebuilt.useRight, ← Bool.decide_or]
    exact decide_eq_decide.mpr (inside_node_iff _ _ _ _).symm
  have leftClimbed : (if useLeft = true then
      ((depths.after first past left start).after first past right (start + left.count)).leftDepth + 1
      else ((depths.after first past left start).after first past right
        (start + left.count)).leftDepth) = (depths.after first past (.node left right) start).leftDepth := by
    simp only [ClippedDepths.after, length_siblingsOf_node, leftFlag, decide_eq_true_eq]
    split <;> omega
  have rightClimbed : (if useRight = true then
      ((depths.after first past left start).after first past right (start + left.count)).rightDepth + 1
      else ((depths.after first past left start).after first past right
        (start + left.count)).rightDepth) = (depths.after first past (.node left right) start).rightDepth := by
    simp only [ClippedDepths.after, length_siblingsOf_node, rightFlag, decide_eq_true_eq]
    split <;> omega
  have rebuilt : ∀ node, (¬ (start + (left.count + right.count) ≤ first ∨ past ≤ start) ∧
      Clips leaves first past (.node left right) start node) →
      Rebuilt leaves first past (.node left right) start ⟨some node, useLeft, useRight⟩ := by
    rintro node ⟨inside, clips⟩
    rw [← HashTree.count_node] at inside
    exact ⟨leftFlag, rightFlag, fun outside => absurd outside inside, fun _ => ⟨node, rfl, clips⟩⟩
  simp only [createParentNode, leftClimbed, rightClimbed]
  by_cases leftOutside : start + left.count ≤ first ∨ past ≤ start
  · rw [leftRebuilt.outside leftOutside]
    by_cases rightOutside : start + left.count + right.count ≤ first ∨ past ≤ start + left.count
    · rw [rightRebuilt.outside rightOutside]
      refine ⟨_, rfl, leftFlag, rightFlag, fun _ => rfl, fun inside => absurd ?_ inside⟩
      rw [HashTree.count_node]
      omega
    · obtain ⟨node, isNode, clips⟩ := rightRebuilt.inside rightOutside
      have inRight : Inside right (start + left.count) first := by
        unfold Inside
        omega
      have hashed : hashAt builder.leftMerklePath
          (depths.after first past (.node left right) start).leftDepth = .ok (treeRoot left) := by
        have known := onPaths.left
        rw [siblingsOf_node_right inRight] at known
        rw [ClippedDepths.after, onPaths.leftUnused ((inside_node_iff _ _ _ _).mpr (.inr inRight)),
          siblingsOf_node_right inRight, Nat.zero_add, List.length_append]
        exact hashAt_of_siblings known
      simp only [isNode, hashed]
      exact ⟨_, rfl, rebuilt _ ⟨by omega, (clips_ofHash leftOutside).join clips false⟩⟩
  · obtain ⟨node, isNode, clips⟩ := leftRebuilt.inside leftOutside
    by_cases rightOutside : start + left.count + right.count ≤ first ∨ past ≤ start + left.count
    · have inLeft : Inside left start (past - 1) := by
        unfold Inside
        omega
      have hashed : hashAt builder.rightMerklePath
          (depths.after first past (.node left right) start).rightDepth = .ok (treeRoot right) := by
        have known := onPaths.right
        rw [siblingsOf_node_left inLeft] at known
        rw [ClippedDepths.after, onPaths.rightUnused ((inside_node_iff _ _ _ _).mpr (.inl inLeft)),
          siblingsOf_node_left inLeft, Nat.zero_add, List.length_append]
        exact hashAt_of_siblings known
      simp only [isNode, rightRebuilt.outside rightOutside, hashed]
      exact ⟨_, rfl, rebuilt _ ⟨by omega, clips.join (clips_ofHash rightOutside) true⟩⟩
    · obtain ⟨rightNode, isRightNode, rightClips⟩ := rightRebuilt.inside rightOutside
      simp only [isNode, isRightNode]
      exact ⟨_, rfl, rebuilt _ ⟨by omega, clips.join rightClips leftFirst⟩⟩

variable {tree : Tree}

theorem not_inside_of_outside (nonempty : first < past)
    (outside : start + tree.count ≤ first ∨ past ≤ start) :
    ¬ Inside tree start first ∧ ¬ Inside tree start (past - 1) := by
  unfold Inside
  omega

theorem rebuilt_none (nonempty : first < past) (outside : start + tree.count ≤ first ∨ past ≤ start)
    (depths : ClippedDepths) :
    depths = depths.after first past tree start ∧
      Rebuilt leaves first past tree start ⟨none, false, false⟩ := by
  obtain ⟨notFirst, notLast⟩ := not_inside_of_outside nonempty outside
  constructor
  · rw [ClippedDepths.after, siblingsOf, siblingsOf, if_neg notFirst, if_neg notLast]
    rfl
  · exact ⟨by simp [notFirst], by simp [notLast], fun _ => rfl, fun inside => absurd outside inside⟩

variable {own : List MerkleHash}

section

variable (part : PartOf leaves first past builder)
include part

theorem outside_iff
    (start stop : Nat) : builder.Outside start stop ↔ stop ≤ first ∨ past ≤ start := by
  rw [Outside, part.endIndex, part.start]
  omega

theorem rebuilt_leaf {start : Nat} (isLeaf : leaves[start]? = some hash)
    (inside : ¬ (start + 1 ≤ first ∨ past ≤ start)) :
    Rebuilt leaves first past (.leaf hash) start ⟨(builder.getLeave start).map .ofHash,
      (start : Int) = builder.startIndex, builder.endIndex = (start : Int) + 1⟩ := by
  have bound := part.bound
  have known : builder.getLeave start = some hash := by
    rw [getLeave, part.start, part.leaves]
    simp only [List.length_drop, List.length_take]
    rw [if_pos (by omega), List.getElem?_drop, List.getElem?_take, if_pos (by omega),
      show first + ((start : Int) - first).toNat = start by omega, isLeaf]
  refine ⟨?_, ?_, fun outside => absurd outside inside, fun _ => ⟨.ofHash hash, by simp [known], ?_⟩⟩
  · rw [part.start]
    exact decide_eq_decide.mpr (by rw [Inside, HashTree.count_leaf]; omega)
  · rw [part.endIndex]
    exact decide_eq_decide.mpr (by rw [Inside, HashTree.count_leaf]; omega)
  · refine ⟨rfl, fun place isPlace => ?_, fun index other _ _ insideLeaf isOther => ?_⟩
    · obtain rfl := List.mem_singleton.mp isPlace
      exact standsIn_self _
    · obtain rfl : index = start := by
        unfold Inside at insideLeaf
        rw [HashTree.count_leaf] at insideLeaf
        omega
      rw [isLeaf] at isOther
      exact ⟨_, List.mem_cons_self, Option.some.inj isOther⟩

variable {depth start : Nat}

theorem buildPerfectSubtree_outside (outside : start + 2 ^ depth ≤ first ∨ past ≤ start)
    (depths : ClippedDepths) :
    builder.buildPerfectSubtree depth start depths = .ok (⟨none, false, false⟩, depths) := by
  have skipped := (outside_iff part start (start + 2 ^ depth)).mpr outside
  push_cast at skipped
  cases depth with
  | zero => exact if_pos skipped
  | succ depth => exact if_pos skipped

theorem buildPerfectSubtree_rebuilt
    (ownLeaves : ∀ index, index < 2 ^ depth → own[index]? = leaves[start + index]?)
    (built : Merkle.buildPerfectSubtree depth own = some tree) {depths : ClippedDepths}
    (onPaths : OnPaths builder first past depths tree start) :
    ∃ subtree, builder.buildPerfectSubtree depth start depths =
        .ok (subtree, depths.after first past tree start) ∧
      Rebuilt leaves first past tree start subtree := by
  induction depth generalizing start own tree depths with
  | zero =>
    match own, built with
    | [hash], rfl =>
      rw [ClippedDepths.after_leaf]
      by_cases outside : start + (HashTree.leaf hash).count ≤ first ∨ past ≤ start
      · exact ⟨_, buildPerfectSubtree_outside part outside depths,
          (rebuilt_none part.nonempty outside depths).2⟩
      · have isLeaf : leaves[start]? = some hash := (ownLeaves 0 (by decide)).symm
        have inside : ¬ builder.Outside start (start + 1) := by
          have := outside_iff part start (start + 1)
          push_cast at this
          rwa [this]
        refine ⟨_, ?_, rebuilt_leaf part isLeaf outside⟩
        rw [buildPerfectSubtree, if_neg inside]
        rfl
  | succ depth ih =>
    have size := (compact_buildPerfectSubtree built).2
    by_cases outside : start + tree.count ≤ first ∨ past ≤ start
    · obtain ⟨sameDepths, rebuilt⟩ := rebuilt_none part.nonempty outside depths
      rw [← sameDepths]
      rw [size] at outside
      exact ⟨_, buildPerfectSubtree_outside part outside depths, rebuilt⟩
    · simp only [Merkle.buildPerfectSubtree, Option.bind_eq_bind, Option.bind_eq_some_iff,
        Option.pure_def, Option.some.injEq] at built
      obtain ⟨left, builtLeft, right, builtRight, rfl⟩ := built
      have leftSize := (compact_buildPerfectSubtree builtLeft).2
      rw [size] at outside
      have inside : ¬ builder.Outside start (start + 2 ^ (depth + 1)) := by
        have := outside_iff part start (start + 2 ^ (depth + 1))
        push_cast at this
        rwa [this]
      obtain ⟨leftSubtree, ranLeft, leftRebuilt⟩ :=
        @ih left (own.take (2 ^ depth)) start (fun index below => by
          rw [List.getElem?_take, if_pos below, ownLeaves index (by rw [pow_succ]; omega)])
          builtLeft depths onPaths.leftChild
      obtain ⟨rightSubtree, ranRight, rightRebuilt⟩ :=
        @ih right (own.drop (2 ^ depth)) (start + left.count) (fun index below => by
          rw [List.getElem?_drop, ownLeaves _ (by rw [pow_succ]; omega), leftSize, Nat.add_assoc])
          builtRight _ (onPaths.rightChild.after fun index both =>
            not_inside_both left right start index both.symm)
      obtain ⟨subtree, created, rebuilt⟩ :=
        createParentNode_rebuilt part.nonempty leftRebuilt rightRebuilt rfl rfl onPaths true
      refine ⟨subtree, ?_, rebuilt⟩
      have rightStart : ((start + left.count : Nat) : Int) = start + 2 ^ depth := by
        rw [leftSize]
        push_cast
        rfl
      rw [rightStart] at ranRight
      rw [buildPerfectSubtree, if_neg inside]
      exact bind_eq_ok.mpr ⟨_, ranLeft, bind_eq_ok.mpr ⟨_, ranRight, created⟩⟩

end

/-- A perfect subtree joined with the tree after it, if there is one. -/
def joinRight (subtree : Tree) : Option Tree → Tree
  | none => subtree
  | some right => .node subtree right

variable {fuel : Nat} {node : Option Tree}

/-- One iteration of the loop of `NewFullMerkleTree`. -/
theorem joinSubtrees_step (positive : 0 < own.length)
    (built : Merkle.joinSubtrees (fuel + 1) own node = some tree) :
    ∃ exponent subtree, lowestBit own.length = 2 ^ exponent ∧ 2 ^ exponent ≤ own.length ∧
      Merkle.buildPerfectSubtree exponent (own.drop (own.length - 2 ^ exponent)) = some subtree ∧
      Merkle.joinSubtrees fuel (own.take (own.length - 2 ^ exponent))
        (some (joinRight subtree node)) = some tree := by
  obtain ⟨exponent, lowest, divides, -⟩ := lowestBit_eq_two_pow positive
  simp only [Merkle.joinSubtrees, List.isEmpty_iff, List.length_pos_iff.mp positive, if_false,
    Option.bind_eq_bind, Option.bind_eq_some_iff, lowest, Nat.log2_two_pow] at built
  obtain ⟨subtree, builtSubtree, built⟩ := built
  refine ⟨exponent, subtree, lowest, Nat.le_of_dvd positive divides, builtSubtree, ?_⟩
  cases node <;> exact built

variable {right tree : Tree}

/-- The loop of `NewFullMerkleTree` puts the tree over the later leaves below others. -/
theorem joinSubtrees_eq_plug (enough : own.length ≤ fuel)
    (built : Merkle.joinSubtrees fuel own (some right) = some tree) :
    ∃ siblings, tree = right.plug (HashTree.leftFrames siblings) ∧
      (siblings.map HashTree.count).sum = own.length := by
  induction fuel generalizing own right with
  | zero =>
    obtain rfl := List.length_eq_zero_iff.mp (Nat.le_zero.mp enough)
    exact ⟨[], (Option.some.inj built).symm, rfl⟩
  | succ fuel ih =>
    rcases Nat.eq_zero_or_pos own.length with empty | positive
    · obtain rfl := List.length_eq_zero_iff.mp empty
      exact ⟨[], (Option.some.inj built).symm, rfl⟩
    · obtain ⟨exponent, subtree, -, bound, builtSubtree, built⟩ := joinSubtrees_step positive built
      have := Nat.two_pow_pos exponent
      obtain ⟨siblings, rfl, total⟩ := ih (by
        rw [List.length_take]
        omega) built
      refine ⟨subtree :: siblings, rfl, ?_⟩
      rw [List.map_cons, List.sum_cons, total, (compact_buildPerfectSubtree builtSubtree).2,
        List.length_take]
      omega

theorem siblingsOf_plug_isInitial (siblings : List Tree) (right : Tree) (index : Nat) :
    siblingsOf right (siblings.map HashTree.count).sum index <+:
      siblingsOf (right.plug (HashTree.leftFrames siblings)) 0 index := by
  induction siblings generalizing right with
  | nil => exact List.prefix_rfl
  | cons sibling siblings ih =>
    refine List.IsPrefix.trans ?_ (ih (.node sibling right))
    rw [List.map_cons, List.sum_cons, Nat.add_comm]
    exact siblingsOf_right_isInitial _ _ _ _

/-- The loops of `build` and of `NewFullMerkleTree` after the same iterations: nothing
has been built, or a tree from an index on. -/
inductive Joined (leaves : List MerkleHash) (first past : Nat) :
    Nat → Option Tree → Option ClippedSubtree → ClippedDepths → Prop where
  | nothing : Joined leaves first past leaves.length none none ⟨0, 0⟩
  | tree {start : Nat} {right : Tree} {subtree : ClippedSubtree}
      (rebuilt : Rebuilt leaves first past right start subtree) :
      Joined leaves first past start (some right) (some subtree)
        (ClippedDepths.after ⟨0, 0⟩ first past right start)

variable {rightChild : Option ClippedSubtree}

theorem Joined.exists_rebuilt {right : Tree}
    (joined : Joined leaves first past start (some right) rightChild depths) :
    ∃ subtree, rightChild = some subtree ∧ Rebuilt leaves first past right start subtree := by
  cases joined with
  | tree rebuilt => exact ⟨_, rfl, rebuilt⟩

theorem onPaths_joined (enough : own.length ≤ fuel)
    (built : Merkle.joinSubtrees fuel own (some right) = some tree)
    (onPaths : OnPaths builder first past ⟨0, 0⟩ tree 0) :
    OnPaths builder first past ⟨0, 0⟩ right own.length := by
  obtain ⟨siblings, rfl, total⟩ := joinSubtrees_eq_plug enough built
  rw [← total]
  exact ⟨(siblingsOf_plug_isInitial _ _ _).trans onPaths.left,
    (siblingsOf_plug_isInitial _ _ _).trans onPaths.right, fun _ => rfl, fun _ => rfl⟩

theorem joinSubtree_rebuilt (part : PartOf leaves first past builder) {start exponent : Nat}
    {subtree : Tree} (lowest : lowestBit (start + 2 ^ exponent) = 2 ^ exponent)
    (built : Merkle.buildPerfectSubtree exponent
      ((leaves.take (start + 2 ^ exponent)).drop start) = some subtree)
    (joined : Joined leaves first past (start + 2 ^ exponent) node rightChild depths)
    (onPaths : OnPaths builder first past ⟨0, 0⟩ (joinRight subtree node) start) :
    ∃ result after, builder.joinSubtree (start + 2 ^ exponent) rightChild depths =
        .ok (result, after) ∧
      Joined leaves first past start (some (joinRight subtree node)) (some result) after := by
  have size := (compact_buildPerfectSubtree built).2
  have ownLeaves : ∀ index, index < 2 ^ exponent →
      ((leaves.take (start + 2 ^ exponent)).drop start)[index]? = leaves[start + index]? := by
    intro index below
    rw [List.getElem?_drop, List.getElem?_take, if_pos (by omega)]
  obtain ⟨total, totalEq⟩ : ∃ total, total = start + 2 ^ exponent := ⟨_, rfl⟩
  rw [← totalEq] at joined
  have subtreeStart : total - lowestBit total = start := by
    rw [totalEq, lowest]
    omega
  cases joined with
  | nothing =>
    obtain ⟨result, ran, rebuilt⟩ := buildPerfectSubtree_rebuilt part ownLeaves built onPaths
    refine ⟨result, _, ?_, .tree rebuilt⟩
    rw [← totalEq, joinSubtree]
    simp only [subtreeStart]
    rw [totalEq, lowest, Nat.log2_two_pow, ran]
    rfl
  | @tree _ right rightSubtree rightRebuilt =>
    rw [totalEq, ← size] at rightRebuilt
    have apart : ∀ index, ¬ (Inside subtree start index ∧
        Inside right (start + subtree.count) index) := not_inside_both subtree right start
    obtain ⟨left, ran, leftRebuilt⟩ := buildPerfectSubtree_rebuilt part ownLeaves built
      (onPaths.leftChild.after apart)
    obtain ⟨result, created, rebuilt⟩ := createParentNode_rebuilt part.nonempty leftRebuilt
      rightRebuilt (Bool.or_comm _ _) (Bool.or_comm _ _) onPaths false
    refine ⟨result, _, ?_, .tree rebuilt⟩
    rw [ClippedDepths.after_comm] at created
    rw [← totalEq, joinSubtree]
    simp only [subtreeStart]
    rw [totalEq, lowest, Nat.log2_two_pow, ← size]
    exact bind_eq_ok.mpr ⟨_, ran, created⟩

theorem joinSubtrees_rebuilt (part : PartOf leaves first past builder) {fuel numberOfNodes : Nat}
    (enough : numberOfNodes ≤ fuel) (bound : numberOfNodes ≤ leaves.length)
    (joined : Joined leaves first past numberOfNodes node rightChild depths)
    (built : Merkle.joinSubtrees fuel (leaves.take numberOfNodes) node = some tree)
    (onPaths : OnPaths builder first past ⟨0, 0⟩ tree 0) :
    ∃ subtree, builder.joinSubtrees fuel numberOfNodes rightChild depths = .ok (some subtree) ∧
      Rebuilt leaves first past tree 0 subtree := by
  induction fuel generalizing numberOfNodes node rightChild depths with
  | zero =>
    obtain rfl := Nat.le_zero.mp enough
    obtain rfl : node = some tree := built
    obtain ⟨subtree, rfl, rebuilt⟩ := joined.exists_rebuilt
    exact ⟨subtree, rfl, rebuilt⟩
  | succ fuel ih =>
    rcases Nat.eq_zero_or_pos numberOfNodes with rfl | positive
    · obtain rfl : node = some tree := built
      obtain ⟨subtree, rfl, rebuilt⟩ := joined.exists_rebuilt
      exact ⟨subtree, rfl, rebuilt⟩
    · have length : (leaves.take numberOfNodes).length = numberOfNodes := by
        rw [List.length_take]
        omega
      obtain ⟨exponent, subtree, lowest, smaller, builtSubtree, built⟩ :=
        joinSubtrees_step (length.symm ▸ positive) built
      rw [length] at lowest smaller builtSubtree built
      obtain ⟨start, rfl⟩ := Nat.exists_eq_add_of_le' smaller
      rw [Nat.add_sub_cancel, List.take_take, Nat.min_eq_left (Nat.le_add_right _ _)] at built
      rw [Nat.add_sub_cancel] at builtSubtree
      have startLength : (leaves.take start).length = start := by
        rw [List.length_take]
        omega
      have someLeaf := Nat.two_pow_pos exponent
      have below := onPaths_joined (startLength.symm ▸ (by omega)) built onPaths
      rw [startLength] at below
      obtain ⟨result, after, ran, joinedMore⟩ :=
        joinSubtree_rebuilt part lowest builtSubtree joined below
      obtain ⟨final, ranRest, rebuilt⟩ := ih (by omega) (by omega) joinedMore built
      refine ⟨final, ?_, rebuilt⟩
      rw [joinSubtrees, if_neg (by omega), lowest, Nat.add_sub_cancel]
      exact bind_eq_ok.mpr ⟨_, ran, ranRest⟩

/-- Neighbouring leaves of a full tree and the paths of the first and the last of them
give back a tree with the root and the leaves. -/
theorem newClippedMerkleTree_clips (part : PartOf leaves first past builder)
    (size : builder.size = leaves.length) (built : fullTree leaves = some tree)
    (left : siblingsOf tree 0 first <+: builder.leftMerklePath.hashes.elems.tail)
    (right : siblingsOf tree 0 (past - 1) <+: builder.rightMerklePath.hashes.elems.tail) :
    ∃ clipped, builder.newClippedMerkleTree = .ok clipped ∧ Clips leaves first past tree 0 clipped := by
  have nonempty := part.nonempty
  have bound := part.bound
  have count : tree.count = leaves.length := congrArg List.length (leaves_of_fullTree built)
  obtain ⟨subtree, ran, rebuilt⟩ := joinSubtrees_rebuilt part (le_refl leaves.length) (le_refl _)
    (.nothing) (by rw [List.take_length]; exact built) ⟨left, right, fun _ => rfl, fun _ => rfl⟩
  obtain ⟨node, isNode, clips⟩ := rebuilt.inside (by omega)
  have usedLeft : subtree.useLeft = true := by
    rw [rebuilt.useLeft, decide_eq_true_eq, Inside]
    omega
  have usedRight : subtree.useRight = true := by
    rw [rebuilt.useRight, decide_eq_true_eq, Inside]
    omega
  refine ⟨node, ?_, clips⟩
  have someLeaves : builder.leaves.isEmpty = false := by
    rw [part.leaves, List.isEmpty_eq_false_iff, ← List.length_pos_iff, List.length_drop,
      List.length_take]
    omega
  refine bind_eq_ok.mpr ⟨(), by simp [someLeaves], bind_eq_ok.mpr ⟨some subtree, ?_,
    bind_eq_ok.mpr ⟨(), by simp [usedLeft, usedRight], by simp [isNode]⟩⟩⟩
  rw [size, Int.toNat_natCast]
  exact ran

end ClippedBuilder

theorem siblingsOf_eq_leafPath {tree : Tree} {index : Nat} (bound : index < tree.leaves.length) :
    siblingsOf tree 0 index = (leafPath tree index).hashes.elems.tail := by
  have inside : Inside tree 0 index := ⟨Nat.zero_le _, by rwa [Nat.zero_add]⟩
  rw [siblingsOf, if_pos inside, leafPath, pathOf]
  simp [stepOf]

/-- The leaves from `first` on and below `past` with the paths of the first and the last. -/
def clipOf (leaves : List MerkleHash) (tree : Tree) (first past : Nat) : ClippedBuilder where
  size := leaves.length
  startIndex := first
  leaves := (leaves.take past).drop first
  leftMerklePath := leafPath tree first
  rightMerklePath := leafPath tree (past - 1)

/-- The clipped tree over a range of leaves has the root of the full tree and the same
paths, if no leaf has the hash of an inner node. -/
theorem newClippedMerkleTree_eq_fullMerkleTree {leaves : List MerkleHash} {tree : Tree}
    (built : fullTree leaves = some tree) (distinct : leaves.Nodup)
    (apart : ∀ left right, .node left right ∈ tree.subtrees → treeRoot (.node left right) ∉ leaves)
    {first past : Nat} (nonempty : first < past) (bound : past ≤ leaves.length) :
    ∃ clipped, (clipOf leaves tree first past).newClippedMerkleTree = .ok clipped ∧
      treeRoot clipped.tree = fullRoot leaves ∧
      ∀ index hash, first ≤ index → index < past → leaves[index]? = some hash →
        fullMerklePath leaves hash = .ok (leafPath tree index) ∧
          clipped.getMerklePath hash = .ok (leafPath tree index) := by
  have leavesEq := leaves_of_fullTree built
  have count := congrArg List.length leavesEq
  obtain ⟨clipped, ran, clips⟩ := ClippedBuilder.newClippedMerkleTree_clips
    (show PartOf leaves first past (clipOf leaves tree first past) from
      ⟨rfl, nonempty, bound, rfl⟩) rfl built
    (by
      rw [siblingsOf_eq_leafPath (by omega)]
      exact List.prefix_rfl)
    (by
      rw [siblingsOf_eq_leafPath (by omega)]
      exact List.prefix_rfl)
  refine ⟨clipped, ran, by rw [clips.root, fullRoot, built], ?_⟩
  intro index hash lower upper isLeaf
  have alone : ∀ sub ∈ tree.subtrees, treeRoot sub = hash → sub = .leaf hash := by
    intro sub inTree root
    cases sub with
    | leaf own => exact congrArg _ root
    | node left right => exact absurd (root ▸ List.mem_of_getElem? isLeaf) (apart _ _ inTree)
  have found : ∀ {created : List Place}, (∀ place ∈ created, StandsIn tree place) →
      (∃ place ∈ created, treeRoot place.1 = hash) →
      getMerklePathAmong created (treeRoot tree) hash = .ok (leafPath tree index) :=
    getMerklePathAmong_eq (leavesEq ▸ distinct) (leavesEq ▸ isLeaf) alone
  constructor
  · rw [fullMerklePath, built]
    exact found (fun place => standsIn_of_mem_places)
      (exists_mem_places (leavesEq ▸ List.mem_of_getElem? isLeaf))
  · rw [ClippedTree.getMerklePath, clips.root]
    refine found clips.stand (clips.present index hash lower upper ?_ isLeaf)
    unfold Inside HashTree.count
    omega

/-- Four leaves, and the hash of the first two as a fifth leaf. -/
def nestedLeaves : List MerkleHash :=
  [sha256 [1], sha256 [2], sha256 [3], sha256 [4], nodeHash (sha256 [1]) (sha256 [2])]

/-- The last two of three leaves. -/
theorem newClippedMerkleTree_firstLeaves :
    let leaves := nestedLeaves.take 3
    ∃ tree clipped, fullTree leaves = some tree ∧ leaves.Nodup ∧
      (clipOf leaves tree 1 3).newClippedMerkleTree = .ok clipped ∧
      treeRoot clipped.tree = fullRoot leaves ∧
      clipped.getMerklePath (sha256 [2]) = fullMerklePath leaves (sha256 [2]) := by
  have distinct : (nestedLeaves.take 3).Nodup := by decide +kernel
  have apart : ∀ sub ∈ (HashTree.node (.node (.leaf (sha256 [1])) (.leaf (sha256 [2])))
      (.leaf (sha256 [3]))).subtrees, treeRoot sub ∈ nestedLeaves.take 3 → sub.leaves.length = 1 := by
    decide +kernel
  obtain ⟨clipped, ran, root, paths⟩ := @newClippedMerkleTree_eq_fullMerkleTree
    (nestedLeaves.take 3) (.node (.node (.leaf (sha256 [1])) (.leaf (sha256 [2])))
      (.leaf (sha256 [3]))) rfl distinct (fun left right inTree inLeaves => by
        have := apart _ inTree inLeaves
        have := HashTree.count_node left right
        have := left.count_pos
        have := right.count_pos
        unfold HashTree.count at *
        omega) 1 3 (by decide) (by decide)
  have path := paths 1 (sha256 [2]) (le_refl 1) (by decide) rfl
  exact ⟨_, clipped, rfl, distinct, ran, root, path.2.trans path.1.symm⟩

/-- The full tree has the path of the inner node for the fifth leaf. -/
theorem newClippedMerkleTree_innerHash :
    nestedLeaves.Nodup ∧ ((fullTree nestedLeaves).map fun tree => (do
        let clipped ← (clipOf nestedLeaves tree 4 5).newClippedMerkleTree
        clipped.getMerklePath (nodeHash (sha256 [1]) (sha256 [2]))).toOption) ≠
      some (fullMerklePath nestedLeaves (nodeHash (sha256 [1]) (sha256 [2]))).toOption := by
  decide +kernel

end MultiVac.Merkle
