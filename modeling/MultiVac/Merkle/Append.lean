import MultiVac.Merkle.Update

/-!
# Appending leaves

`append` joins a new leaf with the last perfect subtree and recomputes the hashes
above. On a stored compact tree the result is the compact tree with one leaf
more, for delta trees and for full trees.
-/

namespace MultiVac.Merkle

open Lib
open Lib.HashTree (leaves_map spine_plug)
open Sketch (Around above frameIds)

namespace MerkleTree

variable {value : MerkleHash → MerkleHash} {tree : MerkleTree}

/-- The nodes after a joint node has been put in the place of a node. -/
theorem node_replaceByJoint {replaced inserted : NodeId} (old : replaced < tree.nextNode)
    (new : inserted < tree.nextNode) (different : replaced ≠ inserted)
    (parentOld : ∀ parent, (tree.node replaced).parent = some parent →
      parent < tree.nextNode ∧ parent ≠ replaced ∧ parent ≠ inserted) (jointHash : MerkleHash) :
    let joined := (tree.replaceByJoint replaced inserted jointHash).2.node
    joined tree.nextNode = ⟨(tree.node replaced).parent, some replaced, some inserted, jointHash⟩ ∧
      joined inserted = { tree.node inserted with parent := some tree.nextNode } ∧
      joined replaced = { tree.node replaced with parent := some tree.nextNode } ∧
      (∀ parent, (tree.node replaced).parent = some parent →
        joined parent = { tree.node parent with rightChild := some tree.nextNode }) ∧
      ∀ id, id < tree.nextNode → id ≠ inserted → id ≠ replaced →
        (tree.node replaced).parent ≠ some id → joined id = tree.node id := by
  have oldNe := Nat.ne_of_lt old
  have newNe := Nat.ne_of_lt new
  cases parentEq : (tree.node replaced).parent with
  | none =>
    simp only [replaceByJoint, parentEq, createNode, setParent, setChildren, modify]
    refine ⟨?_, ?_, ?_, by simp, ?_⟩
    · simp [Function.update_apply, oldNe.symm, newNe.symm]
    · simp [Function.update_apply, newNe, different.symm]
    · simp [Function.update_apply, oldNe, different]
    · intro id bound notInserted notReplaced _
      simp [Function.update_apply, Nat.ne_of_lt bound, notInserted, notReplaced]
  | some parent =>
    obtain ⟨parentBound, notReplaced, notInserted⟩ := parentOld parent parentEq
    have parentNe := Nat.ne_of_lt parentBound
    simp only [replaceByJoint, parentEq, createNode, setParent, setChildren, modify]
    refine ⟨?_, ?_, ?_, ?_, ?_⟩
    · simp [Function.update_apply, oldNe.symm, newNe.symm, parentNe.symm]
    · simp [Function.update_apply, newNe, different.symm, notInserted.symm]
    · simp [Function.update_apply, oldNe, different, notReplaced.symm]
    · rintro other ⟨⟩
      simp [Function.update_apply, parentNe, notReplaced, notInserted]
    · intro id bound idNotInserted idNotReplaced notParent
      have idNotParent : id ≠ parent := fun same => notParent (congrArg some same.symm)
      simp [Function.update_apply, Nat.ne_of_lt bound, idNotInserted, idNotReplaced, idNotParent]

theorem nextNode_replaceByJoint (tree : MerkleTree) (replaced inserted : NodeId)
    (jointHash : MerkleHash) :
    (tree.replaceByJoint replaced inserted jointHash).1 = tree.nextNode ∧
      (tree.replaceByJoint replaced inserted jointHash).2 =
        { (tree.createNode jointHash).2 with
          node := (tree.replaceByJoint replaced inserted jointHash).2.node } := by
  unfold replaceByJoint
  cases (tree.node replaced).parent <;> exact ⟨rfl, rfl⟩

variable {frames : List Sketch.Frame}

/-- The frames above a replaced node lead to the joint node. -/
theorem around_joint {node changed : NodeId → Node} {child joint : NodeId}
    (around : Around value node child frames) (left : ∀ frame ∈ frames, frame.onLeft = true)
    (nodup : (frameIds frames).Nodup)
    (parent : ∀ id, above frames = some id → changed id = { node id with rightChild := some joint })
    (others : ∀ id ∈ frameIds frames, above frames ≠ some id → changed id = node id) :
    Around value changed joint frames := by
  cases frames with
  | nil => trivial
  | cons frame frames =>
    obtain ⟨parentEq, leftEq, rightEq, sibling, rest⟩ := around
    have onLeft := left frame List.mem_cons_self
    rw [frameIds, List.flatMap_cons, ← frameIds, List.cons_append, List.nodup_cons,
      List.mem_append, not_or] at nodup
    have other : ∀ id, id ∈ frame.sibling.ids ∨ id ∈ frameIds frames → changed id = node id := by
      intro id inRest
      refine others id ?_ ?_
      · rw [frameIds, List.flatMap_cons, ← frameIds, List.cons_append]
        exact List.mem_cons_of_mem _ (List.mem_append.mpr inRest)
      · rintro ⟨⟩
        exact inRest.elim nodup.1.1 nodup.1.2
    rw [Around, parent frame.id rfl]
    refine ⟨parentEq, leftEq.trans (by simp [onLeft]), by simp [onLeft], ?_, ?_⟩
    · exact sibling.frame fun id inSibling => other id (.inl inSibling)
    · exact rest.frame fun id inRest => other id (.inr inRest)

/-- The sketch after the root of a tree has been joined with a part. -/
def mountedSketch (part : Sketch) (nextNode : NodeId) (unit : Tree) : Sketch :=
  .inner (nextNode + 1) part (.stub nextNode unit)

theorem ids_mountedSketch_perm (part : Sketch) (nextNode : NodeId) (unit : Tree)
    (frames : List Sketch.Frame) :
    ((mountedSketch part nextNode unit).plug frames).ids.Perm
      ((nextNode + 1) :: nextNode :: (part.plug frames).ids) := by
  refine (Sketch.ids_plug_perm _ _).trans ?_
  have inner : (mountedSketch part nextNode unit).ids =
      (nextNode + 1) :: (part.ids ++ [nextNode]) := rfl
  rw [inner, List.cons_append]
  refine List.Perm.cons _ ?_
  rw [List.append_assoc]
  refine List.perm_middle.trans (List.Perm.cons _ ?_)
  exact (Sketch.ids_plug_perm part frames).symm

/-- The tree before the hashes above the joint node are recomputed. -/
def joinedTree (tree : MerkleTree) (replaced : NodeId) (hash jointHash : MerkleHash) : MerkleTree :=
  ((tree.createNode hash).2.replaceByJoint replaced tree.nextNode jointHash).2

variable {part : Sketch} {hash : MerkleHash} {unit : Tree}

/-- The joint node is stored, and so are the frames around it. -/
theorem stored_joinedTree (stored : (part.plug frames).Stored value tree.node none)
    (nodup : (part.plug frames).ids.Nodup)
    (bound : ∀ id ∈ (part.plug frames).ids, id < tree.nextNode)
    (left : ∀ frame ∈ frames, frame.onLeft = true) (rooted : treeRoot (unit.map value) = hash) :
    let joined := tree.joinedTree part.id hash (nodeHash (treeRoot (part.whole.map value)) hash)
    (mountedSketch part tree.nextNode unit).Stored value joined.node (above frames) ∧
      Around value joined.node (tree.nextNode + 1) frames ∧
      ∀ id < tree.nextNode, (joined.node id).hash = (tree.node id).hash := by
  obtain ⟨partStored, around⟩ := Sketch.Stored.split stored
  have perm := Sketch.ids_plug_perm part frames
  obtain ⟨partNodup, framesNodup, apart⟩ := List.nodup_append.mp (perm.nodup_iff.mp nodup)
  have partBound : ∀ id ∈ part.ids, id < tree.nextNode := fun id inPart =>
    bound id (perm.mem_iff.mpr (List.mem_append_left _ inPart))
  have framesBound : ∀ id ∈ frameIds frames, id < tree.nextNode := fun id inFrames =>
    bound id (perm.mem_iff.mpr (List.mem_append_right _ inFrames))
  have replacedBound := partBound part.id part.id_mem_ids
  have aboveIn : ∀ id, above frames = some id → id ∈ frameIds frames := by
    cases frames with
    | nil => rintro id ⟨⟩
    | cons frame frames =>
      rintro id ⟨⟩
      exact List.mem_flatMap.mpr ⟨frame, List.mem_cons_self, List.mem_cons_self⟩
  -- The new leaf is allocated before the joint node.
  have created : ∀ id < tree.nextNode, (tree.createNode hash).2.node id = tree.node id :=
    fun id less => Function.update_of_ne (Nat.ne_of_lt less) _ _
  have createdNew : (tree.createNode hash).2.node tree.nextNode = ⟨none, none, none, hash⟩ :=
    Function.update_self _ _ _
  have parentEq : ((tree.createNode hash).2.node part.id).parent = above frames := by
    rw [created part.id replacedBound]
    exact partStored.parent
  obtain ⟨jointNode, insertedNode, replacedNode, parentNode, otherNodes⟩ :=
    @node_replaceByJoint (tree.createNode hash).2 part.id tree.nextNode
      (Nat.lt_succ_of_lt replacedBound) (Nat.lt_succ_self _) (Nat.ne_of_lt replacedBound)
      (by
        intro parent isParent
        rw [parentEq] at isParent
        have inFrames := aboveIn parent isParent
        exact ⟨Nat.lt_succ_of_lt (framesBound parent inFrames),
          fun equal => apart part.id part.id_mem_ids parent inFrames equal.symm,
          Nat.ne_of_lt (framesBound parent inFrames)⟩)
      (nodeHash (treeRoot (part.whole.map value)) hash)
  rw [parentEq] at jointNode parentNode otherNodes
  rw [createdNew] at insertedNode
  rw [created part.id replacedBound] at replacedNode
  have others : ∀ id < tree.nextNode, id ≠ part.id → above frames ≠ some id →
      (tree.joinedTree part.id hash (nodeHash (treeRoot (part.whole.map value)) hash)).node id =
        tree.node id := fun id less notPart notAbove =>
    (otherNodes id (Nat.lt_succ_of_lt less) (Nat.ne_of_lt less) notPart notAbove).trans
      (created id less)
  refine ⟨⟨?_, ?_, ?_⟩, ?_, ?_⟩
  · refine jointNode.trans ?_
    simp [← rooted, Sketch.whole, HashTree.map, treeRoot, HashTree.digest]
  · refine partStored.reparent replacedNode partNodup fun id inPart notTop => ?_
    exact others id (partBound id inPart) notTop fun isAbove =>
      apart id inPart id (aboveIn id isAbove) rfl
  · refine insertedNode.trans ?_
    simp [rooted, createNode]
  · refine around_joint around left framesNodup (fun id isAbove => ?_) fun id inFrames notAbove => ?_
    · have less := framesBound id (aboveIn id isAbove)
      exact (parentNode id isAbove).trans (by rw [created id less]; rfl)
    · exact others id (framesBound id inFrames)
        (fun equal => apart part.id part.id_mem_ids id inFrames equal.symm) notAbove
  · intro id less
    by_cases isPart : id = part.id
    · subst isPart
      rw [joinedTree, replacedNode]
    · by_cases isAbove : above frames = some id
      · rw [joinedTree, parentNode id isAbove, created id less]
      · rw [others id less isPart isAbove]

variable {touched : MerkleHash → Prop}

/-- The nodes above a stored part have hashes of pairs. -/
theorem touched_frames {node : NodeId → Node} (stored : (part.plug frames).Stored value node none)
    (pairs : ∀ left right, .node left right ∈ ((part.plug frames).whole.map value).subtrees →
      touched (nodeHash (treeRoot left) (treeRoot right))) :
    ∀ frame ∈ frames, touched (node frame.id).hash := by
  induction frames generalizing part with
  | nil => simp
  | cons frame frames ih =>
    intro other inFrames
    rcases List.mem_cons.mp inFrames with rfl | later
    · have upper := (@Sketch.Stored.split value node (part.up other) frames stored).1
      have hashEq := upper.hash
      rw [Sketch.id_up] at hashEq
      rw [hashEq]
      exact touched_up pairs
    · exact ih stored pairs other later

/-- What one step of `append` does to the fields of a tree besides the nodes. -/
structure Appended (touched : MerkleHash → Prop) (hash jointHash : MerkleHash)
    (old new : MerkleTree) : Prop where
  nextNode : new.nextNode = old.nextNode + 2
  size : new.size = old.size
  merkleRoot : new.merkleRoot = old.merkleRoot
  hasListener : new.hasListener = old.hasListener
  nodeMap : ∀ key, (old.hasListener = true → ¬ touched key) → new.nodeMap key =
    Function.update (Function.update old.nodeMap hash (some old.nextNode)) jointHash
      (some (old.nextNode + 1)) key

theorem fields_joinedTree (tree : MerkleTree) (replaced : NodeId) (hash jointHash : MerkleHash) :
    tree.joinedTree replaced hash jointHash =
      { tree with
        node := (tree.joinedTree replaced hash jointHash).node
        nextNode := tree.nextNode + 2
        nodeMap := Function.update (Function.update tree.nodeMap hash (some tree.nextNode)) jointHash
          (some (tree.nextNode + 1)) } :=
  (nextNode_replaceByJoint (tree.createNode hash).2 replaced tree.nextNode jointHash).2

variable {size : Nat}

/-- `appendLeaf`, once the walk up from the last leaf is known. -/
theorem appendLeaf_eq {part focus : Sketch}
    (ancestorEq : (tree.createNode hash).2.ancestor (countOne (lowestBit size - 1 : Int)) part.id =
      some focus.id)
    (focusHash : ((tree.createNode hash).2.node focus.id).hash = treeRoot (focus.whole.map value))
    {appended : MerkleTree} (updates : (tree.joinedTree focus.id hash
        (nodeHash (treeRoot (focus.whole.map value)) hash)).updateNode (tree.nextNode + 1)
          (nodeHash (treeRoot (focus.whole.map value)) hash) = .ok appended) :
    tree.appendLeaf size part.id hash = .ok (tree.nextNode, appended) := by
  have jointHash : hashPair hash ((tree.createNode hash).2.node focus.id).hash leftSide =
      nodeHash (treeRoot (focus.whole.map value)) hash := by
    rw [focusHash]
    exact if_pos rfl
  have jointId := (nextNode_replaceByJoint (tree.createNode hash).2 focus.id tree.nextNode
    (nodeHash (treeRoot (focus.whole.map value)) hash)).1
  have newLeaf : (tree.createNode hash).1 = tree.nextNode := rfl
  have newNext : (tree.createNode hash).2.nextNode = tree.nextNode + 1 := rfl
  have tree_eq : ((tree.createNode hash).2.replaceByJoint focus.id tree.nextNode
      (nodeHash (treeRoot (focus.whole.map value)) hash)).2 =
        tree.joinedTree focus.id hash (nodeHash (treeRoot (focus.whole.map value)) hash) := rfl
  simp only [appendLeaf, ancestorEq, jointHash, newLeaf, jointId, newNext, tree_eq, updates, bind,
    Except.bind]
  rfl

variable {lower upper : List Sketch.Frame}

/-- One step of `append` joins the new leaf with the part that its size tells. -/
theorem appendLeaf_plug (stored : (part.plug (lower ++ upper)).Stored value tree.node none)
    (nodup : (part.plug (lower ++ upper)).ids.Nodup)
    (bound : ∀ id ∈ (part.plug (lower ++ upper)).ids, id < tree.nextNode)
    (left : ∀ frame ∈ upper, frame.onLeft = true)
    (height : countOne (lowestBit size - 1 : Int) = lower.length)
    (rooted : treeRoot (unit.map value) = hash) (old : ∀ left right,
      .node left right ∈ ((part.plug (lower ++ upper)).whole.map value).subtrees →
        touched (nodeHash (treeRoot left) (treeRoot right))) (new : ∀ left right, .node left right ∈
        (((mountedSketch (part.plug lower) tree.nextNode unit).plug upper).whole.map
          value).subtrees →
        touched (nodeHash (treeRoot left) (treeRoot right))) :
    ∃ appended, tree.appendLeaf size part.id hash = .ok (tree.nextNode, appended) ∧
      ((mountedSketch (part.plug lower) tree.nextNode unit).plug upper).Stored value
        appended.node none ∧
      ((mountedSketch (part.plug lower) tree.nextNode unit).plug upper).ids.Nodup ∧
      (∀ id ∈ ((mountedSketch (part.plug lower) tree.nextNode unit).plug upper).ids,
        id < appended.nextNode) ∧
      Appended touched hash (nodeHash (treeRoot ((part.plug lower).whole.map value)) hash)
        tree appended := by
  rw [Sketch.plug_append] at stored nodup bound old
  obtain ⟨jointStored, around, hashes⟩ := stored_joinedTree stored nodup bound left rooted
  have focusStored := (Sketch.Stored.split stored).1
  have focusBound : (part.plug lower).id < tree.nextNode :=
    bound _ ((Sketch.ids_plug_perm _ upper).mem_iff.mpr
      (List.mem_append_left _ (part.plug lower).id_mem_ids))
  -- The walk up from the last leaf happens after the new leaf has been allocated.
  have ancestorEq : (tree.createNode hash).2.ancestor (countOne (lowestBit size - 1 : Int))
      part.id = some (part.plug lower).id := by
    have whole : (part.plug (lower ++ upper)).Stored value (tree.createNode hash).2.node none := by
      rw [Sketch.plug_append]
      exact stored.frame fun id inIds => Function.update_of_ne (Nat.ne_of_lt (bound id inIds)) _ _
    obtain ⟨partStored, partAround⟩ := Sketch.Stored.split whole
    rw [height]
    exact ancestor_plug partStored.parent partAround
  have focusHash : ((tree.createNode hash).2.node (part.plug lower).id).hash =
      treeRoot ((part.plug lower).whole.map value) :=
    (congrArg Node.hash (Function.update_of_ne (Nat.ne_of_lt focusBound) _ _)).trans
      focusStored.hash
  have newNodup : ((mountedSketch (part.plug lower) tree.nextNode unit).plug upper).ids.Nodup := by
    refine (ids_mountedSketch_perm _ _ _ _).nodup_iff.mpr ?_
    simp only [List.nodup_cons, List.mem_cons, not_or]
    exact ⟨⟨Nat.succ_ne_self _, fun inIds => Nat.not_succ_lt_self (bound _ inIds)⟩,
      fun inIds => Nat.lt_irrefl _ (bound _ inIds), nodup⟩
  have newBound : ∀ id ∈ ((mountedSketch (part.plug lower) tree.nextNode unit).plug upper).ids,
      id < tree.nextNode + 2 := by
    intro id inIds
    rcases List.mem_cons.mp ((ids_mountedSketch_perm _ _ _ _).mem_iff.mp inIds) with rfl | inIds
    · exact Nat.lt_succ_self _
    rcases List.mem_cons.mp inIds with rfl | inIds
    · exact Nat.lt_add_of_pos_right two_pos
    · exact Nat.lt_add_right 2 (bound id inIds)
  have fields := tree.fields_joinedTree (part.plug lower).id hash
    (nodeHash (treeRoot ((part.plug lower).whole.map value)) hash)
  obtain ⟨appended, updates, newStored, -, rehashed⟩ := @updateNode_plug _ touched _ _ _
    jointStored around newNodup (by rwa [fields])
    (by
      intro frame inUpper
      rw [hashes frame.id (bound _ ((Sketch.ids_plug_perm _ upper).mem_iff.mpr
        (List.mem_append_right _ (List.mem_flatMap.mpr ⟨frame, inUpper, List.mem_cons_self⟩))))]
      exact touched_frames stored old frame inUpper)
    new
  have jointHash : treeRoot ((mountedSketch (part.plug lower) tree.nextNode unit).whole.map value) =
      nodeHash (treeRoot ((part.plug lower).whole.map value)) hash :=
    congrArg (nodeHash _) rooted
  rw [jointStored.hash, jointHash] at updates
  rw [fields] at rehashed
  refine ⟨appended, appendLeaf_eq ancestorEq focusHash updates, newStored, newNodup, ?_, ?_⟩
  · rw [rehashed.nextNode]
    exact newBound
  · exact ⟨rehashed.nextNode, rehashed.size, rehashed.merkleRoot, rehashed.hasListener,
      rehashed.nodeMap⟩

/-! ### The shape of the tree -/

theorem countOne_natCast {number : Nat} (bound : number < 2 ^ 64) :
    countOne (number : Int) = popcount number := by
  rw [countOne, popcount, Int.emod_eq_of_lt (by omega) (by exact_mod_cast bound),
    Int.toNat_natCast]

/-- The number of steps to the part that is joined with a new leaf. -/
theorem countOne_lowestBit (positive : 0 < size) (bound : size < 2 ^ 63) :
    2 ^ countOne (lowestBit size - 1 : Int) ∣ size ∧
      ¬ 2 ^ (countOne (lowestBit size - 1 : Int) + 1) ∣ size := by
  obtain ⟨exponent, lowest, divides, maximal⟩ := lowestBit_eq_two_pow positive
  have small := Nat.le_of_dvd positive divides
  have cast : (lowestBit size - 1 : Int) = ((2 ^ exponent - 1 : Nat) : Int) := by
    rw [lowest]
    push_cast [Nat.one_le_two_pow]
    rfl
  rw [cast, countOne_natCast (by omega), popcount_two_pow_sub_one]
  exact ⟨divides, maximal⟩

/-- A compact tree that is stored down to its last leaf. -/
structure Spined (value : MerkleHash → MerkleHash) (tree : MerkleTree) (sketch : Sketch)
    (last : NodeId) : Prop where
  stored : sketch.Stored value tree.node none
  nodup : sketch.ids.Nodup
  bound : ∀ id ∈ sketch.ids, id < tree.nextNode
  compact : sketch.whole.Compact
  spine : ∃ leaf frames, (∀ frame ∈ frames, frame.onLeft = true) ∧
    sketch = (Sketch.stub last (.leaf leaf)).plug frames

theorem map_whole_of_left {frames : List Sketch.Frame}
    (left : ∀ frame ∈ frames, frame.onLeft = true) :
    frames.map Sketch.Frame.whole =
      HashTree.leftFrames (frames.map fun frame => frame.sibling.whole) := by
  rw [HashTree.leftFrames, List.map_map]
  refine List.map_congr_left fun frame inFrames => ?_
  simp [Sketch.Frame.whole, left frame inFrames]

variable {sketch : Sketch} {last : NodeId}

theorem Spined.hash_last (spined : Spined value tree sketch last) :
    (tree.node last).hash = value sketch.whole.lastLeaf := by
  obtain ⟨stored, -, -, -, leaf, frames, left, rfl⟩ := spined
  have lastEq := HashTree.lastLeaf_plug (HashTree.leaf leaf)
    (frames.map fun frame => frame.sibling.whole)
  rw [← map_whole_of_left left] at lastEq
  rw [Sketch.whole_plug, Sketch.whole, lastEq]
  exact (Sketch.Stored.split stored).1.hash

theorem Spined.topOf (spined : Spined value tree sketch last) :
    tree.topOf (tree.nextNode + 1) last = .ok sketch.id := by
  obtain ⟨stored, nodup, bound, -, leaf, frames, -, rfl⟩ := spined
  exact topOf_stored stored nodup bound

/-- Joining a new leaf with a part on the spine grows the sketched tree. -/
theorem whole_mountedSketch {last next : NodeId} {leaf hash : MerkleHash}
    (left : ∀ frame ∈ lower ++ upper, frame.onLeft = true) :
    ((mountedSketch ((Sketch.stub last (.leaf leaf)).plug lower) next (.leaf hash)).plug upper).whole =
      ((Sketch.stub last (.leaf leaf)).plug (lower ++ upper)).whole.grow lower.length hash := by
  have leftLower := map_whole_of_left fun frame inLower =>
    left frame (List.mem_append_left upper inLower)
  have leftUpper := map_whole_of_left fun frame inUpper =>
    left frame (List.mem_append_right lower inUpper)
  have spineEq := spine_plug (HashTree.leaf leaf)
    ((lower ++ upper).map fun frame => frame.sibling.whole)
  have lastEq := HashTree.lastLeaf_plug (HashTree.leaf leaf)
    ((lower ++ upper).map fun frame => frame.sibling.whole)
  rw [← map_whole_of_left left] at spineEq lastEq
  rw [HashTree.grow, Sketch.whole_plug, Sketch.whole_plug]
  simp only [Sketch.whole, mountedSketch, Sketch.whole_plug, spineEq, lastEq, HashTree.spine,
    HashTree.lastLeaf, List.nil_append]
  rw [List.map_append, List.take_left' (by simp), List.drop_left' (by simp), ← leftLower,
    ← leftUpper]

/-- A sketch keeps its nodes and its stubs. -/
structure Extends (old new : Sketch) : Prop where
  ids : old.ids ⊆ new.ids
  stubs : old.stubs ⊆ new.stubs

theorem Extends.refl (sketch : Sketch) : Extends sketch sketch :=
  ⟨List.Subset.refl _, List.Subset.refl _⟩

theorem Extends.trans {first second third : Sketch} (earlier : Extends first second)
    (later : Extends second third) : Extends first third :=
  ⟨List.Subset.trans earlier.ids later.ids, List.Subset.trans earlier.stubs later.stubs⟩

theorem extends_mountedSketch (part : Sketch) (nextNode : NodeId) (unit : Tree)
    (frames : List Sketch.Frame) :
    Extends (part.plug frames) ((mountedSketch part nextNode unit).plug frames) := by
  constructor
  · intro id inIds
    refine (ids_mountedSketch_perm part nextNode unit frames).mem_iff.mpr ?_
    exact List.mem_cons_of_mem _ (List.mem_cons_of_mem _ inIds)
  · intro entry inStubs
    rw [Sketch.mem_stubs_plug] at inStubs ⊢
    exact inStubs.imp_left fun inPart => List.mem_append_left _ inPart

/-- `appendLeaf` on a compact tree gives the compact tree with one leaf more. -/
theorem Spined.appendLeaf (spined : Spined value tree sketch last) (same : value hash = hash)
    (small : sketch.whole.count < 2 ^ 63)
    (old : ∀ left right, .node left right ∈ (sketch.whole.map value).subtrees →
      touched (nodeHash (treeRoot left) (treeRoot right)))
    (new : ∀ grown : Tree, grown.Compact → grown.leaves = (sketch.whole.map value).leaves ++ [hash] →
      ∀ left right, .node left right ∈ grown.subtrees →
        touched (nodeHash (treeRoot left) (treeRoot right))) :
    ∃ appended grown left,
      tree.appendLeaf sketch.whole.count last hash = .ok (tree.nextNode, appended) ∧
        Spined value appended grown tree.nextNode ∧
        grown.whole.leaves = sketch.whole.leaves ++ [hash] ∧
        Extends sketch grown ∧
        (tree.nextNode, .leaf hash) ∈ grown.stubs ∧
        .node left (.leaf hash) ∈ (grown.whole.map value).subtrees ∧
        Appended touched hash (nodeHash (treeRoot left) hash) tree appended := by
  obtain ⟨stored, nodup, bound, compact, leaf, frames, left, rfl⟩ := spined
  obtain ⟨divides, maximal⟩ := countOne_lowestBit (HashTree.count_pos _) small
  obtain ⟨deep, grownCompact⟩ := compact.grow divides maximal hash
  have spineLength : ((Sketch.stub last (.leaf leaf)).plug frames).whole.spine.length =
      frames.length := by
    rw [Sketch.whole_plug, map_whole_of_left left, spine_plug]
    simp [Sketch.whole, HashTree.spine]
  -- The height at which the leaf is joined lies on the spine, so it cuts the frames.
  obtain ⟨lower, upper, rfl, height⟩ : ∃ lower upper, frames = lower ++ upper ∧ lower.length =
      countOne (lowestBit ((Sketch.stub last (.leaf leaf)).plug frames).whole.count - 1) := by
    rw [spineLength] at deep
    exact ⟨_, _, (List.take_append_drop _ frames).symm, List.length_take_of_le deep⟩
  rw [← height] at grownCompact
  have wholeEq := @whole_mountedSketch lower upper last tree.nextNode leaf hash left
  have leavesEq := congrArg HashTree.leaves wholeEq
  rw [HashTree.leaves_grow] at leavesEq
  rw [← wholeEq] at grownCompact
  obtain ⟨appended, appends, newStored, newNodup, newBound, fields⟩ :=
    @appendLeaf_plug value tree (.stub last (.leaf leaf)) hash (.leaf hash) touched _ lower upper
      stored nodup bound (fun frame inUpper => left frame (List.mem_append_right _ inUpper))
      height.symm same old
      (new _ (grownCompact.map value) (by
        rw [leaves_map, leavesEq, List.map_append, leaves_map]
        simp [same]))
  refine ⟨appended, _, _, appends, ⟨newStored, newNodup, newBound, grownCompact, hash,
    ⟨tree.nextNode + 1, true, (Sketch.stub last (.leaf leaf)).plug lower⟩ :: upper, ?_, rfl⟩,
    leavesEq, ?_, ?_, ?_, fields⟩
  · intro frame inFrames
    rcases List.mem_cons.mp inFrames with rfl | inUpper
    · rfl
    · exact left frame (List.mem_append_right _ inUpper)
  · rw [Sketch.plug_append]
    exact extends_mountedSketch _ _ _ _
  · exact (Sketch.mem_stubs_plug _ _ _).mpr (.inl (List.mem_append_right _ List.mem_cons_self))
  · rw [Sketch.whole_plug, HashTree.map_plug]
    refine HashTree.subtrees_subset_plug _ _ ?_
    have joint : (mountedSketch ((Sketch.stub last (.leaf leaf)).plug lower) tree.nextNode
        (.leaf hash)).whole.map value =
          .node (((Sketch.stub last (.leaf leaf)).plug lower).whole.map value) (.leaf hash) :=
      congrArg (fun leaf => HashTree.node _ (.leaf leaf)) same
    rw [joint]
    exact HashTree.self_mem_subtrees _

/-! ### Appending a batch -/

section Batch

variable {hashed : Set (MerkleHash × MerkleHash)} {atoms : Set MerkleHash}

/-- The hashes of given pairs. -/
def PairHash (hashed : Set (MerkleHash × MerkleHash)) (key : MerkleHash) : Prop :=
  ∃ pair ∈ hashed, nodeHash pair.1 pair.2 = key

theorem pairHash_of_within {tree : Tree} (within : HashTree.Within nodeHash hashed atoms tree)
    {left right : Tree} (inTree : .node left right ∈ tree.subtrees) :
    PairHash hashed (nodeHash (treeRoot left) (treeRoot right)) :=
  ⟨_, ((HashTree.within_node_iff left right).mp (within.subtree inTree)).1, rfl⟩

/-- What appending a batch of leaves does to a stored tree. -/
structure Growth (value : MerkleHash → MerkleHash) (hashed : Set (MerkleHash × MerkleHash))
    (hashes : List MerkleHash) (old : MerkleTree) (sketch : Sketch) (new : MerkleTree)
    (grown : Sketch) (last : NodeId) : Prop where
  spined : Spined value new grown last
  leaves : grown.whole.leaves = sketch.whole.leaves ++ hashes
  extended : Extends sketch grown
  size : new.size = old.size
  merkleRoot : new.merkleRoot = old.merkleRoot
  hasListener : new.hasListener = old.hasListener
  nodeMap : ∀ key, key ∉ hashes →
    (∀ left, ∀ hash ∈ hashes, (left, hash) ∈ hashed → nodeHash left hash ≠ key) →
    (old.hasListener = true → ¬ PairHash hashed key) → new.nodeMap key = old.nodeMap key
  lastKnown : ∀ hash, hashes.getLast? = some hash → new.nodeMap hash = some last
  indexed : ∀ hash ∈ hashes, ¬ PairHash hashed hash ∧
    ∃ id, new.nodeMap hash = some id ∧ (id, .leaf hash) ∈ grown.stubs

variable {hash : MerkleHash} {hashes : List MerkleHash}

theorem Growth.cons {old middle new : MerkleTree} {sketch between grown : Sketch}
    {first last : NodeId} (earlier : Growth value hashed [hash] old sketch middle between first)
    (later : Growth value hashed hashes middle between new grown last)
    (lastSame : hashes = [] → new.nodeMap hash = some last) :
    Growth value hashed (hash :: hashes) old sketch new grown last := by
  refine ⟨later.spined, ?_, earlier.extended.trans later.extended, later.size.trans earlier.size,
    later.merkleRoot.trans earlier.merkleRoot, later.hasListener.trans earlier.hasListener, ?_, ?_,
    ?_⟩
  · rw [later.leaves, earlier.leaves, List.append_assoc]
    rfl
  · intro key notIn notJoint notTouched
    rw [List.mem_cons, not_or] at notIn
    rw [later.nodeMap key notIn.2
        (fun left other inHashes => notJoint left other (List.mem_cons_of_mem _ inHashes))
        (by rwa [earlier.hasListener]),
      earlier.nodeMap key (by simpa using notIn.1) (by
        intro left other inSingle
        exact notJoint left other (List.mem_singleton.mp inSingle ▸ List.mem_cons_self)) notTouched]
  · intro other isLast
    cases hashes with
    | nil =>
      obtain rfl := Option.some.inj isLast
      exact lastSame rfl
    | cons next rest =>
      rw [List.getLast?_cons_cons] at isLast
      exact later.lastKnown other isLast
  · intro other inHashes
    by_cases inRest : other ∈ hashes
    · exact later.indexed other inRest
    · obtain rfl : other = hash := by simpa [inRest] using inHashes
      obtain ⟨apart, id, isId, inStubs⟩ := earlier.indexed other List.mem_cons_self
      refine ⟨apart, id, ?_, later.extended.stubs inStubs⟩
      rw [later.nodeMap other inRest
        (fun left next _ inHashed isJoint => apart ⟨_, inHashed, isJoint⟩) fun _ => apart, isId]

variable {tree : MerkleTree} {sketch : Sketch} {last : NodeId}

/-- One step of `append`, with the map of nodes. -/
theorem Spined.growth (disjoint : ∀ pair ∈ hashed, nodeHash pair.1 pair.2 ∉ atoms)
    (spined : Spined value tree sketch last) (same : value hash = hash)
    (small : sketch.whole.count < 2 ^ 63)
    (withinOld : HashTree.Within nodeHash hashed atoms (sketch.whole.map value))
    (withinNew : ∀ grown : Tree, grown.Compact →
      grown.leaves = (sketch.whole.map value).leaves ++ [hash] →
      HashTree.Within nodeHash hashed atoms grown) :
    ∃ appended grown, tree.appendLeaf sketch.whole.count last hash = .ok (tree.nextNode, appended) ∧
        Growth value hashed [hash] tree sketch appended grown tree.nextNode := by
  obtain ⟨appended, grown, left, appends, newSpined, leaves, extended, inStubs, joint, fields⟩ :=
    spined.appendLeaf same small (fun _ _ => pairHash_of_within withinOld)
      (fun grown compact leaves _ _ => pairHash_of_within (withinNew grown compact leaves))
  have within : HashTree.Within nodeHash hashed atoms (grown.whole.map value) :=
    withinNew _ (newSpined.compact.map value) (by
      rw [leaves_map, leaves, List.map_append, leaves_map]
      simp [same])
  obtain ⟨inHashed, -, isAtom⟩ :=
    (HashTree.within_node_iff left (.leaf hash)).mp (within.subtree joint)
  rw [HashTree.within_leaf_iff] at isAtom
  have apart : ¬ PairHash hashed hash := by
    rintro ⟨pair, inPairs, isHash⟩
    exact disjoint pair inPairs (isHash ▸ isAtom)
  have known : appended.nodeMap hash = some tree.nextNode := by
    rw [fields.nodeMap hash fun _ => apart, Function.update_of_ne, Function.update_self]
    exact fun isJoint => apart ⟨_, inHashed, isJoint.symm⟩
  refine ⟨appended, grown, appends, newSpined, leaves, extended, fields.size, fields.merkleRoot,
    fields.hasListener, ?_, ?_, ?_⟩
  · intro key notIn notJoint notTouched
    rw [fields.nodeMap key notTouched, Function.update_of_ne, Function.update_of_ne]
    · simpa using notIn
    · exact (notJoint _ hash List.mem_cons_self inHashed).symm
  · intro other isLast
    obtain rfl : hash = other := by simpa using isLast
    exact known
  · intro other inSingle
    obtain rfl := List.mem_singleton.mp inSingle
    exact ⟨apart, _, known, inStubs⟩

/-- The loop of `append` adds the leaves of the batch to a compact tree. -/
theorem appendAll_growth (disjoint : ∀ pair ∈ hashed, nodeHash pair.1 pair.2 ∉ atoms)
    (spined : Spined value tree sketch last) (same : ∀ hash ∈ hashes, value hash = hash)
    (small : sketch.whole.count + hashes.length < 2 ^ 63)
    (within : ∀ extra, extra <+: hashes → ∀ grown : Tree, grown.Compact →
      grown.leaves = (sketch.whole.map value).leaves ++ extra →
      HashTree.Within nodeHash hashed atoms grown) :
    ∃ newLast appended grown,
      tree.appendAll sketch.whole.count (some last) hashes = .ok (some newLast, appended) ∧
        Growth value hashed hashes tree sketch appended grown newLast := by
  induction hashes generalizing tree sketch last with
  | nil =>
    exact ⟨last, tree, sketch, rfl, spined, (List.append_nil _).symm, .refl sketch, rfl, rfl, rfl,
      fun _ _ _ _ => rfl, by simp, by simp⟩
  | cons hash hashes ih =>
    have positive := sketch.whole.count_pos
    rw [List.length_cons] at small
    obtain ⟨middle, between, appends, step⟩ := spined.growth disjoint
      (same hash List.mem_cons_self) (by omega)
      (within [] List.nil_prefix _ (spined.compact.map value) (List.append_nil _).symm)
      (within [hash] (List.prefix_cons_inj hash |>.mpr List.nil_prefix))
    have betweenLeaves : (between.whole.map value).leaves =
        (sketch.whole.map value).leaves ++ [hash] := by
      rw [leaves_map, step.leaves, List.map_append, leaves_map]
      simp [same hash List.mem_cons_self]
    have betweenCount : between.whole.count = sketch.whole.count + 1 := by
      rw [HashTree.count, step.leaves, List.length_append]
      rfl
    obtain ⟨newLast, appended, grown, rest, growth⟩ := ih step.spined
      (fun other inHashes => same other (List.mem_cons_of_mem _ inHashes))
      (by omega)
      (by
        intro extra isPrefix other compact leaves
        refine within (hash :: extra) ((List.prefix_cons_inj hash).mpr isPrefix) other compact ?_
        rw [leaves, betweenLeaves, List.append_assoc]
        rfl)
    rw [betweenCount] at rest
    refine ⟨newLast, appended, grown, ?_, step.cons growth ?_⟩
    · rw [appendAll, if_neg (Nat.ne_of_gt positive)]
      simp only [appends, bind, Except.bind]
      exact rest
    · rintro rfl
      simp only [appendAll, Except.ok.injEq, Prod.mk.injEq, Option.some.injEq] at rest
      obtain ⟨rfl, rfl⟩ := rest
      exact step.lastKnown hash rfl

theorem Growth.known_lastLeaf {old new : MerkleTree} {sketch grown : Sketch}
    (growth : Growth value hashed hashes old sketch new grown last)
    (nonempty : hashes ≠ []) : new.nodeMap grown.whole.lastLeaf = some last := by
  obtain ⟨earlier, hash, rfl⟩ : ∃ earlier hash, hashes = earlier ++ [hash] :=
    ⟨_, _, (List.dropLast_append_getLast nonempty).symm⟩
  rw [HashTree.lastLeaf_eq_of_leaves (growth.leaves.trans (List.append_assoc _ _ _).symm)]
  exact growth.lastKnown hash (by simp)

/-- `append`, from what its loop returns. -/
theorem append_eq {tree appended : MerkleTree} (nonneg : 0 ≤ tree.size)
    (appends : tree.appendAll tree.size.toNat
      (if 0 < tree.size then tree.lastNodeHash.bind tree.nodeMap else none) hashes =
        .ok (some last, appended)) :
    tree.append hashes = .ok
      { appended with
        size := tree.size + hashes.length
        lastNodeHash := some (appended.node last).hash } := by
  have known : tree.size ≠ unknownSize := by
    rw [unknownSize]
    omega
  simp only [append, Go.require, Go.assert, known, nonneg, appends, ne_eq, not_false_eq_true,
    decide_true, if_true, bind, Except.bind]
  rfl

/-- `append` on a tree of known size. -/
theorem append_growth (disjoint : ∀ pair ∈ hashed, nodeHash pair.1 pair.2 ∉ atoms)
    (spined : Spined value tree sketch last) (size : tree.size = sketch.whole.leaves.length)
    (lastEq : tree.lastNodeHash.bind tree.nodeMap = some last)
    (same : ∀ hash ∈ hashes, value hash = hash)
    (small : sketch.whole.leaves.length + hashes.length < 2 ^ 63)
    (within : ∀ extra, extra <+: hashes → ∀ grown : Tree, grown.Compact →
      grown.leaves = (sketch.whole.map value).leaves ++ extra →
      HashTree.Within nodeHash hashed atoms grown) :
    ∃ appended grown newLast, tree.append hashes = .ok
          { appended with
            size := tree.size + hashes.length
            lastNodeHash := some (appended.node newLast).hash } ∧
        Growth value hashed hashes tree sketch appended grown newLast := by
  obtain ⟨newLast, appended, grown, appends, growth⟩ :=
    appendAll_growth disjoint spined same small within
  refine ⟨appended, grown, newLast, append_eq ?_ ?_, growth⟩
  · rw [size]
    exact Int.natCast_nonneg _
  · have positive : 0 < tree.size := by
      rw [size]
      exact_mod_cast sketch.whole.count_pos
    rw [if_pos positive, lastEq, size]
    exact appends

end Batch

end MerkleTree

end MultiVac.Merkle
