import MultiVac.Merkle.Append

/-!
# Building a partial tree

`buildPartialTreeForOldMerklePath` on a genuine path of a base tree. The nodes
that a delta tree holds of its base are those on some paths with their siblings,
and a new path adds the missing nodes below the first one that is there.
-/

namespace MultiVac.Merkle

open Lib
open Lib.HashTree (leaves_subset_of_mem_subtrees left_mem_subtrees map_eq_self mem_subtrees_iff
  mem_subtrees_up plug_cons right_mem_subtrees self_mem_subtrees subtrees_trans
  subtrees_subset_up sibling_subset_up children_mem_subtrees)
open Sketch (Around above frameIds)

/-- The side of a sibling in a Merkle path. -/
def sideOf (onLeft : Bool) : UInt8 := if onLeft then leftSide else rightSide

/-- The step of a Merkle path over a frame of the base tree. -/
def stepOf (frame : HashTree.Frame MerkleHash) : MerkleHash × UInt8 :=
  (treeRoot frame.sibling, sideOf frame.onLeft)

theorem hashPair_stepOf (tree : Tree) (frame : HashTree.Frame MerkleHash) :
    hashPair (treeRoot tree) (treeRoot frame.sibling) (sideOf frame.onLeft) =
      treeRoot (tree.up frame) := by
  cases onLeft : frame.onLeft with
  | true => simp [hashPair, sideOf, treeRoot, HashTree.up, onLeft, HashTree.digest]
  | false =>
    simp [hashPair, sideOf, treeRoot, HashTree.up, onLeft, HashTree.digest, leftSide, rightSide]

namespace MerkleTree

variable {value : MerkleHash → MerkleHash} {parent sibling : NodeId}

/-- The nodes after the pointers of a parent have been set. -/
theorem node_link (tree : MerkleTree) {current : NodeId} (notCurrent : current ≠ parent)
    (notSibling : sibling ≠ parent) (different : current ≠ sibling) (onLeft : Bool) :
    let linked := (tree.link parent current sibling (sideOf onLeft)).node
    linked parent = { tree.node parent with
        leftChild := some (if onLeft then sibling else current)
        rightChild := some (if onLeft then current else sibling) } ∧
      linked current = { tree.node current with parent := some parent } ∧
      linked sibling = { tree.node sibling with parent := some parent } ∧
      ∀ id, id ≠ parent → id ≠ current → id ≠ sibling → linked id = tree.node id := by
  have left : sideOf true = leftSide := rfl
  have right : ¬ sideOf false = leftSide := by decide
  -- The order of the pointers depends on the side, the result does not.
  cases onLeft
  all_goals
    simp only [link, if_pos left, if_neg right, setParent, setChildren, modify]
    refine ⟨?_, ?_, ?_, ?_⟩
    · simp [Function.update_apply, notCurrent.symm, notSibling.symm]
    · simp [Function.update_apply, notCurrent, different]
    · simp [Function.update_apply, notSibling, different.symm]
    · intro id notParent idNotCurrent idNotSibling
      simp [Function.update_apply, notParent, idNotCurrent, idNotSibling]

theorem fields_link (tree : MerkleTree) (parent current sibling : NodeId) (side : UInt8) :
    tree.link parent current sibling side =
      { tree with node := (tree.link parent current sibling side).node } := by
  unfold link
  split <;> rfl

variable {tree : MerkleTree}

/-- The pointers of a parent make it and its children a stored sketch. -/
theorem stored_link {part sibling : Sketch} {upper partParent siblingParent : Option NodeId}
    {onLeft : Bool} (partStored : part.Stored value tree.node partParent)
    (siblingStored : sibling.Stored value tree.node siblingParent)
    (own : tree.node parent = ⟨upper, none, none,
      treeRoot ((part.up ⟨parent, onLeft, sibling⟩).whole.map value)⟩)
    (nodup : (part.up ⟨parent, onLeft, sibling⟩).ids.Nodup) :
    (part.up ⟨parent, onLeft, sibling⟩).Stored value
      (tree.link parent part.id sibling.id (sideOf onLeft)).node upper := by
  have separate := (Sketch.ids_up_perm part ⟨parent, onLeft, sibling⟩).nodup_iff.mp nodup
  obtain ⟨partNodup, restNodup, apart⟩ := List.nodup_append.mp separate
  obtain ⟨notSibling, siblingNodup⟩ :
      parent ∉ sibling.ids ∧ sibling.ids.Nodup := List.nodup_cons.mp restNodup
  have notPart : parent ∉ part.ids := fun inPart => apart _ inPart _ List.mem_cons_self rfl
  have disjoint : ∀ id ∈ part.ids, id ∉ sibling.ids := fun id inPart inSibling =>
    apart id inPart id (List.mem_cons_of_mem _ inSibling) rfl
  have partNe : part.id ≠ parent := fun same => notPart (same ▸ part.id_mem_ids)
  have siblingNe : sibling.id ≠ parent := fun same => notSibling (same ▸ sibling.id_mem_ids)
  have different : part.id ≠ sibling.id := fun same =>
    disjoint part.id part.id_mem_ids (same ▸ sibling.id_mem_ids)
  obtain ⟨parentNode, partNode, siblingNode, others⟩ :=
    tree.node_link partNe siblingNe different onLeft
  have newPart : part.Stored value (tree.link parent part.id sibling.id (sideOf onLeft)).node
      (some parent) := by
    refine partStored.reparent partNode partNodup fun id inPart notTop => others id ?_ notTop ?_
    · exact fun same => notPart (same ▸ inPart)
    · exact fun same => disjoint id inPart (same ▸ sibling.id_mem_ids)
  have newSibling : sibling.Stored value
      (tree.link parent part.id sibling.id (sideOf onLeft)).node (some parent) := by
    refine siblingStored.reparent siblingNode siblingNodup fun id inSibling notTop =>
      others id ?_ ?_ notTop
    · exact fun same => notSibling (same ▸ inSibling)
    · exact fun same => disjoint part.id part.id_mem_ids (same ▸ inSibling)
  rw [own] at parentNode
  cases onLeft with
  | true => exact ⟨parentNode, newSibling, newPart⟩
  | false => exact ⟨parentNode, newPart, newSibling⟩

/-! ### The known part of a base tree -/

/-- The hash of a subtree leads to a node. -/
def Known (tree : MerkleTree) (sub : Tree) : Prop := tree.nodeMap (treeRoot sub) ≠ none

/-- The known nodes of a base tree are in a sketch: all nodes from the root down to
stubs, with both children or none. -/
structure Covers (base : Tree) (tree : MerkleTree) (sketch : Sketch) : Prop where
  root : tree.Known base
  siblings : ∀ left right, .node left right ∈ base.subtrees → (tree.Known left ↔ tree.Known right)
  parent : ∀ left right, .node left right ∈ base.subtrees → tree.Known left →
    tree.Known (.node left right)
  ids : ∀ sub ∈ base.subtrees, ∀ id, tree.nodeMap (treeRoot sub) = some id → id ∈ sketch.ids
  stubs : ∀ sub ∈ base.subtrees, ∀ id, tree.nodeMap (treeRoot sub) = some id →
    (∀ left right, sub = .node left right → ¬ tree.Known left) → (id, sub) ∈ sketch.stubs

variable {frame : HashTree.Frame MerkleHash} {sub : Tree} {part : Sketch}

theorem children_of_up {tree left right : Tree} (same : .node left right = tree.up frame) :
    left = tree ∧ right = frame.sibling ∨ left = frame.sibling ∧ right = tree := by
  cases onLeft : frame.onLeft with
  | true =>
    simp only [HashTree.up, onLeft, if_true] at same
    exact .inr (HashTree.node.inj same)
  | false =>
    simp only [HashTree.up, onLeft, Bool.false_eq_true, if_false] at same
    exact .inl (HashTree.node.inj same)

/-- The map of nodes tells what is known. -/
theorem Covers.congr {old new : MerkleTree} {grown : Sketch} (covers : Covers sub old part)
    (same : ∀ other ∈ sub.subtrees, new.nodeMap (treeRoot other) = old.nodeMap (treeRoot other))
    (extended : Extends part grown) : Covers sub new grown := by
  have known : ∀ other ∈ sub.subtrees, (new.Known other ↔ old.Known other) :=
    fun other inSub => by rw [Known, Known, same other inSub]
  refine ⟨(known sub sub.self_mem_subtrees).mpr covers.root, ?_, ?_, ?_, ?_⟩
  · intro left right inSub
    obtain ⟨⟨leftIn, -⟩, rightIn, -⟩ := children_mem_subtrees inSub
    rw [known left leftIn, known right rightIn]
    exact covers.siblings left right inSub
  · intro left right inSub
    rw [known left (children_mem_subtrees inSub).1.1, known _ inSub]
    exact covers.parent left right inSub
  · intro other inSub id isId
    rw [same other inSub] at isId
    exact extended.ids (covers.ids other inSub id isId)
  · intro other inSub id isId noChildren
    rw [same other inSub] at isId
    refine extended.stubs (covers.stubs other inSub id isId ?_)
    rintro left right rfl leftKnown
    exact noChildren left right rfl ((known left (children_mem_subtrees inSub).1.1).mpr leftKnown)

/-- A known node with nothing known below it. -/
theorem covers_stub {id : NodeId} (isId : tree.nodeMap (treeRoot sub) = some id)
    (below : ∀ other ∈ sub.subtrees, other ≠ sub → ¬ tree.Known other) :
    Covers sub tree (.stub id sub) := by
  have children : ∀ left right, .node left right ∈ sub.subtrees →
      ¬ tree.Known left ∧ ¬ tree.Known right := by
    intro left right inSub
    obtain ⟨⟨leftIn, leftNe⟩, rightIn, rightNe⟩ := children_mem_subtrees inSub
    exact ⟨below left leftIn leftNe, below right rightIn rightNe⟩
  have only : ∀ other ∈ sub.subtrees, ∀ found, tree.nodeMap (treeRoot other) = some found →
      found = id ∧ other = sub := by
    intro other inSub found isFound
    have isSub : other = sub := by
      by_contra different
      exact below other inSub different (by simp [Known, isFound])
    rw [isSub, isId] at isFound
    exact ⟨(Option.some.inj isFound).symm, isSub⟩
  refine ⟨by simp [Known, isId], ?_, ?_, ?_, ?_⟩
  · exact fun left right inSub => iff_of_false (children left right inSub).1
      (children left right inSub).2
  · exact fun left right inSub known => absurd known (children left right inSub).1
  · intro other inSub found isFound
    simp [Sketch.ids, only other inSub found isFound]
  · intro other inSub found isFound _
    simp [Sketch.stubs, only other inSub found isFound]

/-- Two covered parts and their parent. -/
theorem Covers.up {siblingPart : Sketch} (covers : Covers sub tree part)
    (others : Covers frame.sibling tree siblingPart)
    (isParent : tree.nodeMap (treeRoot (sub.up frame)) = some parent) :
    Covers (sub.up frame) tree (part.up ⟨parent, frame.onLeft, siblingPart⟩) := by
  have known : tree.Known (sub.up frame) := by simp [Known, isParent]
  refine ⟨known, ?_, ?_, ?_, ?_⟩
  · intro left right inTree
    rcases (mem_subtrees_up _ _ _).mp inTree with isTop | inSub | inSibling
    · rcases children_of_up isTop with ⟨rfl, rfl⟩ | ⟨rfl, rfl⟩
      · exact iff_of_true covers.root others.root
      · exact iff_of_true others.root covers.root
    · exact covers.siblings left right inSub
    · exact others.siblings left right inSibling
  · intro left right inTree leftKnown
    rcases (mem_subtrees_up _ _ _).mp inTree with isTop | inSub | inSibling
    · rwa [isTop]
    · exact covers.parent left right inSub leftKnown
    · exact others.parent left right inSibling leftKnown
  · intro other inTree id isId
    refine (Sketch.ids_up_perm _ _).mem_iff.mpr (List.mem_append.mpr ?_)
    rcases (mem_subtrees_up _ _ _).mp inTree with rfl | inSub | inSibling
    · rw [isParent, Option.some.injEq] at isId
      simp [isId]
    · exact .inl (covers.ids other inSub id isId)
    · exact .inr (List.mem_cons_of_mem _ (others.ids other inSibling id isId))
  · intro other inTree id isId noChildren
    rw [Sketch.mem_stubs_up]
    rcases (mem_subtrees_up _ _ _).mp inTree with rfl | inSub | inSibling
    · -- The children of the parent are known, so it is no stub.
      cases onLeft : frame.onLeft with
      | true =>
        refine absurd others.root (noChildren frame.sibling sub ?_)
        simp [HashTree.up, onLeft]
      | false =>
        refine absurd covers.root (noChildren sub frame.sibling ?_)
        simp [HashTree.up, onLeft]
    · exact .inl (covers.stubs other inSub id isId noChildren)
    · exact .inr (others.stubs other inSibling id isId noChildren)

/-! ### New nodes below the known part -/

variable {hash : MerkleHash}

theorem getOrCreateNode_none (unknown : tree.nodeMap hash = none) :
    tree.getOrCreateNode hash = ((tree.nextNode, false), (tree.createNode hash).2) := by
  rw [getOrCreateNode, unknown]
  rfl

theorem getOrCreateNode_some {id : NodeId}
    (known : tree.nodeMap hash = some id) : tree.getOrCreateNode hash = ((id, true), tree) := by
  rw [getOrCreateNode, known]

/-- New nodes never take the place of known ones, and leave the other fields of a
tree as they are. -/
structure Adds (old new : MerkleTree) : Prop where
  nodeMap : ∀ key id, old.nodeMap key = some id → new.nodeMap key = some id
  size : new.size = old.size
  merkleRoot : new.merkleRoot = old.merkleRoot
  lastNodeHash : new.lastNodeHash = old.lastNodeHash
  hasListener : new.hasListener = old.hasListener

theorem Adds.refl (tree : MerkleTree) : Adds tree tree := ⟨fun _ _ isId => isId, rfl, rfl, rfl, rfl⟩

theorem Adds.trans {first second third : MerkleTree} (earlier : Adds first second)
    (later : Adds second third) : Adds first third :=
  ⟨fun key id isId => later.nodeMap key id (earlier.nodeMap key id isId),
    later.size.trans earlier.size, later.merkleRoot.trans earlier.merkleRoot,
    later.lastNodeHash.trans earlier.lastNodeHash, later.hasListener.trans earlier.hasListener⟩

theorem adds_getOrCreateNode (tree : MerkleTree) (hash : MerkleHash) :
    Adds tree (tree.getOrCreateNode hash).2 ∧
      (tree.getOrCreateNode hash).2.nodeMap hash = some (tree.getOrCreateNode hash).1.1 := by
  cases known : tree.nodeMap hash with
  | some id =>
    rw [getOrCreateNode_some known]
    exact ⟨.refl tree, known⟩
  | none =>
    rw [getOrCreateNode_none known]
    refine ⟨⟨fun key id isId => ?_, rfl, rfl, rfl, rfl⟩, Function.update_self _ _ _⟩
    have different : key ≠ hash := by
      rintro rfl
      rw [known] at isId
      cases isId
    exact (Function.update_of_ne different _ _).trans isId

theorem adds_link (tree : MerkleTree) (parent current sibling : NodeId) (side : UInt8) :
    Adds tree (tree.link parent current sibling side) := by
  rw [fields_link]
  exact ⟨fun _ _ isId => isId, rfl, rfl, rfl, rfl⟩

theorem adds_buildAbove (tree : MerkleTree) (hash : MerkleHash) (current : NodeId)
    (steps : List (MerkleHash × UInt8)) : Adds tree (tree.buildAbove hash current steps) := by
  induction steps generalizing tree hash current with
  | nil => exact .refl tree
  | cons step steps ih =>
    rw [buildAbove]
    have sibling := (tree.adds_getOrCreateNode step.1).1
    dsimp only
    split
    · exact sibling
    · exact sibling.trans (((adds_getOrCreateNode _ _).1.trans (adds_link _ _ _ _ _)).trans
        (ih _ _ _))

/-- The path of a leaf makes the leaf known. -/
theorem adds_buildPartialTree (tree : MerkleTree) (leaf : MerkleHash)
    (steps : List (MerkleHash × UInt8)) :
    Adds tree (tree.buildPartialTree leaf steps) ∧
      (tree.buildPartialTree leaf steps).nodeMap leaf ≠ none := by
  obtain ⟨added, leafKnown⟩ := tree.adds_getOrCreateNode leaf
  rw [buildPartialTree]
  dsimp only
  split
  · exact ⟨added, by simp [leafKnown]⟩
  · have rest := adds_buildAbove (tree.getOrCreateNode leaf).2 leaf
      (tree.getOrCreateNode leaf).1.1 steps
    exact ⟨added.trans rest, by simp [rest.nodeMap _ _ leafKnown]⟩

/-- A subtree that has been built in the heap beside the tree at the start. -/
structure Fragment (value : MerkleHash → MerkleHash) (start : MerkleTree) (sub : Tree)
    (tree : MerkleTree) (part : Sketch) : Prop where
  stored : part.Stored value tree.node none
  whole : part.whole = sub
  nodup : part.ids.Nodup
  new : ∀ id ∈ part.ids, start.nextNode ≤ id ∧ id < tree.nextNode
  next : start.nextNode ≤ tree.nextNode
  old : ∀ id < start.nextNode, tree.node id = start.node id
  outside : ∀ key, (∀ other ∈ sub.subtrees, treeRoot other ≠ key) →
    tree.nodeMap key = start.nodeMap key
  covers : Covers sub tree part

section Fragments

variable {base : Tree}
  (injective : ∀ first ∈ base.subtrees, ∀ second ∈ base.subtrees,
    treeRoot first = treeRoot second → first = second)
  (distinct : base.leaves.Nodup)

variable {start : MerkleTree}

include injective in
/-- The path starts with a new node for the subtree it belongs to. -/
theorem fragment_stub (inBase : sub ∈ base.subtrees)
    (unknown : ∀ other ∈ sub.subtrees, ¬ start.Known other)
    (same : ∀ leaf ∈ sub.leaves, value leaf = leaf) :
    Fragment value start sub (start.createNode (treeRoot sub)).2 (.stub start.nextNode sub) := by
  have subMap : (start.createNode (treeRoot sub)).2.nodeMap (treeRoot sub) =
      some start.nextNode := Function.update_self _ _ _
  have below : ∀ other ∈ sub.subtrees, other ≠ sub →
      ¬ (start.createNode (treeRoot sub)).2.Known other := by
    intro other inSub different known
    have apart : treeRoot other ≠ treeRoot sub := fun sameRoot => different
      (injective other (subtrees_trans inSub inBase) sub inBase sameRoot)
    have old : (start.createNode (treeRoot sub)).2.nodeMap (treeRoot other) =
        start.nodeMap (treeRoot other) := Function.update_of_ne apart _ _
    exact unknown other inSub (by rwa [Known, old] at known)
  refine ⟨?_, rfl, List.nodup_singleton _, ?_, Nat.le_succ _, ?_, ?_, covers_stub subMap below⟩
  · refine (Function.update_self _ _ _).trans ?_
    rw [map_eq_self same]
  · intro id inIds
    obtain rfl := List.mem_singleton.mp inIds
    exact ⟨le_refl _, Nat.lt_succ_self _⟩
  · exact fun id less => Function.update_of_ne (Nat.ne_of_lt less) _ _
  · intro key notSub
    exact Function.update_of_ne (notSub _ (self_mem_subtrees _)).symm _ _

include distinct in
/-- The places of a part, its sibling and their parent in a base tree. -/
theorem apart_up (inBase : sub.up frame ∈ base.subtrees) :
    (∀ other ∈ sub.subtrees, other ∉ frame.sibling.subtrees) ∧ sub.up frame ∉ sub.subtrees ∧
      sub.up frame ∉ frame.sibling.subtrees := by
  obtain ⟨frames, rfl⟩ := (mem_subtrees_iff _ _).mp inBase
  rw [HashTree.leaves_plug, List.nodup_append, List.nodup_append] at distinct
  have upNodup := distinct.1.2.1
  have subPositive := List.length_pos_iff.mpr sub.leaves_ne_nil
  have siblingPositive := List.length_pos_iff.mpr frame.sibling.leaves_ne_nil
  have upLength : (sub.up frame).leaves.length =
      sub.leaves.length + frame.sibling.leaves.length := by
    cases onLeft : frame.onLeft <;>
      simp [HashTree.up, onLeft, HashTree.leaves, Nat.add_comm]
  refine ⟨?_, ?_, ?_⟩
  · intro other inSub inSibling
    cases onLeft : frame.onLeft with
    | true =>
      rw [show sub.up frame = .node frame.sibling sub by simp [HashTree.up, onLeft]] at upNodup
      exact HashTree.not_mem_subtrees_right upNodup inSibling inSub
    | false =>
      rw [show sub.up frame = .node sub frame.sibling by simp [HashTree.up, onLeft]] at upNodup
      exact HashTree.not_mem_subtrees_right upNodup inSub inSibling
  · intro inSub
    rcases HashTree.eq_or_length_lt_of_mem_subtrees inSub with same | less
    · rw [same] at upLength
      omega
    · omega
  · intro inSibling
    rcases HashTree.eq_or_length_lt_of_mem_subtrees inSibling with same | less
    · rw [same] at upLength
      omega
    · omega

include injective distinct in
/-- The hashes of a part, its sibling and their parent are different. -/
theorem treeRoot_apart (inBase : sub.up frame ∈ base.subtrees) :
    (∀ other ∈ sub.subtrees, ∀ below ∈ frame.sibling.subtrees, treeRoot other ≠ treeRoot below) ∧
      (∀ other ∈ sub.subtrees, treeRoot other ≠ treeRoot (sub.up frame)) ∧
      ∀ below ∈ frame.sibling.subtrees, treeRoot below ≠ treeRoot (sub.up frame) := by
  obtain ⟨apart, notSub, notSibling⟩ := apart_up distinct inBase
  have subIn : ∀ other ∈ sub.subtrees, other ∈ base.subtrees := fun other inSub =>
    subtrees_trans (subtrees_subset_up _ _ inSub) inBase
  have siblingIn : ∀ other ∈ frame.sibling.subtrees, other ∈ base.subtrees := fun other inSibling =>
    subtrees_trans (sibling_subset_up _ _ inSibling) inBase
  refine ⟨?_, ?_, ?_⟩
  · intro other inSub below inSibling sameRoot
    obtain rfl := injective other (subIn other inSub) below (siblingIn below inSibling) sameRoot
    exact apart other inSub inSibling
  · intro other inSub sameRoot
    obtain rfl := injective other (subIn other inSub) _ inBase sameRoot
    exact notSub inSub
  · intro below inSibling sameRoot
    obtain rfl := injective below (siblingIn below inSibling) _ inBase sameRoot
    exact notSibling inSibling

theorem whole_up_stub {parent sibling : NodeId} :
    (part.up ⟨parent, frame.onLeft, .stub sibling frame.sibling⟩).whole = part.whole.up frame :=
  Sketch.whole_up _ _

/-- The new nodes become a sketch of the parent when its pointers are set. -/
theorem Fragment.link {mid : MerkleTree} {upper : Option NodeId}
    (fragment : Fragment value start sub tree part)
    (kept : ∀ id < tree.nextNode, mid.node id = tree.node id)
    (siblingNode : mid.node tree.nextNode = ⟨none, none, none, treeRoot frame.sibling⟩)
    (own : mid.node parent = ⟨upper, none, none, treeRoot ((sub.up frame).map value)⟩)
    (notPart : parent ∉ part.ids) (notSibling : parent ≠ tree.nextNode)
    (same : ∀ leaf ∈ (sub.up frame).leaves, value leaf = leaf) :
    let grown := part.up ⟨parent, frame.onLeft, .stub tree.nextNode frame.sibling⟩
    let linked := mid.link parent part.id tree.nextNode (sideOf frame.onLeft)
    grown.Stored value linked.node upper ∧ grown.whole = sub.up frame ∧ grown.ids.Nodup ∧
      (∀ id, id ∈ grown.ids ↔ id ∈ part.ids ∨ id = parent ∨ id = tree.nextNode) ∧
      ∀ id < start.nextNode, id ≠ parent → linked.node id = start.node id := by
  intro grown linked
  have partNew := fragment.new part.id part.id_mem_ids
  have idsPerm := Sketch.ids_up_perm part ⟨parent, frame.onLeft, .stub tree.nextNode frame.sibling⟩
  have nodup : grown.ids.Nodup := by
    refine idsPerm.nodup_iff.mpr (List.nodup_append.mpr ⟨fragment.nodup, ?_, ?_⟩)
    · simpa [Sketch.ids] using notSibling
    · intro id inPart other isNew
      simp only [Sketch.ids, List.mem_cons, List.not_mem_nil, or_false] at isNew
      rcases isNew with rfl | rfl
      · exact fun isParent => notPart (isParent ▸ inPart)
      · exact Nat.ne_of_lt (fragment.new id inPart).2
  have whole : grown.whole = sub.up frame := by
    rw [whole_up_stub, fragment.whole]
  have partStored : part.Stored value mid.node none :=
    fragment.stored.frame fun id inPart => kept id (fragment.new id inPart).2
  have siblingStored : (Sketch.stub tree.nextNode frame.sibling).Stored value mid.node none := by
    refine siblingNode.trans ?_
    rw [map_eq_self]
    intro leaf inSibling
    exact same leaf (leaves_subset_of_mem_subtrees
      (sibling_subset_up _ _ (self_mem_subtrees _)) inSibling)
  rw [← whole] at own
  refine ⟨stored_link partStored siblingStored own nodup, whole, nodup, fun id => ?_, ?_⟩
  · rw [idsPerm.mem_iff]
    simp [Sketch.ids]
  · intro id less notParent
    have early : id < tree.nextNode := Nat.lt_of_lt_of_le less fragment.next
    obtain ⟨-, -, -, others⟩ := mid.node_link
      (fun isParent : part.id = parent => notPart (isParent ▸ part.id_mem_ids))
      notSibling.symm (Nat.ne_of_lt partNew.2) frame.onLeft
    rw [others id notParent (Nat.ne_of_lt (Nat.lt_of_lt_of_le less partNew.1))
      (Nat.ne_of_lt early), kept id early, fragment.old id less]

include injective distinct in
/-- The loop goes one step up to a parent that is not known yet. -/
theorem Fragment.step (fragment : Fragment value start sub tree part)
    (inBase : sub.up frame ∈ base.subtrees)
    (siblingUnknown : ∀ other ∈ frame.sibling.subtrees, ¬ start.Known other)
    (unknown : ¬ start.Known (sub.up frame))
    (same : ∀ leaf ∈ (sub.up frame).leaves, value leaf = leaf) :
    ∃ next parent sibling, Fragment value start (sub.up frame) next
          (part.up ⟨parent, frame.onLeft, .stub sibling frame.sibling⟩) ∧
        ∀ steps, tree.buildAbove (treeRoot sub) part.id (stepOf frame :: steps) =
          next.buildAbove (treeRoot (sub.up frame)) parent steps := by
  obtain ⟨subSibling, subTop, siblingTop⟩ := treeRoot_apart injective distinct inBase
  have siblingSelf := frame.sibling.self_mem_subtrees
  have noSibling : ∀ other ∈ frame.sibling.subtrees, tree.nodeMap (treeRoot other) = none := by
    intro other inSibling
    rw [fragment.outside _ fun below inSub => subSibling below inSub other inSibling]
    exact not_not.mp (siblingUnknown other inSibling)
  have noTop : tree.nodeMap (treeRoot (sub.up frame)) = none := by
    rw [fragment.outside _ subTop]
    exact not_not.mp unknown
  -- The sibling, its parent and their pointers are added one after the other.
  let withSibling := (tree.createNode (treeRoot frame.sibling)).2
  let withParent := (withSibling.createNode (treeRoot (sub.up frame))).2
  let linked := withParent.link (tree.nextNode + 1) part.id tree.nextNode (sideOf frame.onLeft)
  have parentMap : withSibling.nodeMap (treeRoot (sub.up frame)) = none :=
    (Function.update_of_ne (siblingTop _ siblingSelf).symm _ _).trans noTop
  have linkedMap : linked.nodeMap =
      Function.update (Function.update tree.nodeMap (treeRoot frame.sibling) (some tree.nextNode))
        (treeRoot (sub.up frame)) (some (tree.nextNode + 1)) := by
    show (withParent.link _ _ _ _).nodeMap = _
    rw [fields_link]
    rfl
  have linkedNext : linked.nextNode = tree.nextNode + 2 := by
    show (withParent.link _ _ _ _).nextNode = _
    rw [fields_link]
    rfl
  have kept : ∀ id < tree.nextNode, withParent.node id = tree.node id := fun id less =>
    (Function.update_of_ne (Nat.ne_of_lt (Nat.lt_succ_of_lt less)) _ _).trans
      (Function.update_of_ne (Nat.ne_of_lt less) _ _)
  have siblingNode : withParent.node tree.nextNode = ⟨none, none, none, treeRoot frame.sibling⟩ :=
    (Function.update_of_ne (Nat.ne_of_lt (Nat.lt_succ_self _)) _ _).trans
      (Function.update_self _ _ _)
  have own : withParent.node (tree.nextNode + 1) =
      ⟨none, none, none, treeRoot ((sub.up frame).map value)⟩ := by
    refine (Function.update_self _ _ _).trans ?_
    rw [map_eq_self same]
  have notPart : tree.nextNode + 1 ∉ part.ids := fun inPart =>
    Nat.not_lt_of_le (Nat.le_succ _) (fragment.new _ inPart).2
  obtain ⟨stored, whole, nodup, mem_grown, old⟩ :=
    fragment.link kept siblingNode own notPart (Nat.succ_ne_self _) same
  refine ⟨linked, tree.nextNode + 1, tree.nextNode, ⟨stored, whole, nodup, ?_, ?_, ?_, ?_, ?_⟩, ?_⟩
  · intro id inIds
    rw [linkedNext]
    rcases (mem_grown id).mp inIds with inPart | rfl | rfl
    · exact ⟨(fragment.new id inPart).1, Nat.lt_add_right 2 (fragment.new id inPart).2⟩
    · exact ⟨Nat.le_succ_of_le fragment.next, Nat.lt_succ_self _⟩
    · exact ⟨fragment.next, Nat.lt_add_of_pos_right two_pos⟩
  · rw [linkedNext]
    exact Nat.le_add_right_of_le fragment.next
  · exact fun id less => old id less
      (Nat.ne_of_lt (Nat.lt_succ_of_lt (Nat.lt_of_lt_of_le less fragment.next)))
  · intro key notTree
    have notSibling := notTree frame.sibling (sibling_subset_up _ _ siblingSelf)
    have notTop := notTree (sub.up frame) (self_mem_subtrees _)
    rw [linkedMap, Function.update_of_ne notTop.symm, Function.update_of_ne notSibling.symm]
    exact fragment.outside key fun other inSub => notTree other
      (subtrees_subset_up _ _ inSub)
  · refine (fragment.covers.congr ?_ (.refl _)).up (covers_stub ?_ ?_) ?_
    · intro other inSub
      rw [linkedMap, Function.update_of_ne (subTop other inSub),
        Function.update_of_ne (subSibling other inSub _ siblingSelf)]
    · rw [linkedMap, Function.update_of_ne (siblingTop _ siblingSelf), Function.update_self]
    · intro other inSibling different known
      refine known ?_
      rw [linkedMap, Function.update_of_ne (siblingTop other inSibling), Function.update_of_ne]
      · exact noSibling other inSibling
      · intro sameRoot
        refine different (injective other ?_ frame.sibling ?_ sameRoot)
        · exact subtrees_trans (sibling_subset_up _ _ inSibling) inBase
        · exact subtrees_trans (sibling_subset_up _ _ siblingSelf) inBase
    · rw [linkedMap, Function.update_self]
  · intro steps
    rw [stepOf, buildAbove, getOrCreateNode_none (noSibling _ siblingSelf)]
    simp only [Bool.false_eq_true, if_false, hashPair_stepOf]
    rw [getOrCreateNode_none parentMap]
    rfl

variable {frames : List (HashTree.Frame MerkleHash)}

include injective distinct in
/-- The loop builds a subtree of which nothing is known yet. -/
theorem Fragment.climb (fragment : Fragment value start sub tree part)
    (inBase : sub.plug frames ∈ base.subtrees)
    (unknown : ∀ other ∈ (sub.plug frames).subtrees, ¬ start.Known other)
    (same : ∀ leaf ∈ (sub.plug frames).leaves, value leaf = leaf) :
    ∃ next context, Fragment value start (sub.plug frames) next (part.plug context) ∧
      context.map Sketch.Frame.whole = frames ∧
      ∀ steps, tree.buildAbove (treeRoot sub) part.id (frames.map stepOf ++ steps) =
        next.buildAbove (treeRoot (sub.plug frames)) (part.plug context).id steps := by
  induction frames generalizing sub tree part with
  | nil => exact ⟨tree, [], fragment, rfl, fun _ => rfl⟩
  | cons frame frames ih =>
    have upIn : sub.up frame ∈ (sub.plug (frame :: frames)).subtrees :=
      HashTree.subtrees_subset_plug _ frames (self_mem_subtrees _)
    obtain ⟨next, parent, sibling, nextFragment, step⟩ := fragment.step injective distinct
      (subtrees_trans upIn inBase)
      (fun other inSibling => unknown other (subtrees_trans
        (sibling_subset_up _ _ inSibling) upIn))
      (unknown _ upIn)
      (fun leaf inUp => same leaf (leaves_subset_of_mem_subtrees upIn inUp))
    obtain ⟨last, context, lastFragment, sameFrames, rest⟩ := ih nextFragment inBase unknown same
    refine ⟨last, ⟨parent, frame.onLeft, .stub sibling frame.sibling⟩ :: context, lastFragment,
      congrArg (frame :: ·) sameFrames, fun steps => ?_⟩
    rw [Sketch.id_up] at rest
    rw [List.map_cons, List.cons_append, step, rest]
    rfl

variable {tree : MerkleTree} {sketch : Sketch}

/-- Nothing is known below an unknown node. -/
theorem Covers.unknown_below (covers : Covers base tree sketch) (inBase : sub ∈ base.subtrees)
    (unknown : ¬ tree.Known sub) : ∀ other ∈ sub.subtrees, ¬ tree.Known other := by
  induction sub with
  | leaf value =>
    intro other inLeaf
    rwa [List.mem_singleton.mp inLeaf]
  | node left right leftIh rightIh =>
    have leftUnknown : ¬ tree.Known left := fun known =>
      unknown (covers.parent left right inBase known)
    have rightUnknown : ¬ tree.Known right := fun known =>
      leftUnknown ((covers.siblings left right inBase).mpr known)
    intro other inNode
    rcases List.mem_cons.mp inNode with rfl | below
    · exact unknown
    · rcases List.mem_append.mp below with inLeft | inRight
      · exact leftIh (subtrees_trans (left_mem_subtrees left right) inBase) leftUnknown other inLeft
      · exact rightIh (subtrees_trans
          (right_mem_subtrees left right) inBase) rightUnknown other inRight

/-- A node of the base tree and its sibling are known together. -/
theorem Covers.sibling_iff (covers : Covers base tree sketch)
    (inBase : sub.up frame ∈ base.subtrees) : tree.Known sub ↔ tree.Known frame.sibling := by
  cases onLeft : frame.onLeft with
  | true =>
    simp only [HashTree.up, onLeft, if_true] at inBase
    exact (covers.siblings _ _ inBase).symm
  | false =>
    simp only [HashTree.up, onLeft, Bool.false_eq_true, if_false] at inBase
    exact covers.siblings _ _ inBase

/-- The way up from an unknown node meets the known part. -/
theorem Covers.exists_known_above (covers : Covers base tree sketch)
    (place : sub.plug frames = base) (unknown : ¬ tree.Known sub) :
    ∃ lower frame upper, frames = lower ++ frame :: upper ∧ ¬ tree.Known (sub.plug lower) ∧
      tree.Known ((sub.plug lower).up frame) := by
  induction frames generalizing sub with
  | nil =>
    obtain rfl : sub = base := place
    exact absurd covers.root unknown
  | cons frame frames ih =>
    by_cases known : tree.Known (sub.up frame)
    · exact ⟨[], frame, frames, rfl, unknown, known⟩
    · obtain ⟨lower, next, upper, rfl, stillUnknown, nowKnown⟩ := ih place known
      exact ⟨frame :: lower, next, upper, rfl, stillUnknown, nowKnown⟩

/-- The first known node above an unknown one is a stub of the sketch, and nothing
below it is known. -/
theorem Covers.exists_stub_above (covers : Covers base tree sketch) (place : sub.plug frames = base)
    (unknown : ¬ tree.Known sub) :
    ∃ lower frame upper id, frames = lower ++ frame :: upper ∧
      (∀ other ∈ (sub.plug lower).subtrees, ¬ tree.Known other) ∧
      (∀ leaf ∈ ((sub.plug lower).up frame).leaves, ¬ tree.Known (.leaf leaf)) ∧
      tree.nodeMap (treeRoot ((sub.plug lower).up frame)) = some id ∧
      (id, (sub.plug lower).up frame) ∈ sketch.stubs := by
  obtain ⟨lower, frame, upper, rfl, lowerUnknown, topKnown⟩ := covers.exists_known_above place unknown
  rw [HashTree.plug_append, plug_cons] at place
  have topIn : (sub.plug lower).up frame ∈ base.subtrees :=
    (mem_subtrees_iff _ _).mpr ⟨upper, place⟩
  have unknownLower := covers.unknown_below (subtrees_trans
    (subtrees_subset_up _ _ (self_mem_subtrees _)) topIn) lowerUnknown
  have unknownSibling := covers.unknown_below (subtrees_trans
    (sibling_subset_up _ _ (self_mem_subtrees _)) topIn) fun siblingKnown =>
    lowerUnknown ((covers.sibling_iff topIn).mpr siblingKnown)
  obtain ⟨id, topMap⟩ := Option.ne_none_iff_exists'.mp topKnown
  refine ⟨lower, frame, upper, id, rfl, unknownLower, ?_, topMap, covers.stubs _ topIn id topMap ?_⟩
  · intro leaf inTop
    rcases (mem_subtrees_up _ _ _).mp (HashTree.leaf_mem_subtrees inTop) with
      isTop | inLower | inSibling
    · cases onLeft : frame.onLeft <;> simp [HashTree.up, onLeft] at isTop
    · exact unknownLower _ inLower
    · exact unknownSibling _ inSibling
  · intro left right isTop
    rcases children_of_up isTop.symm with ⟨rfl, rfl⟩ | ⟨rfl, rfl⟩
    · exact lowerUnknown
    · exact unknownSibling _ (self_mem_subtrees _)

variable {id : NodeId}

include distinct in
/-- A stub may be replaced by a sketch that covers the tree below it. -/
theorem Covers.replace {old new : MerkleTree} {top : Tree} {frames : List Sketch.Frame}
    (covers : Covers base old ((Sketch.stub id top).plug frames)) (inBase : top ∈ base.subtrees)
    (oldTop : old.nodeMap (treeRoot top) = some id) (newTop : new.nodeMap (treeRoot top) = some id)
    (partCovers : Covers top new part) (outside : ∀ other ∈ base.subtrees, other ∉ top.subtrees →
      new.nodeMap (treeRoot other) = old.nodeMap (treeRoot other)) :
    Covers base new (part.plug frames) := by
  -- The children of a node outside of the stub are the stub or outside of it.
  have children : ∀ left right : Tree, .node left right ∈ base.subtrees →
      .node left right ∉ top.subtrees → ∀ child, child = left ∨ child = right →
        (new.Known child ↔ old.Known child) := by
    intro left right parentIn notBelow child isChild
    have childIn : child ∈ base.subtrees := by
      rcases isChild with rfl | rfl
      · exact subtrees_trans (left_mem_subtrees child right) parentIn
      · exact subtrees_trans (right_mem_subtrees left child) parentIn
    by_cases below : child ∈ top.subtrees
    · have isTop : child = top := by
        by_contra proper
        exact notBelow (HashTree.parent_mem_subtrees distinct inBase parentIn isChild below proper)
      simp [Known, isTop, oldTop, newTop]
    · rw [Known, Known, outside child childIn below]
  refine ⟨?_, ?_, ?_, ?_, ?_⟩
  · by_cases below : base ∈ top.subtrees
    · rw [← HashTree.subtrees_antisymm inBase below]
      exact partCovers.root
    · rw [Known, outside base base.self_mem_subtrees below]
      exact covers.root
  · intro left right parentIn
    by_cases below : .node left right ∈ top.subtrees
    · exact partCovers.siblings left right below
    · rw [children left right parentIn below left (.inl rfl),
        children left right parentIn below right (.inr rfl)]
      exact covers.siblings left right parentIn
  · intro left right parentIn leftKnown
    by_cases below : .node left right ∈ top.subtrees
    · exact partCovers.parent left right below leftKnown
    · rw [children left right parentIn below left (.inl rfl)] at leftKnown
      rw [Known, outside _ parentIn below]
      exact covers.parent left right parentIn leftKnown
  · intro sub subIn other isId
    refine (Sketch.ids_plug_perm part frames).mem_iff.mpr ?_
    by_cases below : sub ∈ top.subtrees
    · exact List.mem_append_left _ (partCovers.ids sub below other isId)
    · rw [outside sub subIn below] at isId
      rcases List.mem_append.mp ((Sketch.ids_plug_perm _ frames).mem_iff.mp
        (covers.ids sub subIn other isId)) with isStub | inFrames
      · obtain rfl := List.mem_singleton.mp isStub
        exact List.mem_append_left _ (partCovers.ids top top.self_mem_subtrees _ newTop)
      · exact List.mem_append_right _ inFrames
  · intro sub subIn other isId noChildren
    rw [Sketch.mem_stubs_plug]
    by_cases below : sub ∈ top.subtrees
    · exact .inl (partCovers.stubs sub below other isId noChildren)
    · rw [outside sub subIn below] at isId
      have inOld := covers.stubs sub subIn other isId (by
        rintro left right rfl leftKnown
        exact noChildren left right rfl
          ((children left right subIn below left (.inl rfl)).mpr leftKnown))
      rw [Sketch.mem_stubs_plug] at inOld
      rcases inOld with isStub | inFrames
      · obtain ⟨-, rfl⟩ := Prod.mk.inj (List.mem_singleton.mp isStub)
        exact absurd sub.self_mem_subtrees below
      · exact .inr inFrames

/-- A stored sketch that covers the known part of the base tree. -/
structure Partial (value : MerkleHash → MerkleHash) (base : Tree) (tree : MerkleTree)
    (sketch : Sketch) : Prop where
  stored : sketch.Stored value tree.node none
  nodup : sketch.ids.Nodup
  bound : ∀ id ∈ sketch.ids, id < tree.nextNode
  covers : Covers base tree sketch

include injective distinct in
/-- The loop reaches a known stub: the new nodes become its children. -/
theorem Fragment.attach {tree : MerkleTree} {frames : List Sketch.Frame}
    (fragment : Fragment value start sub tree part) (inBase : sub.up frame ∈ base.subtrees)
    (main : Partial value base start ((Sketch.stub id (sub.up frame)).plug frames))
    (known : start.nodeMap (treeRoot (sub.up frame)) = some id) (unknown : ¬ start.Known sub)
    (same : ∀ leaf ∈ (sub.up frame).leaves, value leaf = leaf) :
    ∃ next sibling,
      Partial value base next ((part.up ⟨id, frame.onLeft, .stub sibling frame.sibling⟩).plug
          frames) ∧
        next.Known (sub.up frame) ∧
        ∀ steps, tree.buildAbove (treeRoot sub) part.id (stepOf frame :: steps) =
          next.buildAbove (treeRoot (sub.up frame)) id steps := by
  obtain ⟨subSibling, subTop, siblingTop⟩ := treeRoot_apart injective distinct inBase
  have siblingSelf := frame.sibling.self_mem_subtrees
  have siblingIn : frame.sibling ∈ base.subtrees := subtrees_trans
    (sibling_subset_up _ _ siblingSelf) inBase
  have siblingUnknown := main.covers.unknown_below siblingIn fun siblingKnown =>
    unknown ((main.covers.sibling_iff inBase).mpr siblingKnown)
  have noSibling : ∀ other ∈ frame.sibling.subtrees, tree.nodeMap (treeRoot other) = none := by
    intro other inSibling
    rw [fragment.outside _ fun below inSub => subSibling below inSub other inSibling]
    exact not_not.mp (siblingUnknown other inSibling)
  have topMap : tree.nodeMap (treeRoot (sub.up frame)) = some id := by
    rw [fragment.outside _ subTop, known]
  let withSibling := (tree.createNode (treeRoot frame.sibling)).2
  let grown := part.up ⟨id, frame.onLeft, .stub tree.nextNode frame.sibling⟩
  let linked := withSibling.link id part.id tree.nextNode (sideOf frame.onLeft)
  have linkedMap : linked.nodeMap =
      Function.update tree.nodeMap (treeRoot frame.sibling) (some tree.nextNode) := by
    show (withSibling.link _ _ _ _).nodeMap = _
    rw [fields_link]
    rfl
  have linkedNext : linked.nextNode = tree.nextNode + 1 := by
    show (withSibling.link _ _ _ _).nextNode = _
    rw [fields_link]
    rfl
  have kept : ∀ other < tree.nextNode, withSibling.node other = tree.node other :=
    fun other less => Function.update_of_ne (Nat.ne_of_lt less) _ _
  have mainPerm := Sketch.ids_plug_perm (Sketch.stub id (sub.up frame)) frames
  have separate := List.nodup_append.mp (mainPerm.nodup_iff.mp main.nodup)
  have idOld : id < start.nextNode :=
    main.bound id (mainPerm.mem_iff.mpr (List.mem_append_left _ List.mem_cons_self))
  have framesOld : ∀ other ∈ frameIds frames, other < start.nextNode := fun other inFrames =>
    main.bound other (mainPerm.mem_iff.mpr (List.mem_append_right _ inFrames))
  have early : ∀ other < start.nextNode, other < tree.nextNode := fun other less =>
    Nat.lt_of_lt_of_le less fragment.next
  have notPart : ∀ other < start.nextNode, other ∉ part.ids := fun other less inPart =>
    Nat.not_lt_of_le (fragment.new other inPart).1 less
  obtain ⟨stubStored, -⟩ := Sketch.Stored.split main.stored
  have own : withSibling.node id = ⟨above frames, none, none, treeRoot ((sub.up frame).map value)⟩ := by
    rw [kept id (early id idOld), fragment.old id idOld]
    exact stubStored
  obtain ⟨stored, whole, nodup, mem_grown, old⟩ := fragment.link kept (Function.update_self _ _ _)
    own (notPart id idOld) (Nat.ne_of_lt (early id idOld)) same
  have framesSame : ∀ other ∈ frameIds frames, linked.node other = start.node other :=
    fun other inFrames => old other (framesOld other inFrames) fun isId =>
      separate.2.2 id List.mem_cons_self other inFrames isId.symm
  have newTop : linked.nodeMap (treeRoot (sub.up frame)) = some id := by
    rw [linkedMap, Function.update_of_ne (siblingTop _ siblingSelf).symm, topMap]
  refine ⟨linked, tree.nextNode, ⟨?_, ?_, ?_, ?_⟩, by simp [Known, newTop], ?_⟩
  · refine main.stored.replace framesSame stored (by simp) ?_
    rw [whole]
    rfl
  · refine (Sketch.ids_plug_perm grown frames).nodup_iff.mpr
      (List.nodup_append.mpr ⟨nodup, separate.2.1, ?_⟩)
    rintro other inGrown later inFrames rfl
    have less := framesOld other inFrames
    rcases (mem_grown other).mp inGrown with inPart | rfl | rfl
    · exact notPart other less inPart
    · exact separate.2.2 other List.mem_cons_self other inFrames rfl
    · exact Nat.lt_irrefl _ (early _ less)
  · intro other inIds
    rw [linkedNext]
    rcases List.mem_append.mp ((Sketch.ids_plug_perm grown frames).mem_iff.mp inIds) with
      inGrown | inFrames
    · rcases (mem_grown other).mp inGrown with inPart | rfl | rfl
      · exact Nat.lt_succ_of_lt (fragment.new other inPart).2
      · exact Nat.lt_succ_of_lt (early other idOld)
      · exact Nat.lt_succ_self _
    · exact Nat.lt_succ_of_lt (early other (framesOld other inFrames))
  · refine main.covers.replace distinct inBase known newTop ((fragment.covers.congr ?_ (.refl _)).up
      (covers_stub ?_ ?_) newTop) ?_
    · intro other inSub
      rw [linkedMap, Function.update_of_ne (subSibling other inSub _ siblingSelf)]
    · rw [linkedMap, Function.update_self]
    · intro other inSibling different otherKnown
      refine otherKnown ?_
      rw [linkedMap, Function.update_of_ne]
      · exact noSibling other inSibling
      · exact fun sameRoot => different (injective other (subtrees_trans
          (sibling_subset_up _ _ inSibling) inBase) frame.sibling
          siblingIn sameRoot)
    · intro other otherIn notBelow
      rw [linkedMap, Function.update_of_ne, fragment.outside]
      · intro below inSub sameRoot
        obtain rfl := injective below (subtrees_trans
          (subtrees_subset_up _ _ inSub) inBase) other otherIn
          sameRoot
        exact notBelow (subtrees_subset_up _ _ inSub)
      · intro sameRoot
        obtain rfl := injective other otherIn frame.sibling siblingIn sameRoot
        exact notBelow (sibling_subset_up _ _ siblingSelf)
  · intro steps
    have topSome : withSibling.nodeMap (treeRoot (sub.up frame)) = some id :=
      (Function.update_of_ne (siblingTop _ siblingSelf).symm _ _).trans topMap
    rw [stepOf, buildAbove, getOrCreateNode_none (noSibling _ siblingSelf)]
    simp only [Bool.false_eq_true, if_false, hashPair_stepOf]
    rw [getOrCreateNode_some topSome]

theorem buildPartialTree_of_unknown (unknown : ¬ tree.Known sub)
    (steps : List (MerkleHash × UInt8)) :
    tree.buildPartialTree (treeRoot sub) steps =
      (tree.createNode (treeRoot sub)).2.buildAbove (treeRoot sub) tree.nextNode steps := by
  have noNode : tree.nodeMap (treeRoot sub) = none := not_not.mp unknown
  rw [buildPartialTree, getOrCreateNode_none noNode]
  rfl

include injective distinct in
/-- The first path of a delta tree. -/
theorem buildPartialTree_first (place : sub.plug frames = base)
    (unknown : ∀ other ∈ base.subtrees, ¬ start.Known other)
    (same : ∀ leaf ∈ base.leaves, value leaf = leaf) :
    ∃ id context, Partial value base (start.buildPartialTree (treeRoot sub) (frames.map stepOf))
          ((Sketch.stub id sub).plug context) ∧
        context.map Sketch.Frame.whole = frames ∧
        (start.buildPartialTree (treeRoot sub) (frames.map stepOf)).nodeMap (treeRoot sub) =
          some id := by
  have subIn : sub ∈ base.subtrees := (mem_subtrees_iff _ _).mpr ⟨frames, place⟩
  have startFragment := @fragment_stub value sub base injective start subIn
    (fun other inSub => unknown other (subtrees_trans inSub subIn))
    (fun leaf inSub => same leaf (leaves_subset_of_mem_subtrees subIn inSub))
  subst place
  obtain ⟨next, context, fragment, sameFrames, builds⟩ := startFragment.climb injective distinct
    (self_mem_subtrees _) unknown same
  have result : start.buildPartialTree (treeRoot sub) (frames.map stepOf) = next := by
    have whole := builds []
    rw [List.append_nil] at whole
    rw [buildPartialTree_of_unknown (unknown _ subIn)]
    exact whole
  have subMap : (start.buildPartialTree (treeRoot sub) (frames.map stepOf)).nodeMap (treeRoot sub) =
      some start.nextNode := by
    rw [buildPartialTree_of_unknown (unknown _ subIn)]
    exact (adds_buildAbove _ _ _ _).nodeMap _ _ (Function.update_self _ _ _)
  refine ⟨start.nextNode, context, ?_, sameFrames, subMap⟩
  rw [result]
  exact ⟨fragment.stored, fragment.nodup, fun id inIds => (fragment.new id inIds).2,
    fragment.covers⟩

include injective distinct in
/-- A further path of a delta tree makes more of the tree visible. -/
theorem Partial.buildPartialTree (main : Partial value base start sketch)
    (place : sub.plug frames = base)
    (same : ∀ other ∈ base.leaves, ¬ start.Known (.leaf other) → value other = other) :
    ∃ grown, Partial value base (start.buildPartialTree (treeRoot sub) (frames.map stepOf)) grown ∧
        sketch.Expands grown := by
  by_cases known : start.Known sub
  · obtain ⟨id, isId⟩ := Option.ne_none_iff_exists'.mp known
    have unchanged : start.buildPartialTree (treeRoot sub) (frames.map stepOf) = start := by
      rw [MerkleTree.buildPartialTree, getOrCreateNode_some isId]
      rfl
    rw [unchanged]
    exact ⟨sketch, main, .refl sketch⟩
  obtain ⟨lower, frame, upper, id, rfl, unknownLower, unknownLeaves, topMap, inStubs⟩ :=
    main.covers.exists_stub_above place known
  rw [HashTree.plug_append, plug_cons] at place
  -- Everything below the known node is new, so no leaf below it has been updated.
  have topIn : (sub.plug lower).up frame ∈ base.subtrees :=
    (mem_subtrees_iff _ _).mpr ⟨upper, place⟩
  have lowerIn : sub.plug lower ∈ base.subtrees :=
    subtrees_trans (subtrees_subset_up _ _ (self_mem_subtrees _)) topIn
  have subIn : sub ∈ (sub.plug lower).subtrees := (mem_subtrees_iff _ _).mpr ⟨lower, rfl⟩
  have lowerUnknown := unknownLower _ (self_mem_subtrees _)
  have sameTop : ∀ other ∈ ((sub.plug lower).up frame).leaves, value other = other :=
    fun other inTop =>
      same other (leaves_subset_of_mem_subtrees topIn inTop) (unknownLeaves other inTop)
  have sameLower : ∀ other ∈ (sub.plug lower).leaves, value other = other := fun other inLower =>
    sameTop other (leaves_subset_of_mem_subtrees (subtrees_subset_up _ _ (self_mem_subtrees _))
      inLower)
  obtain ⟨context, rfl⟩ := Sketch.exists_plug_of_mem_stubs inStubs
  have startFragment := @fragment_stub value sub base injective start
    (subtrees_trans subIn lowerIn)
    (fun other inSub => unknownLower other (subtrees_trans inSub subIn))
    (fun leaf inSub => sameLower leaf (leaves_subset_of_mem_subtrees subIn inSub))
  obtain ⟨middle, _, fragment, -, climbs⟩ :=
    startFragment.climb injective distinct lowerIn unknownLower sameLower
  obtain ⟨next, sibling, nextPartial, nextKnown, attaches⟩ :=
    fragment.attach injective distinct topIn main topMap lowerUnknown sameTop
  have stops : next.buildAbove (treeRoot ((sub.plug lower).up frame)) id (upper.map stepOf) =
      next := by
    cases upper with
    | nil => rfl
    | cons other upper =>
      -- The sibling of a known node is known, so the loop ends here.
      have otherIn := (mem_subtrees_iff _ base).mpr ⟨upper, place⟩
      obtain ⟨otherId, isOther⟩ := Option.ne_none_iff_exists'.mp
        ((nextPartial.covers.sibling_iff otherIn).mp nextKnown)
      rw [List.map_cons, stepOf, buildAbove, getOrCreateNode_some isOther]
      rfl
  have result : start.buildPartialTree (treeRoot sub) ((lower ++ frame :: upper).map stepOf) =
      next := by
    rw [buildPartialTree_of_unknown known, List.map_append]
    refine (climbs _).trans ?_
    rw [List.map_cons, attaches, stops]
  rw [result]
  refine ⟨_, nextPartial, Sketch.Expands.plug (.stub (by simp) ?_) context⟩
  rw [whole_up_stub, fragment.whole]

end Fragments

end MerkleTree

end MultiVac.Merkle
