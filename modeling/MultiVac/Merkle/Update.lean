import MultiVac.Merkle.Sketch

/-!
# Updates of a stored tree

What the functions of `MerkleTree` that walk up from a node do on a stored sketch:
`updateNode` makes all hashes above the node right again, `createMerkleProof`
returns the steps of a path to the root.
-/

namespace MultiVac.Merkle

open Lib
open Sketch (Around above frameIds)

namespace MerkleTree

/-- The pointers between a node, its children and its parent agree. -/
structure Linked (node : NodeId → Node) (id : NodeId) : Prop where
  left : ∀ child, (node id).leftChild = some child → child ≠ id ∧ (node child).parent = some id
  right : ∀ child, (node id).rightChild = some child → child ≠ id ∧ (node child).parent = some id
  parent : ∀ parent, (node id).parent = some parent → parent ≠ id ∧
    ∃ left, (node parent).leftChild = some left ∧ (left ≠ id → (node parent).rightChild = some id)

variable {tree : MerkleTree} {id : NodeId}

theorem modify_eq_self {change : Node → Node}
    (same : change (tree.node id) = tree.node id) : tree.modify id change = tree := by
  rw [modify, same, Function.update_eq_self]

/-- The tree after a new hash of one node, with the listener told. -/
def rehash (tree : MerkleTree) (id : NodeId) (hash : MerkleHash) : MerkleTree :=
  if tree.hasListener then (tree.setHash id hash).onNodeHashChanged id (tree.node id).hash hash
  else tree.setHash id hash

theorem node_setHash_of_ne (tree : MerkleTree) {id other : NodeId} (hash : MerkleHash)
    (different : other ≠ id) : (tree.setHash id hash).node other = tree.node other :=
  Function.update_of_ne different _ _

@[simp]
theorem node_setHash_self (tree : MerkleTree) (id : NodeId) (hash : MerkleHash) :
    (tree.setHash id hash).node id =
      ⟨(tree.node id).parent, (tree.node id).leftChild, (tree.node id).rightChild, hash⟩ :=
  Function.update_self _ _ _

/-- Where the pointers agree, `setNodeHash` changes the hash only. -/
theorem setNodeHash_eq (linked : Linked tree.node id)
    (hash : MerkleHash) : tree.setNodeHash id hash = .ok (tree.rehash id hash) := by
  have adopted : ∀ child, (∀ own, child = some own → own ≠ id ∧ (tree.node own).parent = some id) →
      (tree.setHash id hash).adopt id child = tree.setHash id hash := by
    rintro (_ | own) agrees
    · rfl
    · obtain ⟨different, parent⟩ := agrees own rfl
      rw [adopt, setParent, modify_eq_self]
      rw [node_setHash_of_ne tree hash different, ← parent]
  have attached : ∃ isLeft, tree.isLeftChild id = .ok isLeft ∧
      (tree.setHash id hash).attach id isLeft (tree.node id).parent = tree.setHash id hash := by
    cases parentEq : (tree.node id).parent with
    | none => exact ⟨false, by rw [isLeftChild, parentEq], rfl⟩
    | some parent =>
      obtain ⟨different, left, leftEq, rightEq⟩ := linked.parent parent parentEq
      refine ⟨decide (left = id), by rw [isLeftChild, parentEq]; simp [leftEq], ?_⟩
      by_cases isLeft : left = id
      · rw [attach, if_pos (decide_eq_true isLeft), modify_eq_self]
        rw [node_setHash_of_ne tree hash different, ← isLeft, ← leftEq]
      · rw [attach, if_neg (by simpa using isLeft), modify_eq_self]
        rw [node_setHash_of_ne tree hash different, ← rightEq isLeft]
  obtain ⟨isLeft, isLeftEq, attachedEq⟩ := attached
  simp only [setNodeHash, isLeftEq, adopted _ linked.left, adopted _ linked.right, bind,
    Except.bind, attachedEq]
  rfl

@[simp]
theorem node_rehash (tree : MerkleTree) (id : NodeId) (hash : MerkleHash) :
    (tree.rehash id hash).node = (tree.setHash id hash).node := by
  unfold rehash onNodeHashChanged
  split
  · split <;> rfl
  · rfl

/-! ### Recomputing the hashes above a node -/

/-- What a change of hashes keeps: with a listener, the map may lose or gain the
touched hashes. -/
structure Rehashed (touched : MerkleHash → Prop) (old new : MerkleTree) : Prop where
  nextNode : new.nextNode = old.nextNode
  size : new.size = old.size
  merkleRoot : new.merkleRoot = old.merkleRoot
  hasListener : new.hasListener = old.hasListener
  nodeMap : ∀ key, (old.hasListener = true → ¬ touched key) → new.nodeMap key = old.nodeMap key
  lastNodeHash : (old.hasListener = true → ∀ key, old.lastNodeHash = some key → ¬ touched key) →
    new.lastNodeHash = old.lastNodeHash

theorem Rehashed.refl (touched : MerkleHash → Prop) (tree : MerkleTree) :
    Rehashed touched tree tree :=
  ⟨rfl, rfl, rfl, rfl, fun _ _ => rfl, fun _ => rfl⟩

variable {touched : MerkleHash → Prop}

theorem Rehashed.trans {first second third : MerkleTree} (earlier : Rehashed touched first second)
    (later : Rehashed touched second third) : Rehashed touched first third := by
  refine ⟨later.nextNode.trans earlier.nextNode, later.size.trans earlier.size,
    later.merkleRoot.trans earlier.merkleRoot, later.hasListener.trans earlier.hasListener, ?_, ?_⟩
  · intro key untouched
    rw [later.nodeMap key (by rwa [earlier.hasListener]), earlier.nodeMap key untouched]
  · intro untouched
    have same := earlier.lastNodeHash untouched
    rw [later.lastNodeHash (by rwa [earlier.hasListener, same]), same]

theorem rehashed_rehash {hash : MerkleHash} (old : touched (tree.node id).hash)
    (new : touched hash) : Rehashed touched tree (tree.rehash id hash) := by
  cases listener : tree.hasListener with
  | false =>
    rw [rehash, if_neg (by simp [listener])]
    exact ⟨rfl, rfl, rfl, rfl, fun _ _ => rfl, fun _ => rfl⟩
  | true =>
    rw [rehash, if_pos listener, onNodeHashChanged]
    split
    · exact ⟨rfl, rfl, rfl, rfl, fun _ _ => rfl, fun _ => rfl⟩
    · refine ⟨rfl, rfl, rfl, rfl, ?_, ?_⟩
      · intro key untouched
        have notOld : key ≠ (tree.node id).hash := fun same => untouched listener (same ▸ old)
        have notNew : key ≠ hash := fun same => untouched listener (same ▸ new)
        exact (Function.update_of_ne notOld _ _).trans (Function.update_of_ne notNew _ _)
      · intro untouched
        exact if_neg fun same => untouched listener _ same old

variable {value : MerkleHash → MerkleHash} {node : NodeId → Node} {frames : List Sketch.Frame}

/-- The node in the next frame points back to the child. -/
theorem parent_of_around {child : NodeId} (around : Around value node child frames)
    (fresh : child ∉ frameIds frames) {parent : NodeId}
    (parentEq : above frames = some parent) : parent ≠ child ∧
      ∃ left, (node parent).leftChild = some left ∧
        (left ≠ child → (node parent).rightChild = some child) := by
  cases frames with
  | nil => cases parentEq
  | cons frame frames =>
    obtain rfl : frame.id = parent := Option.some.inj parentEq
    obtain ⟨-, left, right, -, -⟩ := around
    refine ⟨?_, _, left, ?_⟩
    · rintro rfl
      exact fresh (by simp [frameIds])
    · intro notLeft
      cases onLeft : frame.onLeft <;> simp_all

variable {part : Sketch} {frame : Sketch.Frame}

/-- The node of a frame is none of the other nodes. -/
theorem apart_of_nodup (nodup : (part.plug (frame :: frames)).ids.Nodup) :
    frame.id ∉ part.ids ∧ frame.id ∉ frame.sibling.ids ∧ frame.id ∉ frameIds frames := by
  have separate := (Sketch.ids_plug_perm part (frame :: frames)).nodup_iff.mp nodup
  rw [frameIds, List.flatMap_cons, ← frameIds, List.cons_append, List.nodup_append,
    List.nodup_cons, List.mem_append, not_or] at separate
  obtain ⟨-, ⟨⟨notSibling, notRest⟩, -⟩, apart⟩ := separate
  exact ⟨fun inPart => apart _ inPart _ List.mem_cons_self rfl, notSibling, notRest⟩

theorem linked_frame (stored : part.Stored value node (some frame.id))
    (around : Around value node part.id (frame :: frames))
    (nodup : (part.plug (frame :: frames)).ids.Nodup) : Linked node frame.id := by
  obtain ⟨parentEq, leftEq, rightEq, sibling, rest⟩ := around
  obtain ⟨notPart, notSibling, notRest⟩ := apart_of_nodup nodup
  have partLink : part.id ≠ frame.id ∧ (node part.id).parent = some frame.id :=
    ⟨fun same => notPart (same ▸ part.id_mem_ids), stored.parent⟩
  have siblingLink : frame.sibling.id ≠ frame.id ∧ (node frame.sibling.id).parent = some frame.id :=
    ⟨fun same => notSibling (same ▸ frame.sibling.id_mem_ids), sibling.parent⟩
  refine ⟨?_, ?_, ?_⟩
  · intro child childEq
    rw [leftEq, Option.some.injEq] at childEq
    subst childEq
    split
    · exact siblingLink
    · exact partLink
  · intro child childEq
    rw [rightEq, Option.some.injEq] at childEq
    subst childEq
    split
    · exact partLink
    · exact siblingLink
  · intro parent isParent
    exact parent_of_around rest notRest (parentEq.symm.trans isParent)

/-- The hash that the loop of `updateNode` computes for the node of a frame. -/
theorem hash_of_around (stored : part.Stored value node (some frame.id))
    (sibling : frame.sibling.Stored value node (some frame.id)) :
    nodeHash (node (if frame.onLeft then frame.sibling.id else part.id)).hash
        (node (if frame.onLeft then part.id else frame.sibling.id)).hash =
      treeRoot ((part.up frame).whole.map value) := by
  rw [Sketch.treeRoot_up, ← stored.hash, ← sibling.hash, HashTree.ascend]
  cases frame.onLeft <;> simp

/-- With the new hash of its node, a frame becomes part of what is stored. -/
theorem stored_up_rehash (stored : part.Stored value tree.node (some frame.id))
    (around : Around value tree.node part.id (frame :: frames))
    (nodup : (part.plug (frame :: frames)).ids.Nodup) :
    (part.up frame).Stored value
      (tree.rehash frame.id (treeRoot ((part.up frame).whole.map value))).node (above frames) := by
  obtain ⟨parentEq, leftEq, rightEq, sibling, -⟩ := around
  obtain ⟨notPart, notSibling, -⟩ := apart_of_nodup nodup
  rw [node_rehash]
  have others : ∀ id, id ≠ frame.id →
      (tree.setHash frame.id (treeRoot ((part.up frame).whole.map value))).node id = tree.node id :=
    fun id different => node_setHash_of_ne tree _ different
  have partStored := stored.frame fun id inPart =>
    others id fun same => notPart (same ▸ inPart)
  have siblingStored := sibling.frame fun id inSibling =>
    others id fun same => notSibling (same ▸ inSibling)
  have own := tree.node_setHash_self frame.id (treeRoot ((part.up frame).whole.map value))
  rw [parentEq, leftEq, rightEq] at own
  cases onLeft : frame.onLeft with
  | true =>
    rw [Sketch.up_of_left onLeft] at own partStored siblingStored ⊢
    exact ⟨by simpa [onLeft] using own, siblingStored, partStored⟩
  | false =>
    rw [Sketch.up_of_right onLeft] at own partStored siblingStored ⊢
    exact ⟨by simpa [onLeft] using own, partStored, siblingStored⟩

/-- The node of a frame has the hash of a pair. -/
theorem touched_up
    (new : ∀ left right,
      .node left right ∈ ((part.plug (frame :: frames)).whole.map value).subtrees →
        touched (nodeHash (treeRoot left) (treeRoot right))) :
    touched (treeRoot ((part.up frame).whole.map value)) := by
  have inPlug : (part.up frame).whole.map value ∈
      ((part.plug (frame :: frames)).whole.map value).subtrees := by
    rw [Sketch.plug_cons, Sketch.whole_plug, HashTree.map_plug]
    exact HashTree.subtrees_subset_plug _ _ (HashTree.self_mem_subtrees _)
  cases onLeft : frame.onLeft with
  | true =>
    rw [Sketch.up_of_left onLeft] at inPlug ⊢
    exact new _ _ inPlug
  | false =>
    rw [Sketch.up_of_right onLeft] at inPlug ⊢
    exact new _ _ inPlug

variable {fuel : Nat}

/-- `refreshAbove` makes the hashes above a stored part right. -/
theorem refreshAbove_plug (stored : part.Stored value tree.node (above frames))
    (around : Around value tree.node part.id frames) (nodup : (part.plug frames).ids.Nodup)
    (enough : frames.length ≤ fuel) (old : ∀ frame ∈ frames, touched (tree.node frame.id).hash)
    (new : ∀ left right, .node left right ∈ ((part.plug frames).whole.map value).subtrees →
      touched (nodeHash (treeRoot left) (treeRoot right))) :
    ∃ refreshed, refreshAbove fuel tree (above frames) = .ok refreshed ∧
      (part.plug frames).Stored value refreshed.node none ∧
      (∀ id, id ∉ frames.map Sketch.Frame.id → refreshed.node id = tree.node id) ∧
      Rehashed touched tree refreshed := by
  induction frames generalizing fuel tree part with
  | nil =>
    refine ⟨tree, ?_, stored, fun _ _ => rfl, .refl touched tree⟩
    cases fuel <;> rfl
  | cons frame frames ih =>
    obtain ⟨fuel, rfl⟩ : ∃ less, fuel = less + 1 :=
      Nat.exists_eq_succ_of_ne_zero (Nat.ne_of_gt (Nat.lt_of_lt_of_le (by simp) enough))
    obtain ⟨-, -, notRest⟩ := apart_of_nodup nodup
    have upStored := stored_up_rehash stored around nodup
    have linked := linked_frame stored around nodup
    obtain ⟨parentEq, leftEq, rightEq, sibling, rest⟩ := around
    have others : ∀ id, id ≠ frame.id →
        (tree.rehash frame.id (treeRoot ((part.up frame).whole.map value))).node id =
          tree.node id := by
      intro id different
      rw [node_rehash, node_setHash_of_ne tree _ different]
    have restAround := rest.frame fun id inRest => others id fun same => notRest (same ▸ inRest)
    obtain ⟨refreshed, refreshes, whole, kept, rehashed⟩ := ih upStored
      (by rwa [Sketch.id_up]) nodup (Nat.le_of_succ_le_succ enough)
      (by
        intro later inLater
        rw [others later.id fun same => notRest
          (same ▸ List.mem_flatMap.mpr ⟨later, inLater, List.mem_cons_self⟩)]
        exact old later (List.mem_cons_of_mem _ inLater))
      new
    refine ⟨refreshed, ?_, whole, ?_, (rehashed_rehash (old frame List.mem_cons_self)
      (touched_up new)).trans rehashed⟩
    · have parentAfter := upStored.parent
      rw [Sketch.id_up] at parentAfter
      rw [show above (frame :: frames) = some frame.id from rfl, refreshAbove, leftEq, rightEq]
      simp only [hash_of_around stored sibling, setNodeHash_eq linked, bind, Except.bind,
        parentAfter]
      exact refreshes
    · intro id notFrame
      rw [List.map_cons, List.mem_cons, not_or] at notFrame
      rw [kept id notFrame.2, others id notFrame.1]

/-! ### Updating a node -/

theorem linked_part (stored : part.Stored value node (above frames))
    (around : Around value node part.id frames)
    (nodup : (part.plug frames).ids.Nodup) : Linked node part.id := by
  have separate := (Sketch.ids_plug_perm part frames).nodup_iff.mp nodup
  obtain ⟨partNodup, -, apart⟩ := List.nodup_append.mp separate
  have upper : ∀ parent, (node part.id).parent = some parent → parent ≠ part.id ∧
      ∃ left, (node parent).leftChild = some left ∧
        (left ≠ part.id → (node parent).rightChild = some part.id) := fun parent isParent =>
    parent_of_around around (fun inFrames => apart _ part.id_mem_ids _ inFrames rfl)
      (stored.parent.symm.trans isParent)
  cases part with
  | stub id hidden =>
    have own : node id = _ := stored
    exact ⟨by simp [own], by simp [own], upper⟩
  | inner id left right =>
    obtain ⟨own, leftStored, rightStored⟩ := stored
    obtain ⟨fresh, -⟩ := List.nodup_cons.mp partNodup
    rw [List.mem_append, not_or] at fresh
    refine ⟨?_, ?_, upper⟩
    · intro child childEq
      rw [Sketch.id_inner, own] at childEq
      obtain rfl := Option.some.inj childEq
      refine ⟨fun same => fresh.1 ?_, leftStored.parent⟩
      exact Eq.subst (motive := (· ∈ left.ids)) same left.id_mem_ids
    · intro child childEq
      rw [Sketch.id_inner, own] at childEq
      obtain rfl := Option.some.inj childEq
      refine ⟨fun same => fresh.2 ?_, rightStored.parent⟩
      exact Eq.subst (motive := (· ∈ right.ids)) same right.id_mem_ids

/-- There are fewer frames than nodes in the heap. -/
theorem length_frames_lt {nextNode : NodeId} (nodup : (part.plug frames).ids.Nodup)
    (bound : ∀ id ∈ (part.plug frames).ids, id < nextNode) : frames.length < nextNode := by
  have inRange : (part.plug frames).ids ⊆ List.range nextNode := fun id inIds =>
    List.mem_range.mpr (bound id inIds)
  have total := (List.subperm_of_subset nodup inRange).length_le
  have parts := (Sketch.ids_plug_perm part frames).length_eq
  have own := List.length_pos_of_mem part.id_mem_ids
  have framesLe : frames.length ≤ (frameIds frames).length := by
    rw [frameIds, List.length_flatMap]
    refine le_trans (Nat.le_of_eq ?_) (List.length_le_sum_of_one_le _ ?_)
    · rw [List.length_map]
    · simp
  rw [List.length_append] at parts
  rw [List.length_range] at total
  omega

theorem rehash_self (tree : MerkleTree) (id : NodeId) :
    tree.rehash id (tree.node id).hash = tree := by
  have same : tree.setHash id (tree.node id).hash = tree := modify_eq_self rfl
  rw [rehash, same]
  split
  · exact if_pos rfl
  · rfl

/-- `updateNode` with the hash that a node has makes the hashes above it right. -/
theorem updateNode_plug (stored : part.Stored value tree.node (above frames))
    (around : Around value tree.node part.id frames) (nodup : (part.plug frames).ids.Nodup)
    (bound : ∀ id ∈ (part.plug frames).ids, id < tree.nextNode)
    (old : ∀ frame ∈ frames, touched (tree.node frame.id).hash)
    (new : ∀ left right, .node left right ∈ ((part.plug frames).whole.map value).subtrees →
      touched (nodeHash (treeRoot left) (treeRoot right))) :
    ∃ refreshed, tree.updateNode part.id (tree.node part.id).hash = .ok refreshed ∧
      (part.plug frames).Stored value refreshed.node none ∧
      (∀ id, id ∉ frames.map Sketch.Frame.id → refreshed.node id = tree.node id) ∧
      Rehashed touched tree refreshed := by
  obtain ⟨refreshed, refreshes, rest⟩ := refreshAbove_plug stored around nodup
    (Nat.le_of_lt (length_frames_lt nodup bound)) old new
  refine ⟨refreshed, ?_, rest⟩
  simp only [updateNode, setNodeHash_eq (linked_part stored around nodup), rehash_self, bind,
    Except.bind, stored.parent]
  exact refreshes

/-- Without a listener, only hashes change. -/
theorem Rehashed.eq {old new : MerkleTree} (rehashed : Rehashed touched old new)
    (silent : old.hasListener = false) : new = { old with node := new.node } := by
  have nodeMap : new.nodeMap = old.nodeMap := funext fun key =>
    rehashed.nodeMap key fun listens => by simp [silent] at listens
  have lastNodeHash := rehashed.lastNodeHash fun listens => by simp [silent] at listens
  obtain ⟨nextNode, size, merkleRoot, hasListener, -, -⟩ := rehashed
  cases new
  simp only at nextNode size merkleRoot hasListener nodeMap lastNodeHash
  subst nextNode size merkleRoot hasListener nodeMap lastNodeHash
  rfl

/-- In a delta tree, `updateNode` gives a leaf a new value. -/
theorem updateNode_leaf {leaf : MerkleHash}
    (stored : ((Sketch.stub id (.leaf leaf)).plug frames).Stored value tree.node none)
    (nodup : ((Sketch.stub id (.leaf leaf)).plug frames).ids.Nodup)
    (bound : ∀ other ∈ ((Sketch.stub id (.leaf leaf)).plug frames).ids, other < tree.nextNode)
    (single : ∀ frame ∈ frames, leaf ∉ frame.sibling.whole.leaves)
    (silent : tree.hasListener = false) (newHash : MerkleHash) :
    ∃ node, tree.updateNode id newHash = .ok { tree with node := node } ∧
      ((Sketch.stub id (.leaf leaf)).plug frames).Stored (Function.update value leaf newHash)
        node none := by
  obtain ⟨leafStored, around⟩ := Sketch.Stored.split stored
  have linked := linked_part leafStored around nodup
  have fresh : id ∉ frameIds frames := by
    have separate := (Sketch.ids_plug_perm (.stub id (.leaf leaf)) frames).nodup_iff.mp nodup
    exact fun inFrames => (List.nodup_append.mp separate).2.2 id List.mem_cons_self id inFrames rfl
  have changed : tree.rehash id newHash = tree.setHash id newHash := if_neg (by simp [silent])
  have ownStored : (Sketch.stub id (.leaf leaf)).Stored (Function.update value leaf newHash)
      (tree.setHash id newHash).node (above frames) := by
    have own : tree.node id = _ := leafStored
    rw [Sketch.Stored, node_setHash_self, own]
    simp [HashTree.map, treeRoot, HashTree.digest]
  have newAround : Around (Function.update value leaf newHash) (tree.setHash id newHash).node id
      frames := by
    refine (Sketch.Around.congr around fun frame inFrames other inSibling => ?_).frame ?_
    · have different : other ≠ leaf := fun same => single frame inFrames (same ▸ inSibling)
      exact Function.update_of_ne different _ _
    · exact fun other inFrames => node_setHash_of_ne tree newHash fun same => fresh (same ▸ inFrames)
  have enough : frames.length ≤ tree.nextNode := Nat.le_of_lt (length_frames_lt nodup bound)
  obtain ⟨refreshed, refreshes, newStored, -, rehashed⟩ :=
    @refreshAbove_plug _ (fun _ => True) _ _ _ _ ownStored newAround nodup enough
      (fun _ _ => trivial) (fun _ _ _ => trivial)
  refine ⟨refreshed.node, ?_, newStored⟩
  have same : refreshed = { tree with node := refreshed.node } := rehashed.eq silent
  rw [← same]
  have parentEq : ((tree.setHash id newHash).node id).parent = above frames := ownStored.parent
  have rehashes : tree.setNodeHash id newHash = .ok (tree.rehash id newHash) :=
    setNodeHash_eq linked newHash
  simp only [updateNode, rehashes, changed, bind, Except.bind, parentEq]
  exact refreshes

/-! ### Walking up -/

theorem topOf_plug (parent : (tree.node part.id).parent = above frames)
    (around : Around value tree.node part.id frames)
    (enough : frames.length < fuel) : tree.topOf fuel part.id = .ok (part.plug frames).id := by
  induction frames generalizing fuel part with
  | nil =>
    obtain ⟨fuel, rfl⟩ := Nat.exists_eq_succ_of_ne_zero (Nat.ne_of_gt enough)
    rw [topOf, parent]
    rfl
  | cons frame frames ih =>
    obtain ⟨fuel, rfl⟩ := Nat.exists_eq_succ_of_ne_zero (Nat.ne_of_gt (Nat.zero_lt_of_lt enough))
    obtain ⟨frameParent, -, -, -, rest⟩ := around
    have next := @ih (part.up frame) fuel (by rwa [Sketch.id_up])
      (by rwa [Sketch.id_up]) (Nat.lt_of_succ_lt_succ enough)
    rw [Sketch.id_up] at next
    rw [topOf, parent]
    exact next

/-- The ancestor of a node, as many steps up as there are frames. -/
theorem ancestor_plug {lower upper : List Sketch.Frame}
    (parent : (tree.node part.id).parent = above (lower ++ upper))
    (around : Around value tree.node part.id (lower ++ upper)) :
    tree.ancestor lower.length part.id = some (part.plug lower).id := by
  induction lower generalizing part with
  | nil => rfl
  | cons frame lower ih =>
    obtain ⟨frameParent, -, -, -, rest⟩ := around
    have next := @ih (part.up frame) (by rwa [Sketch.id_up])
      (by rwa [Sketch.id_up])
    rw [Sketch.id_up] at next
    rw [List.length_cons, ancestor, parent]
    exact next

/-- The step of a Merkle path over a frame. -/
def proofStep (value : MerkleHash → MerkleHash) (frame : Sketch.Frame) : MerkleHash × UInt8 :=
  (treeRoot (frame.sibling.whole.map value), if frame.onLeft then leftSide else rightSide)

/-- `createMerkleProof` returns the siblings on the way to the root. -/
theorem createMerkleProof_plug (around : Around value tree.node part.id frames)
    (nodup : (part.plug frames).ids.Nodup) (enough : frames.length ≤ fuel) :
    tree.createMerkleProof fuel part.id (above frames) = .ok (frames.map (proofStep value)) := by
  induction frames generalizing fuel part with
  | nil => cases fuel <;> rfl
  | cons frame frames ih =>
    obtain ⟨fuel, rfl⟩ :=
      Nat.exists_eq_succ_of_ne_zero (Nat.ne_of_gt (Nat.lt_of_lt_of_le (by simp) enough))
    have separate := (Sketch.ids_plug_perm part (frame :: frames)).nodup_iff.mp nodup
    have notSibling : frame.sibling.id ≠ part.id := by
      intro same
      refine (List.nodup_append.mp separate).2.2 part.id part.id_mem_ids part.id ?_ rfl
      rw [← same]
      exact List.mem_flatMap.mpr ⟨frame, List.mem_cons_self,
        List.mem_cons_of_mem _ frame.sibling.id_mem_ids⟩
    obtain ⟨frameParent, leftEq, rightEq, sibling, rest⟩ := around
    have next := @ih (part.up frame) fuel (by rwa [Sketch.id_up]) nodup
      (Nat.le_of_succ_le_succ enough)
    rw [Sketch.id_up] at next
    rw [show above (frame :: frames) = some frame.id from rfl, createMerkleProof, leftEq, rightEq]
    simp only [frameParent, next, bind, Except.bind]
    cases onLeft : frame.onLeft with
    | true => simp [notSibling, sibling.hash, proofStep, onLeft, pure, Except.pure]
    | false => simp [sibling.hash, proofStep, onLeft, pure, Except.pure]

section Whole

variable (stored : (part.plug frames).Stored value tree.node none)
  (nodup : (part.plug frames).ids.Nodup)
  (bound : ∀ id ∈ (part.plug frames).ids, id < tree.nextNode)

include stored nodup bound

theorem topOf_stored : tree.topOf (tree.nextNode + 1) part.id = .ok (part.plug frames).id := by
  obtain ⟨partStored, around⟩ := Sketch.Stored.split stored
  exact topOf_plug partStored.parent around (Nat.lt_succ_of_lt (length_frames_lt nodup bound))

theorem createMerkleProof_stored :
    tree.createMerkleProof (tree.nextNode + 1) part.id (tree.node part.id).parent =
      .ok (frames.map (proofStep value)) := by
  obtain ⟨partStored, around⟩ := Sketch.Stored.split stored
  rw [partStored.parent]
  exact createMerkleProof_plug around nodup
    (Nat.le_succ_of_le (Nat.le_of_lt (length_frames_lt nodup bound)))

end Whole

/-- `GetMerkleRoot`, when the old root leads to some node. -/
theorem getMerkleRoot_stored {tree : DeltaMerkleTree} {sketch : Sketch}
    (stored : sketch.Stored value tree.node none) (nodup : sketch.ids.Nodup)
    (bound : ∀ id ∈ sketch.ids, id < tree.nextNode) {id : NodeId}
    (isId : tree.nodeMap tree.merkleRoot = some id)
    (inIds : id ∈ sketch.ids) : tree.getMerkleRoot = .ok (treeRoot (sketch.whole.map value)) := by
  obtain ⟨part, frames, rfl, rfl⟩ := Sketch.exists_plug_of_mem_ids inIds
  rw [getMerkleRoot, isId, ← stored.hash]
  simp only [topOf_stored stored nodup bound, bind, Except.bind]
  rfl

end MerkleTree

end MultiVac.Merkle
