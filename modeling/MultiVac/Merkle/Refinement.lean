import MultiVac.Merkle.Partial

/-!
# Delta trees refine full trees

Changes of a delta tree, by genuine paths of a base tree, against the same changes
of the list of leaves. After any sequence of changes the delta tree has the root
of the full tree over the changed list.
-/

namespace MultiVac.Merkle

open Lib
open Lib.HashTree (leaf_mem_subtrees leaves_map subtrees_trans)
open Wire (MerklePath)

/-- The Merkle path of the leaf at an index, as `GetMerklePath` returns it. -/
def genuinePath (tree : Tree) (index : Nat) : MerklePath where
  hashes := .of (tree.leaves.getD index emptyHash ::
    (tree.framesAt index).map fun frame => treeRoot frame.sibling)
  proofPath := .of ((tree.framesAt index).map fun frame => sideOf frame.onLeft)

/-- A change of a delta tree. -/
inductive Change where
  | updateLeaf (index : Nat) (newHash : MerkleHash)
  | setSizeAndLastNodeMerklePath
  | append (leaves : List MerkleHash)

namespace Change

/-- The call for a change, with genuine paths of the base tree. -/
def perform (base : Tree) (tree : DeltaMerkleTree) : Change → Go DeltaMerkleTree
  | updateLeaf index newHash => tree.updateLeaf (genuinePath base index) newHash
  | setSizeAndLastNodeMerklePath =>
    tree.setSizeAndLastNodeMerklePath base.count (genuinePath base (base.count - 1))
  | append leaves => tree.append leaves

/-- A call that returns an error leaves the tree as it was. -/
def call (base : Tree) (tree : DeltaMerkleTree) (change : Change) : Go DeltaMerkleTree :=
  match change.perform base tree with
  | .error (.error _) => .ok tree
  | outcome => outcome

/-- The change of the list of leaves: leaves can be appended once the size is set. -/
def apply : Bool × List MerkleHash → Change → Bool × List MerkleHash
  | (sized, leaves), updateLeaf index newHash => (sized, leaves.set index newHash)
  | (_, leaves), setSizeAndLastNodeMerklePath => (true, leaves)
  | (true, leaves), append extra => (true, leaves ++ extra)
  | (false, leaves), append _ => (false, leaves)

/-- The lists of leaves that a change goes through. -/
def visits : Bool × List MerkleHash → Change → List (List MerkleHash)
  | (true, leaves), append extra => extra.inits.map (leaves ++ ·)
  | state, change => [state.2, (apply state change).2]

/-- An update is of a leaf of the base tree, and a batch is not empty. -/
def Valid (base : List MerkleHash) : Change → Prop
  | updateLeaf index _ => index < base.length
  | setSizeAndLastNodeMerklePath => True
  | append leaves => leaves ≠ []

instance (base : List MerkleHash) : (change : Change) → Decidable (change.Valid base)
  | updateLeaf _ _ => inferInstanceAs (Decidable (_ < _))
  | setSizeAndLastNodeMerklePath => inferInstanceAs (Decidable True)
  | append _ => inferInstanceAs (Decidable (_ ≠ _))

/-- The leaves that a change appends. -/
def appended : Change → List MerkleHash
  | append leaves => leaves
  | _ => []

end Change

/-- One change after the other on a delta tree. -/
def performAll (base : Tree) (tree : DeltaMerkleTree) (changes : List Change) :
    Go DeltaMerkleTree :=
  changes.foldlM (Change.call base) tree

/-- The lists of leaves that a sequence of changes goes through. -/
def visited : Bool × List MerkleHash → List Change → List (List MerkleHash)
  | state, [] => [state.2]
  | state, change :: changes => change.visits state ++ visited (change.apply state) changes

theorem mem_visited_self (state : Bool × List MerkleHash) (changes : List Change) :
    state.2 ∈ visited state changes := by
  cases changes with
  | nil => exact List.mem_singleton_self _
  | cons change changes =>
    obtain ⟨sized, leaves⟩ := state
    refine List.mem_append_left _ ?_
    cases change <;> cases sized <;> simp [Change.visits]

theorem mem_visited_foldl (state : Bool × List MerkleHash) (changes : List Change) :
    (changes.foldl Change.apply state).2 ∈ visited state changes := by
  induction changes generalizing state with
  | nil => exact List.mem_singleton_self _
  | cons change changes ih =>
    exact List.mem_append_right _ (ih _)

/-! ### Genuine paths -/

theorem climb_stepOf (tree : Tree) (frames : List (HashTree.Frame MerkleHash)) :
    climb (treeRoot tree) (frames.map stepOf) = treeRoot (tree.plug frames) := by
  induction frames generalizing tree with
  | nil => rfl
  | cons frame frames ih =>
    rw [List.map_cons, HashTree.plug_cons, ← ih, ← hashPair_stepOf]
    rfl

section GenuinePaths

variable {tree : Tree} {index : Nat} {leaf : MerkleHash}
  (isLeaf : tree.leaves[index]? = some leaf)

include isLeaf

theorem getLeaf_genuinePath : getLeaf (genuinePath tree index) = .ok leaf := by
  simp [getLeaf, genuinePath, isLeaf, List.getD]

omit isLeaf in
theorem steps_genuinePath : steps (genuinePath tree index) = (tree.framesAt index).map stepOf := by
  simp only [steps, genuinePath, Slice.elems_of, List.tail_cons]
  exact List.zip_map'

theorem verify_genuinePath : verify (genuinePath tree index) (treeRoot tree) = .ok () := by
  have climbs := climb_stepOf (.leaf leaf) (tree.framesAt index)
  rw [HashTree.plug_framesAt isLeaf] at climbs
  have lengths : (genuinePath tree index).proofPath.length + 1 =
      (genuinePath tree index).hashes.length := by
    simp [Slice.length, genuinePath]
  have root : climb leaf ((tree.framesAt index).map stepOf) = treeRoot tree := climbs
  simp [verify, lengths, getLeaf_genuinePath isLeaf, steps_genuinePath, root]

end GenuinePaths

theorem verifyLastNodeMerklePath_genuinePath {tree : Tree} (compact : tree.Compact)
    (small : tree.count < 2 ^ 63) :
    verifyLastNodeMerklePath (treeRoot tree) tree.count (genuinePath tree (tree.count - 1)) =
      .ok () := by
  have positive := tree.count_pos
  have cast : ((tree.count : Int) - 1) = ((tree.count - 1 : Nat) : Int) := by omega
  have length : countOne ((tree.count : Int) - 1) = (tree.framesAt (tree.count - 1)).length := by
    rw [cast, MerkleTree.countOne_natCast (by omega), ← compact.length_spine,
      HashTree.framesAt_last, HashTree.leftFrames, List.length_map]
  have sides : ∀ frame ∈ tree.framesAt (tree.count - 1), frame.onLeft = true := by
    rw [HashTree.framesAt_last, HashTree.leftFrames]
    simp
  have lengths : (genuinePath tree (tree.count - 1)).proofPath.length =
      (tree.framesAt (tree.count - 1)).length ∧ (genuinePath tree (tree.count - 1)).hashes.length =
          (tree.framesAt (tree.count - 1)).length + 1 := by
    simp [Slice.length, genuinePath]
  have allLeft : ((genuinePath tree (tree.count - 1)).proofPath.elems.all
      fun side => side = leftSide) = true := by
    simp only [genuinePath, Slice.elems_of, List.all_map, List.all_eq_true]
    intro frame inFrames
    simp [sideOf, sides frame inFrames]
  simpa [verifyLastNodeMerklePath, verify_genuinePath tree.getElem?_lastLeaf, length, lengths]
    using allLeft

/-! ### The delta tree and the list of leaves -/

namespace MerkleTree

/-- A delta tree after changes: the values of the leaves of the base tree, the leaves
appended to them, and whether the size has been set. -/
structure Represents (base : Tree) (value : MerkleHash → MerkleHash) (extra : List MerkleHash)
    (sized : Bool) (tree : DeltaMerkleTree) (sketch : Sketch) : Prop where
  known : Partial value base tree sketch
  compact : sketch.whole.Compact
  leaves : sketch.whole.leaves = base.leaves ++ extra
  fresh : ∀ leaf ∈ extra, leaf ∉ base.leaves
  unchanged : ∀ leaf, ¬ (leaf ∈ base.leaves ∧ tree.Known (.leaf leaf)) → value leaf = leaf
  silent : tree.hasListener = false
  merkleRoot : tree.merkleRoot = treeRoot base
  size : tree.size = if sized then (sketch.whole.leaves.length : Int) else unknownSize
  last : sized = true → ∃ last leaf, tree.lastNodeHash.bind tree.nodeMap = some last ∧
    sketch.last = (last, .leaf leaf)
  unsized : sized = false → extra = []
  indexed : ∀ leaf ∈ extra, ∃ id, tree.nodeMap leaf = some id ∧ (id, .leaf leaf) ∈ sketch.stubs

/-- The leaves that a delta tree stands for. -/
theorem Represents.leaves_map {base : Tree} {value : MerkleHash → MerkleHash}
    {extra : List MerkleHash} {sized : Bool} {tree : DeltaMerkleTree} {sketch : Sketch}
    (represents : Represents base value extra sized tree sketch) :
    (sketch.whole.map value).leaves = base.leaves.map value ++ extra := by
  have same : ∀ leaf ∈ extra, value leaf = leaf := fun leaf inExtra =>
    represents.unchanged leaf fun isKnown => represents.fresh leaf inExtra isKnown.1
  rw [HashTree.leaves_map, represents.leaves, List.map_append, List.map_congr_left same,
    List.map_id']

section Changes

variable {base : Tree} {value : MerkleHash → MerkleHash} {extra : List MerkleHash} {sized : Bool}
  {tree : DeltaMerkleTree} {sketch : Sketch}

variable {leaf : MerkleHash}

section

variable (represents : Represents base value extra sized tree sketch)
include represents

/-- The root of a delta tree is the root of the full tree over its leaves. -/
theorem Represents.getMerkleRoot :
    tree.getMerkleRoot = .ok (fullRoot (base.leaves.map value ++ extra)) := by
  obtain ⟨id, isId⟩ := Option.ne_none_iff_exists'.mp represents.known.covers.root
  have inIds := represents.known.covers.ids base base.self_mem_subtrees id isId
  rw [← represents.leaves_map, fullRoot_leaves (represents.compact.map value)]
  exact getMerkleRoot_stored represents.known.stored represents.known.nodup represents.known.bound
    (represents.merkleRoot ▸ isId) inIds

/-- A leaf of the base tree occurs once. -/
theorem Represents.single (distinct : base.leaves.Nodup) (inBase : leaf ∈ base.leaves)
    {frames : List (HashTree.Frame MerkleHash)}
    (place : sketch.whole = (HashTree.leaf leaf).plug frames) :
    ∀ frame ∈ frames, leaf ∉ frame.sibling.leaves := by
  intro frame inFrames inSibling
  have counts : (base.leaves ++ extra).count leaf = 1 := by
    rw [List.count_append, List.count_eq_one_of_mem distinct inBase,
      List.count_eq_zero_of_not_mem fun inExtra => represents.fresh leaf inExtra inBase]
  rw [← represents.leaves, place, HashTree.leaves_plug, List.count_append,
    List.count_append] at counts
  have own : (HashTree.leaf leaf).leaves.count leaf = 1 := by
    simp [HashTree.leaves]
  rcases HashTree.mem_leaves_sibling inFrames inSibling with before | after
  · have := List.count_pos_iff.mpr before
    omega
  · have := List.count_pos_iff.mpr after
    omega

/-- A known leaf gets a new value, and the index of nodes stays as it is. -/
theorem Represents.updateNode (distinct : base.leaves.Nodup) {id : NodeId}
    (inBase : leaf ∈ base.leaves) (isId : tree.nodeMap leaf = some id) (newHash : MerkleHash) :
    ∃ updated, tree.updateNode id newHash = .ok updated ∧ updated.nodeMap = tree.nodeMap ∧
      Represents base (Function.update value leaf newHash) extra sized updated sketch := by
  have inStubs := represents.known.covers.stubs (.leaf leaf)
    (leaf_mem_subtrees inBase) id isId (by simp)
  obtain ⟨frames, place⟩ := Sketch.exists_plug_of_mem_stubs inStubs
  have single : ∀ frame ∈ frames, leaf ∉ frame.sibling.whole.leaves := fun frame inFrames =>
    represents.single distinct inBase (by rw [place, Sketch.whole_plug]; rfl) _
      (List.mem_map_of_mem inFrames)
  obtain ⟨known, compact, leaves, fresh, unchanged, silent, merkleRoot, size, last, unsized,
    indexed⟩ := represents
  subst place
  obtain ⟨node, updates, stored⟩ :=
    updateNode_leaf known.stored known.nodup known.bound single silent newHash
  refine ⟨_, updates, rfl, ⟨stored, known.nodup, known.bound,
    known.covers.congr (fun _ _ => rfl) (.refl _)⟩, compact, leaves, fresh, ?_, silent, merkleRoot,
    size, last, unsized, indexed⟩
  intro other notKnown
  have different : other ≠ leaf := by
    rintro rfl
    exact notKnown ⟨inBase, show tree.nodeMap other ≠ none by simp [isId]⟩
  rw [Function.update_of_ne different]
  exact unchanged other notKnown

end

/-- A delta tree before the first path has been built, or after. -/
def Holds (base : Tree) (value : MerkleHash → MerkleHash) (extra : List MerkleHash) (sized : Bool)
    (tree : DeltaMerkleTree) : Prop :=
  (tree = newDeltaMerkleTree (treeRoot base) ∧ value = id ∧ extra = [] ∧ sized = false) ∨
    ∃ sketch, Represents base value extra sized tree sketch

variable {index : Nat}

variable (injective : ∀ first ∈ base.subtrees, ∀ second ∈ base.subtrees,
    treeRoot first = treeRoot second → first = second)
  (distinct : base.leaves.Nodup) (compact : base.Compact)

section

variable (holds : Holds base value extra sized tree)
include holds

theorem Holds.merkleRoot : tree.merkleRoot = treeRoot base := by
  rcases holds with ⟨rfl, -⟩ | ⟨sketch, represents⟩
  · rfl
  · exact represents.merkleRoot

theorem Holds.getMerkleRoot (compact : base.Compact) :
    tree.getMerkleRoot = .ok (fullRoot (base.leaves.map value ++ extra)) := by
  rcases holds with ⟨rfl, rfl, rfl, -⟩ | ⟨sketch, represents⟩
  · rw [List.map_id, List.append_nil, fullRoot_leaves compact]
    rfl
  · exact represents.getMerkleRoot

theorem Holds.size : tree.size = unknownSize ↔ sized = false := by
  rcases holds with ⟨rfl, -, -, rfl⟩ | ⟨sketch, represents⟩
  · exact ⟨fun _ => rfl, fun _ => rfl⟩
  · rw [represents.size]
    cases sized with
    | false => simp
    | true =>
      simp only [if_true, unknownSize, Bool.true_eq_false, iff_false]
      omega

include injective distinct compact

/-- A genuine path can be built at any time. -/
theorem Holds.buildPartialTree (isLeaf : base.leaves[index]? = some leaf) :
    ∃ sketch, Represents base value extra sized
      (tree.buildPartialTree leaf ((base.framesAt index).map stepOf)) sketch := by
  have place := HashTree.plug_framesAt isLeaf
  obtain ⟨adds, -⟩ := adds_buildPartialTree tree leaf ((base.framesAt index).map stepOf)
  rcases holds with ⟨rfl, rfl, rfl, rfl⟩ | ⟨sketch, represents⟩
  · obtain ⟨first, context, known, sameFrames, -⟩ := @buildPartialTree_first id (.leaf leaf) base
      injective distinct (newDeltaMerkleTree (treeRoot base)) _ place (fun _ _ known => known rfl)
      (fun _ _ => rfl)
    have whole : ((Sketch.stub first (.leaf leaf)).plug context).whole = base := by
      rw [Sketch.whole_plug, sameFrames]
      exact place
    exact ⟨_, known, whole ▸ compact, by rw [whole, List.append_nil], by simp,
      fun _ _ => rfl, adds.hasListener, adds.merkleRoot, adds.size, by simp, fun _ => rfl,
      by simp⟩
  · obtain ⟨grown, known, expands⟩ := represents.known.buildPartialTree injective distinct place
      (fun other _ unknown => represents.unchanged other fun isKnown => unknown isKnown.2)
    have whole := expands.whole
    refine ⟨grown, known, whole ▸ represents.compact, whole ▸ represents.leaves, represents.fresh,
      ?_, adds.hasListener.trans represents.silent, adds.merkleRoot.trans represents.merkleRoot,
      whole ▸ adds.size.trans represents.size, ?_, represents.unsized, ?_⟩
    · intro other notKnown
      refine represents.unchanged other fun isKnown => notKnown ⟨isKnown.1, ?_⟩
      obtain ⟨id, isId⟩ := Option.ne_none_iff_exists'.mp isKnown.2
      simp [Known, adds.nodeMap _ id isId]
    · intro isSized
      obtain ⟨lastId, lastLeaf, lastMap, isLast⟩ := represents.last isSized
      obtain ⟨key, isKey, keyMap⟩ := Option.bind_eq_some_iff.mp lastMap
      refine ⟨lastId, lastLeaf, ?_, expands.last isLast⟩
      rw [adds.lastNodeHash, isKey]
      exact adds.nodeMap key lastId keyMap
    · intro other inExtra
      obtain ⟨id, isId, inStubs⟩ := represents.indexed other inExtra
      exact ⟨id, adds.nodeMap other id isId, expands.leaf_mem_stubs inStubs⟩

/-- `UpdateLeaf` with a genuine path. -/
theorem Holds.updateLeaf (isLeaf : base.leaves[index]? = some leaf) (newHash : MerkleHash) :
    ∃ updated, tree.updateLeaf (genuinePath base index) newHash = .ok updated ∧
      updated.nodeMap = (tree.buildPartialTree leaf ((base.framesAt index).map stepOf)).nodeMap ∧
      Holds base (Function.update value leaf newHash) extra sized updated := by
  obtain ⟨sketch, represents⟩ := holds.buildPartialTree injective distinct compact isLeaf
  obtain ⟨-, leafKnown⟩ := adds_buildPartialTree tree leaf ((base.framesAt index).map stepOf)
  obtain ⟨id, isId⟩ := Option.ne_none_iff_exists'.mp leafKnown
  obtain ⟨updated, updates, nodeMap, newRepresents⟩ :=
    represents.updateNode distinct (List.mem_of_getElem? isLeaf) isId newHash
  refine ⟨updated, ?_, nodeMap, .inr ⟨sketch, newRepresents⟩⟩
  simp only [MerkleTree.updateLeaf, holds.merkleRoot, verify_genuinePath isLeaf,
    getLeaf_genuinePath isLeaf, steps_genuinePath, bind, Except.bind, isId]
  exact updates

end

include injective distinct compact in
/-- `SetSizeAndLastNodeMerklePath` with the genuine path of the last leaf. -/
theorem Holds.setSizeAndLastNodeMerklePath (holds : Holds base value extra false tree)
    (small : base.count < 2 ^ 63) :
    ∃ updated, tree.setSizeAndLastNodeMerklePath base.count (genuinePath base (base.count - 1)) =
        .ok updated ∧ Holds base value extra true updated := by
  have isLeaf := base.getElem?_lastLeaf
  have unknown : tree.size = unknownSize := by
    rcases holds with ⟨rfl, -⟩ | ⟨sketch, represents⟩
    · rfl
    · exact represents.size
  obtain ⟨sketch, represents⟩ := holds.buildPartialTree injective distinct compact isLeaf
  obtain ⟨-, leafKnown⟩ :=
    adds_buildPartialTree tree base.lastLeaf ((base.framesAt (base.count - 1)).map stepOf)
  obtain ⟨id, isId⟩ := Option.ne_none_iff_exists'.mp leafKnown
  have noExtra : extra = [] := represents.unsized rfl
  subst noExtra
  have whole : sketch.whole = base := represents.compact.eq_of_leaves_eq compact (by
    rw [represents.leaves, List.append_nil])
  have isLast : sketch.last = (id, .leaf base.lastLeaf) := by
    have inStubs := represents.known.covers.stubs (.leaf base.lastLeaf)
      (leaf_mem_subtrees (List.mem_of_getElem? isLeaf)) id isId (by simp)
    obtain ⟨frames, place⟩ := Sketch.exists_plug_of_mem_stubs inStubs
    have wholePlace := congrArg Sketch.whole place
    rw [whole, Sketch.whole_plug] at wholePlace
    have nothing := HashTree.after_eq_nil_of_lastLeaf distinct wholePlace.symm
    rw [place, Sketch.last_plug_of_left]
    · rfl
    · intro frame inFrames
      exact HashTree.onLeft_of_after_eq_nil nothing (List.mem_map_of_mem inFrames)
  have lengthEq : sketch.whole.leaves.length = base.count := by rw [whole]; rfl
  refine ⟨{ tree.buildPartialTree base.lastLeaf ((base.framesAt (base.count - 1)).map stepOf) with
    lastNodeHash := some base.lastLeaf, size := base.count }, ?_, .inr ⟨sketch,
    ⟨represents.known.stored, represents.known.nodup, represents.known.bound,
      represents.known.covers.congr (fun _ _ => rfl) (.refl _)⟩, represents.compact,
    represents.leaves, represents.fresh, represents.unchanged, represents.silent,
    represents.merkleRoot, ?_, fun _ => ⟨id, base.lastLeaf, isId, isLast⟩, by simp, represents.indexed⟩⟩
  · have noSize : (decide (tree.size = unknownSize)) = true := decide_eq_true unknown
    simp only [MerkleTree.setSizeAndLastNodeMerklePath, Go.require, noSize, if_true,
      holds.merkleRoot, verifyLastNodeMerklePath_genuinePath compact small,
      getLeaf_genuinePath isLeaf, steps_genuinePath, bind, Except.bind, pure, Except.pure]
  · simp [lengthEq]

variable {hashed : Set (MerkleHash × MerkleHash)} {atoms : Set MerkleHash}

/-- Where hashes do not collide, a hash determines a subtree. -/
theorem treeRoot_injective (separated : HashTree.Separated nodeHash hashed atoms)
    (within : HashTree.Within nodeHash hashed atoms base) :
    ∀ first ∈ base.subtrees, ∀ second ∈ base.subtrees,
      treeRoot first = treeRoot second → first = second :=
  fun _ firstIn _ secondIn same =>
    HashTree.eq_of_digest_eq separated (within.subtree firstIn) (within.subtree secondIn) same

/-- Neither a new leaf nor its joint node has the hash of a node of the base tree. -/
theorem treeRoot_ne_appended (separated : HashTree.Separated nodeHash hashed atoms)
    (within : HashTree.Within nodeHash hashed atoms base) {hash : MerkleHash}
    (isAtom : hash ∈ atoms) (fresh : hash ∉ base.leaves) {sub : Tree}
    (inBase : sub ∈ base.subtrees) :
    treeRoot sub ≠ hash ∧ ∀ left, (left, hash) ∈ hashed → nodeHash left hash ≠ treeRoot sub := by
  have notRoot : ∀ other ∈ base.subtrees, treeRoot other ≠ hash := by
    intro other otherIn isRoot
    cases other with
    | leaf value =>
      refine fresh (HashTree.leaves_subset_of_mem_subtrees otherIn ?_)
      exact List.mem_singleton.mpr isRoot.symm
    | node left right =>
      have inHashed := ((HashTree.within_node_iff left right).mp (within.subtree otherIn)).1
      rw [← isRoot] at isAtom
      exact separated.disjoint _ inHashed isAtom
  refine ⟨notRoot sub inBase, fun left jointIn isRoot => ?_⟩
  cases sub with
  | leaf value =>
    have valueAtom := (HashTree.within_leaf_iff value).mp (within.subtree inBase)
    refine separated.disjoint _ jointIn ?_
    rw [isRoot]
    exact valueAtom
  | node first second =>
    have inHashed := ((HashTree.within_node_iff first second).mp (within.subtree inBase)).1
    have samePair := Prod.mk.inj (separated.injective jointIn inHashed isRoot)
    exact notRoot second (subtrees_trans
      (HashTree.right_mem_subtrees first second) inBase) samePair.2.symm

/-- `Append` once the size is set. -/
theorem Holds.append (holds : Holds base value extra true tree)
    (separated : HashTree.Separated nodeHash hashed atoms)
    (withinBase : HashTree.Within nodeHash hashed atoms base) {hashes : List MerkleHash}
    (nonempty : hashes ≠ []) (fresh : ∀ hash ∈ hashes, hash ∉ base.leaves)
    (small : (base.leaves.map value ++ extra).length + hashes.length < 2 ^ 63)
    (within : ∀ part, part <+: hashes → ∀ grown : Tree, grown.Compact →
      grown.leaves = base.leaves.map value ++ extra ++ part →
      HashTree.Within nodeHash hashed atoms grown) :
    ∃ appended, tree.append hashes = .ok appended ∧
      Holds base value (extra ++ hashes) true appended := by
  obtain ⟨-, -, -, ⟨⟩⟩ | ⟨sketch, represents⟩ := holds
  obtain ⟨last, leaf, lastMap, isLast⟩ := represents.last rfl
  obtain ⟨frames, left, place⟩ := Sketch.exists_left_plug isLast
  have spined : Spined value tree sketch last :=
    ⟨represents.known.stored, represents.known.nodup, represents.known.bound, represents.compact,
      leaf, frames, left, place⟩
  have same : ∀ hash ∈ hashes, value hash = hash := fun hash inHashes =>
    represents.unchanged hash fun isKnown => fresh hash inHashes isKnown.1
  have lengthEq : sketch.whole.leaves.length = (base.leaves.map value ++ extra).length := by
    rw [represents.leaves, List.length_append, List.length_append, List.length_map]
  obtain ⟨appended, grown, newLast, appends, growth⟩ := append_growth separated.disjoint spined
    represents.size lastMap same (by rwa [lengthEq])
    (fun part isPrefix other compact leavesEq => within part isPrefix other compact (by
      rw [leavesEq, represents.leaves_map]))
  have grownLeaves : (grown.whole.map value).leaves = base.leaves.map value ++ extra ++ hashes := by
    rw [leaves_map, growth.leaves, List.map_append, ← leaves_map,
      represents.leaves_map, List.map_congr_left same, List.map_id']
  have isAtom : ∀ hash ∈ hashes, hash ∈ atoms := fun hash inHashes =>
    (within hashes (List.prefix_refl _) _ (growth.spined.compact.map value) grownLeaves).leaves hash
      (by rw [grownLeaves]; exact List.mem_append_right _ inHashes)
  have extraAtom : ∀ other ∈ extra, other ∈ atoms := fun other inExtra =>
    (within hashes (List.prefix_refl _) _ (growth.spined.compact.map value) grownLeaves).leaves
      other (by simp [grownLeaves, inExtra])
  have mapSame : ∀ sub ∈ base.subtrees,
      appended.nodeMap (treeRoot sub) = tree.nodeMap (treeRoot sub) := by
    intro sub inBase
    refine growth.nodeMap (treeRoot sub) ?_ ?_ (by simp [represents.silent])
    · exact fun inHashes => (treeRoot_ne_appended separated withinBase (isAtom _ inHashes)
        (fresh _ inHashes) inBase).1 rfl
    · exact fun joint hash inHashes => (treeRoot_ne_appended separated withinBase
        (isAtom _ inHashes) (fresh _ inHashes) inBase).2 joint
  have newLastLeaf := growth.known_lastLeaf nonempty
  have lastSame : value grown.whole.lastLeaf = grown.whole.lastLeaf := by
    obtain ⟨earlier, hash, rfl⟩ : ∃ earlier hash, hashes = earlier ++ [hash] :=
      ⟨_, _, (List.dropLast_append_getLast nonempty).symm⟩
    rw [HashTree.lastLeaf_eq_of_leaves (growth.leaves.trans (List.append_assoc _ _ _).symm)]
    exact same hash (by simp)
  refine ⟨_, appends, .inr ⟨grown, ⟨growth.spined.stored, growth.spined.nodup, growth.spined.bound,
    (represents.known.covers.congr mapSame growth.extended).congr (fun _ _ => rfl) (.refl _)⟩,
    growth.spined.compact, ?_, ?_, ?_, growth.hasListener.trans represents.silent,
    growth.merkleRoot.trans represents.merkleRoot, ?_, ?_, by simp, ?_⟩⟩
  · rw [growth.leaves, represents.leaves, List.append_assoc]
  · intro hash inExtra
    rcases List.mem_append.mp inExtra with old | new
    · exact represents.fresh hash old
    · exact fresh hash new
  · intro other notKnown
    refine represents.unchanged other fun isKnown => notKnown ⟨isKnown.1, ?_⟩
    show appended.nodeMap (treeRoot (.leaf other)) ≠ none
    rw [mapSame _ (leaf_mem_subtrees isKnown.1)]
    exact isKnown.2
  · simp [represents.size, growth.leaves]
  · intro _
    obtain ⟨newLeaf, newFrames, newLeft, newPlace⟩ := growth.spined.spine
    refine ⟨newLast, newLeaf, ?_, ?_⟩
    · simp only [Option.bind_some]
      rw [growth.spined.hash_last, lastSame]
      exact newLastLeaf
    · rw [newPlace, Sketch.last_plug_of_left newLeft]
      rfl
  · intro other inAll
    by_cases new : other ∈ hashes
    · exact (growth.indexed other new).2
    · have inExtra := (List.mem_append.mp inAll).resolve_right new
      obtain ⟨id, isId, inStubs⟩ := represents.indexed other inExtra
      refine ⟨id, ?_, growth.extended.stubs inStubs⟩
      refine (growth.nodeMap other new ?_ (by simp [represents.silent])).trans isId
      intro joint hash _ inHashed isJoint
      exact separated.disjoint _ inHashed (isJoint ▸ extraAtom other inExtra)

end Changes

end MerkleTree

/-! ### Sequences of changes -/

/-- The pairs hashed for the full trees over given lists. -/
def hashedPairs (lists : List (List MerkleHash)) : List (MerkleHash × MerkleHash) :=
  lists.flatMap fun leaves => (fullTree leaves).elim [] (HashTree.pairs nodeHash)

/-- No two pairs hashed for the full trees over given lists collide, and no leaf has
the hash of a pair. -/
def NoCollision (lists : List (List MerkleHash)) : Prop :=
  (∀ first ∈ hashedPairs lists, ∀ second ∈ hashedPairs lists,
    nodeHash first.1 first.2 = nodeHash second.1 second.2 → first = second) ∧
  ∀ pair ∈ hashedPairs lists, nodeHash pair.1 pair.2 ∉ lists.flatten

instance (lists : List (List MerkleHash)) : Decidable (NoCollision lists) :=
  inferInstanceAs (Decidable (_ ∧ _))

theorem NoCollision.mono {lists others : List (List MerkleHash)} (collisionFree : NoCollision lists)
    (subset : others ⊆ lists) : NoCollision others := by
  have pairs : hashedPairs others ⊆ hashedPairs lists := by
    intro pair inPairs
    obtain ⟨leaves, inOthers, inTree⟩ := List.mem_flatMap.mp inPairs
    exact List.mem_flatMap.mpr ⟨leaves, subset inOthers, inTree⟩
  refine ⟨fun first inFirst second inSecond =>
    collisionFree.1 first (pairs inFirst) second (pairs inSecond), fun pair inPairs inOthers => ?_⟩
  obtain ⟨leaves, inLists, inLeaves⟩ := List.mem_flatten.mp inOthers
  exact collisionFree.2 pair (pairs inPairs)
    (List.mem_flatten.mpr ⟨leaves, subset inLists, inLeaves⟩)

variable {lists : List (List MerkleHash)}

theorem NoCollision.separated (collisionFree : NoCollision lists) :
    HashTree.Separated nodeHash { pair | pair ∈ hashedPairs lists }
      { leaf | leaf ∈ lists.flatten } :=
  ⟨fun first inFirst second inSecond => collisionFree.1 first inFirst second inSecond,
    collisionFree.2⟩

theorem within_of_mem {tree : Tree} (compact : tree.Compact) (inLists : tree.leaves ∈ lists) :
    HashTree.Within nodeHash { pair | pair ∈ hashedPairs lists }
      { leaf | leaf ∈ lists.flatten } tree := by
  refine ⟨fun pair inTree => List.mem_flatMap.mpr ⟨_, inLists, ?_⟩,
    fun leaf inLeaves => List.mem_flatten.mpr ⟨_, inLists, inLeaves⟩⟩
  rw [fullTree_leaves compact]
  exact inTree

theorem map_update_of_nodup {base : List MerkleHash} (distinct : base.Nodup) {index : Nat}
    {leaf : MerkleHash} (isLeaf : base[index]? = some leaf) (value : MerkleHash → MerkleHash)
    (newHash : MerkleHash) :
    base.map (Function.update value leaf newHash) = (base.map value).set index newHash := by
  obtain ⟨bound, atIndex⟩ := List.getElem?_eq_some_iff.mp isLeaf
  refine List.ext_getElem (by simp) fun other inFirst inSecond => ?_
  rw [List.getElem_map, List.getElem_set]
  have otherBound : other < base.length := by simpa using inFirst
  by_cases same : index = other
  · subst same
    rw [if_pos rfl, atIndex, Function.update_self]
  · rw [if_neg same, List.getElem_map, Function.update_of_ne]
    exact fun equal => same ((distinct.getElem_inj_iff).mp (equal.trans atIndex.symm)).symm

section Runs

variable {base : Tree} {lists : List (List MerkleHash)}
  (distinct : base.leaves.Nodup)
  (compact : base.Compact)
  (small : ∀ leaves ∈ lists, leaves.length < 2 ^ 63)
  (collisionFree : NoCollision lists)
  (baseIn : base.leaves ∈ lists)

variable {value : MerkleHash → MerkleHash} {extra : List MerkleHash} {sized : Bool}
  {tree : DeltaMerkleTree}

include distinct compact small collisionFree baseIn in
/-- One change of the delta tree is the change of its list of leaves. -/
theorem call_simulates (holds : MerkleTree.Holds base value extra sized tree) {change : Change}
    (valid : change.Valid base.leaves) (fresh : ∀ leaf ∈ change.appended, leaf ∉ base.leaves)
    (visits : change.visits (sized, base.leaves.map value ++ extra) ⊆ lists) :
    ∃ newValue newExtra newTree, change.call base tree = .ok newTree ∧
      (change.apply (sized, base.leaves.map value ++ extra)).2 =
        base.leaves.map newValue ++ newExtra ∧
      MerkleTree.Holds base newValue newExtra
        (change.apply (sized, base.leaves.map value ++ extra)).1 newTree := by
  have injective := MerkleTree.treeRoot_injective collisionFree.separated
    (within_of_mem compact baseIn)
  cases change with
  | updateLeaf index newHash =>
    have bound : index < base.leaves.length := valid
    have isLeaf := List.getElem?_eq_getElem bound
    obtain ⟨updated, updates, -, newHolds⟩ :=
      holds.updateLeaf injective distinct compact isLeaf newHash
    refine ⟨_, extra, updated, ?_, ?_, newHolds⟩
    · simp only [Change.call, Change.perform, updates]
    · rw [map_update_of_nodup distinct isLeaf]
      exact List.set_append_left _ _ (by simpa using bound)
  | setSizeAndLastNodeMerklePath =>
    cases sized with
    | false =>
      obtain ⟨updated, updates, newHolds⟩ :=
        holds.setSizeAndLastNodeMerklePath injective distinct compact (small _ baseIn)
      exact ⟨value, extra, updated, by simp only [Change.call, Change.perform, updates], rfl,
        newHolds⟩
    | true =>
      have notUnknown : tree.size ≠ unknownSize := by simp [holds.size]
      refine ⟨value, extra, tree, ?_, rfl, holds⟩
      simp [Change.call, Change.perform, MerkleTree.setSizeAndLastNodeMerklePath, notUnknown,
        Go.require, Go.fail, bind, Except.bind]
  | append leaves =>
    cases sized with
    | false =>
      have isUnknown : tree.size = unknownSize := holds.size.mpr rfl
      refine ⟨value, extra, tree, ?_, rfl, holds⟩
      simp [Change.call, Change.perform, MerkleTree.append, isUnknown, Go.require, Go.fail,
        bind, Except.bind]
    | true =>
      have inLists : ∀ part, part <+: leaves → base.leaves.map value ++ extra ++ part ∈ lists :=
        fun part isPrefix => visits (List.mem_map.mpr
          ⟨part, (List.mem_inits part leaves).mpr isPrefix, rfl⟩)
      obtain ⟨appended, appends, newHolds⟩ := holds.append collisionFree.separated
        (within_of_mem compact baseIn) valid fresh
        (by
          rw [← List.length_append]
          exact small _ (inLists leaves (List.prefix_refl _)))
        (fun part isPrefix grown grownCompact leavesEq =>
          within_of_mem grownCompact (leavesEq ▸ inLists part isPrefix))
      refine ⟨value, extra ++ leaves, appended, ?_, ?_, newHolds⟩
      · simp only [Change.call, Change.perform, appends]
      · rw [Change.apply, List.append_assoc]

include distinct compact small collisionFree baseIn in
theorem performAll_simulates (holds : MerkleTree.Holds base value extra sized tree)
    {changes : List Change} (valid : ∀ change ∈ changes, change.Valid base.leaves)
    (fresh : ∀ change ∈ changes, ∀ leaf ∈ change.appended, leaf ∉ base.leaves)
    (visits : visited (sized, base.leaves.map value ++ extra) changes ⊆ lists) :
    ∃ newValue newExtra newSized newTree, performAll base tree changes = .ok newTree ∧
      changes.foldl Change.apply (sized, base.leaves.map value ++ extra) =
        (newSized, base.leaves.map newValue ++ newExtra) ∧
      MerkleTree.Holds base newValue newExtra newSized newTree := by
  induction changes generalizing value extra sized tree with
  | nil => exact ⟨value, extra, sized, tree, rfl, rfl, holds⟩
  | cons change changes ih =>
    obtain ⟨visitsFirst, visitsRest⟩ := List.append_subset.mp visits
    obtain ⟨newValue, newExtra, newTree, calls, leavesEq, newHolds⟩ :=
      call_simulates distinct compact small collisionFree baseIn holds
        (valid _ List.mem_cons_self) (fresh _ List.mem_cons_self) visitsFirst
    obtain ⟨newSized, applied⟩ : ∃ newSized,
        change.apply (sized, base.leaves.map value ++ extra) =
          (newSized, base.leaves.map newValue ++ newExtra) := ⟨_, Prod.ext rfl leavesEq⟩
    rw [applied] at newHolds visitsRest
    rw [performAll, List.foldlM_cons, calls, List.foldl_cons, applied]
    exact ih newHolds (fun _ inRest => valid _ (List.mem_cons_of_mem _ inRest))
      (fun _ inRest => fresh _ (List.mem_cons_of_mem _ inRest)) visitsRest

end Runs

section Changes

variable {leaves : List MerkleHash} {base : Tree} (built : fullTree leaves = some base)
  (distinct : leaves.Nodup) {changes : List Change}
  (valid : ∀ change ∈ changes, change.Valid leaves)
  (small : ∀ list ∈ visited (false, leaves) changes, list.length < 2 ^ 63)
  (collisionFree : NoCollision (visited (false, leaves) changes))
  (fresh : ∀ change ∈ changes, ∀ leaf ∈ change.appended, leaf ∉ leaves)

include built distinct valid small collisionFree fresh

/-- After changes of a new delta tree, the tree stands for the changed list. -/
theorem performAll_new :
    ∃ value extra sized tree,
      performAll base (newDeltaMerkleTree (fullRoot leaves)) changes = .ok tree ∧
      changes.foldl Change.apply (false, leaves) = (sized, leaves.map value ++ extra) ∧
      MerkleTree.Holds base value extra sized tree := by
  have compact := compact_fullTree built
  obtain rfl : base.leaves = leaves := leaves_of_fullTree built
  have start : MerkleTree.Holds base id [] false (newDeltaMerkleTree (fullRoot base.leaves)) :=
    .inl ⟨by rw [fullRoot_leaves compact], rfl, rfl, rfl⟩
  have same : base.leaves.map id ++ [] = base.leaves := by simp
  have result := performAll_simulates distinct compact small collisionFree
    (mem_visited_self (false, base.leaves) changes) start valid fresh
    (by rw [same]; exact List.Subset.refl _)
  rwa [same] at result

/-- After any changes, the root of the delta tree is the root of the full tree over
the changed list, as long as no leaf of the base list is appended again. -/
theorem getMerkleRoot_performAll :
    ∃ tree, performAll base (newDeltaMerkleTree (fullRoot leaves)) changes = .ok tree ∧
      tree.getMerkleRoot = .ok (fullRoot (changes.foldl Change.apply (false, leaves)).2) := by
  obtain ⟨value, extra, sized, tree, performs, applied, holds⟩ :=
    performAll_new built distinct valid small collisionFree fresh
  refine ⟨tree, performs, ?_⟩
  rw [applied, ← leaves_of_fullTree built]
  exact holds.getMerkleRoot (compact_fullTree built)

end Changes

/-- The full tree over two leaves. -/
def sampleBase : Tree := .node (.leaf (sha256 [1])) (.leaf (sha256 [2]))

/-- A leaf is updated, and a leaf is appended. -/
def sampleChanges (appended : MerkleHash) : List Change :=
  [.updateLeaf 0 (sha256 [5]), .setSizeAndLastNodeMerklePath, .append [appended]]

/-- An update and an append. -/
theorem getMerkleRoot_performAll_sample :
    fullTree sampleBase.leaves = some sampleBase ∧
      ∃ tree, performAll sampleBase (newDeltaMerkleTree (fullRoot sampleBase.leaves))
          (sampleChanges (sha256 [3])) = .ok tree ∧
        tree.getMerkleRoot = .ok (fullRoot [sha256 [5], sha256 [2], sha256 [3]]) := by
  have built : fullTree sampleBase.leaves = some sampleBase := by decide +kernel
  refine ⟨built, ?_⟩
  have result := @getMerkleRoot_performAll _ _ built (by decide +kernel)
    (sampleChanges (sha256 [3])) (by decide +kernel) (by decide +kernel) (by decide +kernel)
    (by decide +kernel)
  exact result

/-- A base leaf that is appended again takes the place of the base leaf in the map of
nodes, and the next update goes to it. -/
theorem getMerkleRoot_performAll_appendedAgain :
    ((performAll sampleBase (newDeltaMerkleTree (fullRoot sampleBase.leaves))
        [.setSizeAndLastNodeMerklePath, .append [sha256 [1]], .updateLeaf 0 (sha256 [5])]).bind
          MerkleTree.getMerkleRoot = .ok (fullRoot [sha256 [1], sha256 [2], sha256 [5]])) ∧
      ([.setSizeAndLastNodeMerklePath, .append [sha256 [1]],
          .updateLeaf 0 (sha256 [5])].foldl Change.apply (false, sampleBase.leaves)).2 =
        [sha256 [5], sha256 [2], sha256 [1]] ∧
      fullRoot [sha256 [5], sha256 [2], sha256 [1]] ≠
        fullRoot [sha256 [1], sha256 [2], sha256 [5]] := by
  refine ⟨by decide +kernel, by decide +kernel, by decide +kernel⟩

end MultiVac.Merkle
