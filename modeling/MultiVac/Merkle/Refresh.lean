import MultiVac.Merkle.Refinement

/-!
# Refreshed Merkle paths

`RefreshMerklePath` takes the old path up to the first node that the delta tree
holds, and goes on with the nodes above it.
-/

namespace MultiVac.Merkle

open Lib
open Lib.HashTree (plug_append)
open Wire (MerklePath)

/-- The path of a leaf with the given steps. -/
def pathOf (leaf : MerkleHash) (steps : List (MerkleHash × UInt8)) : MerklePath where
  hashes := .of (leaf :: steps.map Prod.fst)
  proofPath := .of (steps.map Prod.snd)

theorem verify_pathOf (leaf : MerkleHash) (steps : List (MerkleHash × UInt8)) (root : MerkleHash) :
    verify (pathOf leaf steps) root = .ok () ↔ climb leaf steps = root := by
  have zipped : (steps.map Prod.fst).zip (steps.map Prod.snd) = steps := by
    rw [List.zip_map']
    exact List.map_id' steps
  simp only [verify_eq_ok_iff, pathOf, Slice.elems_of, List.cons.injEq]
  constructor
  · rintro ⟨_, _, ⟨rfl, rfl⟩, -, climbs⟩
    rwa [zipped] at climbs
  · intro climbs
    exact ⟨leaf, _, ⟨rfl, rfl⟩, by simp, by rwa [zipped]⟩

namespace MerkleTree

variable {tree : DeltaMerkleTree}

/-- The loop stops at the first known node. -/
theorem climbToKnown_plug {sub : Tree} {lower upper : List (HashTree.Frame MerkleHash)}
    {frame : HashTree.Frame MerkleHash} {id : NodeId}
    (unknown : ∀ other ∈ (sub.plug lower).subtrees, ¬ tree.Known other)
    (isId : tree.nodeMap (treeRoot ((sub.plug lower).up frame)) = some id) :
    tree.climbToKnown (treeRoot sub) ((lower ++ frame :: upper).map stepOf) =
      ((lower ++ [frame]).map stepOf, some id) := by
  induction lower generalizing sub with
  | nil =>
    rw [List.nil_append, List.map_cons, stepOf, climbToKnown, hashPair_stepOf,
      show tree.nodeMap (treeRoot (sub.up frame)) = some id from isId]
    rfl
  | cons next lower ih =>
    have nextUnknown : tree.nodeMap (treeRoot (sub.up next)) = none := not_ne_iff.mp
      (unknown _ (HashTree.subtrees_subset_plug _ lower (HashTree.self_mem_subtrees _)))
    rw [List.cons_append, List.map_cons, stepOf, climbToKnown, hashPair_stepOf, nextUnknown]
    simp only [ih unknown isId]
    rfl

/-- In a tree without nodes the loop goes up to the root. -/
theorem climbToKnown_empty (empty : ∀ hash, tree.nodeMap hash = none) (hash : MerkleHash)
    (steps : List (MerkleHash × UInt8)) : tree.climbToKnown hash steps = (steps, none) := by
  induction steps generalizing hash with
  | nil => rfl
  | cons step steps ih =>
    simp only [climbToKnown, empty, ih]

section Refresh

variable {base : Tree} {value : MerkleHash → MerkleHash} {extra : List MerkleHash} {sized : Bool}
  {tree : DeltaMerkleTree} {sketch : Sketch} {index : Nat} {leaf : MerkleHash}

/-- The path of an old leaf meets the known part of the tree in a stub, and no leaf
below has been updated unless the stub is the leaf itself. -/
theorem Represents.exists_stub (represents : Represents base value extra sized tree sketch)
    (isLeaf : base.leaves[index]? = some leaf) :
    ∃ lower id context, sketch = (Sketch.stub id ((HashTree.leaf leaf).plug lower)).plug context ∧
      (∀ frame ∈ lower, ∀ other ∈ frame.sibling.leaves, value other = other) ∧
      tree.stepsToKnown leaf (steps (genuinePath base index)) = (lower.map stepOf, some id) := by
  have place := HashTree.plug_framesAt isLeaf
  have inBase : leaf ∈ base.leaves := List.mem_of_getElem? isLeaf
  by_cases known : tree.Known (.leaf leaf)
  · obtain ⟨id, isId⟩ := Option.ne_none_iff_exists'.mp known
    obtain ⟨context, rfl⟩ := Sketch.exists_plug_of_mem_stubs (represents.known.covers.stubs
      (.leaf leaf) (HashTree.leaf_mem_subtrees inBase) id isId (by simp))
    exact ⟨[], id, context, rfl, by simp,
      by rw [stepsToKnown, show tree.nodeMap leaf = some id from isId]; rfl⟩
  · obtain ⟨lower, frame, upper, id, framesEq, unknown, unknownLeaves, isId, inStubs⟩ :=
      represents.known.covers.exists_stub_above place known
    obtain ⟨context, rfl⟩ := Sketch.exists_plug_of_mem_stubs inStubs
    refine ⟨lower ++ [frame], id, context, by rw [plug_append]; rfl, ?_, ?_⟩
    · intro other inLower below inSibling
      refine represents.unchanged below fun isKnown => unknownLeaves below ?_ isKnown.2
      have top : ((HashTree.leaf leaf).plug lower).up frame =
          (HashTree.leaf leaf).plug (lower ++ [frame]) := by
        rw [plug_append]
        rfl
      rw [top, HashTree.leaves_plug, List.append_assoc, List.mem_append, List.mem_append]
      exact (HashTree.mem_leaves_sibling inLower inSibling).imp_right .inr
    · rw [stepsToKnown, show tree.nodeMap leaf = none from not_ne_iff.mp known, steps_genuinePath,
        framesEq]
      exact climbToKnown_plug unknown isId

/-- The refreshed path leads to the root of the tree in which the leaf has its old
value. -/
theorem Represents.refreshMerklePath (represents : Represents base value extra sized tree sketch)
    (distinct : base.leaves.Nodup) (isLeaf : base.leaves[index]? = some leaf) :
    ∃ steps, tree.refreshMerklePath (genuinePath base index) = .ok (pathOf leaf steps) ∧
      climb leaf steps = treeRoot (sketch.whole.map (Function.update value leaf leaf)) := by
  have inBase : leaf ∈ base.leaves := List.mem_of_getElem? isLeaf
  obtain ⟨lower, id, context, place, sameBelow, found⟩ := represents.exists_stub isLeaf
  have whole : sketch.whole =
      (HashTree.leaf leaf).plug (lower ++ context.map Sketch.Frame.whole) := by
    rw [place, Sketch.whole_plug, plug_append]
    rfl
  have single := represents.single distinct inBase whole
  -- The steps above the stub are those of the tree with the new values.
  have proof : tree.createMerkleProof (tree.nextNode + 1) id (tree.node id).parent =
      .ok (context.map (proofStep value)) := by
    have stored := represents.known.stored
    have nodup := represents.known.nodup
    have bound := represents.known.bound
    rw [place] at stored nodup bound
    exact createMerkleProof_stored stored nodup bound
  refine ⟨lower.map stepOf ++ context.map (proofStep value), ?_, ?_⟩
  · simp only [MerkleTree.refreshMerklePath, represents.merkleRoot, verify_genuinePath isLeaf,
      getLeaf_genuinePath isLeaf, found, proof, bind, Except.bind]
    rfl
  · have lowerSteps : lower.map (HashTree.Frame.map (Function.update value leaf leaf)) =
        lower := by
      refine (List.map_congr_left fun frame inLower => ?_).trans (List.map_id lower)
      refine congrArg (HashTree.Frame.mk frame.onLeft) (HashTree.map_eq_self ?_)
      intro other inSibling
      by_cases same : other = leaf
      · rw [same, Function.update_self]
      · rw [Function.update_of_ne same, sameBelow frame inLower other inSibling]
    have upperSteps : context.map (proofStep value) = ((context.map Sketch.Frame.whole).map
        (HashTree.Frame.map (Function.update value leaf leaf))).map stepOf := by
      rw [List.map_map, List.map_map]
      refine List.map_congr_left fun frame inContext => ?_
      have apart : leaf ∉ frame.sibling.whole.leaves := single frame.whole
        (List.mem_append_right _ (List.mem_map_of_mem inContext))
      have sameSibling : frame.sibling.whole.map (Function.update value leaf leaf) =
          frame.sibling.whole.map value := HashTree.map_congr fun other inSibling =>
        Function.update_of_ne (ne_of_mem_of_not_mem inSibling apart) _ _
      simp only [proofStep, Function.comp_apply, stepOf, HashTree.Frame.map,
        Sketch.Frame.whole, sameSibling, sideOf]
    rw [whole, HashTree.map_plug, List.map_append, lowerSteps, upperSteps,
      ← List.map_append, show HashTree.map (Function.update value leaf leaf) (.leaf leaf) =
        .leaf leaf by rw [HashTree.map, Function.update_self]]
    exact climb_stepOf (.leaf leaf) _

/-- Without nodes the refreshed path is the old one. -/
theorem refreshMerklePath_empty (empty : ∀ hash, tree.nodeMap hash = none)
    (isRoot : tree.merkleRoot = treeRoot base) (isLeaf : base.leaves[index]? = some leaf) :
    tree.refreshMerklePath (genuinePath base index) =
      .ok (pathOf leaf ((base.framesAt index).map stepOf)) := by
  have found : tree.stepsToKnown leaf ((base.framesAt index).map stepOf) =
      ((base.framesAt index).map stepOf, none) := by
    rw [stepsToKnown, empty]
    exact climbToKnown_empty empty leaf _
  simp only [MerkleTree.refreshMerklePath, isRoot, verify_genuinePath isLeaf,
    getLeaf_genuinePath isLeaf, steps_genuinePath, found, bind, Except.bind, pure, Except.pure,
    List.append_nil]
  rfl

/-- A refreshed path verifies exactly when the leaf has its old value. -/
theorem Holds.refreshMerklePath (holds : Holds base value extra sized tree)
    (distinct : base.leaves.Nodup) (compact : base.Compact)
    (isLeaf : base.leaves[index]? = some leaf) {lists : List (List MerkleHash)}
    (collisionFree : NoCollision lists) (changedIn : base.leaves.map value ++ extra ∈ lists)
    (restoredIn : (base.leaves.map value).set index leaf ++ extra ∈ lists) :
    ∃ path, tree.refreshMerklePath (genuinePath base index) = .ok path ∧ getLeaf path = .ok leaf ∧
      (verify path (fullRoot (base.leaves.map value ++ extra)) = .ok () ↔ value leaf = leaf) := by
  rcases holds with ⟨rfl, rfl, rfl, -⟩ | ⟨sketch, represents⟩
  · have root : fullRoot (base.leaves.map id ++ []) = treeRoot base := by
      rw [List.map_id, List.append_nil, fullRoot_leaves compact]
    have climbs := climb_stepOf (.leaf leaf) (base.framesAt index)
    rw [HashTree.plug_framesAt isLeaf] at climbs
    refine ⟨_, refreshMerklePath_empty (fun _ => rfl) rfl isLeaf, rfl, ?_⟩
    · rw [root, verify_pathOf]
      exact ⟨fun _ => rfl, fun _ => climbs⟩
  · obtain ⟨steps, refreshes, climbs⟩ := represents.refreshMerklePath distinct isLeaf
    refine ⟨pathOf leaf steps, refreshes, rfl, ?_⟩
    have inBase : leaf ∈ base.leaves := List.mem_of_getElem? isLeaf
    rw [← represents.leaves_map, fullRoot_leaves (represents.compact.map value), verify_pathOf,
      climbs]
    have restored : (sketch.whole.map (Function.update value leaf leaf)).leaves =
        (base.leaves.map value).set index leaf ++ extra := by
      rw [HashTree.leaves_map, represents.leaves, List.map_append,
        map_update_of_nodup distinct isLeaf]
      refine congrArg _ ((List.map_congr_left fun other inExtra => ?_).trans (List.map_id extra))
      have notBase := represents.fresh other inExtra
      rw [Function.update_of_ne (ne_of_mem_of_not_mem inBase notBase).symm]
      exact represents.unchanged other fun isKnown => notBase isKnown.1
    constructor
    · intro sameRoot
      have sameTree := HashTree.eq_of_digest_eq collisionFree.separated
        (within_of_mem (represents.compact.map _) (restored ▸ restoredIn))
        (within_of_mem (represents.compact.map value) (represents.leaves_map ▸ changedIn)) sameRoot
      have sameLeaves := congrArg HashTree.leaves sameTree
      rw [restored, represents.leaves_map] at sameLeaves
      have sameAt := congrArg (·[index]?) (List.append_cancel_right sameLeaves)
      obtain ⟨bound, atIndex⟩ := List.getElem?_eq_some_iff.mp isLeaf
      simpa [List.getElem?_set, atIndex, bound, eq_comm] using sameAt
    · intro unchanged
      rw [Function.update_eq_self_iff.mpr unchanged.symm]

end Refresh

end MerkleTree

/-- Changes that do not update a leaf leave it in the list. -/
theorem getElem?_foldl_apply {index : Nat} {leaf : MerkleHash} {changes : List Change}
    (notUpdated : ∀ newHash, .updateLeaf index newHash ∉ changes) {state : Bool × List MerkleHash}
    (isLeaf : state.2[index]? = some leaf) :
    (changes.foldl Change.apply state).2[index]? = some leaf := by
  induction changes generalizing state with
  | nil => exact isLeaf
  | cons change changes ih =>
    refine ih (fun newHash inRest =>
      notUpdated newHash (List.mem_cons_of_mem _ inRest)) ?_
    obtain ⟨sized, leaves⟩ := state
    cases change with
    | updateLeaf other newHash =>
      have different : other ≠ index := by
        rintro rfl
        exact notUpdated newHash List.mem_cons_self
      rw [← isLeaf]
      exact List.getElem?_set_ne different
    | setSizeAndLastNodeMerklePath => exact isLeaf
    | append extra =>
      cases sized with
      | false => exact isLeaf
      | true =>
        have bound := (List.getElem?_eq_some_iff.mp isLeaf).1
        rw [← isLeaf]
        exact List.getElem?_append_left bound

/-- After any changes, the refreshed path of a leaf of the base list starts with this
leaf, and it verifies against the new root exactly when the leaf still has its old
value; a leaf that was not updated has. -/
theorem refreshMerklePath_performAll {leaves : List MerkleHash} {base : Tree}
    (built : fullTree leaves = some base) (distinct : leaves.Nodup) {changes : List Change}
    (valid : ∀ change ∈ changes, change.Valid leaves)
    (small : ∀ list ∈ visited (false, leaves) changes, list.length < 2 ^ 63)
    (fresh : ∀ change ∈ changes, ∀ leaf ∈ change.appended, leaf ∉ leaves) {index : Nat}
    {leaf : MerkleHash} (isLeaf : leaves[index]? = some leaf)
    (collisionFree : NoCollision ((changes.foldl Change.apply (false, leaves)).2.set index leaf ::
      visited (false, leaves) changes)) :
    ∃ tree root path, performAll base (newDeltaMerkleTree (fullRoot leaves)) changes = .ok tree ∧
      tree.getMerkleRoot = .ok root ∧
      tree.refreshMerklePath (genuinePath base index) = .ok path ∧
      getLeaf path = .ok leaf ∧
      ((∀ newHash, .updateLeaf index newHash ∉ changes) → verify path root = .ok ()) ∧
      ((changes.foldl Change.apply (false, leaves)).2[index]? ≠ some leaf →
        verify path root ≠ .ok ()) := by
  have compact := compact_fullTree built
  obtain rfl : base.leaves = leaves := leaves_of_fullTree built
  obtain ⟨value, extra, sized, tree, performs, applied, holds⟩ := performAll_new built distinct
    valid small (collisionFree.mono (List.subset_cons_self _ _)) fresh
  obtain ⟨bound, atIndex⟩ := List.getElem?_eq_some_iff.mp isLeaf
  have final : (changes.foldl Change.apply (false, base.leaves)).2[index]? = some (value leaf) := by
    rw [applied, List.getElem?_append_left (by simpa using bound)]
    simp [isLeaf]
  have changedIn : (changes.foldl Change.apply (false, base.leaves)).2 ∈
      visited (false, base.leaves) changes := mem_visited_foldl _ _
  obtain ⟨path, refreshes, startsWith, verifies⟩ := holds.refreshMerklePath distinct compact isLeaf
    collisionFree (List.mem_cons_of_mem _ (by rwa [applied] at changedIn))
    (List.mem_cons.mpr (.inl (by
      rw [applied]
      exact (List.set_append_left _ _ (by simpa using bound)).symm)))
  refine ⟨tree, _, path, performs, holds.getMerkleRoot compact, refreshes, startsWith, ?_, ?_⟩
  · intro notUpdated
    refine verifies.mpr ?_
    have same := @getElem?_foldl_apply _ _ _ notUpdated (false, base.leaves) isLeaf
    rw [final] at same
    exact Option.some.inj same
  · intro updated verified
    exact updated (by rw [final, verifies.mp verified])

/-- The path of an unchanged leaf. -/
theorem refreshMerklePath_performAll_sample :
    fullTree sampleBase.leaves = some sampleBase ∧ ∃ tree root path,
        performAll sampleBase (newDeltaMerkleTree (fullRoot sampleBase.leaves))
          (sampleChanges (sha256 [3])) = .ok tree ∧
        tree.getMerkleRoot = .ok root ∧
        tree.refreshMerklePath (genuinePath sampleBase 1) = .ok path ∧
        getLeaf path = .ok (sha256 [2]) ∧ verify path root = .ok () := by
  have built : fullTree sampleBase.leaves = some sampleBase := by decide +kernel
  obtain ⟨tree, root, path, performs, isRoot, refreshes, startsWith, verifies, -⟩ :=
    @refreshMerklePath_performAll _ _ built (by decide +kernel) (sampleChanges (sha256 [3]))
      (by decide +kernel) (by decide +kernel) (by decide +kernel) 1 (sha256 [2])
      (by decide +kernel) (by decide +kernel)
  exact ⟨built, tree, root, path, performs, isRoot, refreshes, startsWith,
    verifies (by simp [sampleChanges])⟩

/-- The refreshed path of an updated leaf verifies when this leaf has been appended
again: the map of nodes leads to the new place of the leaf. -/
theorem refreshMerklePath_performAll_appendedAgain :
    (do
      let tree ← performAll sampleBase (newDeltaMerkleTree (fullRoot sampleBase.leaves))
        (sampleChanges (sha256 [1]))
      let root ← tree.getMerkleRoot
      let path ← tree.refreshMerklePath (genuinePath sampleBase 0)
      verify path root
      getLeaf path) = .ok (sha256 [1]) ∧
    .updateLeaf 0 (sha256 [5]) ∈ sampleChanges (sha256 [1]) ∧
    ((sampleChanges (sha256 [1])).foldl Change.apply (false, sampleBase.leaves)).2[0]? ≠
      some (sha256 [1]) := by
  refine ⟨by decide +kernel, List.mem_cons_self, by decide +kernel⟩

end MultiVac.Merkle
