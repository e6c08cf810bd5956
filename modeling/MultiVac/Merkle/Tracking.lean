import MultiVac.Merkle.Refresh

/-!
# Delta trees over any tree

A ledger tree has the trees of its mounted outs below the leaves that were appended,
so its shape is not the one of a full tree. A path that verifies against the root
belongs to some subtree, as long as hashes do not collide, and the update of a leaf
changes the value of this leaf only.
-/

namespace MultiVac.Merkle

open Lib
open Wire (MerklePath)
open Lib.HashTree (Frame Separated Within ascend climbed)

/-- A step of a path, for a climb in a hash tree. -/
def toAscent (step : MerkleHash × UInt8) : Bool × MerkleHash := (step.2 = leftSide, step.1)

/-- A step of a path with one of the two sides that the source writes. -/
def normalStep (step : MerkleHash × UInt8) : MerkleHash × UInt8 :=
  (step.1, sideOf (step.2 = leftSide))

/-- The pairs of hashes that are hashed when a path is verified. -/
def climbedPairs (path : MerklePath) : List (MerkleHash × MerkleHash) :=
  match path.hashes.elems with
  | [] => []
  | leaf :: _ => climbed nodeHash leaf ((steps path).map toAscent)

theorem climb_eq_foldl (leaf : MerkleHash) (steps : List (MerkleHash × UInt8)) :
    climb leaf steps = (steps.map toAscent).foldl (ascend nodeHash) leaf := by
  rw [climb, List.foldl_map]
  congr 1
  funext current step
  by_cases onLeft : step.2 = leftSide <;> simp [hashPair, ascend, toAscent, onLeft]

theorem sideOf_eq_leftSide_iff (onLeft : Bool) : sideOf onLeft = leftSide ↔ onLeft = true := by
  cases onLeft <;> decide

theorem normalStep_of_toAscent {step : MerkleHash × UInt8} {frame : Frame MerkleHash}
    (same : toAscent step = frame.step nodeHash) : normalStep step = stepOf frame := by
  obtain ⟨onLeft, sibling⟩ := Prod.mk.inj same
  exact Prod.ext sibling (congrArg sideOf onLeft)

namespace MerkleTree

theorem buildAbove_normalStep (tree : DeltaMerkleTree) (hash : MerkleHash) (current : NodeId)
    (steps : List (MerkleHash × UInt8)) :
    tree.buildAbove hash current (steps.map normalStep) = tree.buildAbove hash current steps := by
  induction steps generalizing tree hash current with
  | nil => rfl
  | cons step steps ih =>
    have sameHash : ∀ sibling, hashPair hash sibling (sideOf (step.2 = leftSide)) =
        hashPair hash sibling step.2 := by
      intro sibling
      simp [hashPair, sideOf_eq_leftSide_iff]
    have sameLink : ∀ (tree : DeltaMerkleTree) parent current sibling,
        tree.link parent current sibling (sideOf (step.2 = leftSide)) =
          tree.link parent current sibling step.2 := by
      intro tree parent current sibling
      simp [link, sideOf_eq_leftSide_iff]
    simp only [List.map_cons, normalStep, buildAbove, sameHash, sameLink]
    split
    · rfl
    · exact ih _ _ _

theorem buildPartialTree_normalStep (tree : DeltaMerkleTree) (leaf : MerkleHash)
    (steps : List (MerkleHash × UInt8)) :
    tree.buildPartialTree leaf (steps.map normalStep) = tree.buildPartialTree leaf steps := by
  simp only [buildPartialTree, buildAbove_normalStep]

end MerkleTree

/-- A path of a subtree of a base tree. -/
structure Genuine (base : Tree) (path : MerklePath) (sub : Tree) (frames : List (Frame MerkleHash)) :
    Prop where
  place : sub.plug frames = base
  leaf : getLeaf path = .ok (treeRoot sub)
  steps : (steps path).map normalStep = frames.map stepOf
  verified : verify path (treeRoot base) = .ok ()

theorem climb_normalStep (leaf : MerkleHash) (steps : List (MerkleHash × UInt8)) :
    climb leaf (steps.map normalStep) = climb leaf steps := by
  rw [climb, climb, List.foldl_map]
  congr 1
  funext current step
  simp [hashPair, normalStep, sideOf_eq_leftSide_iff]

theorem normalStep_stepOf (frame : Frame MerkleHash) : normalStep (stepOf frame) = stepOf frame := by
  simp [normalStep, stepOf, sideOf_eq_leftSide_iff]

theorem steps_pathOf (leaf : MerkleHash) (taken : List (MerkleHash × UInt8)) :
    steps (pathOf leaf taken) = taken := by
  simp only [steps, pathOf, Slice.elems_of, List.tail_cons]
  rw [List.zip_map']
  exact List.map_id' taken

/-- The path with the steps over some frames. -/
theorem genuine_pathOf {sub : Tree} {frames : List (Frame MerkleHash)}
    {taken : List (MerkleHash × UInt8)} (sameSteps : taken.map normalStep = frames.map stepOf) :
    Genuine (sub.plug frames) (pathOf (treeRoot sub) taken) sub frames where
  place := rfl
  leaf := rfl
  steps := by rw [steps_pathOf, sameSteps]
  verified := by rw [verify_pathOf, ← climb_normalStep, sameSteps, climb_stepOf]

section Binding

variable {hashed : Set (MerkleHash × MerkleHash)} {atoms : Set MerkleHash}
  (separated : Separated nodeHash hashed atoms)
  {base : Tree}
  (within : Within nodeHash hashed atoms base)
  {path : MerklePath}
  (verified : verify path (treeRoot base) = .ok ())
  (pairs : ∀ pair ∈ climbedPairs path, pair ∈ hashed)

include separated within verified pairs

/-- A path that verifies against the root of a tree belongs to one of its subtrees. -/
theorem exists_genuine : ∃ sub frames, Genuine base path sub frames := by
  obtain ⟨leaf, siblings, hashes, lengths, climbs⟩ := (verify_eq_ok_iff path _).mp verified
  have stepsEq : steps path = siblings.zip path.proofPath.elems := by
    rw [steps, hashes, List.tail_cons]
  rw [climbedPairs, hashes] at pairs
  rw [← stepsEq, climb_eq_foldl] at climbs
  obtain ⟨sub, frames, place, starts, sameSteps⟩ :=
    HashTree.exists_plug_of_climb separated within pairs climbs
  refine ⟨sub, frames, place, ?_, ?_, verified⟩
  · rw [getLeaf, hashes, treeRoot, starts]
  · refine List.ext_getElem ?_ fun index inSteps inFrames => ?_
    · have := congrArg List.length sameSteps
      simpa using this.symm
    · rw [List.getElem_map, List.getElem_map]
      refine normalStep_of_toAscent ?_
      have := List.getElem_of_eq sameSteps (i := index) (by simpa using inFrames)
      simpa using this.symm

/-- A path from an atom that verifies against the root of a tree belongs to a leaf. -/
theorem exists_genuine_leaf {leaf : MerkleHash} (isLeaf : getLeaf path = .ok leaf)
    (isAtom : leaf ∈ atoms) : ∃ frames, Genuine base path (.leaf leaf) frames := by
  obtain ⟨sub, frames, genuine⟩ := exists_genuine separated within verified pairs
  have starts : treeRoot sub = leaf := Except.ok.inj (genuine.leaf.symm.trans isLeaf)
  have withinSub := within.subtree ((HashTree.mem_subtrees_iff _ _).mpr ⟨frames, genuine.place⟩)
  obtain rfl : sub = .leaf leaf := HashTree.eq_of_digest_eq separated withinSub
    ((HashTree.within_leaf_iff leaf).mpr isAtom) starts
  exact ⟨frames, genuine⟩

end Binding

namespace MerkleTree

/-- A delta tree that knows a part of a base tree, with the values that the leaves
have now. -/
structure Tracks (base : Tree) (value : MerkleHash → MerkleHash) (tree : DeltaMerkleTree)
    (sketch : Sketch) : Prop where
  known : Partial value base tree sketch
  whole : sketch.whole = base
  unchanged : ∀ leaf ∈ base.leaves, ¬ tree.Known (.leaf leaf) → value leaf = leaf
  silent : tree.hasListener = false
  merkleRoot : tree.merkleRoot = treeRoot base

/-- The right end of what is known is the node that was mounted last, and it lies as
deep as there are one bits in the number of mounted nodes before it. -/
structure EndsAt (tree : DeltaMerkleTree) (sketch : Sketch) (size : Nat) (part : Sketch)
    (frames : List Sketch.Frame) : Prop where
  place : sketch = part.plug frames
  left : ∀ frame ∈ frames, frame.onLeft = true
  depth : frames.length = popcount (size - 1)
  lastNode : tree.lastNodeHash.bind tree.nodeMap = some part.id
  size : tree.size = size

/-- The end stays where it is when more of the tree becomes visible. -/
theorem EndsAt.expands {old new : DeltaMerkleTree} {sketch grown part : Sketch} {size : Nat}
    {frames : List Sketch.Frame} (ends : EndsAt old sketch size part frames)
    (expands : sketch.Expands grown) (sameSize : new.size = old.size)
    (sameLast : new.lastNodeHash = old.lastNodeHash)
    (kept : ∀ key id, old.nodeMap key = some id → new.nodeMap key = some id) :
    ∃ part frames, EndsAt new grown size part frames := by
  obtain ⟨rfl, left, depth, lastNode, isSize⟩ := ends
  obtain ⟨grownPart, grownFrames, rfl, partExpands, sameFrames⟩ := expands.exists_plug
  refine ⟨grownPart, grownFrames, rfl, ?_, ?_, ?_, sameSize.trans isSize⟩
  · intro frame inFrames
    have inOld := List.mem_map_of_mem (f := Sketch.Frame.whole) inFrames
    rw [sameFrames] at inOld
    obtain ⟨other, inFrames, same⟩ := List.mem_map.mp inOld
    exact (congrArg HashTree.Frame.onLeft same).symm.trans (left other inFrames)
  · have lengths := congrArg List.length sameFrames
    simp only [List.length_map] at lengths
    exact lengths.trans depth
  · obtain ⟨key, isKey, keyMap⟩ := Option.bind_eq_some_iff.mp lastNode
    rw [sameLast, isKey, partExpands.id]
    exact kept key part.id keyMap

section Tracking

variable {base : Tree}
  (injective : ∀ first ∈ base.subtrees, ∀ second ∈ base.subtrees,
    treeRoot first = treeRoot second → first = second)
  (distinct : base.leaves.Nodup)
  {value : MerkleHash → MerkleHash}
  {tree : DeltaMerkleTree}
  {sketch : Sketch}
  {path : MerklePath}
  {frames : List (Frame MerkleHash)}

variable {sub : Tree}

include injective distinct in
/-- The path of any subtree can be built. -/
theorem Tracks.buildPartialTree (tracks : Tracks base value tree sketch)
    (genuine : Genuine base path sub frames) :
    ∃ grown, Tracks base value (tree.buildPartialTree (treeRoot sub) (steps path)) grown ∧
      sketch.Expands grown := by
  rw [← buildPartialTree_normalStep, genuine.steps]
  obtain ⟨adds, -⟩ := adds_buildPartialTree tree (treeRoot sub) (frames.map stepOf)
  obtain ⟨grown, known, expands⟩ :=
    tracks.known.buildPartialTree injective distinct genuine.place tracks.unchanged
  refine ⟨grown, ⟨known, expands.whole.trans tracks.whole, ?_,
    adds.hasListener.trans tracks.silent, adds.merkleRoot.trans tracks.merkleRoot⟩, expands⟩
  intro leaf inBase unknown
  refine tracks.unchanged leaf inBase fun isKnown => unknown ?_
  obtain ⟨id, isId⟩ := Option.ne_none_iff_exists'.mp isKnown
  simp [Known, adds.nodeMap _ id isId]

variable {leaf : MerkleHash}

include distinct in
/-- A known leaf gets a new value. -/
theorem Tracks.updateNode (tracks : Tracks base value tree sketch) {id : NodeId}
    (inBase : leaf ∈ base.leaves) (isId : tree.nodeMap leaf = some id) (newHash : MerkleHash) :
    ∃ node, tree.updateNode id newHash = .ok { tree with node := node } ∧
      Tracks base (Function.update value leaf newHash) { tree with node := node } sketch := by
  have inStubs := tracks.known.covers.stubs (.leaf leaf)
    (HashTree.leaf_mem_subtrees inBase) id isId (by simp)
  obtain ⟨context, rfl⟩ := Sketch.exists_plug_of_mem_stubs inStubs
  have whole := tracks.whole
  rw [Sketch.whole_plug] at whole
  have single : ∀ frame ∈ context, leaf ∉ frame.sibling.whole.leaves := fun frame inContext =>
    HashTree.not_mem_sibling_of_nodup (whole.symm ▸ distinct) (List.mem_singleton_self leaf)
      (List.mem_map_of_mem (f := Sketch.Frame.whole) inContext)
  obtain ⟨node, updates, stored⟩ := updateNode_leaf tracks.known.stored tracks.known.nodup
    tracks.known.bound single tracks.silent newHash
  refine ⟨node, updates, ⟨stored, tracks.known.nodup, tracks.known.bound,
    tracks.known.covers.congr (fun _ _ => rfl) (.refl _)⟩, tracks.whole, ?_, tracks.silent,
    tracks.merkleRoot⟩
  intro other inBaseToo unknown
  have different : other ≠ leaf := by
    rintro rfl
    exact unknown (show tree.nodeMap other ≠ none by simp [isId])
  rw [Function.update_of_ne different]
  exact tracks.unchanged other inBaseToo unknown

include injective distinct in
/-- `UpdateLeaf` with the path of a leaf. -/
theorem Tracks.updateLeaf (tracks : Tracks base value tree sketch)
    (genuine : Genuine base path (.leaf leaf) frames) (newHash : MerkleHash) :
    ∃ updated grown, tree.updateLeaf path newHash = .ok updated ∧
      Tracks base (Function.update value leaf newHash) updated grown ∧ sketch.Expands grown ∧
      Adds tree updated := by
  obtain ⟨grown, grownTracks, expands⟩ := tracks.buildPartialTree injective distinct genuine
  obtain ⟨adds, leafKnown⟩ := adds_buildPartialTree tree leaf (steps path)
  obtain ⟨id, isId⟩ := Option.ne_none_iff_exists'.mp leafKnown
  have inBase : leaf ∈ base.leaves := by
    rw [← genuine.place, HashTree.leaves_plug]
    simp [HashTree.leaves]
  obtain ⟨node, updates, newTracks⟩ := grownTracks.updateNode distinct inBase isId newHash
  refine ⟨_, grown, ?_, newTracks, expands, ⟨adds.nodeMap, adds.size, adds.merkleRoot,
    adds.lastNodeHash, adds.hasListener⟩⟩
  have verified := genuine.verified
  rw [← tracks.merkleRoot] at verified
  have isLeaf : getLeaf path = .ok leaf := genuine.leaf
  simp only [MerkleTree.updateLeaf, verified, isLeaf, bind, Except.bind, isId]
  exact updates

variable {size : Nat}

/-- What a verified path of the last node says about its place. -/
theorem frames_of_verifyLastNodeMerklePath (genuine : Genuine base path sub frames)
    (positive : 0 < size) (small : size < 2 ^ 63)
    (verified : verifyLastNodeMerklePath (treeRoot base) size path = .ok ()) :
    (∀ frame ∈ frames, frame.onLeft = true) ∧ frames.length = popcount (size - 1) := by
  simp only [verifyLastNodeMerklePath, bind_eq_ok, Go.require_eq_ok, decide_eq_true_eq,
    List.all_eq_true] at verified
  obtain ⟨_, _, _, ⟨pathLength, hashesLength⟩, left⟩ := verified
  have cast : ((size : Int) - 1) = ((size - 1 : Nat) : Int) := by omega
  rw [cast, countOne_natCast (by omega)] at pathLength hashesLength
  simp only [Slice.length] at pathLength hashesLength
  have stepsLength : (steps path).length = popcount (size - 1) := by
    rw [steps, List.length_zip, List.length_tail, hashesLength, pathLength]
    simp
  refine ⟨?_, ?_⟩
  · intro frame inFrames
    have inSteps := List.mem_map_of_mem (f := stepOf) inFrames
    rw [← genuine.steps] at inSteps
    obtain ⟨step, inSteps, same⟩ := List.mem_map.mp inSteps
    have onLeft := left step.2 (List.of_mem_zip inSteps).2
    have sides : sideOf (step.2 = leftSide) = sideOf frame.onLeft := congrArg Prod.snd same
    refine (sideOf_eq_leftSide_iff _).mp (sides.symm.trans ?_)
    simp [onLeft, sideOf]
  · have lengths := congrArg List.length genuine.steps
    rw [List.length_map, List.length_map, stepsLength] at lengths
    exact lengths.symm

include injective distinct in
/-- `NewUpdate`: the delta tree before the first change. -/
theorem setSizeAndLastNodeMerklePath_new (genuine : Genuine base path sub frames)
    (positive : 0 < size) (small : size < 2 ^ 63)
    (verified : verifyLastNodeMerklePath (treeRoot base) size path = .ok ()) :
    ∃ tree sketch part context,
      (newDeltaMerkleTree (treeRoot base)).setSizeAndLastNodeMerklePath size path = .ok tree ∧
        Tracks base id tree sketch ∧ EndsAt tree sketch size part context := by
  obtain ⟨left, depth⟩ := frames_of_verifyLastNodeMerklePath genuine positive small verified
  obtain ⟨adds, -⟩ :=
    adds_buildPartialTree (newDeltaMerkleTree (treeRoot base)) (treeRoot sub) (steps path)
  obtain ⟨first, context, known, sameFrames, isFirst⟩ := @buildPartialTree_first id sub base injective
    distinct (newDeltaMerkleTree (treeRoot base)) frames genuine.place
    (fun _ _ known => known rfl) (fun _ _ => rfl)
  rw [← genuine.steps, buildPartialTree_normalStep] at known isFirst
  have whole : ((Sketch.stub first sub).plug context).whole = base := by
    rw [Sketch.whole_plug, sameFrames]
    exact genuine.place
  refine ⟨{ (newDeltaMerkleTree (treeRoot base)).buildPartialTree (treeRoot sub) (steps path) with
    lastNodeHash := some (treeRoot sub), size := size }, _, .stub first sub, context, ?_,
    ⟨⟨known.stored, known.nodup, known.bound, known.covers.congr (fun _ _ => rfl) (.refl _)⟩, whole,
      fun _ _ _ => rfl, adds.hasListener, adds.merkleRoot⟩, ⟨rfl, ?_, ?_, isFirst, rfl⟩⟩
  · have unset : (newDeltaMerkleTree (treeRoot base)).size = unknownSize := rfl
    have isRoot : (newDeltaMerkleTree (treeRoot base)).merkleRoot = treeRoot base := rfl
    simp only [setSizeAndLastNodeMerklePath, unset, Go.require, decide_true, if_true, isRoot,
      verified, genuine.leaf, bind, Except.bind, pure, Except.pure]
  · intro frame inContext
    have inFrames := List.mem_map_of_mem (f := Sketch.Frame.whole) inContext
    rw [sameFrames] at inFrames
    exact left _ inFrames
  · rw [← depth, ← sameFrames, List.length_map]

end Tracking

end MerkleTree

end MultiVac.Merkle
