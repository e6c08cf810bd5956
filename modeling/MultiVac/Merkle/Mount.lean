import MultiVac.Merkle.Tracking

/-!
# Mounting trees

`append` on a delta tree over any tree: the root of a tree is appended as a leaf, and
the tree is mounted at this place. The new root is the root of the tree with all that
was mounted, and the new path of the last node belongs to it.
-/

namespace MultiVac.Merkle

open Lib
open Wire (MerklePath)
open Lib.HashTree (Frame Separated Within mount mountAll mountVisits eq_of_digest_eq map_eq_self
  mem_subtrees_iff plug_append right_mem_subtrees self_mem_subtrees)

namespace MerkleTree

/-- A stored tree whose right end is the node that was mounted last. -/
structure Mounted (tree : DeltaMerkleTree) (sketch : Sketch) (size : Nat) (last : NodeId) :
    Prop where
  stored : sketch.Stored (fun leaf => leaf) tree.node none
  nodup : sketch.ids.Nodup
  bound : ∀ id ∈ sketch.ids, id < tree.nextNode
  silent : tree.hasListener = false
  ends : ∃ part frames, sketch = Sketch.plug part frames ∧ part.id = last ∧
    (∀ frame ∈ frames, frame.onLeft = true) ∧ frames.length = popcount (size - 1)

/-- What mounting a tree does to the fields of a delta tree. -/
structure MountStep (old new : DeltaMerkleTree) (sketch grown : Sketch) (unit left : Tree) :
    Prop where
  extended : Extends sketch grown
  joint : .node left unit ∈ grown.whole.subtrees
  newStub : (old.nextNode, unit) ∈ grown.stubs
  newIds : old.nextNode ∈ grown.ids ∧ old.nextNode + 1 ∈ grown.ids
  merkleRoot : new.merkleRoot = old.merkleRoot
  nodeMap : new.nodeMap = Function.update (Function.update old.nodeMap (treeRoot unit)
    (some old.nextNode)) (nodeHash (treeRoot left) (treeRoot unit)) (some (old.nextNode + 1))

/-- One step of `append` mounts a tree. -/
theorem Mounted.appendLeaf {tree : DeltaMerkleTree} {sketch : Sketch} {size : Nat} {last : NodeId}
    (mounted : Mounted tree sketch size last) (positive : 0 < size) (small : size < 2 ^ 63)
    (unit : Tree) :
    ∃ appended grown left,
      tree.appendLeaf size last (treeRoot unit) = .ok (tree.nextNode, appended) ∧
        Mounted appended grown (size + 1) tree.nextNode ∧
        grown.whole = mount unit (popcount size - 1) sketch.whole ∧
        MountStep tree appended sketch grown unit left := by
  obtain ⟨stored, nodup, bound, silent, part, frames, rfl, rfl, left, depth⟩ := mounted
  obtain ⟨divides, maximal⟩ := countOne_lowestBit positive small
  have bits := popcount_pred divides maximal
  have someBit := popcount_pos positive
  -- The height at which the new tree is joined cuts the frames.
  obtain ⟨lower, upper, rfl, height⟩ : ∃ lower upper, frames = lower ++ upper ∧
      lower.length = countOne (lowestBit size - 1 : Int) :=
    ⟨_, _, (List.take_append_drop _ frames).symm, List.length_take_of_le (by omega)⟩
  rw [List.length_append] at depth
  have upperLength : upper.length = popcount size - 1 := by omega
  have leftUpper : ∀ frame ∈ upper, frame.onLeft = true := fun frame inUpper =>
    left frame (List.mem_append_right _ inUpper)
  have same : unit.map (fun leaf => leaf) = unit := map_eq_self fun _ _ => rfl
  obtain ⟨appended, appends, newStored, newNodup, newBound, fields⟩ :=
    @appendLeaf_plug (fun leaf => leaf) tree part (treeRoot unit) unit (fun _ => True) size lower
      upper stored nodup bound leftUpper height.symm (by rw [same]) (fun _ _ _ => trivial)
      (fun _ _ _ => trivial)
  have sameLower : (part.plug lower).whole.map (fun leaf => leaf) = (part.plug lower).whole :=
    map_eq_self fun _ _ => rfl
  have nodeMap := funext fun key => fields.nodeMap key (by simp [silent])
  rw [sameLower] at nodeMap
  have idsPerm := ids_mountedSketch_perm (part.plug lower) tree.nextNode unit upper
  have whole : ((mountedSketch (part.plug lower) tree.nextNode unit).plug upper).whole =
      mount unit (popcount size - 1) (part.plug (lower ++ upper)).whole := by
    have leftWhole : ∀ frame ∈ upper.map Sketch.Frame.whole, frame.onLeft = true := by
      intro frame inFrames
      obtain ⟨own, inUpper, rfl⟩ := List.mem_map.mp inFrames
      exact leftUpper own inUpper
    have mounts := HashTree.mount_plug leftWhole unit (part.plug lower).whole
    rw [List.length_map, upperLength] at mounts
    rw [Sketch.plug_append, Sketch.whole_plug _ upper, Sketch.whole_plug _ upper, mounts]
    rfl
  refine ⟨appended, _, (part.plug lower).whole, appends, ⟨newStored, newNodup, newBound,
    fields.hasListener.trans silent, .stub tree.nextNode unit,
    ⟨tree.nextNode + 1, true, part.plug lower⟩ :: upper, rfl, rfl, ?_, ?_⟩, whole, ?_, ?_, ?_, ?_,
    fields.merkleRoot, nodeMap⟩
  · intro frame inFrames
    rcases List.mem_cons.mp inFrames with rfl | inUpper
    · rfl
    · exact leftUpper frame inUpper
  · rw [List.length_cons, upperLength, Nat.add_sub_cancel]
    omega
  · rw [Sketch.plug_append]
    exact extends_mountedSketch _ _ _ _
  · rw [Sketch.whole_plug]
    exact HashTree.subtrees_subset_plug _ _ (self_mem_subtrees _)
  · refine (Sketch.mem_stubs_plug _ _ _).mpr (.inl ?_)
    exact List.mem_append_right _ (List.mem_singleton_self _)
  · exact ⟨idsPerm.mem_iff.mpr (List.mem_cons_of_mem _ List.mem_cons_self),
      idsPerm.mem_iff.mpr List.mem_cons_self⟩

section Run

variable {hashed : Set (MerkleHash × MerkleHash)} {atoms : Set MerkleHash}

/-- What mounting some trees does to what is known by hashes. -/
structure MountRun (old new : DeltaMerkleTree) (sketch grown : Sketch) (units : List Tree)
    (last : NodeId) : Prop where
  extended : Extends sketch grown
  merkleRoot : new.merkleRoot = old.merkleRoot
  kept : ∀ key id, old.nodeMap key = some id → id ∈ sketch.ids →
    ∃ newId ∈ grown.ids, new.nodeMap key = some newId
  lastKnown : ∀ unit, units.getLast? = some unit →
    new.nodeMap (treeRoot unit) = some last ∧ (last, unit) ∈ grown.stubs

variable {sketch : Sketch}

theorem MountStep.run (separated : Separated nodeHash hashed atoms) {old new : DeltaMerkleTree}
    {grown : Sketch} {unit left : Tree} (step : MountStep old new sketch grown unit left)
    (within : Within nodeHash hashed atoms grown.whole) :
    MountRun old new sketch grown [unit] old.nextNode := by
  have withinJoint := within.subtree step.joint
  have withinUnit := withinJoint.subtree (right_mem_subtrees left unit)
  have unitMap : new.nodeMap (treeRoot unit) = some old.nextNode := by
    rw [step.nodeMap, Function.update_of_ne, Function.update_self]
    intro sameRoot
    have counts := congrArg HashTree.count
      (eq_of_digest_eq separated withinUnit withinJoint sameRoot)
    have positive := left.count_pos
    rw [HashTree.count_node] at counts
    omega
  refine ⟨step.extended, step.merkleRoot, ?_, ?_⟩
  · intro key id isId inIds
    rw [step.nodeMap]
    by_cases isJoint : key = nodeHash (treeRoot left) (treeRoot unit)
    · exact ⟨_, step.newIds.2, by rw [isJoint, Function.update_self]⟩
    rw [Function.update_of_ne isJoint]
    by_cases isUnit : key = treeRoot unit
    · exact ⟨_, step.newIds.1, by rw [isUnit, Function.update_self]⟩
    exact ⟨id, step.extended.ids inIds, by rw [Function.update_of_ne isUnit, isId]⟩
  · intro other isLast
    obtain rfl : unit = other := by simpa using isLast
    exact ⟨unitMap, step.newStub⟩

/-- The loop of `append` mounts one tree after the other. -/
theorem Mounted.appendAll (separated : Separated nodeHash hashed atoms) {tree : DeltaMerkleTree}
    {size : Nat} {last : NodeId} (mounted : Mounted tree sketch size last) (positive : 0 < size)
    (units : List Tree) (small : size + units.length < 2 ^ 63)
    (within : ∀ visit ∈ mountVisits size sketch.whole units, Within nodeHash hashed atoms visit) :
    ∃ newLast appended grown,
      tree.appendAll size (some last) (units.map treeRoot) = .ok (some newLast, appended) ∧
        Mounted appended grown (size + units.length) newLast ∧
        grown.whole = mountAll size sketch.whole units ∧
        MountRun tree appended sketch grown units newLast := by
  induction units generalizing tree sketch size last with
  | nil =>
    refine ⟨last, tree, sketch, rfl, mounted, rfl, .refl sketch, rfl, ?_, ?_⟩
    · exact fun key id isId inIds => ⟨id, inIds, isId⟩
    · rintro unit ⟨⟩
  | cons unit units ih =>
    rw [List.length_cons] at small
    obtain ⟨middle, between, left, appends, middleMounted, whole, step⟩ :=
      mounted.appendLeaf positive (by omega) unit
    have withinRest : ∀ visit ∈ mountVisits (size + 1) between.whole units,
        Within nodeHash hashed atoms visit := by
      intro visit inVisits
      rw [whole] at inVisits
      exact within visit (List.mem_cons_of_mem _ inVisits)
    have withinBetween : Within nodeHash hashed atoms between.whole := withinRest _ (by
      cases units <;> exact List.mem_cons_self)
    obtain ⟨newLast, appended, grown, rest, grownMounted, grownWhole, run⟩ :=
      ih middleMounted (Nat.succ_pos _) (by omega) withinRest
    have first := step.run separated withinBetween
    refine ⟨newLast, appended, grown, ?_, ?_, ?_, first.extended.trans run.extended,
      run.merkleRoot.trans first.merkleRoot, ?_, ?_⟩
    · rw [List.map_cons, MerkleTree.appendAll, if_neg (Nat.ne_of_gt positive)]
      simp only [appends, bind, Except.bind]
      exact rest
    · rw [List.length_cons, Nat.add_comm units.length 1, ← Nat.add_assoc]
      exact grownMounted
    · rw [grownWhole, whole]
      rfl
    · intro key id isId inIds
      obtain ⟨middleId, inBetween, isMiddle⟩ := first.kept key id isId inIds
      exact run.kept key middleId isMiddle inBetween
    · intro other isLast
      cases units with
      | nil =>
        -- The last tree is the one that has just been mounted.
        simp only [List.map_nil, MerkleTree.appendAll, Except.ok.injEq, Prod.mk.injEq,
          Option.some.injEq] at rest
        obtain ⟨rfl, rfl⟩ := rest
        exact (first.lastKnown other isLast).imp_right fun inStubs => run.extended.stubs inStubs
      | cons next units =>
        rw [List.getLast?_cons_cons] at isLast
        exact run.lastKnown other isLast

end Run

/-! ### What is read from a mounted tree -/

theorem proofStep_eq_stepOf (frame : Sketch.Frame) :
    proofStep (fun leaf => leaf) frame = stepOf frame.whole := by
  rw [proofStep, @map_eq_self _ frame.sibling.whole _ fun _ _ => rfl]
  rfl

section Reads

variable {tree : DeltaMerkleTree} {sketch : Sketch} {size : Nat} {last : NodeId}
  {part : Sketch} {frames : List Sketch.Frame}

theorem Mounted.hash (mounted : Mounted tree sketch size last)
    (place : sketch = part.plug frames) : (tree.node part.id).hash = treeRoot part.whole := by
  have stored := mounted.stored
  rw [place] at stored
  rw [(Sketch.Stored.split stored).1.hash, map_eq_self fun _ _ => rfl]

/-- The proof of any node leads to the root. -/
theorem Mounted.createMerkleProof (mounted : Mounted tree sketch size last)
    (place : sketch = part.plug frames) :
    tree.createMerkleProof (tree.nextNode + 1) part.id (tree.node part.id).parent =
      .ok ((frames.map Sketch.Frame.whole).map stepOf) := by
  obtain ⟨stored, nodup, bound, -, -⟩ := mounted
  subst place
  rw [createMerkleProof_stored stored nodup bound, List.map_map]
  refine congrArg Except.ok (List.map_congr_left fun frame _ => ?_)
  exact proofStep_eq_stepOf frame

/-- `GetMerkleRoot`, when the old root leads to some node. -/
theorem Mounted.getMerkleRoot (mounted : Mounted tree sketch size last) {id : NodeId}
    (isId : tree.nodeMap tree.merkleRoot = some id)
    (inIds : id ∈ sketch.ids) : tree.getMerkleRoot = .ok (treeRoot sketch.whole) := by
  have isRoot := getMerkleRoot_stored mounted.stored mounted.nodup mounted.bound isId inIds
  rwa [map_eq_self fun _ _ => rfl] at isRoot

end Reads

end MerkleTree

/-- The path that a ledger keeps of its last node. -/
structure LastPath (tree : Tree) (size : Nat) (path : MerklePath) : Prop where
  genuine : ∃ sub frames, Genuine tree path sub frames
  verified : verifyLastNodeMerklePath (treeRoot tree) size path = .ok ()

namespace MerkleTree

variable {size : Nat} {tree : DeltaMerkleTree}

/-- `GetLastNodeMerklePath` returns the path of the node that was mounted last. -/
theorem Mounted.getLastNodeMerklePath {sketch : Sketch} {last : NodeId}
    (mounted : Mounted tree sketch size last) (positive : 0 < size) (small : size < 2 ^ 63)
    (isLast : tree.lastNodeHash.bind tree.nodeMap = some last) :
    ∃ path, tree.getLastNodeMerklePath = .ok path ∧ LastPath sketch.whole size path := by
  obtain ⟨part, frames, place, rfl, left, depth⟩ := mounted.ends
  obtain ⟨key, isKey, keyMap⟩ := Option.bind_eq_some_iff.mp isLast
  have proof := mounted.createMerkleProof place
  have hash := mounted.hash place
  have genuine := @genuine_pathOf part.whole (frames.map Sketch.Frame.whole)
    ((frames.map Sketch.Frame.whole).map stepOf) (by
      rw [List.map_map]
      exact List.map_congr_left fun frame _ => normalStep_stepOf frame)
  have whole : sketch.whole = part.whole.plug (frames.map Sketch.Frame.whole) := by
    rw [place, Sketch.whole_plug]
  rw [← whole] at genuine
  refine ⟨_, ?_, ⟨_, _, genuine⟩, ?_⟩
  · simp only [MerkleTree.getLastNodeMerklePath, isKey, keyMap, proof, hash, bind, Except.bind]
    rfl
  · have cast : ((size : Int) - 1) = ((size - 1 : Nat) : Int) := by omega
    have length : countOne ((size : Int) - 1) = frames.length := by
      rw [cast, countOne_natCast (by omega), depth]
    have lengths : (pathOf (treeRoot part.whole)
        ((frames.map Sketch.Frame.whole).map stepOf)).proofPath.length = frames.length ∧
          (pathOf (treeRoot part.whole)
            ((frames.map Sketch.Frame.whole).map stepOf)).hashes.length = frames.length + 1 := by
      simp [Slice.length, pathOf]
    have allLeft : ((pathOf (treeRoot part.whole)
        ((frames.map Sketch.Frame.whole).map stepOf)).proofPath.elems.all
          fun side => side = leftSide) = true := by
      simp only [pathOf, Slice.elems_of, List.all_map, List.all_eq_true]
      intro frame inFrames
      simp [stepOf, sideOf, Sketch.Frame.whole, left frame inFrames]
    simp only [verifyLastNodeMerklePath, bind_eq_ok, Go.require_eq_ok, decide_eq_true_eq, length]
    exact ⟨(), genuine.verified, (), lengths, allLeft⟩

/-! ### Changed leaves and mounted trees -/

variable {value : MerkleHash → MerkleHash}

/-- The values that leaves have now are written into the sketch before trees are
mounted. -/
theorem Tracks.mounted {base : Tree} {sketch part : Sketch} {frames : List Sketch.Frame}
    (tracks : Tracks base value tree sketch) (ends : EndsAt tree sketch size part frames) :
    Mounted tree (sketch.map value) size part.id := by
  refine ⟨tracks.known.stored.map, ?_, ?_, tracks.silent, part.map value,
    frames.map (Sketch.Frame.map value), ?_, Sketch.id_map _ _, ?_, ?_⟩
  · rw [Sketch.ids_map]
    exact tracks.known.nodup
  · rw [Sketch.ids_map]
    exact tracks.known.bound
  · rw [ends.place, Sketch.map_plug]
  · intro frame inFrames
    obtain ⟨own, inOwn, rfl⟩ := List.mem_map.mp inFrames
    exact ends.left own inOwn
  · rw [List.length_map, ends.depth]

/-- What can be read from a delta tree after leaves of its base tree were changed and
trees were mounted: `whole` is the tree that the ledger has now. -/
structure Grown (whole : Tree) (count : Nat) (tree : DeltaMerkleTree) : Prop where
  size : tree.size = count
  newRoot : tree.getMerkleRoot = .ok (treeRoot whole)
  lastPath : ∃ path, tree.getLastNodeMerklePath = .ok path ∧ LastPath whole count path

section Growing

variable {hashed : Set (MerkleHash × MerkleHash)} {atoms : Set MerkleHash}
  {base : Tree} {value : MerkleHash → MerkleHash} {tree : DeltaMerkleTree} {sketch : Sketch}

variable {size : Nat}

/-- The leaves of the base tree have been changed, and trees are mounted. -/
theorem Tracks.grown (separated : Separated nodeHash hashed atoms)
    (tracks : Tracks base value tree sketch) {part : Sketch} {frames : List Sketch.Frame}
    (ends : EndsAt tree sketch size part frames) (positive : 0 < size) (units : List Tree)
    (small : size + units.length < 2 ^ 63)
    (within : ∀ visit ∈ mountVisits size (base.map value) units,
      Within nodeHash hashed atoms visit) :
    ∃ appended, (if units = [] then pure tree else tree.append (units.map treeRoot)) = .ok appended ∧
      Grown (mountAll size (base.map value) units) (size + units.length) appended := by
  have start := tracks.mounted ends
  have startWhole : (sketch.map value).whole = base.map value := by
    rw [Sketch.whole_map, tracks.whole]
  obtain ⟨last, appended, grown, appends, mounted, whole, run⟩ := start.appendAll separated positive
    units small (by rwa [startWhole])
  rw [startWhole] at whole
  obtain ⟨rootId, isRoot⟩ := Option.ne_none_iff_exists'.mp tracks.known.covers.root
  have rootIn := tracks.known.covers.ids base base.self_mem_subtrees rootId isRoot
  rw [← Sketch.ids_map value] at rootIn
  obtain ⟨newRootId, newRootIn, isNewRoot⟩ := run.kept _ rootId isRoot rootIn
  rw [← tracks.merkleRoot, ← run.merkleRoot] at isNewRoot
  have newRoot := mounted.getMerkleRoot isNewRoot newRootIn
  -- The fields that `append` sets at the end are those of the last node.
  have facts : ∀ final : DeltaMerkleTree, final.node = appended.node →
      final.nextNode = appended.nextNode → final.nodeMap = appended.nodeMap →
      final.hasListener = appended.hasListener → final.merkleRoot = appended.merkleRoot →
      final.size = (size + units.length : Nat) →
      final.lastNodeHash.bind final.nodeMap = some last →
      Grown (mountAll size (base.map value) units) (size + units.length) final := by
    intro final sameNode sameNext sameMap sameListener sameRoot isSize isLast
    have finalMounted : Mounted final grown (size + units.length) last :=
      ⟨sameNode ▸ mounted.stored, mounted.nodup, sameNext ▸ mounted.bound,
        sameListener.trans mounted.silent, mounted.ends⟩
    refine ⟨isSize, ?_, ?_⟩
    · rw [← whole]
      exact finalMounted.getMerkleRoot (by rw [sameMap, sameRoot]; exact isNewRoot) newRootIn
    · rw [← whole]
      exact finalMounted.getLastNodeMerklePath (by omega) small isLast
  cases units with
  | nil =>
    obtain ⟨isLast, rfl⟩ := Prod.mk.inj (Except.ok.inj appends)
    obtain rfl := Option.some.inj isLast
    exact ⟨tree, rfl, facts tree rfl rfl rfl rfl rfl ends.size ends.lastNode⟩
  | cons unit units =>
    have isSize : tree.size = size := ends.size
    have appendsToo : tree.appendAll tree.size.toNat
        (if 0 < tree.size then tree.lastNodeHash.bind tree.nodeMap else none)
        ((unit :: units).map treeRoot) = .ok (some last, appended) := by
      rw [isSize, Int.toNat_natCast, if_pos (by exact_mod_cast positive), ends.lastNode]
      exact appends
    refine ⟨_, (if_neg (by simp)).trans (append_eq (by omega) appendsToo),
      facts _ rfl rfl rfl rfl rfl (by simp [isSize]) ?_⟩
    obtain ⟨final, isFinal⟩ : ∃ final, (unit :: units).getLast? = some final :=
      ⟨_, List.getLast?_eq_some_getLast (by simp)⟩
    obtain ⟨finalMap, inStubs⟩ := run.lastKnown final isFinal
    obtain ⟨context, place⟩ := Sketch.exists_plug_of_mem_stubs inStubs
    have hash : (appended.node last).hash = treeRoot final := mounted.hash place
    simp only [hash, Option.bind_some]
    exact finalMap

end Growing

end MerkleTree

end MultiVac.Merkle
