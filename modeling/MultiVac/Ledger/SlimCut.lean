import MultiVac.Ledger.SlimBlock
import MultiVac.Merkle.Rebuild
import Mathlib.Data.List.TakeWhile

/-!
# Slim blocks cut from a block

The slim blocks that `GetSlimBlocksFromBlock` cuts from a block can be rebuilt, and
their trees have the Merkle paths of the full tree.
-/

namespace MultiVac.Ledger

open Lib Wire Merkle

/-! ### Where the outs of a shard start and stop -/

section Advance

variable {test : OutState → Bool} {outs : List OutState} {index : Nat}

theorem advance_le (bound : index ≤ outs.length) : advance test outs index ≤ outs.length := by
  have := (List.takeWhile_prefix test (l := outs.drop index)).length_le
  rw [List.length_drop] at this
  rw [advance]
  omega

theorem le_advance : index ≤ advance test outs index := Nat.le_add_right _ _

variable {out : OutState}

theorem test_of_lt_advance {position : Nat} (lower : index ≤ position)
    (upper : position < advance test outs index)
    (isOut : outs[position]? = some out) : test out = true := by
  obtain ⟨offset, rfl⟩ := Nat.exists_eq_add_of_le lower
  have below : offset < ((outs.drop index).takeWhile test).length := by
    rw [advance] at upper
    omega
  rw [← List.getElem?_drop, ← List.takeWhile_append_dropWhile (p := test) (l := outs.drop index),
    List.getElem?_append_left below] at isOut
  exact List.mem_takeWhile_imp (List.mem_of_getElem? isOut)

theorem not_test_advance
    (isOut : outs[advance test outs index]? = some out) : test out = false := by
  have afterFront : ((outs.drop index).dropWhile test).head? = some out := by
    rw [List.head?_eq_getElem?, ← isOut, advance, ← List.getElem?_drop]
    conv_rhs => rw [← List.takeWhile_append_dropWhile (p := test) (l := outs.drop index)]
    rw [List.getElem?_append_right (by simp)]
    simp
  have stopped := List.head?_dropWhile_not test (outs.drop index)
  rw [afterFront] at stopped
  exact stopped

end Advance

/-- The outs of a shard are those from `start` on and below `stop`. -/
structure ShardRange (outs : List OutState) (shard : ShardIndex) (start stop : Nat) : Prop where
  ordered : start ≤ stop
  bound : stop ≤ outs.length
  before : ∀ position out, position < start → outs[position]? = some out →
    out.outPoint.shard < shard
  within : ∀ position out, start ≤ position → position < stop → outs[position]? = some out →
    out.outPoint.shard = shard
  after : ∀ position out, stop ≤ position → outs[position]? = some out → shard < out.outPoint.shard

variable {outs : List OutState}

theorem Sorted.shard_le (sorted : Sorted outs) {lower upper : Nat} (ordered : lower ≤ upper)
    {first second : OutState} (isFirst : outs[lower]? = some first)
    (isSecond : outs[upper]? = some second) : first.outPoint.shard ≤ second.outPoint.shard := by
  obtain ⟨lowerBound, rfl⟩ := List.getElem?_eq_some_iff.mp isFirst
  obtain ⟨upperBound, rfl⟩ := List.getElem?_eq_some_iff.mp isSecond
  rcases Nat.eq_or_lt_of_le ordered with rfl | less
  · exact UInt32.le_refl _
  · exact List.pairwise_iff_getElem.mp sorted lower upper lowerBound upperBound less

variable {index : Nat}

/-- The two loops of `GetSlimBlocksFromBlock` find the outs of a shard. -/
theorem shardRange_advance (sorted : Sorted outs) {shard : ShardIndex} (bound : index ≤ outs.length)
    (before : ∀ position out, position < index → outs[position]? = some out →
      out.outPoint.shard < shard) :
    let start := advance (fun out => out.outPoint.shard < shard) outs index
    ShardRange outs shard start (advance (fun out => out.outPoint.shard = shard) outs start) := by
  intro start
  have startBound : start ≤ outs.length := advance_le bound
  have fromStart : ∀ position out, start ≤ position → outs[position]? = some out →
      shard ≤ out.outPoint.shard := by
    intro position out notBefore isOut
    have inOuts : start < outs.length := notBefore.trans_lt (List.getElem?_eq_some_iff.mp isOut).1
    have isFirst := List.getElem?_eq_getElem inOuts
    have notLess := not_test_advance isFirst
    rw [decide_eq_false_iff_not, UInt32.not_lt] at notLess
    exact UInt32.le_trans notLess (sorted.shard_le notBefore isFirst isOut)
  refine ⟨le_advance, advance_le startBound, ?_, ?_, ?_⟩
  · intro position out below isOut
    rcases Nat.lt_or_ge position index with old | new
    · exact before position out old isOut
    · exact of_decide_eq_true (test_of_lt_advance new below isOut)
  · intro position out lower upper isOut
    exact of_decide_eq_true (test_of_lt_advance lower upper isOut)
  · intro position out notBefore isOut
    have inOuts := notBefore.trans_lt (List.getElem?_eq_some_iff.mp isOut).1
    have isFirst := List.getElem?_eq_getElem inOuts
    have different := of_decide_eq_false (not_test_advance isFirst)
    have atLeast := fromStart _ _ le_advance isFirst
    have more := UInt32.lt_of_le_of_ne atLeast (Ne.symm different)
    exact UInt32.lt_of_lt_of_le more (sorted.shard_le notBefore isFirst isOut)

/-! ### The slim block of a shard -/

/-- The index of the first out of a slim block. -/
def firstIndex (start : Nat) : Nat := start - 1

/-- The index after the last out of a slim block. -/
def pastIndex (outs : List OutState) (stop : Nat) : Nat := min (stop + 1) outs.length

theorem shardOuts_eq {start stop : Nat} (ordered : start ≤ stop) (bound : stop ≤ outs.length) :
    shardOuts outs start stop = (outs.take (pastIndex outs stop)).drop (firstIndex start) := by
  have untilPast : outs.take (pastIndex outs stop) = outs.take stop ++ outs[stop]?.toList := by
    rw [← List.take_add_one, pastIndex, List.take_eq_take_iff, Nat.min_assoc, Nat.min_self]
  have inFront : firstIndex start ≤ (outs.take stop).length := by
    rw [firstIndex, List.length_take]
    omega
  rw [untilPast, List.drop_append_of_le_length inFront, shardOuts, ← List.append_assoc]
  congr 1
  cases start with
  | zero => rfl
  | succ position =>
    have inOuts : position < (outs.take stop).length := by
      rw [List.length_take]
      omega
    rw [if_pos (Nat.succ_ne_zero _), firstIndex, Nat.add_sub_cancel,
      List.drop_eq_getElem_cons inOuts, List.getElem_take,
      List.getElem?_eq_getElem (by omega)]
    rfl

variable {outs : List OutState} {shard : ShardIndex} {start stop : Nat}

theorem ShardRange.firstIndex_lt (range : ShardRange outs shard start stop)
    (nonempty : outs ≠ []) : firstIndex start < pastIndex outs stop := by
  have := range.ordered
  have := range.bound
  have := List.length_pos_iff.mpr nonempty
  unfold firstIndex pastIndex
  omega

/-- The outs of a slim block lie where `verifyIntegrity` expects them. -/
theorem ShardRange.verifyIntegrity (range : ShardRange outs shard start stop)
    (left right : MerklePath) :
    (rangeClip outs start stop left right).verifyIntegrity shard = .ok () := by
  have ordered := range.ordered
  have bound := range.bound
  have segment := shardOuts_eq ordered bound
  refine forM_eq_ok_iff.mpr ?_
  rintro ⟨out, index⟩ isIndexed
  have isOut : (shardOuts outs start stop)[index]? = some out :=
    List.mk_mem_zipIdx_iff_getElem?.mp isIndexed
  have length : (shardOuts outs start stop).length = pastIndex outs stop - firstIndex start := by
    rw [segment, List.length_drop, List.length_take, pastIndex]
    omega
  have inside := (List.getElem?_eq_some_iff.mp isOut).1
  rw [length] at inside
  rw [segment, List.getElem?_drop, List.getElem?_take, if_pos (by omega)] at isOut
  have isLeft : (rangeClip outs start stop left right).IsLeft index ↔
      firstIndex start + index < start := by
    simp only [ClipTreeData.IsLeft, rangeClip, decide_eq_false_iff_not, firstIndex]
    omega
  have isRight : (rangeClip outs start stop left right).IsRight index ↔
      stop ≤ firstIndex start + index := by
    simp only [ClipTreeData.IsRight, rangeClip, decide_eq_false_iff_not, length, firstIndex,
      pastIndex] at inside ⊢
    omega
  have inShard : start ≤ firstIndex start + index → firstIndex start + index < stop →
      out.outPoint.shard = shard := fun lower upper => range.within _ out lower upper isOut
  simp only [ClipTreeData.verifyOut, bind_eq_ok, Go.require_eq_ok, Bool.not_eq_true',
    decide_eq_false_iff_not, isLeft, isRight]
  refine ⟨(), ?_, (), ?_, ?_⟩
  · rintro (⟨below, notBelow⟩ | ⟨above, notAbove⟩)
    · exact UInt32.not_le.mpr (range.before _ out below isOut) notBelow
    · exact UInt32.not_le.mpr (range.after _ out above isOut) notAbove
  · rintro ⟨other, notLeft, notRight⟩
    exact other (inShard (Nat.le_of_not_lt notLeft) (Nat.lt_of_not_le notRight))
  · rintro ⟨notFirst, notLast, other⟩
    simp only [rangeClip, length] at notLast
    refine other (inShard ?_ ?_)
    · unfold firstIndex
      omega
    · unfold firstIndex pastIndex at *
      omega

/-- The full tree of some outs with different hashes, and no collision below it. -/
structure OutTree (outs : List OutState) (tree : Tree) : Prop where
  encodable : ∀ out ∈ outs, Encodable out
  built : fullTree (outs.map digest) = some tree
  distinct : (outs.map digest).Nodup
  injective : Set.InjOn sha256 (hashedForRoot outs)

/-- The Merkle path of the out at an index. -/
def pathAt (outs : List OutState) (tree : Tree) (index : Nat) : MerklePath :=
  pathOf ((outs.map digest).getD index emptyHash) ((tree.framesAt index).map stepOf)

variable {tree : Tree} {out : OutState}

section

variable (outTree : OutTree outs tree)
include outTree

theorem OutTree.leaves : tree.leaves = outs.map digest :=
  leaves_of_fullTree outTree.built

theorem OutTree.pathAt_eq : pathAt outs tree = leafPath tree := by
  funext index
  rw [leafPath, outTree.leaves, pathAt]

variable {index : Nat}

/-- `GetMerklePath` finds the path of an out among nodes of its tree. -/
theorem OutTree.getMerklePathAmong_eq (isOut : outs[index]? = some out) {created : List Place}
    (stand : ∀ place ∈ created, StandsIn tree place)
    (present : ∃ place ∈ created, treeRoot place.1 = digest out) :
    getMerklePathAmong created (treeRoot tree) (digest out) = .ok (pathAt outs tree index) := by
  have treeOf : TreeOf tree outs := treeOf_iff.mpr ⟨outTree.encodable, outTree.leaves⟩
  have full : fullTree tree.leaves = some tree := outTree.leaves ▸ outTree.built
  have within : HashTree.Within nodeHash (nodePairs (hashedForRoot outs))
      (outHashes (hashedForRoot outs)) tree :=
    treeOf.within (fun _ inOuts => .inl inOuts) fun _ inNodes => .inr ⟨tree, treeOf, full, inNodes⟩
  have isLeaf : tree.leaves[index]? = some (digest out) := by
    rw [outTree.leaves, List.getElem?_map, isOut]
    rfl
  rw [outTree.pathAt_eq]
  refine Merkle.getMerklePathAmong_eq (outTree.leaves ▸ outTree.distinct) isLeaf ?_ stand present
  intro sub inTree root
  exact HashTree.eq_of_digest_eq (separated_of_injOn outTree.injective) (within.subtree inTree)
    (within.subtree ((HashTree.mem_subtrees_iff _ _).mpr ⟨_, HashTree.plug_framesAt isLeaf⟩)) root

theorem OutTree.fullMerklePath_eq (isOut : outs[index]? = some out) :
    fullMerklePath (outs.map digest) (digest out) = .ok (pathAt outs tree index) := by
  rw [fullMerklePath, outTree.built]
  refine outTree.getMerklePathAmong_eq isOut (fun place => standsIn_of_mem_places)
    (exists_mem_places ?_)
  rw [outTree.leaves]
  exact List.mem_map_of_mem (List.mem_of_getElem? isOut)

theorem OutTree.siblingsOf_eq (bound : index < outs.length) :
    siblingsOf tree 0 index = (pathAt outs tree index).hashes.elems.tail := by
  rw [outTree.pathAt_eq]
  exact siblingsOf_eq_leafPath (by rwa [outTree.leaves, List.length_map])

/-- The slim block of a shard rebuilds to a tree with the root and the Merkle paths of
the full tree. -/
theorem OutTree.rebuild_rangeClip (range : ShardRange outs shard start stop)
    (nonempty : outs ≠ []) :
    ∃ clipped, (rangeClip outs start stop (pathAt outs tree (firstIndex start))
        (pathAt outs tree (pastIndex outs stop - 1))).rebuild (treeRoot tree) shard = .ok clipped ∧
      ∀ position out, outs[position]? = some out → out.outPoint.shard = shard →
        clipped.getMerklePath (digest out) = .ok (pathAt outs tree position) := by
  have ordered := range.ordered
  have bound := range.bound
  have less := range.firstIndex_lt nonempty
  have pastBound : pastIndex outs stop ≤ outs.length := Nat.min_le_right _ _
  obtain ⟨clip, clipEq⟩ : ∃ clip, clip = rangeClip outs start stop
    (pathAt outs tree (firstIndex start)) (pathAt outs tree (pastIndex outs stop - 1)) := ⟨_, rfl⟩
  have clipOuts : clip.outs = (outs.take (pastIndex outs stop)).drop (firstIndex start) := by
    rw [clipEq]
    exact shardOuts_eq ordered bound
  have part : PartOf (outs.map digest) (firstIndex start) (pastIndex outs stop)
      (clip.builder (clip.outs.map digest)) := by
    refine ⟨?_, less, by rwa [List.length_map], ?_⟩
    · rw [clipEq]
      simp only [ClipTreeData.builder, rangeClip, firstIndex]
      split <;> omega
    · rw [ClipTreeData.builder, clipOuts, List.map_drop, List.map_take]
  obtain ⟨clipped, ran, clips⟩ := ClippedBuilder.newClippedMerkleTree_clips part (by
      rw [clipEq, List.length_map]
      rfl) outTree.built (by
      rw [outTree.siblingsOf_eq (by omega), clipEq]
      exact List.prefix_rfl) (by
      rw [outTree.siblingsOf_eq (by omega), clipEq]
      exact List.prefix_rfl)
  rw [← clipEq]
  refine ⟨clipped, ClipTreeData.rebuild_eq_ok.mpr ⟨?_, ?_, ran, clips.root⟩, ?_⟩
  · rw [clipEq]
    exact range.verifyIntegrity _ _
  · intro out inClip
    rw [clipOuts] at inClip
    exact outTree.encodable out (List.mem_of_mem_take (List.mem_of_mem_drop inClip))
  · intro position out isOut inShard
    have isLeaf : (outs.map digest)[position]? = some (digest out) := by
      rw [List.getElem?_map, isOut]
      rfl
    have inOuts := (List.getElem?_eq_some_iff.mp isOut).1
    have lower : start ≤ position := by
      by_contra below
      exact UInt32.ne_of_lt (range.before position out (Nat.lt_of_not_le below) isOut) inShard
    have upper : position < stop := by
      by_contra above
      exact UInt32.ne_of_lt (range.after position out (Nat.le_of_not_lt above) isOut) inShard.symm
    rw [ClippedTree.getMerklePath, clips.root]
    refine outTree.getMerklePathAmong_eq isOut clips.stand (clips.present position _ ?_ ?_ ?_ isLeaf)
    · unfold firstIndex
      omega
    · unfold pastIndex
      omega
    · have : tree.count = outs.length := by
        rw [HashTree.count, outTree.leaves, List.length_map]
      unfold Inside
      omega

/-- One iteration of the loop over the shards. -/
theorem OutTree.clipShard_eq (sorted : Sorted outs) (nonempty : outs ≠ [])
    (bound : index ≤ outs.length)
    (before : ∀ position out, position < index → outs[position]? = some out →
      out.outPoint.shard < shard) :
    ∃ start stop, ShardRange outs shard start stop ∧ clipShard outs (outs.map digest) shard index =
        .ok (rangeClip outs start stop (pathAt outs tree (firstIndex start))
          (pathAt outs tree (pastIndex outs stop - 1)), stop) := by
  obtain ⟨start, startEq⟩ : ∃ start, start =
    advance (fun out => out.outPoint.shard < shard) outs index := ⟨_, rfl⟩
  obtain ⟨stop, stopEq⟩ : ∃ stop, stop =
    advance (fun out => out.outPoint.shard = shard) outs start := ⟨_, rfl⟩
  have range : ShardRange outs shard start stop := by
    rw [stopEq, startEq]
    exact shardRange_advance sorted bound before
  have less := range.firstIndex_lt nonempty
  have pastBound : pastIndex outs stop ≤ outs.length := Nat.min_le_right _ _
  have segment := shardOuts_eq range.ordered range.bound
  obtain ⟨first, isFirst⟩ : ∃ first, outs[firstIndex start]? = some first :=
    ⟨_, List.getElem?_eq_getElem (less.trans_le pastBound)⟩
  obtain ⟨last, isLast⟩ : ∃ last, outs[pastIndex outs stop - 1]? = some last :=
    ⟨_, List.getElem?_eq_getElem (by omega)⟩
  have isHead : (shardOuts outs start stop).head? = some first := by
    rw [segment, List.head?_eq_getElem?, List.getElem?_drop, List.getElem?_take, if_pos (by omega)]
    exact isFirst
  have isEnd : (shardOuts outs start stop).getLast? = some last := by
    rw [segment, List.getLast?_eq_getElem?, List.getElem?_drop, List.length_drop, List.length_take,
      Nat.min_eq_left pastBound, List.getElem?_take, if_pos (by omega), ← isLast]
    congr 1
    omega
  refine ⟨start, stop, range, ?_⟩
  simp only [clipShard, ← startEq, ← stopEq, isHead, isEnd]
  exact bind_eq_ok.mpr ⟨_, outTree.encodable first (List.mem_of_getElem? isFirst),
    bind_eq_ok.mpr ⟨_, outTree.fullMerklePath_eq isFirst,
    bind_eq_ok.mpr ⟨_, outTree.encodable last (List.mem_of_getElem? isLast),
    bind_eq_ok.mpr ⟨_, outTree.fullMerklePath_eq isLast, rfl⟩⟩⟩⟩

end

variable {block : MsgBlock}

/-- A slim block rebuilds to a tree in which the outs of its shard have the Merkle paths
of the full tree. -/
def IsComplete (block : MsgBlock) (slim : SlimBlock) : Prop :=
  ∃ clipped, slim.clipTreeData.rebuild block.header.outsMerkleRoot slim.toShard = .ok clipped ∧
    ∀ out ∈ block.body.outs, out.outPoint.shard = slim.toShard →
      ∃ path, clipped.getMerklePath (digest out) = .ok path ∧
        fullMerklePath (block.body.outs.map digest) (digest out) = .ok path

/-- The loop over the shards. -/
theorem OutTree.cutShards_complete (outTree : OutTree block.body.outs tree)
    (sorted : Sorted block.body.outs) (nonempty : block.body.outs ≠ [])
    (rooted : block.header.outsMerkleRoot = treeRoot tree) {shards : List ShardIndex}
    (increasing : shards.Pairwise (· < ·)) (bound : index ≤ block.body.outs.length)
    (before : ∀ shard ∈ shards, ∀ position out, position < index →
      block.body.outs[position]? = some out → out.outPoint.shard < shard) :
    ∃ slimBlocks, cutShards block (block.body.outs.map digest) index shards = .ok slimBlocks ∧
      slimBlocks.map SlimBlock.toShard = shards ∧ ∀ slim ∈ slimBlocks, IsComplete block slim := by
  induction shards generalizing index with
  | nil => exact ⟨[], rfl, rfl, by simp⟩
  | cons shard shards ih =>
    rw [List.pairwise_cons] at increasing
    obtain ⟨start, stop, range, cut⟩ :=
      outTree.clipShard_eq sorted nonempty bound (before shard List.mem_cons_self)
    obtain ⟨rest, cutRest, restShards, restComplete⟩ := @ih stop increasing.2 range.bound (by
        intro later inShards position out below isOut
        refine UInt32.lt_of_le_of_lt ?_ (increasing.1 later inShards)
        rcases Nat.lt_or_ge position start with early | late
        · exact UInt32.le_of_lt (range.before position out early isOut)
        · exact UInt32.le_of_eq (range.within position out late below isOut))
    refine ⟨slimBlock block shard _ :: rest, bind_eq_ok.mpr ⟨_, cut, bind_eq_ok.mpr
      ⟨_, cutRest, rfl⟩⟩, congrArg (shard :: ·) restShards, ?_⟩
    refine List.forall_mem_cons.mpr ⟨?_, restComplete⟩
    obtain ⟨clipped, rebuilt, paths⟩ := outTree.rebuild_rangeClip range nonempty
    refine ⟨clipped, by rw [rooted]; exact rebuilt, fun out inOuts inShard => ?_⟩
    obtain ⟨position, isOut⟩ := List.mem_iff_getElem?.mp inOuts
    exact ⟨_, paths position out isOut inShard, outTree.fullMerklePath_eq isOut⟩

/-- A block with outs can be cut into slim blocks that rebuild to the Merkle paths of its
outs. -/
theorem exists_getSlimBlocksFromBlock (notEmpty : block.header.isEmptyBlock = false)
    (sorted : Sorted block.body.outs) (encodable : ∀ out ∈ block.body.outs, Encodable out)
    (distinct : (block.body.outs.map digest).Nodup)
    (injective : Set.InjOn sha256 (hashedForRoot block.body.outs))
    (rooted : block.header.outsMerkleRoot = fullRoot (block.body.outs.map digest))
    (nonempty : block.body.outs ≠ []) :
    ∃ slimBlocks, getSlimBlocksFromBlock block = .ok slimBlocks ∧
      slimBlocks.map SlimBlock.toShard = shardList ∧ ∀ slim ∈ slimBlocks, IsComplete block slim := by
  have whole := leaves_fullTree (block.body.outs.map digest)
  rw [if_neg (by simpa using nonempty), Option.map_eq_some_iff] at whole
  obtain ⟨tree, built, -⟩ := whole
  have outTree : OutTree block.body.outs tree := ⟨encodable, built, distinct, injective⟩
  rw [fullRoot, built] at rooted
  obtain ⟨slimBlocks, cut, shards, complete⟩ := outTree.cutShards_complete sorted nonempty rooted
    (by decide : shardList.Pairwise (· < ·)) (Nat.zero_le _) (by simp)
  refine ⟨slimBlocks, ?_, shards, complete⟩
  rw [getSlimBlocksFromBlock, notEmpty, if_neg Bool.false_ne_true]
  exact bind_eq_ok.mpr ⟨_, mapM_merkleHash_iff.mpr ⟨encodable, rfl⟩, cut⟩

/-- A block without outs is only cut if it is marked as empty. -/
theorem getSlimBlocksFromBlock_of_outless (notEmpty : block.header.isEmptyBlock = false)
    (empty : block.body.outs = []) : getSlimBlocksFromBlock block = Go.panic := by
  rw [getSlimBlocksFromBlock, notEmpty, if_neg Bool.false_ne_true, empty]
  simp [shardList, cutShards, clipShard, advance, shardOuts, empty]
  rfl

/-- A block that is not empty can be cut into slim blocks that rebuild to the Merkle
paths of its outs, unless it has no outs. -/
theorem getSlimBlocksFromBlock_complete_iff (block : MsgBlock)
    (notEmpty : block.header.isEmptyBlock = false) (sorted : Sorted block.body.outs)
    (encodable : ∀ out ∈ block.body.outs, Encodable out)
    (distinct : (block.body.outs.map digest).Nodup)
    (injective : Set.InjOn sha256 (hashedForRoot block.body.outs))
    (rooted : block.header.outsMerkleRoot = fullRoot (block.body.outs.map digest)) :
    (∃ slimBlocks, getSlimBlocksFromBlock block = .ok slimBlocks ∧
        slimBlocks.map SlimBlock.toShard = shardList ∧
        ∀ slim ∈ slimBlocks, IsComplete block slim) ↔
      block.body.outs ≠ [] := by
  constructor
  · rintro ⟨slimBlocks, cut, -⟩ empty
    rw [getSlimBlocksFromBlock_of_outless notEmpty empty] at cut
    cases cut
  · exact exists_getSlimBlocksFromBlock notEmpty sorted encodable distinct injective rooted

/-- An out of the shard 2. -/
def shardTwoOut : OutState := { (default : OutPoint) with shard := 2 }.toUnspentOutState

/-- A block with an out of the shard 0 and one of the shard 2. -/
def twoShardBlock : MsgBlock where
  header := { (default : BlockHeader) with
    outsMerkleRoot := fullRoot ([indexedOut 0, shardTwoOut].map digest) }
  body := { (default : BlockBody) with outs := [indexedOut 0, shardTwoOut] }

/-- Outs of two shards. -/
theorem getSlimBlocksFromBlock_complete_twoShardBlock :
    ∃ slimBlocks, getSlimBlocksFromBlock twoShardBlock = .ok slimBlocks ∧
      slimBlocks.map SlimBlock.toShard = shardList ∧
      ∀ slim ∈ slimBlocks, IsComplete twoShardBlock slim := by
  have checked : (∀ out ∈ twoShardBlock.body.outs, out.merkleHash = .ok (digest out)) ∧
      (twoShardBlock.body.outs.map digest).Nodup ∧
      ((rootStrings twoShardBlock.body.outs).dedup.map sha256).Nodup ∧
      ∀ bytes ∈ rootStrings twoShardBlock.body.outs, sha256 bytes ≠ emptyHash := by
    decide +kernel
  obtain ⟨encodable, distinct, hashes⟩ := checked
  have injective := (collisionFree_of_list hashes).injective.mono fun _ => mem_rootStrings
  exact (getSlimBlocksFromBlock_complete_iff twoShardBlock rfl (by unfold Sorted; decide)
    encodable distinct injective rfl).mpr (by decide)

/-- A block without outs that is not marked as empty. -/
def outlessBlock : MsgBlock where
  header := { (default : BlockHeader) with outsMerkleRoot := fullRoot [] }
  body := default

/-- `GetSlimBlocksFromBlock` panics on it. -/
theorem getSlimBlocksFromBlock_outlessBlock :
    outlessBlock.header.isEmptyBlock = false ∧ Sorted outlessBlock.body.outs ∧
      (∀ out ∈ outlessBlock.body.outs, Encodable out) ∧
      (outlessBlock.body.outs.map digest).Nodup ∧
      Set.InjOn sha256 (hashedForRoot outlessBlock.body.outs) ∧
      outlessBlock.header.outsMerkleRoot = fullRoot (outlessBlock.body.outs.map digest) ∧
      getSlimBlocksFromBlock outlessBlock = Go.panic := by
  refine ⟨rfl, List.Pairwise.nil, (fun _ inOuts => by cases inOuts), List.nodup_nil, ?_, rfl, rfl⟩
  rintro first (⟨out, inOuts, -⟩ | ⟨tree, treeOf, -⟩)
  · cases inOuts
  · exact absurd (treeOf_iff.mp treeOf).2 tree.leaves_ne_nil

end MultiVac.Ledger
