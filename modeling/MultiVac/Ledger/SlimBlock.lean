import MultiVac.Ledger.State
import MultiVac.Ledger.TwoLayer
import MultiVac.Merkle.Clipped

/-!
# Slim blocks

A miner sends each shard a slim block, with the outs of the block that belong to
the shard and the out on either side of them. A storage node rebuilds the clipped
tree of outs from it and compares the root with the header.
-/

namespace MultiVac.Ledger

open Lib Wire Merkle

/-- `wire.ClipTreeData`. -/
structure ClipTreeData where
  size : Int
  startIndex : Int
  isLeftOutNil : Bool
  isRightOutNil : Bool
  outs : List OutState
  leftMerklePath : MerklePath
  rightMerklePath : MerklePath

/-- `wire.SlimBlock`. -/
structure SlimBlock where
  toShard : ShardIndex
  header : BlockHeader
  clipTreeData : ClipTreeData
  smartContracts : List SmartContract
  updateActions : Slice UpdateAction
  transactions : List MsgTxWithProofs
  ledgerInfo : LedgerInfo

/-! ### Cutting a block -/

/-- The index after the outs from `index` on that pass a test, as a loop of
`GetSlimBlocksFromBlock` finds it. -/
def advance (test : OutState → Bool) (outs : List OutState) (index : Nat) : Nat :=
  index + ((outs.drop index).takeWhile test).length

/-- The outs that a shard receives: its own, and the one on either side. -/
def shardOuts (outs : List OutState) (start stop : Nat) : List OutState :=
  (if start ≠ 0 then outs[start - 1]?.toList else []) ++
    ((outs.take stop).drop start ++ outs[stop]?.toList)

/-- The data of the clipped tree for the shard whose outs are those from `start` on and
below `stop`. -/
def rangeClip (outs : List OutState) (start stop : Nat)
    (leftMerklePath rightMerklePath : MerklePath) : ClipTreeData where
  size := outs.length
  startIndex := if start ≠ 0 then (start : Int) - 1 else start
  isLeftOutNil := start = 0
  isRightOutNil := stop = outs.length
  outs := shardOuts outs start stop
  leftMerklePath := leftMerklePath
  rightMerklePath := rightMerklePath

/-- One iteration of the loop of `GetSlimBlocksFromBlock` over the shards: the data of
the clipped tree, and where the outs of later shards start. -/
def clipShard (outs : List OutState) (outHashs : List MerkleHash) (shard : ShardIndex)
    (index : Nat) : Go (ClipTreeData × Nat) := do
  let start := advance (fun out => out.outPoint.shard < shard) outs index
  let stop := advance (fun out => out.outPoint.shard = shard) outs start
  match (shardOuts outs start stop).head?, (shardOuts outs start stop).getLast? with
  | some first, some last => do
    let leftMerklePath ← fullMerklePath outHashs (← first.merkleHash)
    let rightMerklePath ← fullMerklePath outHashs (← last.merkleHash)
    return (rangeClip outs start stop leftMerklePath rightMerklePath, stop)
  | _, _ => Go.panic

/-- The slim block of a shard for a block that is not empty. -/
def slimBlock (block : MsgBlock) (shard : ShardIndex) (clipTreeData : ClipTreeData) : SlimBlock :=
  let own := shard = block.header.shardIndex
  { toShard := shard
    header := block.header
    clipTreeData
    smartContracts := block.body.smartContracts
    updateActions := if own then block.body.updateActions else .of []
    transactions := if own then block.body.transactions else []
    ledgerInfo := if own then block.body.ledgerInfo else default }

/-- `getFromEmptyBlock`. -/
def getFromEmptyBlock (block : MsgBlock) : List SlimBlock :=
  shardList.map fun shard =>
    { toShard := shard
      header := block.header
      clipTreeData := {
        size := 0
        startIndex := -1
        isLeftOutNil := true
        isRightOutNil := true
        outs := []
        leftMerklePath := default
        rightMerklePath := default }
      smartContracts := block.body.smartContracts
      updateActions := if shard = block.header.shardIndex then block.body.updateActions else .of []
      transactions := []
      ledgerInfo := default }

/-- The loop of `GetSlimBlocksFromBlock` over the shards. -/
def cutShards (block : MsgBlock) (outHashs : List MerkleHash) :
    Nat → List ShardIndex → Go (List SlimBlock)
  | _, [] => .ok []
  | index, shard :: shards => do
    let (clipTreeData, index) ← clipShard block.body.outs outHashs shard index
    let rest ← cutShards block outHashs index shards
    return slimBlock block shard clipTreeData :: rest

/-- `GetSlimBlocksFromBlock`. -/
def getSlimBlocksFromBlock (block : MsgBlock) : Go (List SlimBlock) :=
  if block.header.isEmptyBlock then
    .ok (getFromEmptyBlock block)
  else do
    let outHashs ← block.body.outs.mapM OutState.merkleHash
    cutShards block outHashs 0 shardList

/-! ### Rebuilding the tree -/

namespace ClipTreeData

variable (clip : ClipTreeData)

/-- The out at an index is the one before the outs of the shard. -/
def IsLeft (index : Nat) : Prop := index = 0 ∧ clip.isLeftOutNil = false

/-- The out at an index is the one after the outs of the shard. -/
def IsRight (index : Nat) : Prop := index + 1 = clip.outs.length ∧ clip.isRightOutNil = false

instance (index : Nat) : Decidable (clip.IsLeft index) := inferInstanceAs (Decidable (_ ∧ _))

instance (index : Nat) : Decidable (clip.IsRight index) := inferInstanceAs (Decidable (_ ∧ _))

/-- One iteration of the loop of `verifyIntegrity`. -/
def verifyOut (shard : ShardIndex) (out : OutState) (index : Nat) : Go Unit := do
  Go.require (!((clip.IsLeft index ∧ shard ≤ out.outPoint.shard) ∨
    (clip.IsRight index ∧ out.outPoint.shard ≤ shard))) "clip tree data has wrong outs"
  Go.require (!(out.outPoint.shard ≠ shard ∧ ¬ clip.IsLeft index ∧ ¬ clip.IsRight index))
    "clip tree data has wrong outs"
  Go.require (!(index ≠ 0 ∧ index + 1 ≠ clip.outs.length ∧ out.outPoint.shard ≠ shard))
    ". clip tree data has wrong outs"

/-- `verifyIntegrity`. -/
def verifyIntegrity (shard : ShardIndex) : Go Unit :=
  clip.outs.zipIdx.forM fun (out, index) => clip.verifyOut shard out index

/-- The builder of the clipped tree. -/
def builder (leaves : List MerkleHash) : ClippedBuilder where
  size := clip.size
  startIndex := clip.startIndex
  leaves := leaves
  leftMerklePath := clip.leftMerklePath
  rightMerklePath := clip.rightMerklePath

/-- `Rebuild`. -/
def rebuild (root : MerkleHash) (shard : ShardIndex) : Go ClippedTree := do
  clip.verifyIntegrity shard
  let leaves ← clip.outs.mapM OutState.merkleHash
  match (clip.builder leaves).newClippedMerkleTree with
  | .error (.error text) => Go.fail ("rebuild clip tree error : " ++ text)
  | .error .panic => Go.panic
  | .ok clipped =>
    Go.require (treeRoot clipped.tree = root)
      "rebuilt clip tree root is not equal to the root in header"
    return clipped

/-- The strings that are hashed when a tree is rebuilt. -/
def rebuildStrings : Set Bytes :=
  encodings clip.outs ∪ {bytes | ∃ leaves clipped, clip.outs.mapM OutState.merkleHash = .ok leaves ∧
    (clip.builder leaves).newClippedMerkleTree = .ok clipped ∧ bytes ∈ nodeStrings clipped.tree}

variable {clip} {shard : ShardIndex}

theorem rebuild_eq_ok {root : MerkleHash} {clipped : ClippedTree} :
    clip.rebuild root shard = .ok clipped ↔
      clip.verifyIntegrity shard = .ok () ∧ (∀ out ∈ clip.outs, Encodable out) ∧
        (clip.builder (clip.outs.map digest)).newClippedMerkleTree = .ok clipped ∧
        treeRoot clipped.tree = root := by
  simp only [rebuild, bind_eq_ok, mapM_merkleHash_iff]
  constructor
  · rintro ⟨_, verified, _, ⟨encodable, rfl⟩, rest⟩
    refine ⟨verified, encodable, ?_⟩
    cases built : (clip.builder (clip.outs.map digest)).newClippedMerkleTree with
    | error fault => cases fault <;> simp [built] at rest
    | ok value =>
      simp only [built, bind_eq_ok, Go.require_eq_ok, decide_eq_true_eq, pure_eq_ok] at rest
      obtain ⟨_, sameRoot, rfl⟩ := rest
      exact ⟨rfl, sameRoot⟩
  · rintro ⟨verified, encodable, built, sameRoot⟩
    refine ⟨(), verified, _, ⟨encodable, rfl⟩, ?_⟩
    simp [built, sameRoot]

/-- The outs on either side that a slim block names lie outside of the shard. -/
theorem boundary_of_verifyIntegrity (verified : clip.verifyIntegrity shard = .ok ()) :
    (clip.isLeftOutNil = false → ∀ out ∈ clip.outs.head?, out.outPoint.shard < shard) ∧
      (clip.isRightOutNil = false → ∀ out ∈ clip.outs.getLast?, shard < out.outPoint.shard) := by
  have checked : ∀ (out : OutState) (index : Nat), clip.outs[index]? = some out →
      (clip.IsLeft index → out.outPoint.shard < shard) ∧
        (clip.IsRight index → shard < out.outPoint.shard) := by
    intro out index isOut
    have verifiedOut := forM_eq_ok_iff.mp verified (out, index)
      (List.mk_mem_zipIdx_iff_getElem?.mpr isOut)
    simp only [verifyOut, bind_eq_ok, Go.require_eq_ok, Bool.not_eq_true',
      decide_eq_false_iff_not, not_or, not_and, UInt32.not_le] at verifiedOut
    obtain ⟨_, ends, -⟩ := verifiedOut
    exact ends
  constructor
  · intro hasLeft out isFirst
    rw [List.head?_eq_getElem?] at isFirst
    exact (checked out 0 isFirst).1 ⟨rfl, hasLeft⟩
  · intro hasRight out isLast
    rw [List.getLast?_eq_getElem?] at isLast
    have nonempty : 0 < clip.outs.length := (Nat.zero_le _).trans_lt
      (List.getElem?_eq_some_iff.mp isLast).1
    exact (checked out _ isLast).2 ⟨by omega, hasRight⟩

end ClipTreeData

/-- The outs that belong to a shard. -/
def outsOf (shard : ShardIndex) (outs : List OutState) : List OutState :=
  outs.filter fun out => out.outPoint.shard = shard

theorem shard_decoded (out : OutState) :
    (Codec.outState.decoded out).outPoint.shard = out.outPoint.shard :=
  UInt32.ofNat_toNat

theorem map_decoded_outsOf (shard : ShardIndex) (outs : List OutState) :
    (outsOf shard outs).map Codec.outState.decoded =
      outsOf shard (outs.map Codec.outState.decoded) := by
  rw [outsOf, outsOf, List.filter_map]
  congr 2
  funext out
  simp only [Function.comp_apply, shard_decoded]

theorem outsOf_append (shard : ShardIndex) (first second : List OutState) :
    outsOf shard (first ++ second) = outsOf shard first ++ outsOf shard second :=
  List.filter_append first second

theorem outsOf_eq_nil_iff {shard : ShardIndex} {outs : List OutState} :
    outsOf shard outs = [] ↔ ∀ out ∈ outs, out.outPoint.shard ≠ shard := by
  simp [outsOf]

/-- The outs of a block are sorted by shard. -/
def Sorted (outs : List OutState) : Prop :=
  outs.Pairwise fun first second => first.outPoint.shard ≤ second.outPoint.shard

/-- A slim block tells the truth about the ends of the tree: where it names no out
before those of the shard, they start the tree, and where it names none after them, they
end it. -/
structure ClipTreeData.HonestEnds (clip : ClipTreeData) : Prop where
  left : clip.isLeftOutNil = true → clip.startIndex = 0
  right : clip.isRightOutNil = true → clip.startIndex + clip.outs.length = clip.size

variable {root : MerkleHash} {shard : ShardIndex} {clipped : ClippedTree}

/-- The root of a clipped tree is the hash of a string. -/
theorem ClipTreeData.treeRoot_ne_emptyHash {clip : ClipTreeData}
    (collisionFree : CollisionFree clip.rebuildStrings)
    (rebuilt : clip.rebuild root shard = .ok clipped) : treeRoot clipped.tree ≠ emptyHash := by
  obtain ⟨-, encodable, built, -⟩ := rebuild_eq_ok.mp rebuilt
  cases shape : clipped.tree with
  | leaf hash =>
    obtain ⟨nonempty, before, after, leavesEq, -⟩ :=
      ClippedBuilder.leaves_newClippedMerkleTree built
    obtain ⟨known, inKnown⟩ := List.exists_mem_of_ne_nil _ nonempty
    obtain rfl : known = hash := by
      have inLeaves : known ∈ clipped.tree.leaves := by simp [leavesEq, inKnown]
      simpa [shape, HashTree.leaves] using inLeaves
    obtain ⟨out, inOuts, rfl⟩ := List.mem_map.mp inKnown
    obtain ⟨bytes, written, same⟩ := (merkleHash_eq_ok_iff _ _).mp (encodable out inOuts)
    rw [show treeRoot (.leaf (digest out)) = sha256 bytes from same.symm]
    exact collisionFree.nonempty bytes (.inl ⟨out, inOuts, written⟩)
  | node left right =>
    refine collisionFree.nonempty _ (.inr ⟨_, clipped, mapM_merkleHash_iff.mpr ⟨encodable, rfl⟩,
      built, (left.digest nodeHash, right.digest nodeHash), ?_, rfl⟩)
    rw [shape]
    exact List.mem_cons_self

variable {clip : ClipTreeData}

/-- The outs of a slim block follow each other in the block, from its start on or to its
end if the slim block says so. -/
theorem ClipTreeData.exists_segment_of_rebuild {outs : List OutState}
    (rooted : outsRoot outs = .ok root)
    (collisionFree : CollisionFree (hashedForRoot outs ∪ clip.rebuildStrings))
    (rebuilt : clip.rebuild root shard = .ok clipped) :
    ∃ before segment after, outs = before ++ (segment ++ after) ∧ segment ≠ [] ∧
      clip.outs.map Codec.outState.decoded = segment.map Codec.outState.decoded ∧
      (clip.startIndex = 0 → before = []) ∧
      (clip.startIndex + clip.outs.length = clip.size → after = []) := by
  obtain ⟨-, clipEncodable, built, sameRoot⟩ := rebuild_eq_ok.mp rebuilt
  obtain ⟨nonempty, before, after, leavesEq, noBefore, noAfter⟩ :=
    ClippedBuilder.leaves_newClippedMerkleTree built
  obtain ⟨rfl, isEmpty⟩ | ⟨tree, treeOf, full, isRoot⟩ := outsRoot_cases rooted
  · exact absurd (sameRoot.trans isEmpty)
      (treeRoot_ne_emptyHash (collisionFree.mono Set.subset_union_right) rebuilt)
  have clipIn : encodings clip.outs ⊆ hashedForRoot outs ∪ clip.rebuildStrings :=
    fun bytes inClip => .inr (.inl inClip)
  have outsIn : encodings outs ⊆ hashedForRoot outs ∪ clip.rebuildStrings :=
    fun bytes inOuts => .inl (.inl inOuts)
  have clippedPairs : ∀ pair ∈ clipped.tree.pairs nodeHash,
      pair ∈ nodePairs (hashedForRoot outs ∪ clip.rebuildStrings) := by
    intro pair inPairs
    exact .inr (.inr ⟨_, clipped, mapM_merkleHash_iff.mpr ⟨clipEncodable, rfl⟩, built, pair,
      inPairs, rfl⟩)
  have within := treeOf.within outsIn fun bytes inNodes => .inl (.inr ⟨tree, treeOf, full, inNodes⟩)
  have atomic : ∀ value ∈ clip.outs.map digest,
      value ∈ outHashes (hashedForRoot outs ∪ clip.rebuildStrings) := by
    intro value isKnown
    obtain ⟨out, inOuts, rfl⟩ := List.mem_map.mp isKnown
    exact digest_mem_outHashes (clipEncodable out inOuts)
      (encodings_subset_iff.mp clipIn out inOuts)
  obtain ⟨earlier, later, wholeLeaves, noEarlier, noLater⟩ :=
    HashTree.exists_around_of_digest_eq collisionFree.separated clippedPairs within
      (sameRoot.trans isRoot) leavesEq atomic
  obtain ⟨encodable, treeLeaves⟩ := treeOf_iff.mp treeOf
  rw [treeLeaves] at wholeLeaves
  obtain ⟨outsBefore, rest, rfl, rfl, restDigests⟩ := List.map_eq_append_iff.mp wholeLeaves
  obtain ⟨segment, outsAfter, rfl, sameDigests, rfl⟩ := List.map_eq_append_iff.mp restDigests
  have inSegment : ∀ out ∈ segment, out ∈ outsBefore ++ (segment ++ outsAfter) := by
    intro out inSegment
    simp [inSegment]
  refine ⟨outsBefore, segment, outsAfter, rfl, ?_, ?_, ?_, ?_⟩
  · rintro rfl
    exact nonempty sameDigests.symm
  · refine collisionFree.map_decoded_eq clipIn ?_ (mapM_merkleHash_iff.mpr ⟨clipEncodable, rfl⟩)
      (mapM_merkleHash_iff.mpr ⟨fun out isIn => encodable out (inSegment out isIn),
        sameDigests.symm⟩)
    rintro bytes ⟨out, isIn, written⟩
    exact outsIn ⟨out, inSegment out isIn, written⟩
  · intro atStart
    exact List.map_eq_nil_iff.mp (noEarlier (noBefore atStart))
  · intro atEnd
    refine List.map_eq_nil_iff.mp (noLater (noAfter ?_))
    simpa [ClippedBuilder.endIndex, builder] using atEnd

/-- The outs of a slim block are a piece of the outs of the block. They hold all outs of the
shard exactly if none of them stands before the piece of a slim block without a left out, or
behind the piece of one without a right out, as when it tells the truth about the ends of the
tree. -/
theorem outsOf_rebuild (outs : List OutState) (sorted : Sorted outs) (root : MerkleHash)
    (rooted : outsRoot outs = .ok root) (clip : ClipTreeData)
    (collisionFree : CollisionFree (hashedForRoot outs ∪ clip.rebuildStrings))
    (shard : ShardIndex) (clipped : ClippedTree)
    (rebuilt : clip.rebuild root shard = .ok clipped) :
    ∃ before segment after, outs = before ++ (segment ++ after) ∧
      clip.outs.map Codec.outState.decoded = segment.map Codec.outState.decoded ∧
      ((outsOf shard clip.outs).map Codec.outState.decoded =
          (outsOf shard outs).map Codec.outState.decoded ↔
        (clip.isLeftOutNil = true → outsOf shard before = []) ∧
        (clip.isRightOutNil = true → outsOf shard after = [])) ∧
      (clip.HonestEnds → (outsOf shard clip.outs).map Codec.outState.decoded =
        (outsOf shard outs).map Codec.outState.decoded) := by
  obtain ⟨verified, -⟩ := ClipTreeData.rebuild_eq_ok.mp rebuilt
  obtain ⟨hasLeft, hasRight⟩ := ClipTreeData.boundary_of_verifyIntegrity verified
  obtain ⟨before, segment, after, rfl, nonempty, same, noBefore, noAfter⟩ :=
    clip.exists_segment_of_rebuild rooted collisionFree rebuilt
  rw [Sorted, List.pairwise_append] at sorted
  obtain ⟨-, sortedRest, lower⟩ := sorted
  rw [List.pairwise_append] at sortedRest
  obtain ⟨-, -, upper⟩ := sortedRest
  -- Where the slim block names a left or a right out, nothing is left out on that side.
  have noneBefore : clip.isLeftOutNil = false → outsOf shard before = [] := by
    intro left
    obtain ⟨first, others, rfl⟩ := List.exists_cons_of_ne_nil nonempty
    obtain ⟨clipFirst, clipOthers, clipOuts, firstSame, -⟩ := List.map_eq_cons_iff.mp same
    have below := hasLeft left clipFirst (by simp [clipOuts])
    rw [← shard_decoded, firstSame, shard_decoded] at below
    refine outsOf_eq_nil_iff.mpr fun out inBefore => ?_
    exact UInt32.ne_of_lt (UInt32.lt_of_le_of_lt (lower out inBefore first (by simp)) below)
  have noneAfter : clip.isRightOutNil = false → outsOf shard after = [] := by
    intro right
    obtain ⟨others, last, rfl⟩ := (List.eq_nil_or_concat' segment).resolve_left nonempty
    rw [List.map_append] at same
    obtain ⟨clipOthers, clipLasts, clipOuts, -, lastsSame⟩ := List.map_eq_append_iff.mp same
    obtain ⟨clipLast, rfl, lastSame⟩ := List.map_eq_singleton_iff.mp lastsSame
    have above := hasRight right clipLast (by simp [clipOuts])
    rw [← shard_decoded, lastSame, shard_decoded] at above
    refine outsOf_eq_nil_iff.mpr fun out inAfter => ?_
    exact (UInt32.ne_of_lt (UInt32.lt_of_lt_of_le above (upper last (by simp) out inAfter))).symm
  have complete_iff : (outsOf shard clip.outs).map Codec.outState.decoded =
        (outsOf shard (before ++ (segment ++ after))).map Codec.outState.decoded ↔
      (clip.isLeftOutNil = true → outsOf shard before = []) ∧
      (clip.isRightOutNil = true → outsOf shard after = []) := by
    rw [map_decoded_outsOf, same, ← map_decoded_outsOf, outsOf_append, outsOf_append]
    constructor
    · intro equal
      have lengths := congrArg List.length equal
      simp only [List.length_map, List.length_append] at lengths
      exact ⟨fun _ => List.length_eq_zero_iff.mp (by omega),
        fun _ => List.length_eq_zero_iff.mp (by omega)⟩
    · rintro ⟨left, right⟩
      rw [(Bool.eq_false_or_eq_true _).elim left noneBefore,
        (Bool.eq_false_or_eq_true _).elim right noneAfter, List.nil_append, List.append_nil]
  refine ⟨before, segment, after, rfl, same, complete_iff, fun honest => complete_iff.mpr ⟨?_, ?_⟩⟩
  · intro left
    rw [noBefore (honest.left left)]
    rfl
  · intro right
    rw [noAfter (honest.right right)]
    rfl

/-- The strings that are hashed when a tree is rebuilt, as a list. -/
def ClipTreeData.stringList (clip : ClipTreeData) : List Bytes :=
  outStrings clip.outs ++
    match (clip.builder (clip.outs.map digest)).newClippedMerkleTree with
    | .ok clipped => (clipped.tree.pairs nodeHash).map pairString
    | .error _ => []

theorem ClipTreeData.mem_stringList {bytes : Bytes}
    (isString : bytes ∈ clip.rebuildStrings) : bytes ∈ clip.stringList := by
  rcases isString with inOuts | ⟨leaves, clipped, hashed, built, pair, inPairs, rfl⟩
  · exact List.mem_append_left _ (mem_outStrings inOuts)
  · obtain ⟨-, rfl⟩ := mapM_merkleHash_iff.mp hashed
    refine List.mem_append_right _ ?_
    rw [built]
    exact List.mem_map_of_mem (f := pairString) inPairs

/-- Two outs of one shard. -/
def twoOuts : List OutState := [indexedOut 0, indexedOut 1]

theorem sorted_twoOuts : Sorted twoOuts := by
  unfold Sorted
  decide

/-- A slim block with both of them. -/
def bothClip : ClipTreeData where
  size := 2
  startIndex := 0
  isLeftOutNil := true
  isRightOutNil := true
  outs := twoOuts
  leftMerklePath := pathOf (digest (indexedOut 0)) [(digest (indexedOut 1), rightSide)]
  rightMerklePath := pathOf (digest (indexedOut 1)) [(digest (indexedOut 0), leftSide)]

/-- A slim block that leaves out the first one. -/
def secondClip : ClipTreeData where
  size := 2
  startIndex := 1
  isLeftOutNil := true
  isRightOutNil := true
  outs := [indexedOut 1]
  leftMerklePath := pathOf (digest (indexedOut 1)) [(digest (indexedOut 0), leftSide)]
  rightMerklePath := pathOf (digest (indexedOut 1)) [(digest (indexedOut 0), leftSide)]

/-- What evaluation says about a slim block of the two outs. -/
theorem rebuild_twoOuts
    (checked : (outsRoot twoOuts >>= fun root => (clip.rebuild root 0).map fun _ => ()) = .ok () ∧
      ((rootStrings twoOuts ++ clip.stringList).dedup.map sha256).Nodup ∧
      ∀ bytes ∈ rootStrings twoOuts ++ clip.stringList, sha256 bytes ≠ emptyHash) :
    (∃ root clipped, outsRoot twoOuts = .ok root ∧ clip.rebuild root 0 = .ok clipped) ∧
      CollisionFree (hashedForRoot twoOuts ∪ clip.rebuildStrings) := by
  obtain ⟨runs, distinct⟩ := checked
  obtain ⟨root, rooted, rebuilt⟩ := bind_eq_ok.mp runs
  obtain ⟨clipped, rebuilt, -⟩ := map_eq_ok.mp rebuilt
  refine ⟨⟨root, clipped, rooted, rebuilt⟩, (collisionFree_of_list distinct).mono ?_⟩
  rintro bytes (isHashed | isString)
  · exact List.mem_append_left _ (mem_rootStrings isHashed)
  · exact List.mem_append_right _ (ClipTreeData.mem_stringList isString)

/-- The slim block with both outs is complete. -/
theorem outsOf_rebuild_bothClip :
    ∃ root clipped, outsRoot twoOuts = .ok root ∧ bothClip.rebuild root 0 = .ok clipped ∧
      (outsOf 0 bothClip.outs).map Codec.outState.decoded =
        (outsOf 0 twoOuts).map Codec.outState.decoded := by
  obtain ⟨⟨root, clipped, rooted, rebuilt⟩, collisionFree⟩ :=
    @rebuild_twoOuts bothClip (by decide +kernel)
  obtain ⟨-, -, -, -, -, -, complete⟩ := outsOf_rebuild twoOuts sorted_twoOuts root rooted bothClip
    collisionFree 0 clipped rebuilt
  exact ⟨root, clipped, rooted, rebuilt, complete ⟨fun _ => rfl, fun _ => rfl⟩⟩

/-- Both outs belong to the shard, but the slim block with one of them is accepted. -/
theorem outsOf_rebuild_secondClip :
    ∃ root clipped, Sorted twoOuts ∧ outsRoot twoOuts = .ok root ∧
      CollisionFree (hashedForRoot twoOuts ∪ secondClip.rebuildStrings) ∧
      secondClip.rebuild root 0 = .ok clipped ∧
      (outsOf 0 secondClip.outs).map Codec.outState.decoded ≠
        (outsOf 0 twoOuts).map Codec.outState.decoded := by
  obtain ⟨⟨root, clipped, rooted, rebuilt⟩, collisionFree⟩ :=
    @rebuild_twoOuts secondClip (by decide +kernel)
  refine ⟨root, clipped, sorted_twoOuts, rooted, collisionFree, rebuilt, ?_⟩
  intro same
  have lengths := congrArg List.length same
  rw [List.length_map, List.length_map] at lengths
  exact absurd lengths (by decide)

end MultiVac.Ledger
