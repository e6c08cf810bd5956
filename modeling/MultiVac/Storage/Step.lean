import MultiVac.Ledger.Clock
import MultiVac.Storage.Node

/-!
# One step of the ledger

`maybeUpdateLedger` either finds that it cannot go on and changes nothing, or it applies
the next block. It returns early, with the block applied in part, when a block to be
mounted is not for this shard or its tree cannot be rebuilt.
-/

namespace MultiVac.Storage

open Lib Wire Merkle Ledger

theorem mem_heightsAbove {previousHeight newHeight height : Int} :
    height ∈ heightsAbove previousHeight newHeight ↔
      previousHeight < height ∧ height ≤ newHeight := by
  simp only [heightsAbove, List.mem_map, List.mem_range]
  constructor
  · rintro ⟨offset, less, rfl⟩
    omega
  · rintro ⟨above, below⟩
    exact ⟨(height - previousHeight - 1).toNat, by omega, by omega⟩

namespace StorageNode

variable {genesis : Genesis} {node new : StorageNode} {slimblock : SlimBlock}

/-! ### What a step may change -/

/-- Two states of a node that differ at most in the ledger tree and the pools. -/
structure SameChain (node new : StorageNode) : Prop where
  shardIndex : new.shardIndex = node.shardIndex
  shardHeight : new.shardHeight = node.shardHeight
  ledgerInfo : new.ledgerInfo = node.ledgerInfo
  state : new.state = node.state
  slimBlocks : new.slimBlocks = node.slimBlocks
  confirmedHeaders : new.confirmedHeaders = node.confirmedHeaders
  receivedBlocks : new.receivedBlocks = node.receivedBlocks

theorem SameChain.refl (node : StorageNode) : SameChain node node :=
  ⟨rfl, rfl, rfl, rfl, rfl, rfl, rfl⟩

theorem SameChain.trans {third : StorageNode} (first : SameChain node new)
    (second : SameChain new third) : SameChain node third where
  shardIndex := second.shardIndex.trans first.shardIndex
  shardHeight := second.shardHeight.trans first.shardHeight
  ledgerInfo := second.ledgerInfo.trans first.ledgerInfo
  state := second.state.trans first.state
  slimBlocks := second.slimBlocks.trans first.slimBlocks
  confirmedHeaders := second.confirmedHeaders.trans first.confirmedHeaders
  receivedBlocks := second.receivedBlocks.trans first.receivedBlocks

/-- A loop whose steps only change the ledger tree and the pools. -/
theorem sameChain_foldlM {α : Type} {step : StorageNode → α → Go StorageNode}
    (steps : ∀ node input next, step node input = .ok next → SameChain node next) {inputs : List α}
    (looped : inputs.foldlM step node = .ok new) : SameChain node new :=
  foldlM_invariant (fun current input _ next stepped same =>
    SameChain.trans same (steps current input next stepped)) looped (SameChain.refl node)

theorem sameChain_spendInput {tx : MsgTx} {outPoint : OutPoint}
    (spent : spendInput tx node outPoint = .ok new) : SameChain node new := by
  simp only [spendInput, bind_eq_ok, pure_eq_ok] at spent
  obtain ⟨_, _, _, _, _, _, _, _, rfl⟩ := spent
  exact ⟨rfl, rfl, rfl, rfl, rfl, rfl, rfl⟩

theorem sameChain_spendInputs {txs : List MsgTxWithProofs}
    (spent : node.spendInputs txs = .ok new) : SameChain node new := by
  refine sameChain_foldlM (fun node tx next stepped => ?_) spent
  split at stepped
  · obtain rfl := pure_eq_ok.mp stepped
    exact SameChain.refl node
  · exact sameChain_foldlM (fun _ _ _ => sameChain_spendInput) stepped

theorem sameChain_processDeposit {out : OutState}
    (processed : node.processDeposit out = .ok new) : SameChain node new := by
  rw [processDeposit] at processed
  split at processed
  · simp only [bind_eq_ok] at processed
    obtain ⟨_, _, proof, _, processed⟩ := processed
    cases proof with
    | none =>
      obtain rfl := pure_eq_ok.mp processed
      exact SameChain.refl node
    | some proof =>
      simp only [bind_eq_ok, pure_eq_ok] at processed
      obtain ⟨_, _, rfl⟩ := processed
      exact ⟨rfl, rfl, rfl, rfl, rfl, rfl, rfl⟩
  · obtain rfl := pure_eq_ok.mp processed
    exact SameChain.refl node

theorem sameChain_saveDeposits {entry : IndexAndHeight}
    (saved : node.saveDeposits entry = .ok new) : SameChain node new := by
  have processed := sameChain_foldlM (fun _ _ _ => sameChain_processDeposit) saved
  exact { processed with }

theorem sameChain_tryToSaveDeposit (saved : node.tryToSaveDeposit = .ok new) :
    SameChain node new := by
  rw [tryToSaveDeposit] at saved
  split at saved
  · obtain rfl := Except.ok.inj saved
    exact SameChain.refl node
  · split at saved
    · split at saved
      · cases saved
      · simp only [bind_eq_ok, pure_eq_ok] at saved
        obtain ⟨between, looped, rfl⟩ := saved
        have same := sameChain_foldlM (fun _ _ _ => sameChain_saveDeposits) looped
        exact { same with }
    · obtain rfl := Except.ok.inj saved
      exact SameChain.refl node

/-- Before blocks are mounted, the state has been updated with the block, and of the clock
vector the size. -/
theorem of_spendAndUpdate (applied : node.spendAndUpdate slimblock = .ok new) :
    (∃ update, getUpdateWithSlimBlock node.state slimblock = .ok update ∧
      node.state.applyUpdate update = .ok new.state) ∧
    SameChain { node with
      state := new.state
      ledgerInfo := { node.ledgerInfo with size := slimblock.ledgerInfo.size } } new := by
  simp only [spendAndUpdate, updateStateBySlimblock, bind_eq_ok, pure_eq_ok,
    Go.orPanic_eq_ok] at applied
  obtain ⟨spent, isSpent, saved, isSaved, _, ⟨update, isUpdate, _, _, _, _, _, _, state, isState,
    rfl⟩, rfl⟩ := applied
  have same := (sameChain_spendInputs isSpent).trans (sameChain_tryToSaveDeposit isSaved)
  rw [same.state] at isUpdate isState
  exact ⟨⟨update, isUpdate, isState⟩, { same with
    state := rfl
    ledgerInfo := by rw [← same.ledgerInfo] }⟩

/-! ### Blocks to be mounted -/

/-- The block of a shard and height is a genesis block, or what is stored for it is an
empty block or a block for this shard whose tree can be rebuilt. -/
def Mountable (node : StorageNode) (shardIndex : ShardIndex) (height : Int) : Prop :=
  height = 1 ∨ ∀ slimBlock, node.getSlimBlock shardIndex height = some slimBlock →
    slimBlock.header.isEmptyBlock = true ∨ slimBlock.toShard = node.shardIndex ∧ ∃ clipped,
        slimBlock.clipTreeData.rebuild slimBlock.header.outsMerkleRoot slimBlock.toShard =
          .ok clipped

/-- All blocks between the heights of the node and those of a clock vector can be mounted. -/
def AllMountable (node : StorageNode) (info : LedgerInfo) (shards : List ShardIndex) : Prop :=
  ∀ shardIndex ∈ shards, ∀ height ∈ heightsAbove (getShardHeight node.ledgerInfo shardIndex)
    (getShardHeight info shardIndex), node.Mountable shardIndex height

variable {shard : ShardIndex}

/-- The loop goes on after a block exactly when the block can be mounted. -/
theorem mountable_iff_of_mountBlock {tree : DiskTree} {height : Int} {result : Option DiskTree}
    (mounted : node.mountBlock genesis shard tree height = .ok result) :
    node.Mountable shard height ↔ result.isSome := by
  rw [mountBlock] at mounted
  split at mounted
  · rename_i isGenesis
    obtain ⟨_, _, same⟩ := bind_eq_ok.mp mounted
    obtain rfl := pure_eq_ok.mp same
    exact iff_of_true (.inl isGenesis) rfl
  · rename_i noGenesis
    cases stored : node.getSlimBlock shard height with
    | none => simp [stored] at mounted
    | some slimBlock =>
      simp only [Mountable, noGenesis, false_or, stored, Option.some.injEq, forall_eq']
      simp only [stored] at mounted
      split at mounted
      · rename_i isEmpty
        obtain rfl := pure_eq_ok.mp mounted
        exact iff_of_true (.inl isEmpty) rfl
      · rename_i notEmpty
        simp only [notEmpty, Bool.false_eq_true, false_or]
        split at mounted
        · rename_i otherShard
          obtain rfl := pure_eq_ok.mp mounted
          exact iff_of_false (fun same => otherShard same.1.symm) (by simp)
        · rename_i ownShard
          rw [not_not] at ownShard
          obtain ⟨rebuilt, isRebuilt, mounted⟩ := bind_eq_ok.mp mounted
          cases rebuilt with
          | none =>
            obtain ⟨text, failed⟩ := (Go.attempt_eq_ok_none _).mp isRebuilt
            obtain rfl := pure_eq_ok.mp mounted
            simp [failed]
          | some clipped =>
            have succeeded := (Go.attempt_eq_ok_some _ _).mp isRebuilt
            obtain ⟨outsMounted, _, mounted⟩ := bind_eq_ok.mp mounted
            refine iff_of_true ⟨ownShard.symm, clipped, succeeded⟩ ?_
            split at mounted
            · obtain ⟨_, _, same⟩ := bind_eq_ok.mp mounted
              obtain rfl := pure_eq_ok.mp same
              rfl
            · obtain rfl := pure_eq_ok.mp mounted
              rfl

/-! ### The whole of a block -/

/-- Mount the blocks of a shard at all given heights, or fail. -/
def mountAll (genesis : Genesis) (node : StorageNode) (shardIndex : ShardIndex) (tree : DiskTree)
    (heights : List Int) : Go DiskTree :=
  heights.foldlM (fun tree height => do
    match ← node.mountBlock genesis shardIndex tree height with
    | none => Go.fail "a block is not mounted"
    | some tree => return tree) tree

/-- Mount the blocks of all given shards, or fail. -/
def mountAllShards (genesis : Genesis) (ledgerInfo : LedgerInfo) (node : StorageNode) :
    List ShardIndex → Go StorageNode
  | [] => .ok node
  | shardIndex :: shards => do
    let newHeight := getShardHeight ledgerInfo shardIndex
    let ledgerTree ← node.mountAll genesis shardIndex node.ledgerTree
      (heightsAbove (getShardHeight node.ledgerInfo shardIndex) newHeight)
    mountAllShards genesis ledgerInfo
      (persistentInfo { node with
        ledgerTree
        ledgerInfo := setShardHeight node.ledgerInfo shardIndex newHeight }) shards

/-- The node after a block with all its parts, or a failure. -/
def applyBlock (genesis : Genesis) (node : StorageNode) (slimblock : SlimBlock) :
    Go StorageNode :=
  let node := { node with shardHeight := node.shardHeight + 1 }
  if slimblock.header.isEmptyBlock then .ok node.persistentInfo
  else do
    let node ← node.spendAndUpdate slimblock
    node.mountAllShards genesis slimblock.ledgerInfo shardList

/-- The loop over the heights comes to its end exactly when all blocks can be mounted. -/
theorem of_mountBlocks {tree newTree : DiskTree} {heights : List Int} {ended : Bool}
    (mounted : node.mountBlocks genesis shard tree heights = .ok (newTree, ended)) :
    ((∀ height ∈ heights, node.Mountable shard height) ↔ ended = true) ∧
      (ended = true → node.mountAll genesis shard tree heights = .ok newTree) := by
  induction heights generalizing tree with
  | nil =>
    obtain ⟨rfl, rfl⟩ := Prod.mk.inj (Except.ok.inj mounted)
    exact ⟨by simp, fun _ => rfl⟩
  | cons height heights ih =>
    obtain ⟨result, isResult, rest⟩ := bind_eq_ok.mp mounted
    have mountable := mountable_iff_of_mountBlock isResult
    rw [List.forall_mem_cons, mountable]
    cases result with
    | none =>
      obtain ⟨rfl, rfl⟩ := Prod.mk.inj (pure_eq_ok.mp rest)
      simp
    | some between =>
      obtain ⟨all, whole⟩ := ih rest
      refine ⟨by simpa using all, fun isEnded => ?_⟩
      rw [mountAll, List.foldlM_cons, isResult]
      exact whole isEnded

variable {info : LedgerInfo} {shards : List ShardIndex}

/-- The loop over the shards either mounts all blocks, or it stops at a shard whose height
in the clock vector then stays behind. -/
theorem of_mountShards (distinct : shards.Nodup)
    (mounted : node.mountShards genesis info shards = .ok new) :
    node.AllMountable info shards ∧ node.mountAllShards genesis info shards = .ok new ∨
      ¬ node.AllMountable info shards ∧ ∃ shard ∈ shards,
        getShardHeight new.ledgerInfo shard ≠ getShardHeight info shard := by
  induction shards generalizing node with
  | nil => exact .inl ⟨by simp [AllMountable], mounted⟩
  | cons shard shards ih =>
    obtain ⟨notLater, distinctRest⟩ := List.nodup_cons.mp distinct
    rw [mountShards, bind_eq_ok] at mounted
    obtain ⟨⟨ledgerTree, ended⟩, blocks, rest⟩ := mounted
    obtain ⟨all, whole⟩ := of_mountBlocks blocks
    have first : node.AllMountable info (shard :: shards) ↔
        ended = true ∧ node.AllMountable info shards := by
      rw [AllMountable, List.forall_mem_cons, all, AllMountable]
    cases ended with
    | false =>
      obtain rfl := pure_eq_ok.mp rest
      refine .inr ⟨by simp [first], shard, List.mem_cons_self, fun same => ?_⟩
      -- nothing is to be mounted when the heights are the same
      refine Bool.false_ne_true (all.mp fun height between => ?_)
      have := mem_heightsAbove.mp between
      simp only at same
      omega
    | true =>
      -- the heights of the other shards are the same after the mounts of this one
      have others : ∀ other ∈ shards, getShardHeight (setShardHeight node.ledgerInfo shard
          (getShardHeight info shard)) other = getShardHeight node.ledgerInfo other := by
        intro other inRest
        rw [getShardHeight_setShardHeight, if_neg]
        rintro rfl
        exact notLater inRest
      have same : AllMountable (persistentInfo { node with
          ledgerTree
          ledgerInfo := setShardHeight node.ledgerInfo shard
            (getShardHeight info shard) }) info shards ↔ node.AllMountable info shards := by
        refine forall₂_congr fun other inRest => ?_
        rw [← others other inRest]
        rfl
      rw [first, ← same]
      rcases ih distinctRest rest with ⟨mountable, isNew⟩ | ⟨blocked, stopped⟩
      · refine .inl ⟨⟨rfl, mountable⟩, ?_⟩
        rw [mountAllShards, whole rfl]
        exact isNew
      · obtain ⟨other, inRest, differs⟩ := stopped
        exact .inr ⟨fun both => blocked both.2, other, List.mem_cons_of_mem _ inRest, differs⟩

/-- Mounting blocks changes the ledger tree and the clock vector. -/
theorem sameChain_mountShards (mounted : node.mountShards genesis info shards = .ok new) :
    SameChain { node with ledgerInfo := new.ledgerInfo } new := by
  induction shards generalizing node with
  | nil =>
    obtain rfl := Except.ok.inj mounted
    exact SameChain.refl node
  | cons shard shards ih =>
    rw [mountShards, bind_eq_ok] at mounted
    obtain ⟨⟨ledgerTree, ended⟩, -, rest⟩ := mounted
    cases ended with
    | false =>
      obtain rfl := pure_eq_ok.mp rest
      exact ⟨rfl, rfl, rfl, rfl, rfl, rfl, rfl⟩
    | true => exact { ih rest with }

/-! ### What a block moves -/

/-- The values for a restart are those of the node. -/
structure Persisted (node : StorageNode) : Prop where
  shardHeights : ∀ shardIndex ∈ shardList, node.ledgerTree.db.get (.shardHeight shardIndex) =
    some (.number (getShardHeight node.ledgerInfo shardIndex))
  ledgertreeRoot :
    node.ledgerTree.db.get .ledgertreeRoot = some (.hash (some node.ledgerTree.merkleRoot))
  ledgertreeLastnodehash :
    node.ledgerTree.db.get .ledgertreeLastnodehash = some (.hash node.ledgerTree.lastNodeHash)
  ledgertreeSize : node.ledgerTree.db.get .ledgertreeSize = some (.number node.ledgerTree.size)
  storageShardheight : node.ledgerTree.db.get .storageShardheight = some (.number node.shardHeight)

theorem persisted_persistentInfo (node : StorageNode) : Persisted node.persistentInfo := by
  constructor
  · intro shard inList
    simp only [shardList, List.mem_cons, List.not_mem_nil, or_false] at inList
    rcases inList with rfl | rfl | rfl | rfl <;>
      simp [persistentInfo, shardList, Database.get_put_of_ne]
  all_goals simp [persistentInfo, Database.get_put_of_ne]

/-- The node has moved to a block: its height, its state, its clock vector and the values
for a restart are those after the block. An empty block only has a height. -/
structure Moved (node new : StorageNode) (slimblock : SlimBlock) : Prop where
  shardHeight : new.shardHeight = node.shardHeight + 1
  state :
    if slimblock.header.isEmptyBlock then new.state = node.state
    else ∃ update, getUpdateWithSlimBlock node.state slimblock = .ok update ∧
      node.state.applyUpdate update = .ok new.state
  ledgerInfo :
    if slimblock.header.isEmptyBlock then new.ledgerInfo = node.ledgerInfo
    else new.ledgerInfo.size = slimblock.ledgerInfo.size ∧ ∀ shardIndex ∈ shardList,
      getShardHeight new.ledgerInfo shardIndex = getShardHeight slimblock.ledgerInfo shardIndex
  persisted : Persisted new

theorem size_setShardHeight (info : LedgerInfo) (shard : ShardIndex) (height : Int) :
    (setShardHeight info shard height).size = info.size := by
  rw [setShardHeight]
  split <;> rfl

theorem of_mountAllShards (mounted : node.mountAllShards genesis info shards = .ok new)
    (persisted : shards = [] → Persisted node) :
    new.shardHeight = node.shardHeight ∧ new.state = node.state ∧
      new.ledgerInfo.size = node.ledgerInfo.size ∧ Persisted new ∧
      ∀ shard, getShardHeight new.ledgerInfo shard =
        if shard ∈ shards then getShardHeight info shard
        else getShardHeight node.ledgerInfo shard := by
  induction shards generalizing node with
  | nil =>
    obtain rfl := Except.ok.inj mounted
    exact ⟨rfl, rfl, rfl, persisted rfl, by simp⟩
  | cons first shards ih =>
    obtain ⟨ledgerTree, _, rest⟩ := bind_eq_ok.mp mounted
    obtain ⟨shardHeight, state, size, newPersisted, heights⟩ :=
      ih rest fun _ => persisted_persistentInfo _
    refine ⟨shardHeight, state, size.trans (size_setShardHeight _ _ _), newPersisted,
      fun shard => ?_⟩
    simp only [heights shard, List.mem_cons, persistentInfo, getShardHeight_setShardHeight]
    by_cases isFirst : shard = first
    · simp [isFirst]
    · simp [isFirst]

/-- A block that is applied as a whole moves all parts of the node. -/
theorem moved_of_applyBlock (applied : node.applyBlock genesis slimblock = .ok new) :
    Moved node new slimblock := by
  simp only [applyBlock] at applied
  split at applied
  · rename_i isEmpty
    obtain rfl := Except.ok.inj applied
    exact ⟨rfl, by rw [if_pos isEmpty]; rfl, by rw [if_pos isEmpty]; rfl,
      persisted_persistentInfo _⟩
  · rename_i notEmpty
    obtain ⟨between, isBetween, mounted⟩ := bind_eq_ok.mp applied
    obtain ⟨update, same⟩ := of_spendAndUpdate isBetween
    obtain ⟨shardHeight, state, size, persisted, heights⟩ :=
      of_mountAllShards mounted (by simp [shardList])
    refine ⟨shardHeight.trans same.shardHeight, ?_, ?_, persisted⟩
    · rw [if_neg notEmpty, state]
      exact update
    · rw [if_neg notEmpty]
      refine ⟨size.trans (by rw [same.ledgerInfo]), fun shard inList => ?_⟩
      rw [heights, if_pos inList]

/-- Nothing of what a block moves has changed. -/
structure Unmoved (node new : StorageNode) : Prop where
  shardHeight : new.shardHeight = node.shardHeight
  state : new.state = node.state
  ledgerTree : new.ledgerTree = node.ledgerTree
  ledgerInfo : new.ledgerInfo = node.ledgerInfo

/-- If the next block can be applied and is not empty, all blocks that it mounts can be
mounted. -/
def NextMountable (node : StorageNode) : Prop :=
  node.canUpdateLedger = true → ∀ slimblock,
    node.getSlimBlock node.shardIndex (node.shardHeight + 1) = some slimblock →
      slimblock.header.isEmptyBlock = false → node.AllMountable slimblock.ledgerInfo shardList

/-- A call that returns has applied the next block as a whole, or nothing of it, exactly
when the blocks that the next block mounts can be mounted. -/
theorem unmoved_or_moved_iff (returned : node.maybeUpdateLedger genesis = .ok new) :
    (Unmoved node new ∨ ∃ slimblock,
      node.getSlimBlock node.shardIndex (node.shardHeight + 1) = some slimblock ∧
        node.applyBlock genesis slimblock = .ok new ∧ Moved node new slimblock) ↔
      node.NextMountable := by
  rw [maybeUpdateLedger] at returned
  split at returned
  · rename_i stuck
    obtain rfl := Except.ok.inj returned
    refine iff_of_true (.inl ⟨rfl, rfl, rfl, rfl⟩) fun canUpdate => ?_
    simp [canUpdate] at stuck
  · rename_i canUpdate
    split at returned
    · cases returned
    · rename_i slimblock isNext
      simp only at returned
      split at returned
      · rename_i isEmpty
        have applied : node.applyBlock genesis slimblock = .ok new := by
          simpa [applyBlock, isEmpty] using returned
        refine iff_of_true (.inr ⟨slimblock, isNext, applied, moved_of_applyBlock applied⟩) ?_
        intro _ other isOther notEmpty
        obtain rfl := Option.some.inj (isNext.symm.trans isOther)
        exact absurd isEmpty (by simp [notEmpty])
      · rename_i notEmpty
        obtain ⟨between, isBetween, mounted⟩ := bind_eq_ok.mp returned
        obtain ⟨update, same⟩ := of_spendAndUpdate isBetween
        have sameMountable : between.AllMountable slimblock.ledgerInfo shardList ↔
            node.NextMountable := by
          have moved : between.AllMountable slimblock.ledgerInfo shardList ↔
              node.AllMountable slimblock.ledgerInfo shardList := by
            simp only [AllMountable, Mountable, getSlimBlock, same.ledgerInfo, same.slimBlocks,
              same.shardIndex, getShardHeight]
          rw [moved, NextMountable]
          simp [isNext, notEmpty, by simpa using canUpdate]
        rw [← sameMountable]
        rcases of_mountShards (by decide) mounted with ⟨mountable, whole⟩ | ⟨blocked, stopped⟩
        · have applied : node.applyBlock genesis slimblock = .ok new := by
            simp only [applyBlock, notEmpty, isBetween]
            exact whole
          exact iff_of_true
            (.inr ⟨slimblock, isNext, applied, moved_of_applyBlock applied⟩) mountable
        · refine iff_of_false ?_ blocked
          obtain ⟨shardIndex, inList, behind⟩ := stopped
          rintro (unmoved | ⟨other, isOther, -, moved⟩)
          · have moved := (sameChain_mountShards mounted).shardHeight.trans same.shardHeight
            rw [unmoved.shardHeight] at moved
            simp only at moved
            omega
          · obtain rfl := Option.some.inj (isNext.symm.trans isOther)
            have heights := moved.ledgerInfo
            rw [if_neg notEmpty] at heights
            exact behind (heights.2 shardIndex inList)

/-- A header of the shard 0 over one out. -/
def headerAt (height : Int) : BlockHeader := { (default : BlockHeader) with
  height
  outsMerkleRoot := digest (indexedOut height) }

/-- A slim block with such a header and the given outs. -/
def slimBlockAt (height : Int) (outs : List OutState) (ledgerInfo : LedgerInfo) : SlimBlock where
  toShard := 0
  header := headerAt height
  clipTreeData := {
    size := 1
    startIndex := 0
    isLeftOutNil := true
    isRightOutNil := true
    outs
    leftMerklePath := pathOf (digest (indexedOut height)) []
    rightMerklePath := pathOf (digest (indexedOut height)) [] }
  smartContracts := []
  updateActions := .of []
  transactions := []
  ledgerInfo

/-- Genesis blocks whose trees are single leaves. -/
def leafGenesis : Genesis := ⟨fun _ => .fill 1, fun _ => .leaf (.fill 1)⟩

/-- A node of the shard 0 at height 2. The next block mounts the block 2, for which a slim
block with the given outs is stored. -/
def nodeAtTwo (outs : List OutState) : StorageNode where
  ledgerTree := {
    db := (emptyDiskTree.newNode (.fill 1)).2.db
    cursor := 1
    size := 1
    merkleRoot := .fill 1
    lastNodeHash := some (.fill 1) }
  shardIndex := 0
  shardHeight := 2
  ledgerInfo := ⟨1, [⟨0, 1⟩]⟩
  txpool := .empty
  state := {
    tree := ⟨.fill 1, 1, pathOf (.fill 1) []⟩
    shardHeights := fun shardIndex => if shardIndex = 0 then 1 else 0
    chain := ⟨[headerAt 2]⟩ }
  slimBlocks := (AList.singleton (0, 0, 2) (slimBlockAt 2 outs ⟨1, [⟨0, 1⟩]⟩)).insert (0, 0, 3)
    (slimBlockAt 3 [] ⟨2, [⟨0, 2⟩]⟩)
  dPool := ∅
  confirmedHeaders := ∅
  receivedBlocks := ∅
  depositManager := .empty
  updateFailCnt := 0

theorem getSlimBlock_nodeAtTwo (outs : List OutState) :
    (nodeAtTwo outs).getSlimBlock 0 3 = some (slimBlockAt 3 [] ⟨2, [⟨0, 2⟩]⟩) ∧
      (nodeAtTwo outs).getSlimBlock 0 2 = some (slimBlockAt 2 outs ⟨1, [⟨0, 1⟩]⟩) :=
  ⟨rfl, rfl⟩

theorem allMountable_nodeAtTwo {outs : List OutState}
    (rebuilds : ∃ clipped, (slimBlockAt 2 outs ⟨1, [⟨0, 1⟩]⟩).clipTreeData.rebuild
      (digest (indexedOut 2)) 0 = .ok clipped) :
    (nodeAtTwo outs).AllMountable ⟨2, [⟨0, 2⟩]⟩ shardList := by
  intro shard inList height between
  obtain ⟨above, below⟩ := mem_heightsAbove.mp between
  simp only [shardList, List.mem_cons, List.not_mem_nil, or_false] at inList
  rcases inList with rfl | rfl | rfl | rfl
  · obtain rfl : height = 2 := by
      simp only [nodeAtTwo, getShardHeight, List.find?, decide_true] at above below
      omega
    refine .inr fun slimBlock stored => ?_
    obtain rfl := Option.some.inj ((getSlimBlock_nodeAtTwo outs).2.symm.trans stored)
    exact .inr ⟨rfl, rebuilds⟩
  all_goals
    have empty : (0 : Int) < 0 := above.trans_le below
    exact absurd empty (lt_irrefl 0)

/-- With the out of the block 2, the next block is applied as a whole. -/
theorem unmoved_or_moved_nodeAtTwo :
    ∃ new, (nodeAtTwo [indexedOut 2]).maybeUpdateLedger leafGenesis = .ok new ∧
      (Unmoved (nodeAtTwo [indexedOut 2]) new ∨ ∃ slimblock,
        (nodeAtTwo [indexedOut 2]).getSlimBlock 0 3 = some slimblock ∧
          (nodeAtTwo [indexedOut 2]).applyBlock leafGenesis slimblock = .ok new ∧
          Moved (nodeAtTwo [indexedOut 2]) new slimblock) := by
  have checked : ((nodeAtTwo [indexedOut 2]).maybeUpdateLedger leafGenesis).map (fun _ => ()) =
        .ok () ∧
      ((slimBlockAt 2 [indexedOut 2] ⟨1, [⟨0, 1⟩]⟩).clipTreeData.rebuild
        (digest (indexedOut 2)) 0).map (fun _ => ()) = .ok () := by
    decide +kernel
  obtain ⟨new, returned, -⟩ := map_eq_ok.mp checked.1
  obtain ⟨clipped, rebuilt, -⟩ := map_eq_ok.mp checked.2
  refine ⟨new, returned, (unmoved_or_moved_iff returned).mpr ?_⟩
  intro _ slimblock isNext _
  obtain rfl := Option.some.inj ((getSlimBlock_nodeAtTwo _).1.symm.trans isNext)
  exact allMountable_nodeAtTwo ⟨clipped, rebuilt⟩

/-- With another out, the height and the state move while the ledger tree stays. -/
theorem partly_moved_nodeAtTwo :
    ∃ new, (nodeAtTwo [indexedOut 1]).maybeUpdateLedger leafGenesis = .ok new ∧
      new.shardHeight = 3 ∧ new.ledgerTree.merkleRoot = .fill 1 ∧
      new.state.tree.root ≠ .fill 1 ∧
      ¬ (Unmoved (nodeAtTwo [indexedOut 1]) new ∨ ∃ slimblock,
        (nodeAtTwo [indexedOut 1]).getSlimBlock 0 3 = some slimblock ∧
          (nodeAtTwo [indexedOut 1]).applyBlock leafGenesis slimblock = .ok new ∧
          Moved (nodeAtTwo [indexedOut 1]) new slimblock) := by
  have checked : ((nodeAtTwo [indexedOut 1]).maybeUpdateLedger leafGenesis).map (fun new =>
      (new.shardHeight, new.ledgerTree.merkleRoot, decide (new.state.tree.root = .fill 1),
        getShardHeight new.ledgerInfo 0)) = .ok (3, .fill 1, false, 1) := by
    decide +kernel
  obtain ⟨new, returned, parts⟩ := map_eq_ok.mp checked
  simp only [Prod.mk.injEq, decide_eq_false_iff_not] at parts
  obtain ⟨shardHeight, merkleRoot, stateRoot, behind⟩ := parts
  refine ⟨new, returned, shardHeight, merkleRoot, stateRoot, ?_⟩
  rintro (unmoved | ⟨slimblock, isNext, -, moved⟩)
  · exact absurd (shardHeight.symm.trans unmoved.shardHeight) (by decide)
  · obtain rfl := Option.some.inj ((getSlimBlock_nodeAtTwo _).1.symm.trans isNext)
    exact absurd (behind.symm.trans (moved.ledgerInfo.2 0 (by decide))) (by decide)

end StorageNode

end MultiVac.Storage
