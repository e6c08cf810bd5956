import MultiVac.Ledger.Pools
import MultiVac.Ledger.SlimBlock
import MultiVac.Merkle.Disk

/-!
# The storage node

`processor/storagenode`: a storage node keeps the whole ledger of its shard on disk.
It stores the slim blocks that it receives and, when the next block of its shard and
all blocks that this block mounts are there, applies the block to the ledger.
-/

namespace MultiVac.Storage

open Lib Wire Merkle Ledger

/-! ### Slim blocks in the database -/

namespace Codec

open Wire.Codec
open Lib.Format (field noFields)

/-- `wire.ClipTreeData`. -/
def clipTreeData : Codec ClipTreeData :=
  struct (field int64 <| field int64 <| field bool <| field bool <| field (list outState) <|
      field merklePath <| field merklePath <| noFields)
    (fun value => (value.size, value.startIndex, value.isLeftOutNil, value.isRightOutNil,
      value.outs, value.leftMerklePath, value.rightMerklePath, ()))
    (fun (size, startIndex, isLeftOutNil, isRightOutNil, outs, leftMerklePath,
      rightMerklePath, _) =>
      { size, startIndex, isLeftOutNil, isRightOutNil, outs, leftMerklePath, rightMerklePath })
    (fun _ => rfl)

/-- `wire.SlimBlock`. -/
def slimBlock : Codec SlimBlock :=
  struct (field uint32 <| field blockHeader <| field clipTreeData <| field (list smartContract) <|
      field (slice updateAction) <| field (list msgTxWithProofs) <| field ledgerInfo <| noFields)
    (fun value => (value.toShard, value.header, value.clipTreeData, value.smartContracts,
      value.updateActions, value.transactions, value.ledgerInfo, ()))
    (fun (toShard, header, clipTreeData, smartContracts, updateActions, transactions,
      ledgerInfo, _) =>
      { toShard, header, clipTreeData, smartContracts, updateActions, transactions, ledgerInfo })
    (fun _ => rfl)

end Codec

/-- The slim blocks of a data base, as it returns them: by the shard they are for, the
shard they come from and their height. -/
abbrev SlimStore := Table (ShardIndex × ShardIndex × Int) SlimBlock

/-- `GetSlimBlock`. -/
def SlimStore.getSlimBlock (store : SlimStore) (toShard shardIndex : ShardIndex) (height : Int) :
    Option SlimBlock :=
  store.lookup (toShard, shardIndex, height)

/-! ### Deposits that are not yet in the ledger -/

/-- `outAndHeight`. -/
structure OutAndHeight where
  out : OutState
  height : Int

/-- `depositManager`. -/
structure DepositManager where
  outs : ShardIndex → List OutAndHeight
  pendingHeights : List Int

namespace DepositManager

/-- `newDepositManager`. -/
def empty : DepositManager := ⟨fun _ => [], []⟩

variable (manager : DepositManager)

/-- `enQueue`. -/
def enQueue (height : Int) : DepositManager :=
  { manager with pendingHeights := manager.pendingHeights ++ [height] }

/-- `deQueue`. -/
def deQueue : DepositManager :=
  { manager with pendingHeights := manager.pendingHeights.tail }

/-- `add`. -/
def add (out : OutState) (height : Int) : DepositManager :=
  { manager with
    outs := Function.update manager.outs out.outPoint.shard
      (manager.outs out.outPoint.shard ++ [⟨out, height⟩]) }

/-- The loop of `removeOutsBeforeHeight` from an index on. The loop visits the array below
the slice as it was, while the slice, the first `length` elements, is cut and moved. -/
def removeLoop (height : Int) : Nat → Nat → List OutAndHeight → Nat →
    List OutState × List OutAndHeight
  | 0, _, array, length => ([], array.take length)
  | count + 1, index, array, length =>
    match array[index]? with
    | none => ([], array.take length)
    | some entry =>
      if entry.height ≤ height then
        let (array, length) :=
          if index + 1 < length then
            (array.take index ++ ((array.take length).drop (index + 1) ++
              array.drop (length - 1)), length - 1)
          else (array, index)
        let (results, rest) := removeLoop height count (index + 1) array length
        (entry.out :: results, rest)
      else removeLoop height count (index + 1) array length

/-- `removeOutsBeforeHeight`. -/
def removeOutsBeforeHeight (shard : ShardIndex) (height : Int) : List OutState × DepositManager :=
  let entries := manager.outs shard
  let (results, rest) := removeLoop height entries.length 0 entries entries.length
  (results, { manager with outs := Function.update manager.outs shard rest })

/-! ### What is removed -/

/-- The loop with the entries before its index, those it has yet to visit, and the stale ones
behind the slice. -/
def removeFrom (height : Int) (front todo stale : List OutAndHeight) :
    List OutState × List OutAndHeight :=
  removeLoop height (todo.length + stale.length) front.length (front ++ (todo ++ stale))
    (front.length + todo.length)

variable {height : Int} {front todo stale : List OutAndHeight} {entry next : OutAndHeight}

theorem removeFrom_keep (later : height < entry.height) :
    removeFrom height front (entry :: todo) stale =
      removeFrom height (front ++ [entry]) todo stale := by
  rw [removeFrom, removeFrom, List.length_cons, Nat.add_right_comm, removeLoop]
  simp [later, Nat.add_assoc, Nat.add_comm 1]

/-- After a removal the next entry is before the index, and the last one is stale. -/
theorem removeFrom_remove (due : entry.height ≤ height) :
    removeFrom height front (entry :: next :: todo) stale =
      let (results, rest) := removeFrom height (front ++ [next]) todo
        ((next :: todo).getLast (List.cons_ne_nil _ _) :: stale)
      (entry.out :: results, rest) := by
  have behind : (next :: todo ++ stale).drop todo.length =
      (next :: todo).getLast (List.cons_ne_nil _ _) :: stale := by
    conv_lhs => rw [← List.dropLast_append_getLast (List.cons_ne_nil next todo), List.append_assoc]
    exact List.drop_left' (by simp)
  have within : ((front ++ entry :: next :: (todo ++ stale)).take
      (front.length + (todo.length + 2))).drop (front.length + 1) = next :: todo := by
    rw [List.take_length_add_append, List.drop_length_add_append]
    simp
  rw [removeFrom, removeFrom, List.length_cons, Nat.add_right_comm, removeLoop]
  simp [due, Nat.add_assoc, within, ← behind, Nat.add_comm 1]

/-- What the loop should return: the outs up to the height, and the other entries. -/
def removed (height : Int) (entries : List OutAndHeight) : List OutState × List OutAndHeight :=
  ((entries.filter (·.height ≤ height)).map (·.out), entries.filter (height < ·.height))

theorem removeFrom_nil (later : ∀ entry ∈ stale, height < entry.height) :
    removeFrom height front [] stale = ([], front) := by
  suffices loop : ∀ count index array length, (∀ entry ∈ array.drop index, height < entry.height) →
      removeLoop height count index array length = ([], array.take length) by
    rw [removeFrom, loop _ _ _ _ (by simpa using later)]
    simp
  intro count
  induction count with
  | zero => exact fun _ _ _ _ => rfl
  | succ count ih =>
    intro index array length later
    rw [removeLoop]
    split
    · rfl
    · next entry isEntry =>
      rw [List.drop_eq_getElem?_toList_append, isEntry] at later
      rw [if_neg (not_le.mpr (later entry (by simp)))]
      exact ih _ _ _ fun other inRest => later other (by simp [inRest])

/-- No two neighbours are up to the height, and the last entry only if no other one is. -/
def Sparse (height : Int) (entries : List OutAndHeight) : Prop :=
  entries.IsChain (fun first second => first.height ≤ height → height < second.height) ∧
    ∀ last ∈ entries.getLast?, last.height ≤ height →
      ∀ entry ∈ entries.dropLast, height < entry.height

/-- The loop is right for sparse entries. -/
theorem removeFrom_eq : ∀ todo front stale : List OutAndHeight,
    todo.IsChain (fun first second => first.height ≤ height → height < second.height) →
    (∀ entry ∈ stale, height < entry.height) →
    (∀ last ∈ todo.getLast?, last.height ≤ height →
      stale = [] ∧ ∀ entry ∈ todo.dropLast, height < entry.height) →
    removeFrom height front todo stale =
      ((removed height todo).1, front ++ (removed height todo).2)
  | [], front, stale, _, later, _ => by
    rw [removeFrom_nil later]
    simp [removed]
  | entry :: todo, front, stale, spaced, later, lastOnly => by
    by_cases due : entry.height ≤ height
    · cases todo with
      | nil =>
        obtain ⟨rfl, -⟩ := lastOnly entry rfl due
        simp [removeFrom, removeLoop, removed, due]
      | cons next todo =>
        have nextLater : height < next.height := (List.isChain_cons_cons.mp spaced).1 due
        have lastLater : ∀ last ∈ (next :: todo).getLast?, height < last.height := by
          intro last isLast
          by_contra early
          have alone := (lastOnly last (by simpa using isLast) (not_lt.mp early)).2
          exact absurd due (not_le.mpr (alone entry (by simp)))
        rw [removeFrom_remove due, removeFrom_eq todo _ _ spaced.tail.tail]
        · simp [removed, due, nextLater, nextLater.not_ge]
        · intro other isStale
          rcases List.mem_cons.mp isStale with rfl | old
          · exact lastLater _ (List.getLast_mem_getLast? _)
          · exact later other old
        · intro last isLast early
          refine absurd early (not_le.mpr (lastLater last ?_))
          simp [List.getLast?_cons, Option.mem_def.mp isLast]
    · rw [removeFrom_keep (not_le.mp due), removeFrom_eq todo _ _ spaced.tail later]
      · simp [removed, due, not_le.mp due]
      · intro last isLast early
        have whole := lastOnly last (by simp [List.getLast?_cons, Option.mem_def.mp isLast]) early
        refine ⟨whole.1, fun other inFront => whole.2 other ?_⟩
        cases todo with
        | nil => cases inFront
        | cons next todo => exact List.mem_cons_of_mem _ inFront

/-- When the loop has left the slice, an entry up to the height brings back what is before it. -/
theorem above_of_removeLoop {before after : List OutAndHeight} {length : Nat}
    (behind : length ≤ before.length)
    (clean : ∀ entry ∈ (removeLoop height after.length before.length (before ++ after) length).2,
      height < entry.height) :
    (∀ entry ∈ before.take length, height < entry.height) ∧
      ∀ entry ∈ after, entry.height ≤ height → ∀ other ∈ before, height < other.height := by
  induction after generalizing before length with
  | nil => exact ⟨by simpa [removeLoop] using clean, by simp⟩
  | cons entry after ih =>
    have next : before ++ entry :: after = before ++ [entry] ++ after := by simp
    have length_next : before.length + 1 = (before ++ [entry]).length := by simp
    rw [List.length_cons, removeLoop, List.getElem?_append_right (le_refl _), Nat.sub_self] at clean
    by_cases due : entry.height ≤ height
    · simp only [List.getElem?_cons_zero, if_pos due,
        if_neg (show ¬ before.length + 1 < length by omega)] at clean
      rw [next, length_next] at clean
      obtain ⟨above, -⟩ := ih (by simp) clean
      rw [List.take_left] at above
      exact ⟨fun other inTake => above other (List.mem_of_mem_take inTake), fun _ _ _ => above⟩
    · simp only [List.getElem?_cons_zero, if_neg due] at clean
      rw [next, length_next] at clean
      obtain ⟨above, later⟩ := ih (by simp; omega) clean
      rw [List.take_append_of_le_length behind] at above
      refine ⟨above, List.forall_mem_cons.mpr ⟨fun early => absurd early due, ?_⟩⟩
      exact fun other inAfter early => (List.forall_mem_append.mp (later other inAfter early)).1

/-- What the loop leaves in the slice is above the height only for sparse entries. -/
theorem sparse_of_removeFrom : ∀ todo front stale : List OutAndHeight,
    (∀ entry ∈ (removeFrom height front todo stale).2, height < entry.height) →
    (∀ entry ∈ front, height < entry.height) ∧ Sparse height todo ∧
      ∀ last ∈ todo.getLast?, last.height ≤ height → ∀ entry ∈ stale, height < entry.height
  | [], front, stale, clean => by
    rw [removeFrom, List.length_nil, Nat.zero_add, Nat.add_zero, List.nil_append] at clean
    have above := (above_of_removeLoop (le_refl _) clean).1
    rw [List.take_length] at above
    exact ⟨above, by simp [Sparse], by simp⟩
  | entry :: todo, front, stale, clean => by
    by_cases due : entry.height ≤ height
    · cases todo with
      | nil =>
        have behind : front.length ≤ (front ++ [entry]).length := by simp
        obtain ⟨above, later⟩ := @above_of_removeLoop height (front ++ [entry]) stale _ behind (by
          rw [removeFrom, List.length_singleton, Nat.add_comm, removeLoop] at clean
          simpa [due] using clean)
        rw [List.take_left] at above
        refine ⟨above, by simp [Sparse], fun last isLast early other isStale => ?_⟩
        by_contra low
        exact absurd due (not_le.mpr (later other isStale (not_lt.mp low) entry (by simp)))
      | cons next todo =>
        rw [removeFrom_remove due] at clean
        obtain ⟨above, ⟨spaced, -⟩, lastLow⟩ := sparse_of_removeFrom todo _ _ clean
        obtain ⟨above, nextLater⟩ := List.forall_mem_append.mp above
        have nextLater := nextLater next (List.mem_singleton_self next)
        have lastLater : ∀ last ∈ (next :: todo).getLast?, height < last.height := by
          intro last isLast
          cases todo with
          | nil => exact Option.mem_some.mp isLast ▸ nextLater
          | cons other todo =>
            by_contra low
            have copied := lastLow last isLast (not_lt.mp low) _ List.mem_cons_self
            rw [List.getLast_eq_iff_getLast?_eq_some _ |>.mpr isLast] at copied
            exact low copied
        have chained : (next :: todo).IsChain fun first second =>
            first.height ≤ height → height < second.height :=
          List.isChain_cons.mpr ⟨fun _ _ early => absurd nextLater (not_lt.mpr early), spaced⟩
        exact ⟨above, ⟨List.isChain_cons_cons.mpr ⟨fun _ => nextLater, chained⟩,
          fun last isLast early => absurd (lastLater last isLast) (not_lt.mpr early)⟩,
          fun last isLast early => absurd (lastLater last isLast) (not_lt.mpr early)⟩
    · rw [removeFrom_keep (not_le.mp due)] at clean
      obtain ⟨above, ⟨spaced, lastOnly⟩, lastLow⟩ := sparse_of_removeFrom todo _ _ clean
      refine ⟨(List.forall_mem_append.mp above).1,
        ⟨List.isChain_cons.mpr ⟨fun _ _ early => absurd early due, spaced⟩, ?_⟩, ?_⟩
      · intro last isLast early
        cases todo with
        | nil => simp
        | cons next todo =>
          exact List.forall_mem_cons.mpr ⟨not_le.mp due, lastOnly last isLast early⟩
      · intro last isLast early
        cases todo with
        | nil =>
          obtain rfl := Option.mem_some.mp isLast
          exact absurd early due
        | cons next todo => exact lastLow last isLast early

/-- The outs up to a height are taken out and the others are left exactly when the entries are
sparse. -/
theorem removeOutsBeforeHeight_eq (manager : DepositManager) (shard : ShardIndex) (height : Int) :
    manager.removeOutsBeforeHeight shard height =
      ((removed height (manager.outs shard)).1, { manager with
        outs := Function.update manager.outs shard (removed height (manager.outs shard)).2 }) ↔
      Sparse height (manager.outs shard) := by
  have whole : removeFrom height [] (manager.outs shard) [] =
      removeLoop height (manager.outs shard).length 0 (manager.outs shard)
        (manager.outs shard).length := by
    simp only [removeFrom, List.length_nil, List.nil_append, List.append_nil, Nat.zero_add,
      Nat.add_zero]
  rw [removeOutsBeforeHeight, ← whole]
  constructor
  · intro same
    have left : (removeFrom height [] (manager.outs shard) []).2 =
        (removed height (manager.outs shard)).2 := by
      simpa [← whole] using congrFun (congrArg DepositManager.outs (Prod.mk.inj same).2) shard
    refine (sparse_of_removeFrom _ [] [] fun entry inRest => ?_).2.1
    rw [left] at inRest
    simpa using (List.mem_filter.mp inRest).2
  · rintro ⟨spaced, lastOnly⟩
    rw [removeFrom_eq _ [] [] spaced nofun fun last isLast early => ⟨rfl, lastOnly last isLast early⟩,
      List.nil_append]

/-- One of two outs is due. -/
theorem removeOutsBeforeHeight_eq_two :
    let manager := (empty.add default 1).add default 2
    Sparse 1 (manager.outs 0) ∧ manager.removeOutsBeforeHeight 0 1 =
      ([default], { manager with outs := Function.update manager.outs 0 [⟨default, 2⟩] }) :=
  have sparse : Sparse 1 (((empty.add default 1).add default 2).outs 0) := ⟨by decide, by decide⟩
  ⟨sparse, (removeOutsBeforeHeight_eq _ _ _).mpr sparse⟩

/-- Of two outs of one height before a later one, one is taken. -/
theorem removeOutsBeforeHeight_neighbours :
    let manager := ((empty.add default 1).add default 1).add default 2
    (manager.removeOutsBeforeHeight 0 1).1.length = 1 ∧
      (removed 1 (manager.outs 0)).1.length = 2 := by
  decide

end DepositManager

/-! ### The node -/

/-- `genesis.GenesisBlocksOutsMerkleTrees` and the roots in `genesis.GenesisBlocks`. -/
structure Genesis where
  outsMerkleRoot : ShardIndex → MerkleHash
  outsMerkleTree : ShardIndex → Tree

/-- `storageNode`. The tree writes to the data base of the node; the headers of the block
chain are in the state. Of the deposits, those in the data base of the pool are meant, which
contain the ones in memory. -/
structure StorageNode where
  ledgerTree : DiskTree
  shardIndex : ShardIndex
  shardHeight : Int
  ledgerInfo : LedgerInfo
  txpool : TxPool
  state : ShardStateManager
  slimBlocks : SlimStore
  dPool : DepositPool
  confirmedHeaders : Finset Hash
  receivedBlocks : Table Hash SlimBlock
  depositManager : DepositManager
  updateFailCnt : Nat

/-- The heights above one height, up to another one. -/
def heightsAbove (previousHeight newHeight : Int) : List Int :=
  (List.range (newHeight - previousHeight).toNat).map fun (offset : Nat) =>
    previousHeight + 1 + offset

/-- `GetUpdateWithSlimBlock`. -/
def getUpdateWithSlimBlock (state : ShardStateManager) (block : SlimBlock) : Go Update := do
  let update ← state.newUpdate
  let update ← update.markTransactions block.transactions
  let update ← update.applyActions block.updateActions.elems
  let headers ← state.getBlockHeadersToAppend block.ledgerInfo
  update.addHeaders headers

namespace StorageNode

/-- The slim block for this shard from a shard. -/
def getSlimBlock (node : StorageNode) (shardIndex : ShardIndex) (height : Int) :
    Option SlimBlock :=
  node.slimBlocks.getSlimBlock node.shardIndex shardIndex height

variable (node : StorageNode)

/-- The slim blocks between the heights of two clock vectors are there. The genesis blocks
are not asked for. -/
def hasBlocks (info : LedgerInfo) : Bool :=
  shardList.all fun shardIndex =>
    (heightsAbove (getShardHeight node.ledgerInfo shardIndex)
      (getShardHeight info shardIndex)).all fun height =>
        height = 1 || (node.getSlimBlock shardIndex height).isSome

/-- `canUpdateLedger`. -/
def canUpdateLedger : Bool :=
  match node.getSlimBlock node.shardIndex (node.shardHeight + 1) with
  | none => false
  | some slimblock => node.hasBlocks slimblock.ledgerInfo

/-- `persistentInfo`. -/
def persistentInfo : StorageNode :=
  let tree := node.ledgerTree
  let db := shardList.foldl (fun db shardIndex =>
    db.put (.shardHeight shardIndex) (.number (getShardHeight node.ledgerInfo shardIndex))) tree.db
  let db := db.put .ledgertreeRoot (.hash (some tree.merkleRoot))
  let db := db.put .ledgertreeLastnodehash (.hash tree.lastNodeHash)
  let db := db.put .ledgertreeSize (.number tree.size)
  let db := db.put .storageShardheight (.number node.shardHeight)
  { node with ledgerTree := { tree with db := db } }

/-- Lock an input that is a withdrawn deposit. -/
def lockWithdrawn (tx : MsgTx) (dPool : DepositPool) (outPoint : OutPoint) : Go DepositPool :=
  if tx.api = SysAPI.withdraw ∧ outPoint.isDepositOut then dPool.lock outPoint else pure dPool

/-- One iteration of the loop of `maybeUpdateLedger` over the inputs of a transaction. -/
def spendInput (tx : MsgTx) (node : StorageNode) (outPoint : OutPoint) : Go StorageNode := do
  let previousHash ← outPoint.toUnspentOutState.merkleHash
  let newHash ← outPoint.toSpentOutState.merkleHash
  let ledgerTree ← Go.orPanic (node.ledgerTree.updateLeaf previousHash newHash)
  let dPool ← lockWithdrawn tx node.dPool outPoint
  return { node with ledgerTree, dPool }

/-- The loop of `maybeUpdateLedger` over the transactions. -/
def spendInputs (txs : List MsgTxWithProofs) : Go StorageNode :=
  txs.foldlM (fun node tx =>
    if tx.tx.isReduceTx then pure node
    else tx.tx.inputs.foldlM (spendInput tx.tx) node) node

/-- One iteration of the loop of `processDeposit`. An out without a path is skipped. -/
def processDeposit (out : OutState) : Go StorageNode := do
  if out.outPoint.isDepositOut ∧ out.outPoint.shard = node.shardIndex then
    let hash ← out.outPoint.unspentOutHash
    match ← Go.attempt (node.ledgerTree.getMerklePath hash) with
    | none => return node
    | some proof =>
      return { node with dPool := ← node.dPool.add out.outPoint node.shardHeight proof }
  else return node

/-- One iteration of the loop of `tryToSaveDeposit`. -/
def saveDeposits (entry : IndexAndHeight) : Go StorageNode :=
  let (outs, depositManager) := node.depositManager.removeOutsBeforeHeight entry.index entry.height
  outs.foldlM processDeposit { node with depositManager }

/-- `tryToSaveDeposit`. A missing block is dereferenced. -/
def tryToSaveDeposit : Go StorageNode :=
  match node.depositManager.pendingHeights with
  | [] => .ok node
  | blockHeight :: _ =>
    if blockHeight ≤ node.state.shardHeights node.shardIndex then
      match node.getSlimBlock node.shardIndex blockHeight with
      | none => Go.panic
      | some pastBlock => do
        let node ← pastBlock.ledgerInfo.shardsHeights.foldlM saveDeposits node
        return { node with depositManager := node.depositManager.deQueue }
    else .ok node

/-- Write the new shard data of contracts; a missing out panics. -/
def writeActions (tree : DiskTree) (actions : List UpdateAction) : Go DiskTree :=
  actions.foldlM (fun tree action => do
    let originHash ← action.originOut.merkleHash
    let newHash ← action.newOut.merkleHash
    Go.orPanic (tree.updateLeaf originHash newHash)) tree

/-- `updateStateBySlimblock`. -/
def updateStateBySlimblock (block : SlimBlock) : Go StorageNode := do
  let update ← getUpdateWithSlimBlock node.state block
  let txpool ← node.txpool.refreshPool update
  let ledgerTree ← writeActions node.ledgerTree block.updateActions.elems
  let dPool ← node.dPool.update update node.shardIndex block.header.height
  let state ← node.state.applyUpdate update
  return { node with txpool, ledgerTree, dPool, state }

/-! ### Mounting blocks -/

/-- Put the outs of a genesis block into the ledger. -/
def mountGenesis (genesis : Genesis) (tree : DiskTree) (shardIndex : ShardIndex) :
    Go DiskTree := do
  let tree ← Go.orPanic (tree.append [genesis.outsMerkleRoot shardIndex])
  Go.orPanic (tree.hookSecondLayerTree (some (genesis.outsMerkleTree shardIndex)))

/-- Put the outs of a block into the ledger. -/
def mountOuts (tree : DiskTree) (header : BlockHeader) (outs : Tree) : Go DiskTree := do
  if header.outsMerkleRoot ≠ emptyHash then
    Go.assert (treeRoot outs = header.outsMerkleRoot)
    let tree ← Go.orPanic (tree.append [treeRoot outs])
    Go.orPanic (tree.hookSecondLayerTree (some outs))
  else return tree

/-- One iteration of the loop of `maybeUpdateLedger` over the heights of a shard, or nothing
when the method returns there. -/
def mountBlock (genesis : Genesis) (node : StorageNode) (shardIndex : ShardIndex)
    (tree : DiskTree) (height : Int) : Go (Option DiskTree) := do
  if height = 1 then
    return some (← mountGenesis genesis tree shardIndex)
  match node.getSlimBlock shardIndex height with
  | none => Go.panic
  | some slimBlock =>
    if slimBlock.header.isEmptyBlock then
      return some tree
    if node.shardIndex ≠ slimBlock.toShard then
      return none
    match ← Go.attempt
        (slimBlock.clipTreeData.rebuild slimBlock.header.outsMerkleRoot slimBlock.toShard) with
    | none => return none
    | some clipped =>
      let tree ← mountOuts tree slimBlock.header clipped.tree
      if shardIndex = node.shardIndex then
        return some (← writeActions tree slimBlock.updateActions.elems)
      else return some tree

/-- The loop over the heights, with whether it came to its end. -/
def mountBlocks (genesis : Genesis) (node : StorageNode) (shardIndex : ShardIndex)
    (tree : DiskTree) : List Int → Go (DiskTree × Bool)
  | [] => .ok (tree, true)
  | height :: heights => do
    match ← node.mountBlock genesis shardIndex tree height with
    | none => return (tree, false)
    | some tree => node.mountBlocks genesis shardIndex tree heights

/-- The loop of `maybeUpdateLedger` over the shards. -/
def mountShards (genesis : Genesis) (ledgerInfo : LedgerInfo) (node : StorageNode) :
    List ShardIndex → Go StorageNode
  | [] => .ok node
  | shardIndex :: shards => do
    let newHeight := getShardHeight ledgerInfo shardIndex
    let preHeight := getShardHeight node.ledgerInfo shardIndex
    let (ledgerTree, ended) ← node.mountBlocks genesis shardIndex node.ledgerTree
      (heightsAbove preHeight newHeight)
    if ended then
      mountShards genesis ledgerInfo
        (persistentInfo { node with
          ledgerTree
          ledgerInfo := setShardHeight node.ledgerInfo shardIndex newHeight }) shards
    else return { node with ledgerTree }

/-- `maybeUpdateLedger` for a block that is not empty, up to the loop over the shards. -/
def spendAndUpdate (slimblock : SlimBlock) : Go StorageNode := do
  let node ← node.spendInputs slimblock.transactions
  let node ← node.tryToSaveDeposit
  let node ← Go.orPanic (node.updateStateBySlimblock slimblock)
  return { node with
    depositManager := node.depositManager.enQueue slimblock.header.height
    ledgerInfo := { node.ledgerInfo with size := slimblock.ledgerInfo.size } }

/-- `maybeUpdateLedger`. -/
def maybeUpdateLedger (genesis : Genesis) (node : StorageNode) : Go StorageNode :=
  if !node.canUpdateLedger then .ok node
  else
    match node.getSlimBlock node.shardIndex (node.shardHeight + 1) with
    | none => Go.panic
    | some slimblock =>
      let node := { node with shardHeight := node.shardHeight + 1 }
      if slimblock.header.isEmptyBlock then .ok node.persistentInfo
      else do
        let node ← node.spendAndUpdate slimblock
        node.mountShards genesis slimblock.ledgerInfo shardList

end StorageNode

end MultiVac.Storage
