import MultiVac.Merkle.DeltaTree
import MultiVac.Wire.Tx

/-!
# The ledger of a shard

`processor/shared/state`: what a miner keeps of its shard's ledger, the update
that one block makes, and the headers that the update mounts. `chain` is the
part of the block chain that answers which headers are known.
-/

namespace MultiVac.Ledger

open Wire Merkle
open Lib (bind_eq_ok)

/-- `shard.ShardList`. -/
def shardList : List ShardIndex := [0, 1, 2, 3]

/-- `shard.IsValidShardID`. -/
def isValidShardID (id : ShardIndex) : Bool := id < 4

/-- `LedgerInfo.GetShardHeight`: the first entry for the shard, or zero. -/
def getShardHeight (info : LedgerInfo) (shardIndex : ShardIndex) : Int :=
  match info.shardsHeights.find? fun entry => entry.index = shardIndex with
  | some entry => entry.height
  | none => 0

/-- Change the height of the first entry for a shard. -/
def replaceHeight (shardIndex : ShardIndex) (height : Int) :
    List IndexAndHeight → List IndexAndHeight
  | [] => []
  | entry :: rest =>
    if entry.index = shardIndex then { entry with height := height } :: rest
    else entry :: replaceHeight shardIndex height rest

/-- `LedgerInfo.SetShardHeight`. -/
def setShardHeight (info : LedgerInfo) (shardIndex : ShardIndex) (height : Int) : LedgerInfo :=
  if info.shardsHeights.any fun entry => entry.index = shardIndex then
    { info with shardsHeights := replaceHeight shardIndex height info.shardsHeights }
  else
    { info with
      shardsHeights := (info.shardsHeights ++ [IndexAndHeight.mk shardIndex height]).insertionSort
        fun first second => first.index ≤ second.index }

/-- The headers a node knows, as its data base returns them. -/
structure HeaderStore where
  headers : List BlockHeader

namespace HeaderStore

/-- `GetShardsHeaderByHeight`. -/
def getShardsHeaderByHeight (store : HeaderStore) (shardIndex : ShardIndex) (height : Int) :
    Option BlockHeader :=
  store.headers.find? fun header => header.shardIndex = shardIndex ∧ header.height = height

/-- `BlockHeader.BlockHeaderHash`. -/
def blockHeaderHash (header : BlockHeader) : Go Hash :=
  hashOf Codec.blockHeader { header with headerSig := [] }

/-- `ReceiveHeader`: the first header of a shard and height is kept, in the form
that is read back from the data base. -/
def receiveHeader (store : HeaderStore) (header : BlockHeader) : Go HeaderStore := do
  let _ ← blockHeaderHash header
  if (store.getShardsHeaderByHeight header.shardIndex header.height).isSome then
    return store
  match decodeBytes Codec.blockHeader (← encodeToBytes Codec.blockHeader header) with
  | none => return store
  | some stored => return { headers := store.headers ++ [stored] }

end HeaderStore

/-- `state.MinimumMerkleTree`. -/
structure MinimumMerkleTree where
  root : MerkleHash
  size : Int
  lastPath : MerklePath

/-- `state.Update`. -/
structure Update where
  deltaTree : DeltaMerkleTree
  newLedgerInfo : LedgerInfo

/-- `state.ShardStateManager`. The map of shard heights has exactly the shards
of the shard list as its keys. -/
structure ShardStateManager where
  tree : MinimumMerkleTree
  shardHeights : ShardIndex → Int
  chain : HeaderStore

namespace Update

/-- The heights after `headers` have been added in order. -/
def addHeights (info : LedgerInfo) : List BlockHeader → Go LedgerInfo
  | [] => .ok info
  | header :: rest => do
    let height := getShardHeight info header.shardIndex
    Go.require (height + 1 = header.height) "Wrong header height"
    addHeights (setShardHeight info header.shardIndex (height + 1)) rest

/-- `AddHeaders`. -/
def addHeaders (update : Update) (headers : List BlockHeader) : Go Update := do
  let newLedgerInfo ← addHeights update.newLedgerInfo headers
  let roots := (headers.map BlockHeader.outsMerkleRoot).filter (· ≠ emptyHash)
  if roots.isEmpty then
    return { update with newLedgerInfo }
  else
    return { deltaTree := ← update.deltaTree.append roots, newLedgerInfo }

/-- `MarkSpentOuts`, which panics when the proof is wrong. -/
def markSpentOuts (update : Update) (outPoint : OutPoint) (proof : MerklePath) : Go Update := do
  let spent ← outPoint.toSpentOutState.merkleHash
  return { update with deltaTree := ← Go.orPanic (update.deltaTree.updateLeaf proof spent) }

/-- Mark the inputs of a transaction; a missing proof is an index out of range. -/
def markInputs (update : Update) : List OutPoint → List MerklePath → Go Update
  | [], _ => .ok update
  | _ :: _, [] => Go.panic
  | outPoint :: outs, proof :: proofs => do
    markInputs (← update.markSpentOuts outPoint proof) outs proofs

/-- Mark the inputs of every transaction that is not a reduce transaction. -/
def markTransactions (update : Update) (txs : List MsgTxWithProofs) : Go Update :=
  txs.foldlM (fun update tx =>
    if tx.tx.isReduceTx then pure update
    else update.markInputs tx.tx.inputs tx.proofs.elems) update

/-- Write the new shard data of contracts; a wrong proof panics. -/
def applyActions (update : Update) (actions : List UpdateAction) : Go Update :=
  actions.foldlM (fun update action => do
    let hash ← action.newOut.merkleHash
    return { update with
      deltaTree := ← Go.orPanic (update.deltaTree.updateLeaf action.originOutProof hash) }) update

end Update

/-! ### Updates as edits -/

/-- An out is written over another one, which is found by a path. -/
structure Edit where
  path : MerklePath
  old : OutState
  new : OutState

/-- An input of a transaction is marked as spent. -/
def spend (out : OutPoint) (proof : MerklePath) : Edit where
  path := proof
  old := out.toUnspentOutState
  new := out.toSpentOutState

/-- The inputs of a transaction with their proofs. -/
def inputSpends (tx : MsgTxWithProofs) : List Edit :=
  List.zipWith spend tx.tx.inputs tx.proofs.elems

theorem exists_of_mem_inputSpends {tx : MsgTxWithProofs} {edit : Edit}
    (inSpends : edit ∈ inputSpends tx) : ∃ out proof, edit = spend out proof := by
  rw [inputSpends, ← List.map_uncurry_zip_eq_zipWith] at inSpends
  obtain ⟨⟨out, proof⟩, _, rfl⟩ := List.mem_map.mp inSpends
  exact ⟨out, proof, rfl⟩

/-- What a transaction of a block marks. -/
def spends (tx : MsgTxWithProofs) : List Edit :=
  if tx.tx.isReduceTx then [] else inputSpends tx

/-- The new data of a contract is written over the old one. -/
def rewrite (action : UpdateAction) : Edit where
  path := action.originOutProof
  old := action.originOut
  new := action.newOut

/-- Every input of a transaction has a proof. -/
def HasProofs (tx : MsgTxWithProofs) : Prop :=
  tx.tx.isReduceTx = true ∨ tx.tx.inputs.length ≤ tx.proofs.elems.length

namespace Update

/-- Write the new out of an edit over the old one. -/
def write (update : Update) (edit : Edit) : Go Update := do
  let hash ← edit.new.merkleHash
  return { update with deltaTree := ← Go.orPanic (update.deltaTree.updateLeaf edit.path hash) }

variable {update after : Update}

theorem markInputs_eq_ok_iff {outs : List OutPoint} {proofs : List MerklePath} :
    update.markInputs outs proofs = .ok after ↔ outs.length ≤ proofs.length ∧
      (List.zipWith spend outs proofs).foldlM write update = .ok after := by
  induction outs generalizing update proofs with
  | nil => simp [markInputs, pure, Except.pure]
  | cons out outs ih =>
    cases proofs with
    | nil => simp [markInputs, Go.panic]
    | cons proof proofs =>
      rw [markInputs, List.zipWith_cons_cons, List.foldlM_cons, bind_eq_ok, bind_eq_ok,
        List.length_cons, List.length_cons, Nat.succ_le_succ_iff]
      simp only [ih, and_left_comm, exists_and_left]
      rfl

/-- A loop whose iterations are edits. -/
theorem foldlM_eq_ok_iff {step : Update → MsgTxWithProofs → Go Update}
    {allowed : MsgTxWithProofs → Prop} {edits : MsgTxWithProofs → List Edit}
    (steps : ∀ update tx next, step update tx = .ok next ↔
      allowed tx ∧ (edits tx).foldlM write update = .ok next) {txs : List MsgTxWithProofs} :
    txs.foldlM step update = .ok after ↔
      (∀ tx ∈ txs, allowed tx) ∧ (txs.flatMap edits).foldlM write update = .ok after := by
  induction txs generalizing update with
  | nil => simp
  | cons tx txs ih =>
    simp only [List.foldlM_cons, bind_eq_ok, steps, ih, List.flatMap_cons, List.foldlM_append,
      List.forall_mem_cons]
    constructor
    · rintro ⟨next, ⟨first, marks⟩, later, rest⟩
      exact ⟨⟨first, later⟩, next, marks, rest⟩
    · rintro ⟨⟨first, later⟩, next, marks, rest⟩
      exact ⟨next, ⟨first, marks⟩, later, rest⟩

theorem markTransactions_eq_ok_iff {txs : List MsgTxWithProofs} :
    update.markTransactions txs = .ok after ↔
      (∀ tx ∈ txs, HasProofs tx) ∧ (txs.flatMap spends).foldlM write update = .ok after := by
  refine foldlM_eq_ok_iff fun update tx next => ?_
  rw [HasProofs, spends]
  cases tx.tx.isReduceTx with
  | true => simp
  | false => simpa [inputSpends] using markInputs_eq_ok_iff

theorem applyActions_eq (update : Update) (actions : List UpdateAction) :
    update.applyActions actions = (actions.map rewrite).foldlM write update := by
  rw [List.foldlM_map]
  rfl

end Update

namespace ShardStateManager

variable (state : ShardStateManager)

/-- `LedgerInfo`. The entries are kept sorted, so the order in which the map is
visited does not matter. -/
def ledgerInfo : LedgerInfo where
  size := (shardList.map state.shardHeights).sum
  shardsHeights := shardList.map fun index => { index, height := state.shardHeights index }

/-- `NewUpdate`. -/
def newUpdate : Go Update := do
  let deltaTree ← Go.orPanic ((newDeltaMerkleTree state.tree.root).setSizeAndLastNodeMerklePath
    state.tree.size state.tree.lastPath)
  return { deltaTree, newLedgerInfo := state.ledgerInfo }

/-- The headers of one shard above a height. -/
def headersAbove (state : ShardStateManager) (shardIndex : ShardIndex) :
    Nat → Int → Go (List BlockHeader)
  | 0, _ => .ok []
  | count + 1, height =>
    match state.chain.getShardsHeaderByHeight shardIndex (height + 1) with
    | none => Go.fail "Can't find header for height"
    | some header => do
      return header :: (← state.headersAbove shardIndex count (height + 1))

/-- `GetBlockHeadersToAppend`. -/
def getBlockHeadersToAppend (info : LedgerInfo) : Go (List BlockHeader) := do
  let headers ← shardList.mapM fun shardIndex => do
    let oldHeight := state.shardHeights shardIndex
    let newHeight := getShardHeight info shardIndex
    Go.require (oldHeight ≤ newHeight) "Shard height in ledgerInfo is smaller than old height"
    state.headersAbove shardIndex (newHeight - oldHeight).toNat oldHeight
  return headers.flatten

/-- `GetUpdateWithFullBlock`. -/
def getUpdateWithFullBlock (block : MsgBlock) : Go Update := do
  let update ← state.newUpdate
  let update ← update.markTransactions block.body.transactions
  let update ← update.applyActions block.body.updateActions.elems
  let headers ← state.getBlockHeadersToAppend block.body.ledgerInfo
  update.addHeaders headers

/-- `ApplyUpdate`. -/
def applyUpdate (update : Update) : Go ShardStateManager := do
  let root ← update.deltaTree.getMerkleRoot
  let lastPath ← Go.orPanic update.deltaTree.getLastNodeMerklePath
  Go.orPanic (verifyLastNodeMerklePath root update.deltaTree.size lastPath)
  return { state with
    tree := { root, size := update.deltaTree.size, lastPath }
    shardHeights := fun index =>
      if index ∈ shardList then getShardHeight update.newLedgerInfo index
      else state.shardHeights index }

/-- The height up to which the headers of a shard are known without a gap. -/
def knownHeight (state : ShardStateManager) (shardIndex : ShardIndex) : Nat → Int → Int
  | 0, height => height
  | fuel + 1, height =>
    match state.chain.getShardsHeaderByHeight shardIndex (height + 1) with
    | none => height
    | some _ => state.knownHeight shardIndex fuel (height + 1)

/-- One shard of `LocalLedgerInfo`. The size grows by one with each known header. -/
def raiseKnown (info : LedgerInfo) (tag : ShardIndex) : LedgerInfo :=
  let height := getShardHeight info tag
  let known := state.knownHeight tag state.chain.headers.length height
  setShardHeight { info with size := info.size + (known - height) } tag known

/-- `LocalLedgerInfo`. -/
def localLedgerInfo : LedgerInfo :=
  shardList.foldl state.raiseKnown state.ledgerInfo

/-- `GetLedgerRoot`. -/
def getLedgerRoot : MerkleHash := state.tree.root

end ShardStateManager

end MultiVac.Ledger
