import MultiVac.Chain.Verify

/-!
# Proposal of a block

`appBlockChain.ProposeBlock`: transactions are taken from the pool, headers of
all shards are mounted, and the block is filled with the results of executing
its transactions.
-/

namespace MultiVac.Chain

open Wire Merkle Ledger Contract

/-- `maxTransactionsInBlock`. -/
def maxTransactionsInBlock : Nat := 5000

/-- The nonce of the reward of a shard at a height. -/
def rewardNonce (shard : ShardIndex) (height : Int) : UInt64 :=
  (shard.toUInt64 <<< 32) + UInt64.ofInt height

/-- `createRewardTx`. -/
def createRewardTx (platform : Platform) (shard : ShardIndex) (height : Int) (addr : Address) :
    Go MsgTxWithProofs := do
  let params ← Go.orPanic
    (encodeToBytes Contract.Codec.rewardParams { receiver := addr, amount := minerRewardAmount })
  return {
    tx := {
      version := 0
      shard := shard
      txIn := .nil
      contractAddress := sysAPIAddress platform.toPrimitives
      api := SysAPI.reward
      params := .of params
      nonce := rewardNonce shard height
      publicKey := .nil
      signatureScript := .nil
      storageNodeAddress := .nil
      memo := [] }
    proofs := .nil }

/-- The inner loop of `GetTopTransactions`: every input is marked before its lock
is looked at. The answer says whether the transaction is taken. -/
def markUntilLocked (update : Update) (height : Int) :
    List OutPoint → List MerklePath → Go (Update × Bool)
  | [], _ => .ok (update, true)
  | _ :: _, [] => Go.panic
  | out :: outs, proof :: proofs => do
    let update ← update.markSpentOuts out proof
    if out.isLock height then return (update, false)
    markUntilLocked update height outs proofs

/-- `GetTopTransactions` on the transactions of the pool in the order of the
visit; `missing` more transactions are wanted, at least one. -/
def getTopTransactions (height : Int) :
    Nat → Update → List MsgTxWithProofs → Go (Update × List MsgTxWithProofs)
  | _, update, [] => .ok (update, [])
  | missing, update, tx :: pool => do
    let (update, taken) ← markUntilLocked update height tx.tx.inputs tx.proofs.elems
    if taken then
      if missing ≤ 1 then return (update, [tx])
      let (update, txs) ← getTopTransactions height (missing - 1) update pool
      return (update, tx :: txs)
    else
      getTopTransactions height missing update pool

/-- `wire.NewBlock`. -/
def newBlock (shardIndex : ShardIndex) (height : Int) (prevBlockHeader : Hash)
    (shardLedgerRoot outsMerkleRoot : MerkleHash) (isEmptyBlock : Bool) (timeStamp : Int)
    (reshardSeed : Bytes) (reduceActions : List ReduceAction) (body : BlockBody) :
    Go MsgBlock := do
  return {
    header := {
      version := blockVersion
      shardIndex := shardIndex
      height := height
      prevBlockHeader := prevBlockHeader
      blockBodyHash := ← hashOf Codec.blockBody body
      outsMerkleRoot := outsMerkleRoot
      shardLedgerMerkleRoot := shardLedgerRoot
      isEmptyBlock := isEmptyBlock
      timeStamp := timeStamp
      depositTxsOuts := []
      withdrawTxsOuts := []
      reshardSeed := reshardSeed
      pk := []
      lastSeedSig := []
      headerSig := []
      seed := Bytes32.zero
      reduceActions := reduceActions }
    body := body }

variable (env : Environment) (miner : Miner)

/-- The loop over the transactions of the pool: reduce transactions and those
that may not be spent at this height are left out, the inputs of the others are
marked. -/
def selectTransactions :
    Update → List MsgTxWithProofs → Go (Update × List MsgTxWithProofs)
  | update, [] => .ok (update, [])
  | update, tx :: rest => do
    if tx.tx.isReduceTx then
      selectTransactions update rest
    else
      match ← Go.attempt (verifyTx miner tx.tx) with
      | none => selectTransactions update rest
      | some _ =>
        let update ← update.markInputs tx.tx.inputs tx.proofs.elems
        let (update, txs) ← selectTransactions update rest
        return (update, tx :: txs)

/-- What the loop over the headers has found. -/
structure Mounting where
  reduceTxs : List MsgTxWithProofs
  mountHeader : List BlockHeader
  /-- The shards with a header for which no reduce transaction can be built, and
  the height of that header. -/
  errShard : List (ShardIndex × Int)

/-- One iteration of the loop over the headers. -/
def mountStep (mounting : Mounting) (header : BlockHeader) : Go Mounting := do
  if mounting.errShard.any fun entry => entry.1 = header.shardIndex then
    return mounting
  match ← Go.attempt (generateReduceTxsByHeader env miner header) with
  | none =>
    return { mounting with
      errShard := mounting.errShard ++ [(header.shardIndex, header.height)] }
  | some reduceTxs =>
    return { mounting with
      reduceTxs := mounting.reduceTxs ++ reduceTxs
      mountHeader := mounting.mountHeader ++ [header] }

/-- The clock vector with the heights of the shards that cannot be mounted. -/
def cutLedgerInfo (errShard : List (ShardIndex × Int)) (info : LedgerInfo) : LedgerInfo :=
  info.shardsHeights.foldl (fun current entry =>
    match errShard.find? fun failed => failed.1 = entry.index with
    | none => current
    | some (_, height) => setShardHeight current entry.index height) info

/-- The reshard seed of the next block. -/
def nextReshardSeed (pk sk : Bytes) : Go Bytes := do
  if miner.proposeBlockHgt - miner.prevReshardHeader.height < reshardRoundThreshold then
    return miner.prevReshardHeader.reshardSeed
  let hash ← calcReshardSeedHash miner.prevReshardHeader.reshardSeed miner.proposeBlockHgt
  match ← Go.attempt (env.vrfGenerate pk sk hash.bytes) with
  | none => Go.fail "when propose block, can't update reshardseed"
  | some seed => return seed

/-- `txsMap[hash]`: the last transaction with a given hash. For a transaction
that is not in the block the source puts `nil` into the body, which the next use
of the block dereferences. -/
def findTx (txs : List MsgTxWithProofs) (hash : Hash) : Go MsgTxWithProofs := do
  let hashes ← txs.mapM fun tx => tx.tx.txHash
  match (txs.zip hashes).reverse.find? fun entry => entry.2 = hash with
  | none => Go.panic
  | some (tx, _) => return tx

/-- What one call of `ProposeBlock` gets from its surroundings. -/
structure Proposal where
  /-- The values of the pool, in the order in which Go visits the map. -/
  pool : List MsgTxWithProofs
  /-- The order in which Go visits the map of contract calls. -/
  order : MapOrder
  /-- `getRewardAddress`: the owner of the biggest deposit. -/
  rewardAddress : Go Address
  pk : Bytes
  sk : Bytes
  /-- `time.Now().Unix()`. -/
  now : Int

/-- The ledger part of `ProposeBlock`: the transactions that are taken, the
mounted headers and the updated ledger. -/
def prepareLedger (pool : List MsgTxWithProofs) :
    Go (Update × List MsgTxWithProofs × Mounting × LedgerInfo) := do
  let update ← miner.state.newUpdate
  let (update, allTxs) ← getTopTransactions miner.shardHeight maxTransactionsInBlock update pool
  let (update, txs) ← selectTransactions miner update allTxs
  let ledgerInfoProposal := miner.state.localLedgerInfo
  let headers ← miner.state.getBlockHeadersToAppend ledgerInfoProposal
  let mounting ← headers.foldlM (mountStep env miner) ⟨[], [], []⟩
  let update ← Go.orPanic (update.addHeaders mounting.mountHeader)
  return (update, txs, mounting, cutLedgerInfo mounting.errShard ledgerInfoProposal)

/-- `ProposeBlock`. -/
def proposeBlock (proposal : Proposal) : Go MsgBlock := do
  let (update, normal, mounting, ledgerInfoProposal) ← prepareLedger env miner proposal.pool
  let newShardLedgerRoot ← update.deltaTree.getMerkleRoot
  let pkAddr ← proposal.rewardAddress
  let rewardTx ← createRewardTx env.platform miner.shardIndex miner.shardHeight pkAddr
  let txs := rewardTx :: (normal ++ mounting.reduceTxs)
  let reshardSeed ← nextReshardSeed env miner proposal.pk proposal.sk
  let result ← execute env.platform env.contracts proposal.order miner.shardIndex
    (txs.map MsgTxWithProofs.tx) miner.proposeBlockHgt
  let txsInBlock ← result.successfulTxs.mapM fun tx => do findTx txs (← tx.txHash)
  let prevHash ← HeaderStore.blockHeaderHash miner.prevHeader
  let block ← newBlock miner.shardIndex miner.proposeBlockHgt prevHash newShardLedgerRoot
    result.merkleRoot false proposal.now reshardSeed result.reduceActions
    { transactions := txsInBlock
      ledgerInfo := ledgerInfoProposal
      smartContracts := result.smartContracts
      outs := result.outStates
      updateActions := result.updateActions }
  return { block with header := { block.header with pk := proposal.pk } }

/-- A block with a given body, whose header is computed as a proposer computes it. -/
def sealBlock (order : MapOrder) (body : BlockBody) : Go MsgBlock := do
  let result ← execute env.platform env.contracts order miner.shardIndex (bodyTxs body)
    miner.proposeBlockHgt
  let root ← newLedgerRoot env miner { header := default, body }
  let prevHash ← HeaderStore.blockHeaderHash miner.prevHeader
  newBlock miner.shardIndex miner.proposeBlockHgt prevHash root result.merkleRoot false 0
    miner.prevReshardHeader.reshardSeed result.reduceActions body

/-- The sealed block, for bodies that can be sealed. -/
def sealed (body : BlockBody) : MsgBlock :=
  match sealBlock env miner .listed body with
  | .ok block => block
  | .error _ => default

end MultiVac.Chain
