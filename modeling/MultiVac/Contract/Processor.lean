import MultiVac.Contract.System

/-!
# The transaction processor

`txProcessor.Execute`: system transactions are executed in the order of the
block, contract calls are collected by contract and executed afterwards, in the
order in which Go visits the map of contracts. The executor of one contract is
a parameter: any function to a result or an error.
-/

namespace MultiVac.Contract

open Wire Merkle

/-- `smartContractExeResult`, without the failed transactions, which nothing
reads. -/
structure ContractResult where
  successfulTxs : List MsgTx
  updateShardInitOut : UpdateAction
  newOuts : List OutState
  reduceActions : List ReduceAction

/-- The executor of the contract with a given public key hash on the calls of a
block; `none` is an error. -/
abbrev ContractExecutor := Bytes → List MsgTx → Option ContractResult

/-- `result` of the transaction processor, without the tree of the outs. -/
structure Result where
  merkleRoot : MerkleHash
  successfulTxs : List MsgTx
  outStates : List OutState
  smartContracts : List SmartContract
  updateActions : Slice UpdateAction
  reduceActions : List ReduceAction

/-- What the first loop of `Execute` has gathered. -/
structure Gathered where
  rewardTxCount : Nat
  successfulTxs : List MsgTx
  outStates : List OutState
  scs : List SmartContract
  calls : List (Bytes × List MsgTx)

/-- Add a call to the calls of its contract. -/
def addCall (pkHash : Bytes) (tx : MsgTx) : List (Bytes × List MsgTx) → List (Bytes × List MsgTx)
  | [] => [(pkHash, [tx])]
  | (key, txs) :: rest =>
    if key = pkHash then (key, txs ++ [tx]) :: rest else (key, txs) :: addCall pkHash tx rest

variable (platform : Platform)

/-- One iteration of the first loop. A transaction that fails is left out. -/
def gatherTx (shard : ShardIndex) (proposeBlockHeight : Int) (gathered : Gathered) (tx : MsgTx) :
    Go Gathered := do
  if tx.isSmartContractTx platform.toPrimitives then
    match ← Go.attempt (Address.getPublicKeyHash platform.toPrimitives tx.contractAddress
          .smartContractAddress) with
    | none => return gathered
    | some pkHash => return { gathered with calls := addCall pkHash tx gathered.calls }
  else
    match ← Go.attempt
        (executeSystem platform shard gathered.rewardTxCount tx proposeBlockHeight) with
    | none => return gathered
    | some result =>
      return {
        rewardTxCount := gathered.rewardTxCount + if tx.isRewardTx then 1 else 0
        successfulTxs := gathered.successfulTxs ++ [tx]
        outStates := gathered.outStates ++ result.ops.map OutPoint.toUnspentOutState
        scs := gathered.scs ++ result.sc.toList
        calls := gathered.calls }

/-- The results of the contracts that were executed without an error. -/
def contractResults (contracts : ContractExecutor) (calls : List (Bytes × List MsgTx)) :
    List ContractResult :=
  calls.filterMap fun (pkHash, txs) => contracts pkHash txs

/-- The order of outs: by shard, transaction hash and index. -/
def outLess (first second : OutState) : Bool :=
  if first.outPoint.shard ≠ second.outPoint.shard then
    first.outPoint.shard < second.outPoint.shard
  else if first.outPoint.txHash ≠ second.outPoint.txHash then
    first.outPoint.txHash.lessThan second.outPoint.txHash
  else
    first.outPoint.index < second.outPoint.index

/-- `sort.SliceStable` on the outs. -/
def sortOuts (outs : List OutState) : List OutState :=
  outs.insertionSort fun first second => outLess second first = false

/-- `sort.SliceStable` on the contracts, by address. -/
def sortContracts (scs : List SmartContract) : List SmartContract :=
  scs.insertionSort fun first second =>
    compare second.contractAddr.elems first.contractAddr.elems ≠ .lt

/-- `txProcessor.Execute`. -/
def execute (contracts : ContractExecutor) (order : MapOrder) (shard : ShardIndex)
    (txs : List MsgTx) (proposeBlockHeight : Int) : Go Result := do
  if txs.isEmpty then
    return {
      merkleRoot := emptyHash, successfulTxs := [], outStates := [], smartContracts := []
      updateActions := .nil, reduceActions := [] }
  let gathered ← txs.foldlM (gatherTx platform shard proposeBlockHeight) ⟨0, [], [], [], []⟩
  let results := contractResults contracts (order.visit gathered.calls)
  let outStates := sortOuts (gathered.outStates ++ results.flatMap ContractResult.newOuts)
  let leaves ← outStates.mapM OutState.merkleHash
  return {
    merkleRoot := fullRoot leaves
    successfulTxs := gathered.successfulTxs ++ results.flatMap ContractResult.successfulTxs
    outStates
    smartContracts := sortContracts gathered.scs
    updateActions := .of (results.map ContractResult.updateShardInitOut)
    reduceActions := results.flatMap ContractResult.reduceActions }

end MultiVac.Contract
