import MultiVac.Ledger.State

/-!
# The system contract

`SysContractExecutor`: transfers, deposits, withdrawals, bindings, rewards and
deployments. The virtual machine that initialises a deployed contract comes
from another repository and is a parameter.
-/

namespace MultiVac.Contract

open Wire Ledger

/-- What the executors use of other repositories. -/
structure Platform extends Primitives where
  /-- `NewDeployMvvm`, and `Initialize` of the machine it returns. -/
  newDeployMvvm : Bytes → Option (ShardIndex → Go Bytes)

/-- The simplest functions a platform can have, to run the model on concrete
inputs. -/
def Platform.plain : Platform where
  base58Encode := id
  base58Decode := id
  ripemd160 := toPublicKeyHash
  ed25519Sign := fun _ message => message
  ed25519Verify := fun _ message sig => message = sig
  newDeployMvvm := fun _ => none

/-- `isysapi.MinerRewardAmount`. -/
def minerRewardAmount : Int := 5000000000000000000

/-- `wire.MinimalDepositAmount`. -/
def minimalDepositAmount : Int := 10

/-- `isysapi.TransferParams`. -/
structure TransferParams where
  receiver : Address
  shard : ShardIndex
  amount : Int

/-- `isysapi.DepositParams` and `isysapi.BindingParams`. -/
structure DepositParams where
  transferParams : TransferParams
  bindingAddress : Address

/-- `isysapi.WithdrawParams`. -/
structure WithdrawParams where
  transferParams : TransferParams

/-- `isysapi.RewardParams`. -/
structure RewardParams where
  receiver : Address
  amount : Int
deriving DecidableEq

/-- `isysapi.DeployParams`. -/
structure DeployParams where
  apiList : Slice GoString
  init : GoBytes
  code : GoBytes

namespace Codec

open Wire.Codec
open Lib.Format (field noFields)

/-- The format of `TransferParams`. -/
def transferParams : Codec TransferParams :=
  struct (field byteSlice <| field uint32 <| field bigInt noFields)
    (fun params => (params.receiver, params.shard, params.amount, ()))
    (fun (receiver, shard, amount, _) => { receiver, shard, amount }) (fun _ => rfl)

/-- The format of `DepositParams`. -/
def depositParams : Codec DepositParams :=
  struct (field transferParams <| field byteSlice noFields)
    (fun params => (params.transferParams, params.bindingAddress, ()))
    (fun (transferParams, bindingAddress, _) => { transferParams, bindingAddress }) (fun _ => rfl)

/-- The format of `WithdrawParams`. -/
def withdrawParams : Codec WithdrawParams :=
  struct (field Codec.transferParams noFields)
    (fun params => (params.transferParams, ())) (fun (transferParams, _) => { transferParams })
    (fun _ => rfl)

/-- The format of `RewardParams`. -/
def rewardParams : Codec RewardParams :=
  struct (field byteSlice <| field bigInt noFields)
    (fun params => (params.receiver, params.amount, ()))
    (fun (receiver, amount, _) => { receiver, amount }) (fun _ => rfl)

/-- The format of `DeployParams`. -/
def deployParams : Codec DeployParams :=
  struct (field (slice string) <| field byteSlice <| field byteSlice
      noFields)
    (fun params => (params.apiList, params.init, params.code, ()))
    (fun (apiList, init, code, _) => { apiList, init, code }) (fun _ => rfl)

end Codec

/-- `rlp.DecodeBytes(tx.Params, &params)`. -/
def decodeParams {α : Type} (codec : Codec α) (tx : MsgTx) : Go α :=
  match decodeBytes codec tx.params.elems with
  | some params => .ok params
  | none => Go.fail "failed to unmarshal params"

/-- The value that `executeTransaction` credits for a spent out. -/
def creditedValue (out : OutPoint) : Go Int :=
  if out.isWithdrawOut then
    match out.outToWithdrawData with
    | some data => .ok data.value
    | none => Go.fail "rlp"
  else if out.isDepositOut then
    match out.outToDepositData with
    | some data => .ok data.value
    | none => Go.fail "rlp"
  else
    out.getMtvValueFromOut

/-- The sum of the values of spent outs. -/
def sumValues (value : OutPoint → Go Int) (outs : List OutPoint) : Go Int :=
  outs.foldlM (fun total out => do return total + (← value out)) 0

/-- The type of the first out of a transaction. -/
def outTypeOf (api : GoString) : UInt8 :=
  if api = SysAPI.deposit ∨ api = SysAPI.binding then OutType.depositOut
  else if api = SysAPI.withdraw then OutType.withdrawOut
  else OutType.transfer

/-- The address of the first spent out. -/
def firstOwner (tx : MsgTx) : Go Address :=
  match tx.inputs with
  | [] => Go.panic
  | out :: _ => .ok out.userAddress

variable (platform : Platform)

variable (shard : ShardIndex)

/-- An out of the system contract. -/
def systemOut (txHash : Hash) (index : Int) (owner : Address) (type : UInt8)
    (data : Bytes) : OutPoint where
  shard := shard
  txHash := txHash
  index := index
  userAddress := owner
  type := type
  data := .of data
  contractAddress := sysAPIAddress platform.toPrimitives

/-- `executeTransaction`. -/
def executeTransaction (secShard : ShardIndex) (tx : MsgTx) (outData : Bytes)
    (params : TransferParams) : Go (List OutPoint) := do
  -- `shard.IndexToID` panics before the shard could be reported as invalid.
  Go.assert (isValidShardID params.shard)
  let totalInputs ← sumValues creditedValue tx.inputs
  Go.require (params.amount ≤ totalInputs ∧ 0 < params.amount) "invalid amount to transfer"
  let txHash ← tx.txHash
  let paid := systemOut platform params.shard txHash 0 params.receiver (outTypeOf tx.api) outData
  let value := totalInputs - params.amount
  if 0 < value then
    let change := systemOut platform secShard txHash 1 (← firstOwner tx) OutType.transfer
      (← mtvValueToData value)
    return [paid, change]
  else
    return [paid]

/-- The outs and the contract that a system transaction makes. -/
structure SystemResult where
  ops : List OutPoint
  sc : Option SmartContract

/-- Coins for a receiver. -/
def executeTransfer (tx : MsgTx) : Go SystemResult := do
  let params ← decodeParams Codec.transferParams tx
  let outData ← mtvValueToData params.amount
  return ⟨← executeTransaction platform shard tx outData params, none⟩

/-- A deposit of at least the minimal amount. -/
def executeDeposit (tx : MsgTx) (height : Int) : Go SystemResult := do
  let params ← decodeParams Codec.depositParams tx
  Go.require (minimalDepositAmount ≤ params.transferParams.amount) "deposit amount is too little"
  let outData ← MTVDepositData.toData
    { value := params.transferParams.amount, height, bindingAddress := params.bindingAddress }
  return ⟨← executeTransaction platform shard tx outData params.transferParams, none⟩

/-- A withdrawal, which is locked from this height on. -/
def executeWithdraw (tx : MsgTx) (height : Int) : Go SystemResult := do
  let params ← decodeParams Codec.withdrawParams tx
  let outData ← MTVWithdrawData.toData
    { value := params.transferParams.amount, withdrawHeight := height }
  return ⟨← executeTransaction platform shard tx outData params.transferParams, none⟩

/-- A deposit that gets another binding address. -/
def executeBinding (tx : MsgTx) (height : Int) : Go SystemResult := do
  let params ← decodeParams Codec.depositParams tx
  let outData ← MTVDepositData.toData
    { value := params.transferParams.amount, height, bindingAddress := params.bindingAddress }
  return ⟨← executeTransaction platform shard tx outData params.transferParams, none⟩

/-- The reward goes to the default shard of its receiver. -/
def executeReward (rewardTxCount : Nat) (tx : MsgTx) : Go SystemResult := do
  Go.require (rewardTxCount = 0) "Only 1 reward tx allowed"
  let params ← decodeParams Codec.rewardParams tx
  let txHash ← tx.txHash
  let out := systemOut platform (getDefaultAddrShard params.receiver.elems) txHash 0 params.receiver
    OutType.transfer (← mtvValueToData params.amount)
  return { ops := [out], sc := none }

/-- The code out and the initial data out of a contract in one shard. -/
def contractOuts (txHash : Hash) (contractAddr : Address) (scBytes : Bytes)
    (initData : ShardIndex → Go Bytes) (shardIdx : ShardIndex) : Go (List OutPoint) := do
  let contractOut (index : Int) (data : Bytes) : OutPoint :=
    { shard := shardIdx, txHash, index, userAddress := .nil, type := OutType.transfer,
      data := .of data, contractAddress := contractAddr }
  return [contractOut 0 scBytes, contractOut 1 (← initData shardIdx)]

/-- A contract with its code and initial data in every shard. -/
def executeDeploy (tx : MsgTx) : Go SystemResult := do
  let params ← decodeParams Codec.deployParams tx
  Go.require (params.apiList.length ≠ 0 ∧ params.code.length ≠ 0 ∧ params.init.length ≠ 0)
    "params error"
  let txHash ← tx.txHash
  let contractAddr :=
    Address.generateAddress platform.toPrimitives txHash.bytes .smartContractAddress
  let sc : SmartContract := { contractAddr, apiList := params.apiList, code := params.code }
  let scHash ← hashOf Codec.smartContract sc
  match platform.newDeployMvvm params.init.elems with
  | none => Go.fail "vm"
  | some initData =>
    let outs ← shardList.mapM (contractOuts txHash contractAddr scHash.bytes initData)
    let totalInputs ← sumValues OutPoint.getMtvValueFromOut tx.inputs
    let refund := systemOut platform shard txHash 2 (← firstOwner tx) OutType.transfer
      (← mtvValueToData totalInputs)
    return { ops := outs.flatten ++ [refund], sc := some sc }

/-- `SysContractExecutor.Execute` after `rewardTxCount` rewards. -/
def executeSystem (rewardTxCount : Nat) (tx : MsgTx)
    (proposeBlockHeight : Int) : Go SystemResult := do
  Go.require (tx.api ≠ [] ∧ tx.params.length ≠ 0) "the API or Params is empty"
  if tx.api = SysAPI.transfer then executeTransfer platform shard tx
  else if tx.api = SysAPI.deposit then executeDeposit platform shard tx proposeBlockHeight
  else if tx.api = SysAPI.withdraw then executeWithdraw platform shard tx proposeBlockHeight
  else if tx.api = SysAPI.binding then executeBinding platform shard tx proposeBlockHeight
  else if tx.api = SysAPI.reward then executeReward platform rewardTxCount tx
  else if tx.api = SysAPI.deploy then executeDeploy platform shard tx
  else Go.fail "unknown API"

end MultiVac.Contract
