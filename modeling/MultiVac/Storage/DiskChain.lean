import MultiVac.Lib.Frontier
import MultiVac.Storage.Node

/-!
# The block chain on disk

`processor/shared/chain`: the headers, blocks and slim blocks of all shards in a
database. The chain records for every shard the height up to which it has all headers.
Headers may come in any order; the recorded height catches up when a gap is closed.
-/

namespace MultiVac.Storage

open Wire Merkle Ledger
open Lib (Table)

/-- The keys of the database. The templates of the source begin with different texts, or
with a number in the case of `indexAndHeightKeyTemplate`. -/
inductive ChainKey where
  | header (hash : Hash)
  | block (hash : Hash)
  | indexAndHeight (shardIndex : ShardIndex) (height : Int)
  | smartContract (addr : Address)
  | slimBlock (toShard shardIndex : ShardIndex) (height : Int)
  | smartContractShardInitOut (contractAddr : Address) (shardIdx : ShardIndex)
  | smartContractCodeOut (contractAddr : Address) (shardIdx : ShardIndex)
  | shardHeight (shardIndex : ShardIndex)
deriving DecidableEq

/-- The values behind the keys: encodings, and heights. -/
inductive ChainValue where
  | bytes (bytes : Bytes)
  | height (height : Int)

/-- `diskBlockChain`. -/
structure DiskBlockChain where
  curShardsHeight : Table ShardIndex Int
  chainDB : Table ChainKey ChainValue

/-- `IsSmartContractCode`. -/
def isSmartContractCode (primitives : Primitives) (out : OutPoint) : Bool :=
  Address.isEqual (Address.generateAddress primitives out.txHash.bytes .smartContractAddress)
    out.contractAddress ∧ out.index = 0

namespace DiskBlockChain

variable (primitives : Primitives)

variable (chain : DiskBlockChain)

variable (shardIndex : ShardIndex)

/-- `GetShardsHeight`. -/
def getShardsHeight : Int :=
  (chain.curShardsHeight.lookup shardIndex).getD 0

/-- `GetShardsHeaderByHeight`, over `getHeaderByIndexAndHeight`. -/
def getShardsHeaderByHeight (height : Int) : Option BlockHeader :=
  match chain.chainDB.lookup (.indexAndHeight shardIndex height) with
  | some (.bytes rawData) => decodeBytes Codec.blockHeader rawData
  | _ => none

/-- `containsShardsBlock`. -/
def containsShardsBlock (height : Int) : Bool :=
  (chain.getShardsHeaderByHeight shardIndex height).isSome

/-- `Put`. -/
def put (key : ChainKey) (value : ChainValue) : DiskBlockChain :=
  { chain with chainDB := chain.chainDB.insert key value }

/-- The height of a shard that the loop of `receiveAllHeader` ends with. It takes at most as
many steps as there are entries in the database. -/
def nextHeight : Int :=
  Lib.advance (chain.containsShardsBlock shardIndex) chain.chainDB.entries.length
    (chain.getShardsHeight shardIndex)

/-- The update of the height of a shard. The loop does not write to the map when it makes no
step. -/
def updateHeight : DiskBlockChain :=
  let height := chain.nextHeight shardIndex
  let curShardsHeight :=
    if height = chain.getShardsHeight shardIndex then chain.curShardsHeight
    else chain.curShardsHeight.insert shardIndex height
  put { chain with curShardsHeight } (.shardHeight shardIndex) (.height height)

/-- `receiveAllHeader`, with whether the result is not `nil`. -/
def receiveAllHeader (h : BlockHeader) : Go (Bool × DiskBlockChain) := do
  let headerHash ← HeaderStore.blockHeaderHash h
  if chain.containsShardsBlock h.shardIndex h.height then
    return (true, chain)
  match ← Go.attempt (encodeToBytes Codec.blockHeader h) with
  | none => return (false, chain)
  | some dataToSave =>
    let chain := chain.put (.header headerHash) (.bytes dataToSave)
    let chain := chain.put (.indexAndHeight h.shardIndex h.height) (.bytes dataToSave)
    return (true, chain.updateHeight h.shardIndex)

/-- Encode a value and put it, with whether this succeeds. -/
def save {α : Type} (codec : Codec α) (chain : DiskBlockChain) (key : ChainKey) (value : α) :
    Go (Bool × DiskBlockChain) := do
  match ← Go.attempt (encodeToBytes codec value) with
  | none => return (false, chain)
  | some dataToStore => return (true, chain.put key (.bytes dataToStore))

/-- `receiveSmartContracts`. -/
def receiveSmartContracts (chain : DiskBlockChain) :
    List SmartContract → Go (Bool × DiskBlockChain)
  | [] => .ok (true, chain)
  | sc :: scs => do
    let (saved, chain) ← chain.save Codec.smartContract (.smartContract sc.contractAddr) sc
    if saved then chain.receiveSmartContracts scs else return (false, chain)

/-- Save an out of a contract; other outs are passed over. -/
def saveSmartContractOut (out : OutState) : Go (Bool × DiskBlockChain) :=
  if isSmartContractCode primitives out.outPoint then
    chain.save Codec.outState
      (.smartContractCodeOut out.outPoint.contractAddress out.outPoint.shard) out
  else if isSmartContractShardInitOut primitives out.outPoint then
    chain.save Codec.outState
      (.smartContractShardInitOut out.outPoint.contractAddress out.outPoint.shard) out
  else return (true, chain)

/-- `ReceiveHeader`. -/
def receiveHeader (header : BlockHeader) : Go (Bool × DiskBlockChain) :=
  chain.receiveAllHeader header

/-- The loop of `ReceiveBlock` over the outs, which goes on after an error. -/
def saveBlockOuts (chain : DiskBlockChain) : List OutState → Go DiskBlockChain
  | [] => .ok chain
  | out :: outs => do
    let (_, chain) ← chain.saveSmartContractOut primitives out
    chain.saveBlockOuts outs

/-- `ReceiveBlock`. -/
def receiveBlock (block : MsgBlock) : Go (Bool × DiskBlockChain) := do
  let (received, chain) ← chain.receiveAllHeader block.header
  if !received then
    return (false, chain)
  match ← Go.attempt (encodeToBytes Codec.msgBlock block) with
  | none => return (false, chain)
  | some dataToStore =>
    let hash ← HeaderStore.blockHeaderHash block.header
    let chain := chain.put (.block hash) (.bytes dataToStore)
    let (_, chain) ← chain.receiveSmartContracts block.body.smartContracts
    return (true, ← chain.saveBlockOuts primitives block.body.outs)

/-- The loop of `ReceiveSlimBlock` over the outs, which returns after an error. -/
def saveSlimBlockOuts (chain : DiskBlockChain) : List OutState → Go (Bool × DiskBlockChain)
  | [] => .ok (true, chain)
  | out :: outs => do
    let (saved, chain) ← chain.saveSmartContractOut primitives out
    if saved then chain.saveSlimBlockOuts outs else return (false, chain)

/-- `ReceiveSlimBlock`. -/
def receiveSlimBlock (msg : SlimBlock) : Go (Bool × DiskBlockChain) := do
  let (received, chain) ← chain.receiveAllHeader msg.header
  if !received then
    return (false, chain)
  let (saved, chain) ← chain.save Codec.slimBlock
    (.slimBlock msg.toShard msg.header.shardIndex msg.header.height) msg
  if !saved then
    return (false, chain)
  let (saved, chain) ← chain.receiveSmartContracts msg.smartContracts
  if !saved then
    return (false, chain)
  chain.saveSlimBlockOuts primitives msg.clipTreeData.outs

/-! ### Opening the chain -/

/-- Read the height of a shard from the database. -/
def loadHeight : DiskBlockChain :=
  match chain.chainDB.lookup (.shardHeight shardIndex) with
  | some (.height height) =>
    { chain with curShardsHeight := chain.curShardsHeight.insert shardIndex height }
  | _ => chain

/-- Load the genesis block of a shard that has no height. -/
def loadGenesis (genesisBlocks : ShardIndex → MsgBlock) (chain : DiskBlockChain)
    (shardIndex : ShardIndex) : Go DiskBlockChain := do
  if (chain.curShardsHeight.lookup shardIndex).isSome then
    return chain
  let (ok, chain) ← chain.receiveBlock primitives (genesisBlocks shardIndex)
  Go.assert ok
  return { chain with curShardsHeight := chain.curShardsHeight.insert shardIndex 1 }

/-- `newDiskBlockChain`. -/
def newDiskBlockChain (genesisBlocks : ShardIndex → MsgBlock)
    (chainDB : Table ChainKey ChainValue) : Go DiskBlockChain :=
  let chain := shardList.foldl loadHeight ⟨∅, chainDB⟩
  shardList.foldlM (loadGenesis primitives genesisBlocks) chain

/-! ### Calls -/

/-- A call that brings a header. -/
inductive ReceiveCall where
  | header (header : BlockHeader)
  | block (block : MsgBlock)
  | slimBlock (msg : SlimBlock)

/-- The header of a call. -/
def receivedHeader : ReceiveCall → BlockHeader
  | .header header => header
  | .block block => block.header
  | .slimBlock msg => msg.header

/-- Perform a call. -/
def receive : ReceiveCall → Go (Bool × DiskBlockChain)
  | .header header => chain.receiveHeader header
  | .block block => chain.receiveBlock primitives block
  | .slimBlock msg => chain.receiveSlimBlock primitives msg

/-- Perform calls one after the other. -/
def receiveAll (calls : List ReceiveCall) : Go DiskBlockChain :=
  calls.foldlM (fun chain call => Prod.snd <$> chain.receive primitives call) chain

end DiskBlockChain

end MultiVac.Storage
