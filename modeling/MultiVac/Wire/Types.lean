import MultiVac.Base.Slice

/-!
# Transactions and blocks

The data of `model/wire`: outs and their states, transactions with proofs, and
blocks. Pointer fields are never `nil` in a value the codec can produce, so
they are plain values here.
-/

namespace MultiVac.Wire

/-- `shard.Index`. -/
abbrev ShardIndex := UInt32

/-- `multivacaddress.Address`. -/
abbrev Address := GoBytes

/-- `wire.OutPoint`. `type` is the `OutType` byte. -/
structure OutPoint where
  shard : ShardIndex
  txHash : Hash
  index : Int
  userAddress : Address
  type : UInt8
  data : GoBytes
  contractAddress : Address
deriving DecidableEq, Inhabited

/-- `wire.OutState`. -/
structure OutState where
  outPoint : OutPoint
  state : UInt8
deriving DecidableEq, Inhabited

/-- `merkle.MerklePath`: the leaf, the siblings above it, and their sides. -/
structure MerklePath where
  hashes : Slice MerkleHash
  proofPath : GoBytes
deriving DecidableEq, Inhabited

/-- `wire.TxIn`. -/
structure TxIn where
  previousOutPoint : OutPoint
deriving DecidableEq, Inhabited

/-- `wire.MsgTx`. -/
structure MsgTx where
  version : Int
  shard : ShardIndex
  txIn : Slice TxIn
  contractAddress : Address
  api : GoString
  params : GoBytes
  nonce : UInt64
  publicKey : GoBytes
  signatureScript : GoBytes
  storageNodeAddress : Address
  memo : GoString
deriving DecidableEq, Inhabited

/-- `wire.MsgTxWithProofs`. -/
structure MsgTxWithProofs where
  tx : MsgTx
  proofs : Slice MerklePath
deriving DecidableEq, Inhabited

/-- `wire.ReduceAction`. -/
structure ReduceAction where
  toBeReducedOut : OutPoint
  api : GoString
deriving DecidableEq, Inhabited

/-- `wire.UpdateAction`. -/
structure UpdateAction where
  originOut : OutState
  originOutProof : MerklePath
  newOut : OutState
deriving DecidableEq, Inhabited

/-- `wire.SmartContract`. -/
structure SmartContract where
  contractAddr : Address
  apiList : Slice GoString
  code : GoBytes
deriving DecidableEq, Inhabited

/-- `shard.IndexAndHeight`. -/
structure IndexAndHeight where
  index : ShardIndex
  height : Int
deriving DecidableEq, Inhabited

/-- `wire.LedgerInfo`, the clock vector of a block. -/
structure LedgerInfo where
  size : Int
  shardsHeights : List IndexAndHeight
deriving DecidableEq, Inhabited

/-- `wire.BlockHeader`. -/
structure BlockHeader where
  version : Int
  shardIndex : ShardIndex
  height : Int
  prevBlockHeader : Hash
  blockBodyHash : Hash
  outsMerkleRoot : MerkleHash
  shardLedgerMerkleRoot : MerkleHash
  isEmptyBlock : Bool
  timeStamp : Int
  depositTxsOuts : List OutPoint
  withdrawTxsOuts : List OutPoint
  reshardSeed : Bytes
  pk : Bytes
  lastSeedSig : Bytes
  headerSig : Bytes
  seed : Hash
  reduceActions : List ReduceAction
deriving DecidableEq, Inhabited

/-- `wire.BlockBody`. -/
structure BlockBody where
  transactions : List MsgTxWithProofs
  ledgerInfo : LedgerInfo
  smartContracts : List SmartContract
  outs : List OutState
  updateActions : Slice UpdateAction
deriving DecidableEq, Inhabited

/-- `wire.MsgBlock`. -/
structure MsgBlock where
  header : BlockHeader
  body : BlockBody
deriving DecidableEq, Inhabited

end MultiVac.Wire
