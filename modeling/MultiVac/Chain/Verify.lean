import MultiVac.Contract.Processor

/-!
# Verification of a block

`appBlockChain.VerifyBlock`: the checks of the header, of the body, of the reduce
transactions and of the new ledger root.
-/

namespace MultiVac.Chain

open Wire Merkle Ledger Contract

/-- `wire.BlockVersion`. -/
def blockVersion : Int := 1

/-- `params.ReshardRoundThreshold`. -/
def reshardRoundThreshold : Int := 20

/-- What a miner uses of other components: the platform, the executors of the
contracts it has data for, and the functions for reshard seeds. -/
structure Environment where
  platform : Platform
  contracts : ContractExecutor
  /-- `Ed25519VRF.VerifyProof` on a public key, a seed and a hash. -/
  vrfVerifyProof : Bytes → Bytes → Bytes → Go Bool
  /-- `Ed25519VRF.Generate` on a public key, a private key and a hash. -/
  vrfGenerate : Bytes → Bytes → Bytes → Go Bytes

/-- `appBlockChain`, without the transaction pool and the deposit pool. -/
structure Miner where
  shardIndex : ShardIndex
  shardHeight : Int
  proposeBlockHgt : Int
  state : ShardStateManager
  prevReshardHeader : BlockHeader
  prevHeader : BlockHeader
  prevBlock : Option MsgBlock

/-- The orders in which one verification visits the maps of contract calls: when
it executes the body, and when it checks the deployed contracts. -/
structure Visits where
  body : MapOrder
  contracts : MapOrder

/-- The simplest environment, without contracts, to run the model on concrete
inputs. -/
def Environment.plain : Environment where
  platform := Platform.plain
  contracts := fun _ _ => none
  vrfVerifyProof := fun _ _ _ => .ok true
  vrfGenerate := fun _ _ hash => .ok hash

/-- A miner of shard zero before its first block, with a ledger of one leaf. -/
def Miner.fresh (leaf : MerkleHash) : Miner where
  shardIndex := 0
  shardHeight := 0
  proposeBlockHgt := 1
  state := {
    tree := { root := leaf, size := 1, lastPath := { hashes := .of [leaf], proofPath := .of [] } }
    shardHeights := fun _ => 0
    chain := { headers := [] } }
  prevReshardHeader := default
  prevHeader := default
  prevBlock := none

/-- All maps are visited in the order in which their entries were made. -/
def Visits.listed : Visits := ⟨.listed, .listed⟩

/-- `binary.PutUvarint`. -/
def uvarint : Nat → Nat → Bytes
  | 0, _ => []
  | fuel + 1, number =>
    if number < 0x80 then [UInt8.ofNat number]
    else UInt8.ofNat (number % 0x80 + 0x80) :: uvarint fuel (number / 0x80)

/-- `binary.PutVarint` on a 64-bit integer. -/
def varint (number : Int) : Bytes :=
  uvarint 10 (if number < 0 then 2 * (-number).toNat - 1 else 2 * number.toNat)

/-- `calcReshardSeedHash`. A height that needs more than eight bytes does not fit
into the buffer. -/
def calcReshardSeedHash (reshardSeed : Bytes) (height : Int) : Go Hash := do
  let written := varint height
  Go.assert (written.length ≤ 8)
  return sha256 (reshardSeed ++ written ++ List.replicate (8 - written.length) 0)

/-- `MsgTxWithProofs.VerifyTxWithProof`: the proofs of the inputs one by one. -/
def verifyProofs (root : MerkleHash) : List OutPoint → List MerklePath → Go Unit
  | [], _ => .ok ()
  | _ :: _, [] => Go.panic
  | out :: outs, proof :: proofs => do
    let hash ← out.unspentOutHash
    Go.require (hash = (← getLeaf proof)) "wrong proof for txin"
    verify proof root
    verifyProofs root outs proofs

variable (env : Environment) (miner : Miner)

/-- The transaction is valid, and so is a proof for each of its inputs. -/
def verifyTxWithProof (tx : MsgTxWithProofs) (root : MerkleHash) : Go Unit := do
  tx.tx.verifyTransaction env.platform.toPrimitives
  Go.require (tx.tx.txIn.length = tx.proofs.length)
    "length of txin is different from length of proofs"
  verifyProofs root tx.tx.inputs tx.proofs.elems

/-- A new reshard seed comes in time and is proved; an old one is not overdue. -/
def verifyReshardSeed (header : BlockHeader) : Go Unit := do
  let elapsed := header.height - miner.prevReshardHeader.height
  if header.reshardSeed ≠ miner.prevReshardHeader.reshardSeed then
    Go.require (reshardRoundThreshold ≤ elapsed)
      "verifyblockheader: should not update reshard seed, but update"
    let reshardHash ← calcReshardSeedHash miner.prevReshardHeader.reshardSeed header.height
    Go.require (← env.vrfVerifyProof header.pk header.reshardSeed reshardHash.bytes)
      "verifyblockheader: can't verify the new reshard seed"
  else
    Go.require (elapsed < reshardRoundThreshold ∨ header.isEmptyBlock)
      "verifyblockheader: should update reshard seed, but not"

/-- The header follows the last one of the miner. -/
def verifyBlockHeader (header : BlockHeader) : Go Unit := do
  Go.require (header.version = blockVersion) "invalid block field: Header.Version"
  Go.require (header.shardIndex = miner.shardIndex) "invalid block field: Header.Index"
  Go.require (header.height = miner.proposeBlockHgt) "invalid block field: Header.Height"
  let prevHash ← HeaderStore.blockHeaderHash miner.prevHeader
  Go.require (header.prevBlockHeader = prevHash) "invalid block field: Header.PrevBlockHeader"
  if !header.isEmptyBlock then verifyReshardSeed env miner header

/-- `verifyTx`: which outs a system transaction may spend at this height. -/
def verifyTx (tx : MsgTx) : Go Unit :=
  if tx.api = SysAPI.transfer ∨ tx.api = SysAPI.deposit then
    tx.inputs.forM fun out => do
      Go.require (!out.isLock miner.proposeBlockHgt) "withdraw out is in locking"
      Go.require (!out.isDepositOut) "transfer tx's input should not be dout"
  else if tx.api = SysAPI.withdraw then
    tx.inputs.forM fun out =>
      Go.require out.isDepositOut "withdraw tx's input must be deposit out"
  else if tx.api = SysAPI.binding then
    tx.inputs.forM fun out => do
      Go.require out.isDepositOut "binding tx's input must be deposit out"
      Go.require (!out.isBindingLock miner.proposeBlockHgt) "binding tx's input is in locking"
  else
    pure ()

/-- The checks of one transaction after the coinbase slot. -/
def verifyNormalTx (tx : MsgTxWithProofs) : Go Unit := do
  Go.require (tx.tx.isTxInShard miner.shardIndex) "the transaction not in shard"
  if !tx.tx.isReduceTx then verifyTxWithProof env tx miner.state.getLedgerRoot
  verifyTx miner tx.tx

/-- The transactions of a body, without their proofs. -/
def bodyTxs (body : BlockBody) : List MsgTx := body.transactions.map MsgTxWithProofs.tx

/-- The transactions after the coinbase slot. -/
def normalTxs (body : BlockBody) : List MsgTxWithProofs := body.transactions.tail

/-- `verifySmartContract`. -/
def verifySmartContract (order : MapOrder) (body : BlockBody) : Go Unit := do
  let blockHgt := getShardHeight body.ledgerInfo miner.shardIndex + 1
  let result ← execute env.platform env.contracts order miner.shardIndex (bodyTxs body) blockHgt
  Go.require (result.smartContracts.length = body.smartContracts.length)
    "verify failed: the length of smart contract is Wrong"
  Go.require (result.smartContracts = body.smartContracts)
    "verify failed: the content of smartContract is different"

/-- `verifyBlockBodyInternal`. -/
def verifyBlockBodyInternal (visits : Visits) (body : BlockBody) (outsMerkleRoot : MerkleHash) :
    Go Unit := do
  (normalTxs body).forM (verifyNormalTx env miner)
  refuseDuplicates "verify block body: Transactions have duplicate txin" []
    ((normalTxs body).flatMap fun tx => tx.tx.inputs)
  let result ← execute env.platform env.contracts visits.body miner.shardIndex (bodyTxs body)
    miner.proposeBlockHgt
  Go.require (outsMerkleRoot = result.merkleRoot) "wrong merkle root"
  Go.require (result.updateActions.length = body.updateActions.length)
    "the length of the update area is incorrect"
  Go.require (result.updateActions = body.updateActions) "the generated update area is incorrect"
  Go.require (result.successfulTxs.length = body.transactions.length)
    "there are failed transactions in block body"
  verifySmartContract env miner visits.contracts body

/-- `BlockBody.BlockBodyHash`. -/
def blockBodyHash (body : BlockBody) : Go Hash := hashOf Codec.blockBody body

/-- `verifyBlockBody`. -/
def verifyBlockBody (visits : Visits) (block : MsgBlock) : Go Unit := do
  let actualHash ← blockBodyHash block.body
  Go.require (block.header.blockBodyHash = actualHash) "invalid block field: Header.BlockBodyHash"
  verifyBlockBodyInternal env miner visits block.body block.header.outsMerkleRoot
  let info := block.body.ledgerInfo
  Go.require (shardList.all fun index => miner.state.shardHeights index ≤ getShardHeight info index)
    "invalid block field: Body.LedgerInfo.GetShardHeight"
  Go.require (info.size = (shardList.map (getShardHeight info)).sum)
    "invalid block field: Body.LedgerInfo.Size"

/-- The reduce transaction for one reduce action, before it is signed. -/
def reduceTx (shardIndex : ShardIndex) (action : ReduceAction) : MsgTx where
  version := txVersion
  shard := shardIndex
  txIn := .of [{ previousOutPoint := action.toBeReducedOut }]
  contractAddress := action.toBeReducedOut.contractAddress
  api := action.api
  params := .nil
  nonce := 0
  publicKey := .nil
  signatureScript := .nil
  storageNodeAddress := .nil
  memo := []

/-- `generateReduceTxsByHeader`. -/
def generateReduceTxsByHeader (header : BlockHeader) : Go (List MsgTxWithProofs) :=
  (header.reduceActions.filter fun action =>
    action.toBeReducedOut.shard = miner.shardIndex).mapM fun action => do
      let _ ← Address.getPublicKeyHash env.platform.toPrimitives
        action.toBeReducedOut.contractAddress .smartContractAddress
      let tx ← (reduceTx miner.shardIndex action).signReduce env.platform.toPrimitives
      return { tx, proofs := .nil }

/-- The reduce transactions of all headers in order. -/
def generateReduceTxs (headers : List BlockHeader) : Go (List MsgTxWithProofs) := do
  return (← headers.mapM (generateReduceTxsByHeader env miner)).flatten

/-- `verifyReduceActionsInBlock`. -/
def verifyReduceActionsInBlock (block : MsgBlock) : Go Unit := do
  let headers ← miner.state.getBlockHeadersToAppend block.body.ledgerInfo
  let reduceTxs ← generateReduceTxs env miner headers
  let reduceTxsInBlock := block.body.transactions.filter fun tx => tx.tx.isReduceTx
  Go.require (reduceTxs.length = reduceTxsInBlock.length)
    "the number of reduce tx generated is inconsistent"
  Go.require (reduceTxs = reduceTxsInBlock)
    "the reduce txs generated through header is inconsistent with the reduce txs in the block"

/-- The ledger root after the inputs of a block are spent and its headers are
mounted. -/
def newLedgerRoot (block : MsgBlock) : Go MerkleHash := do
  let update ← miner.state.newUpdate
  let update ← update.markTransactions block.body.transactions
  let headers ← miner.state.getBlockHeadersToAppend block.body.ledgerInfo
  let _ ← generateReduceTxs env miner headers
  let update ← update.addHeaders headers
  update.deltaTree.getMerkleRoot

/-- `VerifyBlock`. -/
def verifyBlock (visits : Visits) (block : MsgBlock) : Go Unit := do
  verifyBlockHeader env miner block.header
  verifyBlockBody env miner visits block
  verifyReduceActionsInBlock env miner block
  let root ← newLedgerRoot env miner block
  Go.require (block.header.shardLedgerMerkleRoot = root) "Wrong ledger merkle root"

/-- What is known of a block that has been verified. -/
structure Verified (visits : Visits) (block : MsgBlock) : Prop where
  header : verifyBlockHeader env miner block.header = .ok ()
  bodyHash : blockBodyHash block.body = .ok block.header.blockBodyHash
  normal : ∀ tx ∈ normalTxs block.body, verifyNormalTx env miner tx = .ok ()
  distinct : refuseDuplicates "verify block body: Transactions have duplicate txin" []
    ((normalTxs block.body).flatMap fun tx => tx.tx.inputs) = .ok ()
  executed : ∃ result, execute env.platform env.contracts visits.body miner.shardIndex
      (bodyTxs block.body) miner.proposeBlockHgt = .ok result ∧
    block.header.outsMerkleRoot = result.merkleRoot ∧
    result.updateActions = block.body.updateActions ∧
    result.successfulTxs.length = block.body.transactions.length
  contracts : verifySmartContract env miner visits.contracts block.body = .ok ()
  clock : ∀ index ∈ shardList,
    miner.state.shardHeights index ≤ getShardHeight block.body.ledgerInfo index
  size : block.body.ledgerInfo.size = (shardList.map (getShardHeight block.body.ledgerInfo)).sum
  reduced : ∃ headers, miner.state.getBlockHeadersToAppend block.body.ledgerInfo = .ok headers ∧
    generateReduceTxs env miner headers =
      .ok (block.body.transactions.filter fun tx => tx.tx.isReduceTx)
  root : newLedgerRoot env miner block = .ok block.header.shardLedgerMerkleRoot

theorem verifyBlock_eq_ok_iff (visits : Visits) (block : MsgBlock) (result : Unit) :
    verifyBlock env miner visits block = .ok result ↔ Verified env miner visits block := by
  simp only [verifyBlock, verifyBlockBody, verifyBlockBodyInternal, verifyReduceActionsInBlock,
    Lib.bind_eq_ok, Lib.forM_eq_ok_iff, Go.require_eq_ok, decide_eq_true_eq, List.all_eq_true]
  constructor
  · rintro ⟨_, header, _, ⟨_, bodyHash, _, rfl, _, ⟨_, normal, _, distinct, outcome, executed, _,
      outsRoot, _, _, _, updated, _, successful, contracts⟩, _, clock, size⟩, _,
      ⟨headers, mounted, reduceTxs, generated, _, _, rfl⟩, _, root, rfl⟩
    exact ⟨header, bodyHash, normal, distinct, ⟨outcome, executed, outsRoot, updated, successful⟩,
      contracts, clock, size, ⟨headers, mounted, generated⟩, root⟩
  · rintro ⟨header, bodyHash, normal, distinct, ⟨outcome, executed, outsRoot, updated, successful⟩,
      contracts, clock, size, ⟨headers, mounted, generated⟩, root⟩
    exact ⟨(), header, (), ⟨_, bodyHash, (), rfl, (), ⟨(), normal, (), distinct, outcome, executed,
      (), outsRoot, (), by rw [updated], (), updated, (), successful, contracts⟩, (), clock, size⟩,
      (), ⟨headers, mounted, _, generated, (), rfl, rfl⟩, _, root, rfl⟩

end MultiVac.Chain
