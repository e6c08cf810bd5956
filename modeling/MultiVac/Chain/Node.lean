import MultiVac.Chain.Accept
import MultiVac.Ledger.Pools

/-!
# A miner with its pools

`appBlockChain` with the transaction pool, the contract data and the deposit pool,
and the calls that change it: `AcceptBlock`, `ProposeAndAcceptEmptyBlock` and
`handleInit`. Without the pools a call of `AcceptBlock` is the one of the miner.
-/

namespace MultiVac.Chain

open Lib Wire Merkle Ledger Contract

/-- `appBlockChain`. -/
structure Node extends Miner where
  /-- `getAddress`. -/
  address : Address
  txPool : TxPool
  smartContractDataStore : ContractStore
  dPool : DepositPool

/-- `wire.OutWithProof`. -/
structure OutWithProof where
  out : OutPoint
  proof : MerklePath
  height : Int

/-- `wire.MsgReturnInit`. -/
structure MsgReturnInit where
  ledger : LedgerInfo
  rightPath : MerklePath
  latestHeader : BlockHeader
  shardHeight : Int
  treeSize : Int
  deposits : List OutWithProof

/-- A node of shard zero before its first block, with a ledger of one leaf. -/
def Node.fresh (leaf : MerkleHash) : Node where
  toMiner := Miner.fresh leaf
  address := .of []
  txPool := TxPool.empty
  smartContractDataStore := ∅
  dPool := ∅

namespace Node

/-- The first loop of `updateLastBlockDeposit`: add the miner's own deposits. -/
def addDeposit (address : Address) (tree : DeltaMerkleTree) (root : MerkleHash)
    (outs : List MerkleHash) (height : Int) (dPool : DepositPool) (out : OutState) :
    Go DepositPool := do
  if !out.outPoint.isDepositOut then return dPool
  match out.outPoint.outToDepositData with
  | none => Go.fail "rlp"
  | some data =>
    if !Address.isEqual data.bindingAddress address then return dPool
    let proof ← getOutProofByUpdate tree root outs out
    dPool.add out.outPoint height proof

/-- The second loop of `updateLastBlockDeposit`: lock or remove the deposits that a
transaction spends. -/
def useDeposits (dPool : DepositPool) (tx : MsgTx) : Go DepositPool :=
  if tx.api = SysAPI.withdraw then
    tx.inputs.foldlM (fun dPool out => if out.isDepositOut then dPool.lock out else pure dPool) dPool
  else if tx.api = SysAPI.binding then
    tx.inputs.foldlM (fun dPool out => if out.isDepositOut then dPool.remove out else pure dPool)
      dPool
  else if tx.api = SysAPI.deposit ∨ tx.api = SysAPI.transfer then
    tx.inputs.foldlM (fun dPool out => if out.isWithdrawOut then dPool.remove out else pure dPool)
      dPool
  else
    pure dPool

/-- `updateLastBlockDeposit`. -/
def updateLastBlockDeposit (address : Address) (dPool : DepositPool) (tree : DeltaMerkleTree)
    (root : MerkleHash) (block : MsgBlock) : Go DepositPool := do
  let outs ← block.body.outs.mapM OutState.merkleHash
  let dPool ← block.body.outs.foldlM (addDeposit address tree root outs block.header.height) dPool
  (bodyTxs block.body).foldlM useDeposits dPool

/-- The deposits of the block before are handled when the next block is accepted. -/
def addLastDeposits (node : Node) (dPool : DepositPool) (tree : DeltaMerkleTree)
    (root : MerkleHash) : Go DepositPool :=
  match node.prevBlock with
  | none => .ok dPool
  | some prevBlock =>
    Go.orPanic (updateLastBlockDeposit node.address dPool tree root prevBlock)

variable (env : Environment)

/-- The part of `AcceptBlock` after the block has been verified. -/
def commitBlock (node : Node) (block : MsgBlock) : Go Node := do
  let update ← Go.orPanic (node.state.getUpdateWithFullBlock block)
  let dPool ← Go.orPanic (node.dPool.update update node.shardIndex block.header.height)
  let txPool ← node.txPool.refreshPool update
  let smartContractDataStore ← node.smartContractDataStore.refreshDataStore
    env.platform.toPrimitives node.shardIndex update block.body.updateActions.elems
  let state ← Go.orPanic (node.state.applyUpdate update)
  let dPool ← node.addLastDeposits dPool update.deltaTree state.getLedgerRoot
  let miner ← blockAccepted { node.toMiner with state } block
  return { toMiner := miner, address := node.address, txPool, smartContractDataStore, dPool }

/-- `AcceptBlock`: the node after the call, and whether it returned `nil`. -/
def acceptBlock (visits : Visits) (node : Node) (block : MsgBlock) : Go (Node × Bool) := do
  if block.header.height < node.shardHeight + 1 then return (node, false)
  let _ ← HeaderStore.blockHeaderHash node.prevHeader
  let chain ← node.state.chain.receiveHeader block.header
  let node := { node with state := { node.state with chain } }
  match ← Go.attempt (verifyBlock env node.toMiner visits block) with
  | none =>
    return ({ node with
      prevReshardHeader :=
        if block.header.reshardSeed ≠ node.prevReshardHeader.reshardSeed then block.header
        else node.prevReshardHeader }, false)
  | some _ => return (← node.commitBlock env block, true)

/-- `ProposeAndAcceptEmptyBlock`. -/
def proposeAndAcceptEmptyBlock (node : Node) (height : Int) : Go (Node × Bool) := do
  let (miner, returnedNil) ← Chain.proposeAndAcceptEmptyBlock node.toMiner height
  return ({ node with toMiner := miner }, returnedNil)

/-- The loop over the deposits of `handleInit`; an error is only logged. -/
def addDeposits (dPool : DepositPool) (deposits : List OutWithProof) : Go DepositPool :=
  deposits.foldlM (fun dPool deposit => dPool.add deposit.out deposit.height deposit.proof) dPool

/-- `NewShardStateManager`. -/
def newShardStateManager (root : MerkleHash) (size : Int) (latestPath : MerklePath)
    (ledgerInfo : LedgerInfo) (chain : HeaderStore) : ShardStateManager where
  tree := { root, size, lastPath := latestPath }
  shardHeights := fun index => if index ∈ shardList then getShardHeight ledgerInfo index else 0
  chain

/-- The node that `handleInit` makes of the message, with the chain and the deposits. -/
def initialised (node : Node) (msg : MsgReturnInit) (chain : HeaderStore) (dPool : DepositPool) :
    Node where
  shardIndex := node.shardIndex
  shardHeight := msg.shardHeight
  proposeBlockHgt := msg.shardHeight + 1
  state := newShardStateManager msg.latestHeader.shardLedgerMerkleRoot msg.treeSize msg.rightPath
    msg.ledger chain
  prevReshardHeader :=
    if node.prevReshardHeader.height = 0 then msg.latestHeader else node.prevReshardHeader
  prevHeader := msg.latestHeader
  prevBlock := node.prevBlock
  address := node.address
  txPool := TxPool.empty
  smartContractDataStore := ∅
  dPool

/-- `handleInit`. -/
def handleInit (node : Node) (msg : MsgReturnInit) : Go (Node × Bool) := do
  if msg.shardHeight ≤ node.shardHeight then return (node, false)
  if msg.shardHeight < node.prevReshardHeader.height then return (node, false)
  match ← Go.attempt (verifyLastNodeMerklePath msg.latestHeader.shardLedgerMerkleRoot msg.treeSize
      msg.rightPath) with
  | none => return (node, false)
  | some _ =>
    let chain ← node.state.chain.receiveHeader msg.latestHeader
    return (node.initialised msg chain (← addDeposits node.dPool msg.deposits), true)

/-! ### Runs -/

/-- A call of a node. -/
inductive Call where
  | acceptBlock (visits : Visits) (block : MsgBlock)
  | proposeAndAcceptEmptyBlock (height : Int)
  | handleInit (msg : MsgReturnInit)

/-- The node after a call, and whether the call returned `nil`. -/
def Call.perform (node : Node) : Call → Go (Node × Bool)
  | acceptBlock visits block => node.acceptBlock env visits block
  | proposeAndAcceptEmptyBlock height => node.proposeAndAcceptEmptyBlock height
  | handleInit msg => node.handleInit msg

/-- A call of a run with the node before it. -/
structure Step where
  before : Node
  call : Call

/-- The steps of a run from one node to another. -/
inductive Runs : Node → List Step → Node → Prop where
  | nil (node : Node) : Runs node [] node
  | cons {node next after : Node} {call : Call} {returnedNil : Bool} {steps : List Step}
      (performed : call.perform env node = .ok (next, returnedNil))
      (rest : Runs next steps after) : Runs node (⟨node, call⟩ :: steps) after

variable {env} {visits : Visits} {node after : Node} {block : MsgBlock} {returnedNil : Bool}

/-- An accepted block is committed after it has been verified. -/
theorem acceptBlock_cases
    (performed : node.acceptBlock env visits block = .ok (after, returnedNil)) :
    (block.header.height < node.shardHeight + 1 ∧ after = node ∧ returnedNil = false) ∨
    (node.shardHeight + 1 ≤ block.header.height ∧
      ∃ chain, node.state.chain.receiveHeader block.header = .ok chain ∧
        ((∃ text, verifyBlock env { node.toMiner with state := { node.state with chain } } visits
              block = .error (.error text)) ∧ returnedNil = false ∧
            after = { node with
              state := { node.state with chain }
              prevReshardHeader :=
                if block.header.reshardSeed ≠ node.prevReshardHeader.reshardSeed then block.header
                else node.prevReshardHeader } ∨
          verifyBlock env { node.toMiner with state := { node.state with chain } } visits
              block = .ok () ∧ returnedNil = true ∧
            commitBlock env { node with state := { node.state with chain } } block =
              .ok after)) := by
  unfold acceptBlock at performed
  split at performed
  · next old =>
    obtain ⟨rfl, rfl⟩ := Prod.mk.inj (pure_eq_ok.mp performed)
    exact .inl ⟨old, rfl, rfl⟩
  · next new =>
    obtain ⟨_, _, performed⟩ := bind_eq_ok.mp performed
    obtain ⟨chain, received, performed⟩ := bind_eq_ok.mp performed
    refine .inr ⟨not_lt.mp new, chain, received, ?_⟩
    obtain ⟨_ | ⟨⟩, attempted, performed⟩ := bind_eq_ok.mp performed
    · obtain ⟨rfl, rfl⟩ := Prod.mk.inj (pure_eq_ok.mp performed)
      exact .inl ⟨(Go.attempt_eq_ok_none _).mp attempted, rfl, rfl⟩
    · obtain ⟨committed, commits, same⟩ := bind_eq_ok.mp performed
      obtain ⟨rfl, rfl⟩ := Prod.mk.inj (pure_eq_ok.mp same)
      exact .inr ⟨(Go.attempt_eq_ok_some _ _).mp attempted, rfl, commits⟩

/-- A committed block has changed the ledger as its update says. -/
theorem commitBlock_toMiner (visits : Visits) (committed : node.commitBlock env block = .ok after) :
    Chain.commitBlock ⟨visits, true, true⟩ node.toMiner block = .ok after.toMiner := by
  simp only [commitBlock, bind_eq_ok, pure_eq_ok] at committed
  obtain ⟨update, updated, _, _, _, _, _, _, state, applied, _, _, miner, accepted, rfl⟩ := committed
  simp only [Chain.commitBlock, bind_eq_ok, Go.assert_eq_ok, Bool.or_true]
  exact ⟨update, updated, (), trivial, state, applied, (), trivial, accepted⟩

/-- A call of `AcceptBlock` on a node is a call on its miner. -/
theorem acceptBlock_toMiner
    (performed : node.acceptBlock env visits block = .ok (after, returnedNil)) :
    Chain.acceptBlock env ⟨visits, true, true⟩ node.toMiner block =
      .ok (after.toMiner, returnedNil) := by
  unfold acceptBlock at performed
  unfold Chain.acceptBlock
  split at performed
  · next old =>
    obtain ⟨rfl, rfl⟩ := Prod.mk.inj (pure_eq_ok.mp performed)
    exact if_pos old
  · next new =>
    rw [if_neg new]
    obtain ⟨_, hashed, performed⟩ := bind_eq_ok.mp performed
    obtain ⟨chain, received, performed⟩ := bind_eq_ok.mp performed
    obtain ⟨attempted, attempts, performed⟩ := bind_eq_ok.mp performed
    refine bind_eq_ok.mpr ⟨_, hashed, bind_eq_ok.mpr ⟨chain, received,
      bind_eq_ok.mpr ⟨attempted, attempts, ?_⟩⟩⟩
    cases attempted with
    | none =>
      obtain ⟨rfl, rfl⟩ := Prod.mk.inj (pure_eq_ok.mp performed)
      rfl
    | some _ =>
      obtain ⟨committed, commits, same⟩ := bind_eq_ok.mp performed
      obtain ⟨rfl, rfl⟩ := Prod.mk.inj (pure_eq_ok.mp same)
      exact bind_eq_ok.mpr ⟨_, commitBlock_toMiner visits commits, rfl⟩

end Node

end MultiVac.Chain
