import MultiVac.Chain.Propose

/-!
# Acceptance of blocks

`appBlockChain.AcceptBlock` and `ProposeAndAcceptEmptyBlock`, and whole runs of
these calls. A call that returns an error may still have changed the miner, so
a call returns the miner after it and whether it returned `nil`.
-/

namespace MultiVac.Chain

open Lib Wire Merkle Ledger Contract

/-- What one call of `AcceptBlock` gets from its surroundings. -/
structure Surroundings where
  visits : Visits
  /-- Whether `dPool.Update` succeeds. -/
  depositsUpdated : Bool
  /-- Whether `updateLastBlockDeposit` succeeds on the block before. -/
  lastBlockUpdated : Bool

/-- The part of `GetSlimBlocksFromBlock` that can panic: it hashes all outs and
takes the first of them. The slim blocks are only sent to other nodes. -/
def cutSlimBlocks (block : MsgBlock) : Go Unit :=
  if block.header.isEmptyBlock then
    pure ()
  else do
    let _ ← block.body.outs.mapM OutState.merkleHash
    Go.assert (!block.body.outs.isEmpty)

/-- `blockAccepted`. -/
def blockAccepted (miner : Miner) (block : MsgBlock) : Go Miner := do
  cutSlimBlocks block
  return { miner with
    prevReshardHeader :=
      if !block.header.isEmptyBlock ∧
          block.header.reshardSeed ≠ miner.prevReshardHeader.reshardSeed then block.header
      else miner.prevReshardHeader
    shardHeight := miner.shardHeight + 1
    proposeBlockHgt := miner.proposeBlockHgt + 1
    prevHeader := block.header
    prevBlock := some block }

variable (env : Environment)

/-- The part of `AcceptBlock` after the block has been verified. -/
def commitBlock (surroundings : Surroundings) (miner : Miner) (block : MsgBlock) : Go Miner := do
  let update ← Go.orPanic (miner.state.getUpdateWithFullBlock block)
  Go.assert surroundings.depositsUpdated
  let state ← Go.orPanic (miner.state.applyUpdate update)
  Go.assert (miner.prevBlock.isNone || surroundings.lastBlockUpdated)
  blockAccepted { miner with state } block

/-- `AcceptBlock`. -/
def acceptBlock (surroundings : Surroundings) (miner : Miner) (block : MsgBlock) :
    Go (Miner × Bool) := do
  if block.header.height < miner.shardHeight + 1 then return (miner, false)
  -- The header hash is an argument of a log line.
  let _ ← HeaderStore.blockHeaderHash miner.prevHeader
  let chain ← miner.state.chain.receiveHeader block.header
  let miner := { miner with state := { miner.state with chain } }
  match ← Go.attempt (verifyBlock env miner surroundings.visits block) with
  | none =>
    return ({ miner with
      prevReshardHeader :=
        if block.header.reshardSeed ≠ miner.prevReshardHeader.reshardSeed then block.header
        else miner.prevReshardHeader }, false)
  | some _ => return (← commitBlock surroundings miner block, true)

/-- `ProposeAndAcceptEmptyBlock`. -/
def proposeAndAcceptEmptyBlock (miner : Miner) (height : Int) : Go (Miner × Bool) := do
  let prevHeader := miner.prevHeader
  if prevHeader.height + 1 ≠ miner.proposeBlockHgt ∨ miner.proposeBlockHgt ≠ height then
    return (miner, false)
  let preHeaderHash ← HeaderStore.blockHeaderHash prevHeader
  let emptyBlock ← newBlock miner.shardIndex miner.proposeBlockHgt preHeaderHash
    prevHeader.shardLedgerMerkleRoot emptyHash true (prevHeader.timeStamp + 10)
    prevHeader.reshardSeed []
    { transactions := [], ledgerInfo := ⟨0, []⟩, smartContracts := [], outs := []
      updateActions := .nil }
  let chain ← miner.state.chain.receiveHeader emptyBlock.header
  let miner := { miner with state := { miner.state with chain } }
  return (← blockAccepted miner emptyBlock, true)

/-! ### Runs -/

/-- A call of a miner. -/
inductive Call where
  | acceptBlock (surroundings : Surroundings) (block : MsgBlock)
  | proposeAndAcceptEmptyBlock (height : Int)

/-- The miner after a call, and whether the call returned `nil`. -/
def Call.perform (miner : Miner) : Call → Go (Miner × Bool)
  | acceptBlock surroundings block => Chain.acceptBlock env surroundings miner block
  | proposeAndAcceptEmptyBlock height => Chain.proposeAndAcceptEmptyBlock miner height

/-- A call in a run, whether it returned `nil`, and the miner after it. -/
structure Event where
  call : Call
  returnedNil : Bool
  after : Miner

/-- The events of a sequence of calls that starts with a given miner. -/
inductive Runs : Miner → List Event → Prop where
  | nil (miner : Miner) : Runs miner []
  | cons {miner after : Miner} {call : Call} {returnedNil : Bool} {trace : List Event}
      (performed : call.perform env miner = .ok (after, returnedNil))
      (rest : Runs after trace) : Runs miner (⟨call, returnedNil, after⟩ :: trace)

/-- The block that a call accepts writes no shard data of a contract. -/
def Call.UpdatesNothing : Call → Prop
  | acceptBlock _ block => block.body.updateActions.length = 0
  | proposeAndAcceptEmptyBlock _ => True

/-- A call of `AcceptBlock` that returns `nil` has installed the root in the
header of its block. -/
def Event.CommitsRoot (event : Event) : Prop :=
  match event.call with
  | .acceptBlock _ block => event.returnedNil = true →
      event.after.state.getLedgerRoot = block.header.shardLedgerMerkleRoot
  | .proposeAndAcceptEmptyBlock _ => True

variable {env} {surroundings : Surroundings} {miner after : Miner} {block : MsgBlock}

/-- An accepted block was verified, and then committed. -/
theorem acceptBlock_cases
    (accepted : acceptBlock env surroundings miner block = .ok (after, true)) :
    ∃ chain, miner.state.chain.receiveHeader block.header = .ok chain ∧
      verifyBlock env { miner with state := { miner.state with chain } } surroundings.visits
        block = .ok () ∧
      commitBlock surroundings { miner with state := { miner.state with chain } } block =
        .ok after := by
  unfold acceptBlock at accepted
  split at accepted
  · cases accepted
  · obtain ⟨_, _, accepted⟩ := bind_eq_ok.mp accepted
    obtain ⟨chain, received, accepted⟩ := bind_eq_ok.mp accepted
    refine ⟨chain, received, ?_⟩
    obtain ⟨_ | ⟨⟩, attempted, accepted⟩ := bind_eq_ok.mp accepted
    · cases accepted
    · obtain ⟨committed, commits, same⟩ := bind_eq_ok.mp accepted
      obtain ⟨rfl, _⟩ := Prod.mk.inj (pure_eq_ok.mp same)
      exact ⟨(Go.attempt_eq_ok_some _ _).mp attempted, commits⟩

/-- A refused block leaves the ledger alone. -/
theorem acceptBlock_refused
    (refused : acceptBlock env surroundings miner block = .ok (after, false)) :
    after.shardIndex = miner.shardIndex ∧ ∃ chain, after.state = { miner.state with chain } := by
  unfold acceptBlock at refused
  split at refused
  · obtain rfl := (Prod.mk.inj (pure_eq_ok.mp refused)).1
    exact ⟨rfl, miner.state.chain, rfl⟩
  · obtain ⟨_, _, refused⟩ := bind_eq_ok.mp refused
    obtain ⟨chain, _, refused⟩ := bind_eq_ok.mp refused
    obtain ⟨_ | ⟨⟩, attempted, refused⟩ := bind_eq_ok.mp refused
    · obtain rfl := (Prod.mk.inj (pure_eq_ok.mp refused)).1
      exact ⟨rfl, chain, rfl⟩
    · obtain ⟨_, _, same⟩ := bind_eq_ok.mp refused
      cases (Prod.mk.inj (pure_eq_ok.mp same)).2

/-- An empty block leaves the ledger alone. -/
theorem proposeAndAcceptEmptyBlock_same {height : Int} {returnedNil : Bool}
    (performed : proposeAndAcceptEmptyBlock miner height = .ok (after, returnedNil)) :
    after.shardIndex = miner.shardIndex ∧ ∃ chain, after.state = { miner.state with chain } := by
  unfold proposeAndAcceptEmptyBlock at performed
  dsimp only at performed
  split at performed
  · obtain rfl := (Prod.mk.inj (pure_eq_ok.mp performed)).1
    exact ⟨rfl, miner.state.chain, rfl⟩
  · simp only [blockAccepted, bind_eq_ok, pure_eq_ok, Prod.mk.injEq] at performed
    obtain ⟨_, _, _, _, chain, _, _, ⟨_, _, rfl⟩, rfl, _⟩ := performed
    exact ⟨rfl, chain, rfl⟩

/-- What a commit leaves behind: the ledger of the block's update. -/
theorem commitBlock_cases (committed : commitBlock surroundings miner block = .ok after) :
    ∃ update state, miner.state.getUpdateWithFullBlock block = .ok update ∧
      miner.state.applyUpdate update = .ok state ∧ after.state = state ∧
      after.shardIndex = miner.shardIndex ∧ after.prevHeader = block.header := by
  simp only [commitBlock, blockAccepted, bind_eq_ok, Go.orPanic_eq_ok, pure_eq_ok] at committed
  obtain ⟨update, updated, _, _, state, applied, _, _, _, _, rfl⟩ := committed
  exact ⟨update, state, updated, applied, rfl, rfl, rfl⟩

theorem root_of_applyUpdate {state after : ShardStateManager} {update : Update}
    (applied : state.applyUpdate update = .ok after) :
    update.deltaTree.getMerkleRoot = .ok after.getLedgerRoot := by
  simp only [ShardStateManager.applyUpdate, bind_eq_ok, pure_eq_ok] at applied
  obtain ⟨root, computed, _, _, _, _, rfl⟩ := applied
  exact computed

/-- Without update actions, the update that is applied is the one whose root was
verified. -/
theorem getLedgerRoot_acceptBlock
    (accepted : acceptBlock env surroundings miner block = .ok (after, true))
    (noActions : block.body.updateActions.length = 0) :
    after.state.getLedgerRoot = block.header.shardLedgerMerkleRoot := by
  obtain ⟨chain, _, verified, committed⟩ := acceptBlock_cases accepted
  obtain ⟨update, state, updated, applied, rfl, _⟩ := commitBlock_cases committed
  have verifiedRoot := ((verifyBlock_eq_ok_iff _ _ _ _ _).mp verified).root
  have noElems : block.body.updateActions.elems = [] := List.length_eq_zero_iff.mp noActions
  simp only [newLedgerRoot, bind_eq_ok] at verifiedRoot
  simp only [ShardStateManager.getUpdateWithFullBlock, noElems, Update.applyActions,
    List.foldlM_nil, bind_eq_ok, pure_eq_ok] at updated
  obtain ⟨start, started, marked, marks, headers, mounted, _, _, grown, grows, computed⟩ :=
    verifiedRoot
  obtain ⟨_, startedToo, _, marksToo, _, rfl, _, mountedToo, growsToo⟩ := updated
  obtain rfl := Except.ok.inj (started.symm.trans startedToo)
  obtain rfl := Except.ok.inj (marks.symm.trans marksToo)
  obtain rfl := Except.ok.inj (mounted.symm.trans mountedToo)
  obtain rfl := Except.ok.inj (grows.symm.trans growsToo)
  exact Except.ok.inj ((root_of_applyUpdate applied).symm.trans computed)

/-- In a run without update actions, every accepted block commits its root. -/
theorem commitsRoot_of_runs (env : Environment) (miner : Miner) (trace : List Event)
    (runs : Runs env miner trace) (updatesNothing : ∀ event ∈ trace, event.call.UpdatesNothing) :
    ∀ event ∈ trace, event.CommitsRoot := by
  induction runs with
  | nil => simp
  | @cons miner after call returnedNil trace performed _ ih =>
    obtain ⟨nothing, nothingRest⟩ := List.forall_mem_cons.mp updatesNothing
    refine List.forall_mem_cons.mpr ⟨?_, ih nothingRest⟩
    cases call with
    | acceptBlock surroundings block =>
      intro accepted
      dsimp only at accepted
      subst accepted
      exact getLedgerRoot_acceptBlock performed nothing
    | proposeAndAcceptEmptyBlock height => trivial

/-! ### A contract call -/

/-- The hash of an unspent out. -/
def leafOf (out : OutPoint) : MerkleHash :=
  match out.unspentOutHash with
  | .ok hash => hash
  | .error _ => emptyHash

/-- The public key of a caller. -/
def callerKey : Bytes := List.replicate 32 7

/-- The contract that is called. -/
def calledContract : Address :=
  Address.generateAddress Platform.plain.toPrimitives [9] .smartContractAddress

/-- Coins of the caller. -/
def callerCoins : OutPoint where
  shard := 0
  txHash := Bytes32.zero
  index := 0
  userAddress := Address.generateAddress Platform.plain.toPrimitives callerKey .userAddress
  type := OutType.transfer
  data := .of [0xC1, 100]
  contractAddress := sysAPIAddress Platform.plain.toPrimitives

/-- The shard data of the contract. -/
def shardData (data : UInt8) : OutPoint where
  shard := 0
  txHash := Bytes32.zero
  index := 1
  userAddress := .of []
  type := OutType.transfer
  data := .of [data]
  contractAddress := calledContract

/-- A ledger of the coins of the caller and the shard data of the contract. -/
def callMiner : Miner :=
  let coins := leafOf callerCoins
  let data := leafOf (shardData 0)
  { Miner.fresh Bytes32.zero with
    state := {
      tree := {
        root := nodeHash coins data
        size := 2
        lastPath := { hashes := .of [data, coins], proofPath := .of [leftSide] } }
      shardHeights := fun _ => 0
      chain := { headers := [] } } }

/-- A call that spends the coins. -/
def callTx : MsgTxWithProofs :=
  let unsigned : MsgTx :=
    { version := txVersion
      shard := 0
      txIn := .of [{ previousOutPoint := callerCoins }]
      contractAddress := calledContract
      api := ascii ['r', 'u', 'n']
      params := .of []
      nonce := 0
      publicKey := .of callerKey
      signatureScript := .of []
      storageNodeAddress := .of []
      memo := [] }
  let sig := match unsigned.signedHash with
    | .ok hash => hash.bytes
    | .error _ => []
  { tx := { unsigned with signatureScript := .of sig }
    proofs := .of [
      { hashes := .of [leafOf callerCoins, leafOf (shardData 0)]
        proofPath := .of [rightSide] }] }

/-- An execution of the contract that writes new shard data. -/
def writeShardData : UpdateAction where
  originOut := (shardData 0).toUnspentOutState
  originOutProof := {
    hashes := .of [leafOf (shardData 0), leafOf callerCoins], proofPath := .of [leftSide] }
  newOut := (shardData 1).toUnspentOutState

/-- A contract whose calls all succeed, make no outs and write new shard data. -/
def callEnvironment : Environment :=
  { Environment.plain with
    contracts := fun _ txs => some
      { successfulTxs := txs
        updateShardInitOut := writeShardData
        newOuts := []
        reduceActions := [] } }

/-- The body of a block with a reward and some other transactions. -/
def rewardedBody (env : Environment) (miner : Miner) (txs : List MsgTxWithProofs) : Go BlockBody := do
  let reward ← createRewardTx env.platform miner.shardIndex miner.shardHeight (.of [1])
  let result ← execute env.platform env.contracts .listed miner.shardIndex
    ((reward :: txs).map MsgTxWithProofs.tx) miner.proposeBlockHgt
  return {
    transactions := reward :: txs
    ledgerInfo := ⟨0, []⟩
    smartContracts := result.smartContracts
    outs := result.outStates
    updateActions := result.updateActions }

/-- The sealed block with a reward and some other transactions. -/
def rewardedBlock (env : Environment) (miner : Miner) (txs : List MsgTxWithProofs) : MsgBlock :=
  match rewardedBody env miner txs with
  | .ok body => sealed env miner body
  | .error _ => default

/-- Surroundings in which nothing goes wrong. -/
def Surroundings.calm : Surroundings := ⟨.listed, true, true⟩

/-- Whether a call returned `nil`, and what is seen of its result. -/
def observe {α β : Type} (view : α → β) (call : Go (α × Bool)) : Go (Bool × β) :=
  (fun outcome => (outcome.2, view outcome.1)) <$> call

theorem exists_of_observe {α β : Type} {view : α → β} {call : Go (α × Bool)} {returnedNil : Bool}
    {seen : β} (observed : observe view call = .ok (returnedNil, seen)) :
    ∃ after, call = .ok (after, returnedNil) ∧ view after = seen := by
  obtain ⟨⟨after, _⟩, called, answer⟩ := map_eq_ok.mp observed
  obtain ⟨rfl, rfl⟩ := Prod.mk.inj answer
  exact ⟨after, called, rfl⟩

/-- A run that accepts two blocks with a reward only. -/
theorem commitsRoot_of_runs_rewardedBlocks :
    let block := rewardedBlock .plain (.fresh Bytes32.zero) []
    ∃ middle after,
      let next := rewardedBlock .plain middle []
      Runs .plain (.fresh Bytes32.zero)
          [⟨.acceptBlock .calm block, true, middle⟩, ⟨.acceptBlock .calm next, true, after⟩] ∧
        after.state.getLedgerRoot = next.header.shardLedgerMerkleRoot := by
  intro block
  have checked : (do
      let (middle, first) ← Call.perform .plain (.fresh Bytes32.zero) (.acceptBlock .calm block)
      let next := rewardedBlock .plain middle []
      let (_, second) ← Call.perform .plain middle (.acceptBlock .calm next)
      return (first, second, block.body.updateActions.length, next.body.updateActions.length)) =
      (.ok (true, true, 0, 0) : Go _) := by decide +kernel
  simp only [bind_eq_ok, pure_eq_ok, Prod.exists, Prod.mk.injEq] at checked
  obtain ⟨middle, _, performed, after, _, performedNext, rfl, rfl, none, noneNext⟩ := checked
  have runs := Runs.cons performed (.cons performedNext (.nil after))
  refine ⟨middle, after, runs, commitsRoot_of_runs .plain (.fresh Bytes32.zero) _ runs ?_ _
    (List.mem_cons_of_mem _ List.mem_cons_self) rfl⟩
  simp [Call.UpdatesNothing, none, noneNext]

/-- A block with a contract call that writes shard data is accepted, and the
ledger then has another root than the header of the block. -/
theorem acceptBlock_callTx_changes_root :
    let block := rewardedBlock callEnvironment callMiner [callTx]
    block.body.updateActions = .of [writeShardData] ∧
      ∃ after, Runs callEnvironment callMiner [⟨.acceptBlock .calm block, true, after⟩] ∧
        after.state.getLedgerRoot ≠ block.header.shardLedgerMerkleRoot := by
  intro block
  obtain ⟨observed, writes⟩ : observe
        (fun after : Miner => decide (after.state.getLedgerRoot = block.header.shardLedgerMerkleRoot))
        ((Call.acceptBlock .calm block).perform callEnvironment callMiner) = .ok (true, false) ∧
      block.body.updateActions = .of [writeShardData] := by decide +kernel
  obtain ⟨after, performed, differs⟩ := exists_of_observe observed
  exact ⟨writes, after, .cons performed (.nil after), of_decide_eq_false differs⟩

end MultiVac.Chain
