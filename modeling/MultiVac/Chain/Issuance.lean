import MultiVac.Chain.Propose
import MultiVac.Contract.Conservation

/-!
# Issuance of a verified block

A verified block conserves value after its first transaction. The first
transaction itself, the coinbase slot, is executed but never checked, so what a
block issues is bounded exactly when that slot holds a proper reward.
-/

namespace MultiVac.Chain

open Lib Wire Merkle Ledger Contract

/-- A reward of the system contract. -/
def isSystemReward (platform : Platform) (tx : MsgTx) : Bool :=
  !tx.isSmartContractTx platform.toPrimitives && tx.isRewardTx

variable (env : Environment) (miner : Miner)

/-- The first transaction is an input-free reward that pays exactly the amount of
a miner reward with the nonce of this shard and height, no other transaction is
a reward, and the outs of the block are worth no more than the spent inputs and
the miner reward. -/
def BoundedIssuance (visits : Visits) (block : MsgBlock) : Prop :=
  ∃ coinbase rest, block.body.transactions = coinbase :: rest ∧
    isSystemReward env.platform coinbase.tx = true ∧
    coinbase.tx.inputs = [] ∧
    coinbase.tx.nonce = rewardNonce miner.shardIndex miner.shardHeight ∧
    (∃ out, executeSystem env.platform miner.shardIndex 0 coinbase.tx miner.proposeBlockHgt =
        .ok ⟨[out], none⟩ ∧ dataValue out.data.elems = minerRewardAmount) ∧
    (∀ other ∈ rest, isSystemReward env.platform other.tx = false) ∧
    ∃ result, execute env.platform env.contracts visits.body miner.shardIndex
        (bodyTxs block.body) miner.proposeBlockHgt = .ok result ∧
      valueOf (pointsOf result.outStates) ≤ spentBy (bodyTxs block.body) + minerRewardAmount

/-- A transaction that may stand in the coinbase slot. -/
structure IsCoinbase (tx : MsgTx) : Prop where
  system : tx.contractAddress = sysAPIAddress env.platform.toPrimitives
  api : tx.api = SysAPI.reward
  inputs : tx.txIn.length = 0
  nonce : tx.nonce = rewardNonce miner.shardIndex miner.shardHeight
  amount : ∃ receiver, decodeParams Contract.Codec.rewardParams tx =
    .ok { receiver, amount := minerRewardAmount }

variable {env miner}

theorem isSystemReward_iff (platform : Platform) (tx : MsgTx) :
    isSystemReward platform tx = true ↔
      tx.contractAddress = sysAPIAddress platform.toPrimitives ∧ tx.api = SysAPI.reward := by
  simp [isSystemReward, MsgTx.isSmartContractTx, MsgTx.isRewardTx, Address.isEqual]

theorem inputs_eq_nil_iff (tx : MsgTx) : tx.inputs = [] ↔ tx.txIn.length = 0 := by
  simp [MsgTx.inputs, Slice.length]

variable {tx : MsgTxWithProofs}

/-- A generated reduce transaction has no parameters. -/
theorem params_of_generateReduceTxs {headers : List BlockHeader} {txs : List MsgTxWithProofs}
    (generated : generateReduceTxs env miner headers = .ok txs)
    (inTxs : tx ∈ txs) : tx.tx.params = .nil := by
  simp only [generateReduceTxs, bind_eq_ok, pure_eq_ok] at generated
  obtain ⟨perHeader, generated, rfl⟩ := generated
  obtain ⟨part, inParts, inPart⟩ := List.mem_flatten.mp inTxs
  obtain ⟨header, _, made⟩ := exists_of_mem_mapM generated inParts
  obtain ⟨action, _, made⟩ := exists_of_mem_mapM made inPart
  simp only [MsgTx.signReduce, bind_eq_ok, pure_eq_ok] at made
  obtain ⟨_, _, _, ⟨_, _, rfl⟩, rfl⟩ := made
  rfl

variable {visits : Visits} {block : MsgBlock}

/-- A verified transaction with parameters is no reduce transaction. -/
theorem Verified.ordinary_of_params (verified : Verified env miner visits block)
    (inBody : tx ∈ block.body.transactions)
    (hasParams : tx.tx.params.length ≠ 0) : tx.tx.isReduceTx = false := by
  by_contra reduce
  obtain ⟨headers, _, generated⟩ := verified.reduced
  have inReduced : tx ∈ block.body.transactions.filter fun tx => tx.tx.isReduceTx :=
    List.mem_filter.mpr ⟨inBody, by simpa using reduce⟩
  rw [params_of_generateReduceTxs generated inReduced] at hasParams
  exact hasParams rfl

/-- The inputs of a verified transaction with parameters have owners. -/
theorem Verified.owned (verified : Verified env miner visits block)
    (inNormal : tx ∈ normalTxs block.body) (hasParams : tx.tx.params.length ≠ 0) :
    ∀ out ∈ tx.tx.inputs, out.userAddress.elems ≠ [] := by
  have ordinary := verified.ordinary_of_params (List.mem_of_mem_tail inNormal) hasParams
  have checked := verified.normal tx inNormal
  simp only [verifyNormalTx, verifyTxWithProof, ordinary, Bool.not_false, if_true,
    bind_eq_ok] at checked
  obtain ⟨_, _, _, ⟨_, transaction, _⟩, _⟩ := checked
  intro out inInputs noOwner
  have belongs := ((MsgTx.of_verifyTransaction transaction ordinary).2 out inInputs).2
  simp only [Address.verifyPublicKey, Address.checkedPayload, bind_eq_ok, Go.assert_eq_ok,
    decide_eq_true_eq, Slice.length, noOwner] at belongs
  obtain ⟨_, ⟨_, long, _⟩, _⟩ := belongs
  simp at long

/-- A verified block with a proper coinbase issues no more than the reward. -/
theorem Verified.boundedIssuance (verified : Verified env miner visits block)
    (conserves : ConservesValue env.contracts) {coinbase : MsgTxWithProofs}
    {rest : List MsgTxWithProofs} (transactions : block.body.transactions = coinbase :: rest)
    (isCoinbase : IsCoinbase env miner coinbase.tx) : BoundedIssuance env miner visits block := by
  obtain ⟨result, executed, _, _, successful⟩ := verified.executed
  have noInputs := (inputs_eq_nil_iff coinbase.tx).mpr isCoinbase.inputs
  have isReward : isSystemReward env.platform coinbase.tx = true :=
    (isSystemReward_iff _ _).mpr ⟨isCoinbase.system, isCoinbase.api⟩
  have split : coinbase.tx.isSmartContractTx env.platform.toPrimitives = false ∧
      coinbase.tx.isRewardTx = true := by
    simpa [isSystemReward] using isReward
  have txs : bodyTxs block.body = coinbase.tx :: rest.map MsgTxWithProofs.tx := by
    rw [bodyTxs, transactions, List.map_cons]
  rw [txs] at executed
  obtain ⟨firstResult, systemTxs, calls, paid, perm, plain, contract, conserved⟩ :=
    execute_conserves conserves split.1 split.2 executed (by simpa [transactions] using successful)
  obtain ⟨_, params, out, decoded, rfl, paidValue, positive⟩ := executeSystem_reward split.2 paid
  obtain ⟨receiver, amount⟩ := isCoinbase.amount
  obtain rfl := Except.ok.inj (decoded.symm.trans amount)
  -- The inputs of the executed system transactions have owners.
  have owned : creditOfTxs systemTxs = spentBy systemTxs := by
    apply creditOf_eq_valueOf
    intro input inInputs
    obtain ⟨tx, inSystem, inInputs⟩ := List.mem_flatMap.mp inInputs
    obtain ⟨withProofs, inRest, rfl⟩ :=
      List.mem_map.mp (perm.mem_iff.mpr (List.mem_append_left calls inSystem))
    refine verified.owned ?_ (plain _ inSystem).2.2 input inInputs
    rw [normalTxs, transactions]
    exact inRest
  refine ⟨coinbase, rest, transactions, isReward, noInputs, isCoinbase.nonce,
    ⟨out, paid, paidValue⟩, ?_, result, by rw [txs]; exact executed, ?_⟩
  · intro other inRest
    have inParts := perm.mem_iff.mp (List.mem_map_of_mem inRest)
    rcases List.mem_append.mp inParts with inSystem | inCalls
    · simp [isSystemReward, (plain _ inSystem).2.1]
    · simp [isSystemReward, contract _ inCalls]
  · have spent : spentBy (bodyTxs block.body) = spentBy systemTxs + spentBy calls := by
      rw [txs, spentBy, List.flatMap_cons, noInputs, List.nil_append,
        valueOf_perm (perm.flatMap_right MsgTx.inputs), List.flatMap_append, valueOf_append]
      rfl
    have reward : valueOf [out] ≤ minerRewardAmount := by
      simpa [valueOf] using outValue_le paidValue positive
    rw [spent]
    dsimp only at conserved
    omega

/-- A verified block has bounded issuance exactly when its coinbase slot holds a
proper reward. -/
theorem boundedIssuance_iff_isCoinbase (env : Environment) (miner : Miner) (visits : Visits)
    (block : MsgBlock) (conserves : ConservesValue env.contracts)
    (verified : verifyBlock env miner visits block = .ok ()) :
    BoundedIssuance env miner visits block ↔
      ∃ coinbase rest, block.body.transactions = coinbase :: rest ∧
        IsCoinbase env miner coinbase.tx := by
  constructor
  · rintro ⟨coinbase, rest, transactions, isReward, noInputs, nonce, ⟨out, paid, value⟩, _⟩
    obtain ⟨system, api⟩ := (isSystemReward_iff _ _).mp isReward
    obtain ⟨_, params, _, decoded, same, paidValue, _⟩ :=
      executeSystem_reward (by simp [MsgTx.isRewardTx, api]) paid
    obtain ⟨rfl, _⟩ := List.cons.inj (SystemResult.mk.inj same).1
    rw [value] at paidValue
    refine ⟨coinbase, rest, transactions, system, api, (inputs_eq_nil_iff _).mp noInputs, nonce,
      params.receiver, ?_⟩
    rw [decoded, paidValue]
  · rintro ⟨coinbase, rest, transactions, isCoinbase⟩
    exact ((verifyBlock_eq_ok_iff env miner visits block ()).mp verified).boundedIssuance conserves
      transactions isCoinbase

/-- A reward of a given amount and nonce. -/
def rewardOf (amount : Int) (nonce : UInt64) : MsgTxWithProofs where
  tx :=
    let params := match encodeToBytes Contract.Codec.rewardParams { receiver := .of [1], amount } with
      | .ok bytes => bytes
      | .error _ => []
    { (default : MsgTx) with
      contractAddress := sysAPIAddress Platform.plain.toPrimitives
      api := SysAPI.reward
      params := .of params
      nonce := nonce }
  proofs := .nil

/-- A block whose only transaction is a reward of a given amount and nonce. -/
def rewardBlock (amount : Int) (nonce : UInt64) : MsgBlock :=
  sealed .plain (.fresh Bytes32.zero) { (default : BlockBody) with
    transactions := [rewardOf amount nonce]
    updateActions := .of [] }

theorem Environment.plain_conservesValue : ConservesValue Environment.plain.contracts where
  successful := fun _ _ _ executed => by cases executed
  conserved := fun _ _ _ executed => by cases executed

/-- A block with the reward alone. -/
theorem boundedIssuance_rewardBlock :
    verifyBlock .plain (.fresh Bytes32.zero) .listed (rewardBlock minerRewardAmount 0) = .ok () ∧
      BoundedIssuance .plain (.fresh Bytes32.zero) .listed (rewardBlock minerRewardAmount 0) := by
  have verified : verifyBlock .plain (.fresh Bytes32.zero) .listed
      (rewardBlock minerRewardAmount 0) = .ok () := by decide +kernel
  refine ⟨verified, (boundedIssuance_iff_isCoinbase .plain (.fresh Bytes32.zero) .listed _
    Environment.plain_conservesValue verified).mpr
      ⟨rewardOf minerRewardAmount 0, [], by decide +kernel, ?_⟩⟩
  exact ⟨by decide +kernel, by decide +kernel, by decide +kernel, by decide +kernel,
    .of [1], by decide⟩

/-- The value that the transactions of a block spend, and the value of its outs. -/
def issued (env : Environment) (miner : Miner) (block : MsgBlock) : Go (Int × Int) := do
  let result ← execute env.platform env.contracts .listed miner.shardIndex (bodyTxs block.body)
    miner.proposeBlockHgt
  return (spentBy (bodyTxs block.body), valueOf (pointsOf result.outStates))

/-- A block that pays its proposer twice the reward, with the nonce of another
height, is verified. -/
theorem verifyBlock_doubleReward :
    verifyBlock .plain (.fresh Bytes32.zero) .listed (rewardBlock (2 * minerRewardAmount) 9) =
        .ok () ∧
      issued .plain (.fresh Bytes32.zero) (rewardBlock (2 * minerRewardAmount) 9) =
        .ok (0, 2 * minerRewardAmount) ∧
      ¬ BoundedIssuance .plain (.fresh Bytes32.zero) .listed
        (rewardBlock (2 * minerRewardAmount) 9) := by
  obtain ⟨verified, unbounded⟩ :
      verifyBlock .plain (.fresh Bytes32.zero) .listed (rewardBlock (2 * minerRewardAmount) 9) =
          .ok () ∧
        issued .plain (.fresh Bytes32.zero) (rewardBlock (2 * minerRewardAmount) 9) =
          .ok (0, 2 * minerRewardAmount) := by decide +kernel
  refine ⟨verified, unbounded, ?_⟩
  rintro ⟨_, _, _, _, _, _, _, _, result, executed, bounded⟩
  obtain ⟨other, executedToo, same⟩ := bind_eq_ok.mp unbounded
  obtain rfl := Except.ok.inj (executed.symm.trans executedToo)
  obtain ⟨spent, value⟩ := Prod.mk.inj (pure_eq_ok.mp same)
  rw [spent, value] at bounded
  exact absurd bounded (by decide)

end MultiVac.Chain
