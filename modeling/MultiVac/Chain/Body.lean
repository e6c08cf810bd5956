import MultiVac.Chain.Accept
import MultiVac.Ledger.SlimCut

/-!
# The body of a verified block

`VerifyBlock` executes the transactions of a block and compares the root of the
outs, the update actions and the contracts. It never looks at the outs listed
in the body, at the reduce actions in the header or at the mark of an empty
block, which the other shards and the storage nodes rely on: the slim blocks are
cut from the listed outs.
-/

namespace MultiVac.Chain

open Lib Wire Merkle Ledger Contract

/-- The contract that a transaction calls. -/
def calledBy (platform : Platform) (tx : MsgTx) : Option Bytes :=
  if tx.isSmartContractTx platform.toPrimitives then
    match Address.getPublicKeyHash platform.toPrimitives tx.contractAddress
        .smartContractAddress with
    | .ok pkHash => some pkHash
    | .error _ => none
  else
    none

/-- Add a transaction to the calls of its contract. -/
def collectCall (platform : Platform) (calls : List (Bytes × List MsgTx)) (tx : MsgTx) :
    List (Bytes × List MsgTx) :=
  match calledBy platform tx with
  | some pkHash => addCall pkHash tx calls
  | none => calls

/-- The calls of each contract in a list of transactions. -/
def callsOf (platform : Platform) (txs : List MsgTx) : List (Bytes × List MsgTx) :=
  txs.foldl (collectCall platform) []

variable {platform : Platform} {shard : ShardIndex} {height : Int}

theorem calls_of_gatherTx {gathered next : Gathered} {tx : MsgTx}
    (stepped : gatherTx platform shard height gathered tx = .ok next) :
    next.calls = collectCall platform gathered.calls tx := by
  unfold gatherTx at stepped
  unfold collectCall calledBy
  split at stepped
  · next contract =>
    rw [if_pos contract]
    obtain ⟨_ | pkHash, attempted, stepped⟩ := bind_eq_ok.mp stepped
    · obtain ⟨text, failed⟩ := (Go.attempt_eq_ok_none _).mp attempted
      obtain rfl := pure_eq_ok.mp stepped
      rw [failed]
    · obtain rfl := pure_eq_ok.mp stepped
      rw [(Go.attempt_eq_ok_some _ _).mp attempted]
  · next system =>
    rw [if_neg system]
    obtain ⟨_ | result, _, stepped⟩ := bind_eq_ok.mp stepped
    · rw [pure_eq_ok.mp stepped]
    · rw [← pure_eq_ok.mp stepped]

variable {txs : List MsgTx}

theorem calls_of_foldlM {start finish : Gathered}
    (ran : txs.foldlM (gatherTx platform shard height) start = .ok finish) :
    finish.calls = txs.foldl (collectCall platform) start.calls := by
  induction txs generalizing start with
  | nil => rw [pure_eq_ok.mp ran, List.foldl_nil]
  | cons tx txs ih =>
    rw [List.foldlM_cons] at ran
    obtain ⟨next, stepped, ran⟩ := bind_eq_ok.mp ran
    rw [ih ran, calls_of_gatherTx stepped, List.foldl_cons]

variable (env : Environment) (miner : Miner)

/-- The reduce actions that the called contracts return, contract by contract. -/
def returnedActions (order : MapOrder) (txs : List MsgTx) : List ReduceAction :=
  (contractResults env.contracts (order.visit (callsOf env.platform txs))).flatMap
    ContractResult.reduceActions

variable {order : MapOrder} {result : Result} {env : Environment}

/-- The reduce actions of an execution are those the contracts return. -/
theorem reduceActions_of_execute
    (executed : execute env.platform env.contracts order shard txs height = .ok result) :
    result.reduceActions = returnedActions env order txs := by
  unfold execute at executed
  split at executed
  · next empty =>
    obtain rfl := List.isEmpty_iff.mp empty
    obtain rfl := pure_eq_ok.mp executed
    have noCalls : order.visit (callsOf env.platform []) = [] :=
      List.Perm.eq_nil (order.visit_perm _)
    rw [returnedActions, noCalls]
    rfl
  · simp only [bind_eq_ok, pure_eq_ok] at executed
    obtain ⟨gathered, ran, _, _, rfl⟩ := executed
    rw [returnedActions, callsOf, ← calls_of_foldlM ran]

/-- The root of an execution is the root of its outs. -/
theorem merkleRoot_of_execute
    (executed : execute env.platform env.contracts order shard txs height = .ok result) :
    outsRoot result.outStates = .ok result.merkleRoot := by
  unfold execute at executed
  split at executed
  · obtain rfl := pure_eq_ok.mp executed
    rfl
  · simp only [bind_eq_ok, pure_eq_ok] at executed
    obtain ⟨gathered, _, leaves, hashed, rfl⟩ := executed
    simp only [outsRoot, bind_eq_ok, pure_eq_ok]
    exact ⟨leaves, hashed, rfl⟩

/-! ### The order of the outs -/

theorem shard_le_of_outLess {first second : OutState} (less : outLess first second = true) :
    first.outPoint.shard ≤ second.outPoint.shard := by
  unfold outLess at less
  split at less
  · exact UInt32.le_of_lt (of_decide_eq_true less)
  · next same => exact UInt32.le_of_eq (not_not.mp same)

theorem shard_le_of_not_outLess {first second : OutState} (notLess : outLess second first = false) :
    first.outPoint.shard ≤ second.outPoint.shard := by
  unfold outLess at notLess
  split at notLess
  · exact UInt32.not_lt.mp (of_decide_eq_false notLess)
  · next same => exact UInt32.le_of_eq (not_not.mp same).symm

/-- Sorting by shard, hash and index sorts by shard. -/
theorem sorted_sortOuts (outs : List OutState) : Sorted (sortOuts outs) := by
  have inserted : ∀ (out : OutState) (outs : List OutState), Sorted outs →
      Sorted (outs.orderedInsert (fun first second => outLess second first = false) out) := by
    intro out outs sorted
    induction outs with
    | nil => exact List.pairwise_singleton _ _
    | cons other others ih =>
      obtain ⟨least, sortedOthers⟩ := List.pairwise_cons.mp sorted
      rw [List.orderedInsert]
      split
      · next notLess =>
        have first := shard_le_of_not_outLess notLess
        refine List.pairwise_cons.mpr ⟨List.forall_mem_cons.mpr ⟨first, fun third inOthers =>
          UInt32.le_trans first (least third inOthers)⟩, sorted⟩
      · next less =>
        refine List.pairwise_cons.mpr ⟨fun third inInserted => ?_, ih sortedOthers⟩
        rcases (List.mem_orderedInsert _).mp inInserted with rfl | inOthers
        · exact shard_le_of_outLess (by simpa using less)
        · exact least third inOthers
  unfold sortOuts
  induction outs with
  | nil => exact List.Pairwise.nil
  | cons out outs ih => exact inserted out _ ih

theorem sorted_of_execute
    (executed : execute env.platform env.contracts order shard txs height = .ok result) :
    Sorted result.outStates := by
  unfold execute at executed
  split at executed
  · obtain rfl := pure_eq_ok.mp executed
    exact List.Pairwise.nil
  · simp only [bind_eq_ok, pure_eq_ok] at executed
    obtain ⟨gathered, _, leaves, _, rfl⟩ := executed
    exact sorted_sortOuts _

/-- Two lists with the same wire format. -/
def SameOnWire {α : Type} (codec : Codec α) (first second : List α) : Prop :=
  first.map codec.decoded = second.map codec.decoded

instance {α : Type} [DecidableEq α] (codec : Codec α) (first second : List α) :
    Decidable (SameOnWire codec first second) :=
  inferInstanceAs (Decidable (first.map codec.decoded = second.map codec.decoded))

/-- Outs with the same wire format have the same shards. -/
theorem sorted_of_sameOnWire {first second : List OutState}
    (same : SameOnWire Codec.outState first second) (sorted : Sorted second) : Sorted first := by
  have onWire : ∀ outs : List OutState, Sorted (outs.map Codec.outState.decoded) ↔ Sorted outs := by
    intro outs
    have sameShard : ∀ out : OutState,
        (Codec.outState.decoded out).outPoint.shard = out.outPoint.shard := fun out =>
      Codec.decoded_uint32 out.outPoint.shard
    simp only [Sorted, List.pairwise_map, sameShard]
  rw [← onWire, same, onWire]
  exact sorted

/-- The outs of the body are the sorted outs of the execution, with the root that
the header names, the reduce actions of the header are those of the execution,
a block with transactions is not marked as empty, and the slim blocks of a block
that is not marked rebuild to the root. -/
structure MatchesExecution (block : MsgBlock) (result : Result) : Prop where
  outs : SameOnWire Codec.outState block.body.outs result.outStates
  root : outsRoot block.body.outs = .ok block.header.outsMerkleRoot
  reduceActions : SameOnWire Codec.reduceAction block.header.reduceActions result.reduceActions
  nonempty : block.body.transactions ≠ [] → block.header.isEmptyBlock = false
  slimBlocks : block.header.isEmptyBlock = false → ∃ slimBlocks,
    getSlimBlocksFromBlock block = .ok slimBlocks ∧
      slimBlocks.map SlimBlock.toShard = shardList ∧ ∀ slim ∈ slimBlocks, ∃ clipped,
        slim.clipTreeData.rebuild block.header.outsMerkleRoot slim.toShard = .ok clipped

/-- The outs of executing the transactions of a block. -/
def executedOuts (env : Environment) (miner : Miner) (block : MsgBlock) : Go (List OutState) :=
  Result.outStates <$> execute env.platform env.contracts .listed miner.shardIndex
    (bodyTxs block.body) miner.proposeBlockHgt

theorem outStates_of_executedOuts {miner : Miner} {block : MsgBlock} {outs : List OutState}
    (computed : executedOuts env miner block = .ok outs)
    (executed : execute env.platform env.contracts .listed miner.shardIndex (bodyTxs block.body)
      miner.proposeBlockHgt = .ok result) : result.outStates = outs := by
  rw [executedOuts, executed] at computed
  exact Except.ok.inj computed

/-- The block of a proposer without transactions in its pool. -/
def plainBlock : MsgBlock := rewardedBlock .plain (.fresh Bytes32.zero) []

/-- The same block without its outs, with a reduce action that no contract asked
for, and marked as empty. -/
def forgedBlock : MsgBlock :=
  let block := sealed .plain (.fresh Bytes32.zero) { plainBlock.body with outs := [] }
  { block with
    header := { block.header with
      isEmptyBlock := true
      reduceActions := [{ toBeReducedOut := shardData 0, api := ascii ['r', 'u', 'n'] }] } }

end MultiVac.Chain
