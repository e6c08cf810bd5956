import MultiVac.Contract.Processor

/-!
# The order of contract calls

`Execute` visits the contracts that are called in the order of a Go map, which changes
from run to run. The outs are sorted afterwards, but the successful transactions, the
update actions and the reduce actions are left in that order, so the result is the same in
every run only if at most one contract is executed.
-/

namespace MultiVac

open Lib

/-- The reverse of the order in which entries are listed. -/
def MapOrder.reversed : MapOrder where
  visit := List.reverse
  visit_perm := List.reverse_perm

namespace Contract

open Wire Merkle

section Execute

variable (platform : Platform) (contracts : ContractExecutor) (shard : ShardIndex)
  (proposeBlockHeight : Int)

/-- The end of `Execute`, for the results of the contracts in the order of their
execution. -/
def collect (gathered : Gathered) (results : List ContractResult) : Go Result := do
  let outStates := sortOuts (gathered.outStates ++ results.flatMap ContractResult.newOuts)
  let leaves ← outStates.mapM OutState.merkleHash
  return {
    merkleRoot := fullRoot leaves
    successfulTxs := gathered.successfulTxs ++ results.flatMap ContractResult.successfulTxs
    outStates
    smartContracts := sortContracts gathered.scs
    updateActions := .of (results.map ContractResult.updateShardInitOut)
    reduceActions := results.flatMap ContractResult.reduceActions }

variable {platform shard proposeBlockHeight}

theorem execute_eq_collect {txs : List MsgTx} {gathered : Gathered} (nonempty : txs ≠ [])
    (gathers : txs.foldlM (gatherTx platform shard proposeBlockHeight) ⟨0, [], [], [], []⟩ =
      .ok gathered) (order : MapOrder) :
    execute platform contracts order shard txs proposeBlockHeight =
      collect gathered (contractResults contracts (order.visit gathered.calls)) := by
  unfold execute
  rw [if_neg (by simpa using nonempty), gathers]
  rfl

theorem contractResults_visit_perm (order : MapOrder) (calls : List (Bytes × List MsgTx)) :
    (contractResults contracts (order.visit calls)).Perm (contractResults contracts calls) :=
  (order.visit_perm calls).filterMap _

variable {contracts}

/-- One result can only be visited in one order. -/
theorem contractResults_visit_eq {calls : List (Bytes × List MsgTx)}
    (few : (contractResults contracts calls).length ≤ 1) (order : MapOrder) :
    contractResults contracts (order.visit calls) = contractResults contracts calls := by
  have perm := contractResults_visit_perm contracts order calls
  cases results : contractResults contracts calls with
  | nil =>
    rw [results] at perm
    exact perm.eq_nil
  | cons result others =>
    rw [results] at few perm
    obtain rfl : others = [] := by simpa using few
    exact List.perm_singleton.mp perm

/-- A list without duplicates that is its own reverse has at most one element. -/
theorem length_le_one_of_eq_reverse {α : Type} {elements : List α} (nodup : elements.Nodup)
    (isReverse : elements = elements.reverse) : elements.length ≤ 1 := by
  cases elements with
  | nil => exact Nat.zero_le 1
  | cons first rest =>
    cases rest using List.reverseRecOn with
    | nil => exact le_rfl
    | append_singleton between last =>
      rw [List.reverse_cons, List.reverse_append, List.reverse_singleton] at isReverse
      have same : first = last := (List.cons.inj isReverse).1
      have different := (List.nodup_cons.mp nodup).1
      exact absurd (same ▸ List.mem_append_right between List.mem_cons_self) different

/-- If at most one of the called contracts is executed without an error, then the result
does not depend on the order in which the contracts are visited. If the executed
contracts have different update actions, this is the only case. -/
theorem execute_order_independent_iff {txs : List MsgTx} {gathered : Gathered}
    (gathers : txs.foldlM (gatherTx platform shard proposeBlockHeight) ⟨0, [], [], [], []⟩ =
      .ok gathered) :
    ((contractResults contracts gathered.calls).length ≤ 1 → ∀ first second,
        execute platform contracts first shard txs proposeBlockHeight =
          execute platform contracts second shard txs proposeBlockHeight) ∧
      (((contractResults contracts gathered.calls).map ContractResult.updateShardInitOut).Nodup →
        ∀ result, execute platform contracts .listed shard txs proposeBlockHeight = .ok result →
          (∀ first second, execute platform contracts first shard txs proposeBlockHeight =
              execute platform contracts second shard txs proposeBlockHeight) →
          (contractResults contracts gathered.calls).length ≤ 1) := by
  by_cases empty : txs = []
  · subst empty
    obtain rfl := pure_eq_ok.mp gathers
    exact ⟨fun _ _ _ => rfl, fun _ _ _ _ => Nat.zero_le 1⟩
  constructor
  · intro few first second
    rw [execute_eq_collect contracts empty gathers, execute_eq_collect contracts empty gathers,
      contractResults_visit_eq few, contractResults_visit_eq few]
  · intro nodup result returned same
    have reversed := same .listed .reversed
    rw [returned, execute_eq_collect contracts empty gathers] at reversed
    rw [execute_eq_collect contracts empty gathers] at returned
    obtain ⟨_, _, isResult⟩ := bind_eq_ok.mp returned
    obtain ⟨_, _, isResultToo⟩ := bind_eq_ok.mp reversed.symm
    have actions := congrArg Result.updateActions
      ((Except.ok.inj isResult).trans (Except.ok.inj isResultToo).symm)
    have updates := congrArg Slice.elems actions
    have results : contractResults contracts (MapOrder.reversed.visit gathered.calls) =
        (contractResults contracts gathered.calls).reverse := List.filterMap_reverse
    rw [← List.length_map ContractResult.updateShardInitOut]
    apply length_le_one_of_eq_reverse nodup
    rw [← List.map_reverse, ← results]
    exact updates

end Execute

/-! ### Calls -/

/-- A call of the contract with some public key. -/
def callOf (publicKey : Bytes) : MsgTx :=
  { (default : MsgTx) with
    contractAddress :=
      Address.generateAddress Platform.plain.toPrimitives publicKey .smartContractAddress
    api := [1] }

/-- An executor whose update action tells the contracts apart. -/
def echo : ContractExecutor := fun pkHash txs => some {
  successfulTxs := txs
  updateShardInitOut :=
    { (default : UpdateAction) with
      newOut := { (default : OutState) with
        outPoint := { (default : OutPoint) with data := .of pkHash } } }
  newOuts := []
  reduceActions := [] }

/-- Two calls of one contract. -/
theorem execute_order_independent_echo :
    execute Platform.plain echo .listed 0 [callOf [1], callOf [1]] 1 =
      execute Platform.plain echo .reversed 0 [callOf [1], callOf [1]] 1 := by
  have counted : (fun gathered => gathered.calls.length) <$>
      [callOf [1], callOf [1]].foldlM (gatherTx Platform.plain 0 1) ⟨0, [], [], [], []⟩ = .ok 1 := by
    decide +kernel
  obtain ⟨gathered, gathers, oneCall⟩ := map_eq_ok.mp counted
  refine (execute_order_independent_iff gathers).1 ?_ .listed .reversed
  exact (List.length_filterMap_le _ _).trans oneCall.le

/-- Two contracts are called. In the two orders of the map their transactions and their
update actions are returned in different orders. -/
theorem execute_depends_on_order :
    let run (order : MapOrder) := execute Platform.plain echo order 0 [callOf [1], callOf [2]] 1
    callOf [1] ≠ callOf [2] ∧ Result.successfulTxs <$> run .listed = .ok [callOf [1], callOf [2]] ∧
      Result.successfulTxs <$> run .reversed = .ok [callOf [2], callOf [1]] ∧
      Result.updateActions <$> run .listed ≠ Result.updateActions <$> run .reversed := by
  decide +kernel

end Contract
end MultiVac
