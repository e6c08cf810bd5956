import MultiVac.Contract.System
import MultiVac.Ledger.Pools

/-!
# The calls of one contract

`smartContractExecutor.Execute` runs the calls of one contract in a row, each on the
shard data that the last successful one has left. The virtual machine is a parameter.
-/

namespace MultiVac.Contract

open Wire Ledger

/-- A loaded contract: what a call on the shard data returns, or `none` for an error. -/
abbrev Machine := MsgTx → OutState → Option (OutState × List OutState × List ReduceAction)

/-- What the loop of `smartContractExecutor.Execute` has gathered. -/
structure CallState where
  successfulTxs : List MsgTx
  failedTxs : List MsgTx
  newShardInitOut : OutState
  updateNewOuts : List OutState
  reduceActions : List ReduceAction

/-- `smartContractExeResult`. -/
structure SmartContractExeResult where
  successfulTxs : List MsgTx
  failedTxs : List MsgTx
  updateShardInitOut : UpdateAction
  newOuts : List OutState
  reduceActions : List ReduceAction

/-- One iteration of the loop. -/
def runCall (machine : Machine) (state : CallState) (tx : MsgTx) : CallState :=
  match machine tx state.newShardInitOut with
  | none => { state with failedTxs := state.failedTxs ++ [tx] }
  | some (shardInitOut, newOuts, newReduceActions) => {
      state with
      successfulTxs := state.successfulTxs ++ [tx]
      newShardInitOut := shardInitOut
      updateNewOuts := state.updateNewOuts ++ newOuts
      reduceActions := state.reduceActions ++ newReduceActions }

/-- The assignments to the fields of `result`, which panic when it is nil. -/
def assign (result : Option SmartContractExeResult) (state : CallState)
    (info : SmartContractInfo) : Go SmartContractExeResult :=
  match result with
  | none => Go.panic
  | some _ => .ok {
      successfulTxs := state.successfulTxs
      failedTxs := state.failedTxs
      updateShardInitOut := ⟨info.shardInitOut, info.shardInitOutProof, state.newShardInitOut⟩
      newOuts := state.updateNewOuts
      reduceActions := state.reduceActions }

/-- `smartContractExecutor.Execute`; `load` is `NewExecuteMvvm`. -/
def executeCalls (load : GoBytes → Option Machine) (shardIdx : ShardIndex)
    (contractAddress : Address) (txs : List MsgTx) (info : Option SmartContractInfo) :
    Go SmartContractExeResult :=
  match info with
  | none => Go.fail "the incoming smartContractInfo parameter is wrong, value: nil"
  | some info => do
    Go.require (info.smartContract.contractAddr.isEqual contractAddress)
      "the contract address of smartContractInfo is wrong"
    Go.require (info.shardIdx = shardIdx) "the shardIdx of smartContractInfo is wrong"
    match load info.smartContract.code with
    | none => Go.fail "fail to init mvvm"
    | some machine =>
      -- `result` is declared as a pointer and never set.
      assign none (txs.foldl (runCall machine) ⟨[], [], info.shardInitOut, [], []⟩) info

/-- What the calls should give when they start with some shard data. -/
inductive Threads (machine : Machine) : OutState → List MsgTx → CallState → Prop
  | done (out : OutState) : Threads machine out [] ⟨[], [], out, [], []⟩
  | failed {out tx txs state} : machine tx out = none → Threads machine out txs state →
      Threads machine out (tx :: txs) { state with failedTxs := tx :: state.failedTxs }
  | succeeded {out tx next outs actions txs state} :
      machine tx out = some (next, outs, actions) → Threads machine next txs state →
      Threads machine out (tx :: txs) { state with
        successfulTxs := tx :: state.successfulTxs
        updateNewOuts := outs ++ state.updateNewOuts
        reduceActions := actions ++ state.reduceActions }

/-- The loop threads the shard data through the calls that succeed. -/
theorem threads_foldl (machine : Machine) (txs : List MsgTx) (before : CallState) :
    ∃ state, Threads machine before.newShardInitOut txs state ∧ txs.foldl (runCall machine) before =
        ⟨before.successfulTxs ++ state.successfulTxs, before.failedTxs ++ state.failedTxs,
          state.newShardInitOut, before.updateNewOuts ++ state.updateNewOuts,
          before.reduceActions ++ state.reduceActions⟩ := by
  induction txs generalizing before with
  | nil => exact ⟨_, .done _, by simp⟩
  | cons tx txs ih =>
    rw [List.foldl_cons, runCall]
    split
    · next fails =>
      obtain ⟨state, threads, same⟩ := ih { before with failedTxs := before.failedTxs ++ [tx] }
      exact ⟨_, .failed fails threads, by simp [same]⟩
    · next next outs actions succeeds =>
      obtain ⟨state, threads, same⟩ := ih ⟨before.successfulTxs ++ [tx], before.failedTxs, next,
        before.updateNewOuts ++ outs, before.reduceActions ++ actions⟩
      exact ⟨_, .succeeded succeeds threads, by simp [same]⟩

/-- The calls that succeed are some of the calls, in their order. -/
theorem Threads.sublist {machine : Machine} {out : OutState} {txs : List MsgTx} {state : CallState}
    (threads : Threads machine out txs state) : state.successfulTxs.Sublist txs := by
  induction threads with
  | done out => exact .slnil
  | failed _ _ ih => exact ih.cons _
  | succeeded _ _ ih => exact ih.cons_cons _

/-- The data is that of the contract in the shard, and its code can be loaded. -/
def Loads (load : GoBytes → Option Machine) (shardIdx : ShardIndex) (contractAddress : Address)
    (info : Option SmartContractInfo) : Prop :=
  ∃ known ∈ info, known.smartContract.contractAddr.isEqual contractAddress = true ∧
    known.shardIdx = shardIdx ∧ (load known.smartContract.code).isSome

/-- The loop gathers what the calls should give, and `smartContractExecutor.Execute` panics
whenever it gets to run them. -/
theorem executeCalls_ne_panic_iff
    (load : GoBytes → Option Machine) (shardIdx : ShardIndex) (contractAddress : Address)
    (txs : List MsgTx) (info : Option SmartContractInfo) :
    (∀ machine out, Threads machine out txs (txs.foldl (runCall machine) ⟨[], [], out, [], []⟩)) ∧
    (executeCalls load shardIdx contractAddress txs info ≠ Go.panic ↔
      ¬ Loads load shardIdx contractAddress info) := by
  refine ⟨fun machine out => ?_, not_congr ?_⟩
  · obtain ⟨state, threads, same⟩ := threads_foldl machine txs ⟨[], [], out, [], []⟩
    rw [same]
    exact threads
  · cases info with
    | none => simp [executeCalls, Loads, Go.fail_ne_panic]
    | some known =>
      cases loaded : load known.smartContract.code <;>
        simp [executeCalls, Loads, Go.bind_eq_panic, loaded, assign, Go.fail_ne_panic,
          Go.require_ne_panic]

/-- No calls, of a contract whose machine does nothing. -/
theorem executeCalls_panics :
    executeCalls (fun _ => some fun _ out => some (out, [], [])) 0 (.of [1]) []
      (some ⟨⟨.of [1], .of [], .of []⟩, 0, default, default, default, default⟩) = Go.panic :=
  rfl

end MultiVac.Contract
