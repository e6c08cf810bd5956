import MultiVac.Chain.Verify
import MultiVac.Contract.Conservation

/-!
# The lock on withdrawn and bound deposits

A withdrawal and a binding spend deposits only. The out they pay is locked or
deposited again, but what the deposits are worth beyond the amount in the
parameters is returned as change, in an out that can be spent at once.
-/

namespace MultiVac.Chain

open Lib Wire Ledger Contract

/-- The outs in which the table of `verifyTx` keeps a stake: the out of a withdrawal at
some height is locked for `withdrawHeight` blocks, that of a binding is a deposit. -/
def StaysLocked (api : GoString) (height : Int) (out : OutPoint) : Prop :=
  if api = SysAPI.withdraw then
    out.isWithdrawOut = true ∧
      ∀ later, later < height + Wire.withdrawHeight → out.isLock later = true
  else
    out.isDepositOut = true

/-- The deposits that a transaction spends. -/
def stakeInputs (tx : MsgTx) : List OutPoint := tx.inputs.filter OutPoint.isDepositOut

/-- The value of the spent deposits is in outs that stay locked, and none of the outs
is a transfer out. -/
structure StakeKept (tx : MsgTx) (height : Int) (outs : List OutPoint) : Prop where
  locked : ∃ kept, kept.Sublist outs ∧ (∀ out ∈ kept, StaysLocked tx.api height out) ∧
    creditOf kept = creditOf (stakeInputs tx)
  noTransfer : ∀ out ∈ outs, out.type ≠ OutType.transfer

/-- A withdrawal or a binding. -/
def MovesStake (tx : MsgTx) : Prop := tx.api = SysAPI.withdraw ∨ tx.api = SysAPI.binding

/-- The amount in the parameters of a withdrawal or a binding. -/
def namedAmount (tx : MsgTx) : Option Int :=
  if tx.api = SysAPI.withdraw then
    (decodeBytes Contract.Codec.withdrawParams tx.params.elems).map
      fun params => params.transferParams.amount
  else
    (decodeBytes Contract.Codec.depositParams tx.params.elems).map
      fun params => params.transferParams.amount

/-! ### Execution -/

variable {tx : MsgTx}

theorem decodeParams_eq_ok {α : Type} {codec : Codec α} {params : α}
    (decoded : decodeParams codec tx = .ok params) :
    decodeBytes codec tx.params.elems = some params := by
  unfold decodeParams at decoded
  split at decoded
  · next inRead => rw [inRead, Except.ok.inj decoded]
  · exact absurd decoded (Go.fail_ne_ok _ _)

/-- A withdraw out is locked until `withdrawHeight` blocks after the height it names. -/
theorem isLock_of_withdrawal {out : OutPoint} {data : MTVWithdrawData} {later : Int}
    (isWithdrawOut : out.isWithdrawOut = true) (inRead : out.outToWithdrawData = some data)
    (early : later < data.withdrawHeight + Wire.withdrawHeight) : out.isLock later = true := by
  simp only [OutPoint.isLock, isWithdrawOut, inRead, Bool.true_and, Bool.or_eq_true,
    decide_eq_true_eq]
  omega

variable {platform : Platform}

/-- A withdrawal or a binding is a payment of the named amount into an out that stays
locked. -/
theorem executeSystem_movesStake {shard : ShardIndex} {rewardTxCount : Nat} {height : Int}
    {result : SystemResult} (stake : MovesStake tx)
    (executed : executeSystem platform shard rewardTxCount tx height = .ok result) :
    ∃ params outData, namedAmount tx = some params.amount ∧
      executeTransaction platform shard tx outData params = .ok result.ops ∧
      dataValue outData = params.amount ∧
      ∀ out : OutPoint, out.type = outTypeOf tx.api → out.data.elems = outData →
        StaysLocked tx.api height out := by
  obtain ⟨_, _, executed⟩ := bind_eq_ok.mp executed
  unfold namedAmount StaysLocked
  rcases stake with isWithdraw | isBinding
  · simp only [isWithdraw, show SysAPI.withdraw ≠ SysAPI.transfer by decide,
      show SysAPI.withdraw ≠ SysAPI.deposit by decide, if_false, if_true, executeWithdraw,
      bind_eq_ok, pure_eq_ok] at executed ⊢
    obtain ⟨params, decoded, outData, written, ops, paid, rfl⟩ := executed
    have inRead := (MTVWithdrawData.decodeBytes_toData written).2
    refine ⟨params.transferParams, outData, ?_, paid, dataValue_of_withdrawal inRead, ?_⟩
    · rw [decodeParams_eq_ok decoded]
      rfl
    · intro out type data
      have isWithdrawOut : out.isWithdrawOut = true := decide_eq_true type
      refine ⟨isWithdrawOut, fun later early => ?_⟩
      have stored : out.outToWithdrawData = some ⟨params.transferParams.amount, height⟩ := by
        rw [OutPoint.outToWithdrawData, data, inRead]
      exact isLock_of_withdrawal isWithdrawOut stored early
  · simp only [isBinding, show SysAPI.binding ≠ SysAPI.transfer by decide,
      show SysAPI.binding ≠ SysAPI.deposit by decide,
      show SysAPI.binding ≠ SysAPI.withdraw by decide, if_false, if_true, executeBinding,
      bind_eq_ok, pure_eq_ok] at executed ⊢
    obtain ⟨params, decoded, outData, written, ops, paid, rfl⟩ := executed
    have inRead := (MTVDepositData.decodeBytes_toData written).2
    refine ⟨params.transferParams, outData, ?_, paid, dataValue_of_deposit inRead, ?_⟩
    · rw [decodeParams_eq_ok decoded]
      rfl
    · exact fun out type _ => decide_eq_true type

/-- The accepted inputs of a withdrawal or a binding are deposits. -/
theorem stakeInputs_of_verifyTx {miner : Miner} (stake : MovesStake tx)
    (accepted : verifyTx miner tx = .ok ()) : stakeInputs tx = tx.inputs := by
  refine List.filter_eq_self.mpr fun out inInputs => ?_
  unfold verifyTx at accepted
  rcases stake with isWithdraw | isBinding
  · rw [isWithdraw, if_neg (by decide), if_pos rfl] at accepted
    exact (Go.require_eq_ok _ _ _).mp (forM_eq_ok_iff.mp accepted out inInputs)
  · rw [isBinding, if_neg (by decide), if_neg (by decide), if_pos rfl] at accepted
    obtain ⟨_, isDeposit, _⟩ := bind_eq_ok.mp (forM_eq_ok_iff.mp accepted out inInputs)
    exact (Go.require_eq_ok _ _ _).mp isDeposit

/-- A withdrawal or a binding pays no transfer out. -/
theorem outTypeOf_ne_transfer (stake : MovesStake tx) : outTypeOf tx.api ≠ OutType.transfer := by
  rcases stake with isWithdraw | isBinding
  · rw [isWithdraw]
    decide
  · rw [isBinding]
    decide

/-- An accepted withdrawal or binding keeps its stake locked exactly if the amount in its
parameters is the whole value of the deposits it spends. -/
theorem stake_kept_iff {miner : Miner} {shard : ShardIndex} {rewardTxCount : Nat} {tx : MsgTx}
    {height : Int} {result : SystemResult} (stake : MovesStake tx)
    (accepted : verifyTx miner tx = .ok ())
    (executed : executeSystem platform shard rewardTxCount tx height = .ok result) :
    StakeKept tx height result.ops ↔ namedAmount tx = some (creditOf (stakeInputs tx)) := by
  obtain ⟨params, outData, named, paid, paidValue, locked⟩ :=
    executeSystem_movesStake stake executed
  obtain ⟨_, totalInputs, txHash, summed, _, made⟩ := executeTransaction_cases paid
  have total := sumValues_eq (fun _ _ => dataValue_of_creditedValue) summed
  rw [stakeInputs_of_verifyTx stake accepted, ← total, named, Option.some.injEq]
  rcases made with ⟨whole, onlyPaid⟩ | ⟨more, owner, data, _, withChange⟩
  · refine iff_of_true ⟨⟨result.ops, List.Sublist.refl _, ?_, ?_⟩, ?_⟩ whole.symm
    · rw [onlyPaid]
      exact List.forall_mem_singleton.mpr (locked _ rfl rfl)
    · rw [stakeInputs_of_verifyTx stake accepted, ← total, onlyPaid, whole, ← paidValue]
      simp [creditOf, systemOut]
    · rw [onlyPaid]
      exact List.forall_mem_singleton.mpr (outTypeOf_ne_transfer stake)
  · -- The change is a transfer out.
    refine iff_of_false (fun kept => ?_) more.ne
    refine kept.noTransfer (systemOut platform shard txHash 1 owner OutType.transfer data) ?_ rfl
    rw [withChange]
    simp

/-! ### A withdrawal -/

/-- A deposit worth 100. -/
def deposited : OutPoint :=
  let data := match MTVDepositData.toData
      { value := 100, height := 1, bindingAddress := .of [1] } with
    | .ok bytes => bytes
    | .error _ => []
  systemOut .plain 0 default 0 (.of [1]) OutType.depositOut data

/-- A withdrawal of some of the deposit. -/
def withdrawTx (amount : Int) : MsgTx :=
  let params := match encodeToBytes Contract.Codec.withdrawParams
      { transferParams := { receiver := .of [1], shard := 0, amount } } with
    | .ok bytes => bytes
    | .error _ => []
  { (default : MsgTx) with
    txIn := .of [{ previousOutPoint := deposited }]
    contractAddress := sysAPIAddress Platform.plain.toPrimitives
    api := SysAPI.withdraw
    params := .of params }

/-- A transfer of one out. -/
def transferTx (out : OutPoint) : MsgTx :=
  { (default : MsgTx) with
    txIn := .of [{ previousOutPoint := out }]
    contractAddress := sysAPIAddress Platform.plain.toPrimitives
    api := SysAPI.transfer }

/-- A miner that proposes a block of some height. -/
def minerAt (height : Int) : Miner := { Miner.fresh default with proposeBlockHgt := height }

/-- The whole deposit is withdrawn. -/
theorem stake_kept_whole_withdrawal :
    ∃ result, executeSystem .plain 0 0 (withdrawTx 100) 2 = .ok result ∧
      StakeKept (withdrawTx 100) 2 result.ops := by
  have runs : (fun _ => ()) <$> executeSystem .plain 0 0 (withdrawTx 100) 2 = .ok () ∧
      verifyTx (minerAt 2) (withdrawTx 100) = .ok () ∧
      namedAmount (withdrawTx 100) = some (creditOf (stakeInputs (withdrawTx 100))) := by
    decide +kernel
  obtain ⟨executes, accepted, named⟩ := runs
  obtain ⟨result, executed, _⟩ := map_eq_ok.mp executes
  exact ⟨result, executed, (stake_kept_iff (.inl rfl) accepted executed).mpr named⟩

/-- Of a deposit worth 100 one coin is withdrawn at height 2. The other 99 are paid as a
transfer out, which a transfer may spend in the next block. -/
theorem stake_released_by_withdrawal :
    verifyTx (minerAt 2) (withdrawTx 1) = .ok () ∧
    ∃ result change, executeSystem .plain 0 0 (withdrawTx 1) 2 = .ok result ∧
      ¬ StakeKept (withdrawTx 1) 2 result.ops ∧ change ∈ result.ops ∧
      change.type = OutType.transfer ∧ dataValue change.data.elems = 99 ∧
      verifyTx (minerAt 3) (transferTx change) = .ok () := by
  have runs : verifyTx (minerAt 2) (withdrawTx 1) = .ok () ∧
      (fun result => result.ops.any fun out =>
        out.type = OutType.transfer ∧ dataValue out.data.elems = 99 ∧
          verifyTx (minerAt 3) (transferTx out) = .ok ()) <$>
        executeSystem .plain 0 0 (withdrawTx 1) 2 = .ok true := by
    decide +kernel
  obtain ⟨accepted, executes⟩ := runs
  obtain ⟨result, executed, made⟩ := map_eq_ok.mp executes
  simp only [List.any_eq_true, decide_eq_true_eq] at made
  obtain ⟨change, inOps, isTransfer, worth, spendable⟩ := made
  exact ⟨accepted, result, change, executed, fun kept => kept.noTransfer change inOps isTransfer,
    inOps, isTransfer, worth, spendable⟩

end MultiVac.Chain
