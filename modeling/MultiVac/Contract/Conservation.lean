import MultiVac.Contract.Processor

/-!
# Conservation of value

The value of an out is read from its data, as the executors read it. Every
system transaction except a reward makes outs that are worth no more than the
outs it spends, and so does the execution of a whole block after its first
reward.
-/

namespace MultiVac.Contract

open Lib Wire Ledger

/-- The value in the data of an out: that of coins, of a withdrawal or of a
deposit. -/
def dataValue (data : Bytes) : Int :=
  match decodeBytes Wire.Codec.mtvCoinData data with
  | some coins => coins.value
  | none =>
    match decodeBytes Wire.Codec.mtvWithdrawData data with
    | some withdrawal => withdrawal.value
    | none =>
      match decodeBytes Wire.Codec.mtvDepositData data with
      | some deposit => deposit.value
      | none => 0

/-- The value of an out. The code and the shard data of a contract are outs
without an owner, which no key can spend. -/
def outValue (out : OutPoint) : Int :=
  if out.userAddress.elems = [] then 0 else dataValue out.data.elems

/-- The value of some outs. -/
def valueOf (outs : List OutPoint) : Int := (outs.map outValue).sum

@[simp]
theorem valueOf_append (first second : List OutPoint) :
    valueOf (first ++ second) = valueOf first + valueOf second := by
  simp [valueOf]

theorem valueOf_perm {first second : List OutPoint}
    (perm : first.Perm second) : valueOf first = valueOf second :=
  (perm.map outValue).sum_eq

/-! ### Reading values -/

/-- Data with a given number of fields. -/
private def HasFields (data : Bytes) (count : Nat) : Prop :=
  ∃ items, Rlp.Item.decode data = some (.list items) ∧ items.length = count

variable {data : Bytes}

private theorem HasFields.unique {first second : Nat} (hasFirst : HasFields data first)
    (hasSecond : HasFields data second) : first = second := by
  obtain ⟨items, decoded, rfl⟩ := hasFirst
  obtain ⟨others, decodedToo, rfl⟩ := hasSecond
  rw [decoded] at decodedToo
  cases decodedToo
  rfl

variable {coins : MTVCoinData}

private theorem hasFields_of_coins
    (inRead : decodeBytes Wire.Codec.mtvCoinData data = some coins) : HasFields data 1 :=
  length_of_decodeBytes_struct Format.noFields_arity.field inRead

variable {withdrawal : MTVWithdrawData}

private theorem hasFields_of_withdrawal
    (inRead : decodeBytes Wire.Codec.mtvWithdrawData data = some withdrawal) : HasFields data 2 :=
  length_of_decodeBytes_struct Format.noFields_arity.field.field inRead

variable {deposit : MTVDepositData}

private theorem hasFields_of_deposit
    (inRead : decodeBytes Wire.Codec.mtvDepositData data = some deposit) : HasFields data 3 :=
  length_of_decodeBytes_struct Format.noFields_arity.field.field.field inRead

theorem dataValue_of_coins (inRead : decodeBytes Wire.Codec.mtvCoinData data = some coins) :
    dataValue data = coins.value := by
  simp only [dataValue, inRead]

theorem dataValue_of_withdrawal
    (inRead : decodeBytes Wire.Codec.mtvWithdrawData data = some withdrawal) :
    dataValue data = withdrawal.value := by
  unfold dataValue
  split
  · next coins isCoins =>
    have := (hasFields_of_coins isCoins).unique (hasFields_of_withdrawal inRead)
    omega
  · simp only [inRead]

theorem dataValue_of_deposit (inRead : decodeBytes Wire.Codec.mtvDepositData data = some deposit) :
    dataValue data = deposit.value := by
  unfold dataValue
  split
  · next coins isCoins =>
    have := (hasFields_of_coins isCoins).unique (hasFields_of_deposit inRead)
    omega
  · split
    · next withdrawal isWithdrawal =>
      have := (hasFields_of_withdrawal isWithdrawal).unique (hasFields_of_deposit inRead)
      omega
    · simp only [inRead]

variable {out : OutPoint} {value : Int}

/-- The coins of an out are the value of its data. -/
theorem dataValue_of_getMtvValueFromOut
    (coins : out.getMtvValueFromOut = .ok value) : dataValue out.data.elems = value := by
  unfold OutPoint.getMtvValueFromOut at coins
  split at coins
  · next data inRead =>
    rw [dataValue_of_coins inRead]
    exact Except.ok.inj coins
  · exact absurd coins (Go.panic_ne_ok _)

/-- What a transfer credits for an out is the value of its data. -/
theorem dataValue_of_creditedValue
    (credited : creditedValue out = .ok value) : dataValue out.data.elems = value := by
  unfold creditedValue at credited
  split at credited
  · split at credited
    · next data inRead =>
      rw [dataValue_of_withdrawal inRead]
      exact Except.ok.inj credited
    · exact absurd credited (Go.fail_ne_ok _ _)
  · split at credited
    · split at credited
      · next data inRead =>
        rw [dataValue_of_deposit inRead]
        exact Except.ok.inj credited
      · exact absurd credited (Go.fail_ne_ok _ _)
    · exact dataValue_of_getMtvValueFromOut credited

/-- The inputs of a transaction, valued by their data. -/
def creditOf (outs : List OutPoint) : Int := (outs.map fun out => dataValue out.data.elems).sum

private theorem sumValues_from {value : OutPoint → Go Int}
    (readsData : ∀ out result, value out = .ok result → dataValue out.data.elems = result)
    (outs : List OutPoint) (start total : Int)
    (summed : outs.foldlM (fun total out => do return total + (← value out)) start = .ok total) :
    total = start + creditOf outs := by
  induction outs generalizing start with
  | nil =>
    rw [← pure_eq_ok.mp summed]
    simp [creditOf]
  | cons out outs ih =>
    simp only [List.foldlM_cons, bind_eq_ok, pure_eq_ok] at summed
    obtain ⟨_, ⟨result, valued, rfl⟩, summed⟩ := summed
    rw [ih _ summed]
    simp only [creditOf, List.map_cons, List.sum_cons, readsData out result valued]
    ring

variable {outs : List OutPoint}

theorem sumValues_eq {value : OutPoint → Go Int}
    (readsData : ∀ out result, value out = .ok result → dataValue out.data.elems = result)
    {total : Int} (summed : sumValues value outs = .ok total) : total = creditOf outs := by
  rw [sumValues_from readsData outs 0 total summed, zero_add]

/-- Outs with owners are worth what their data says. -/
theorem creditOf_eq_valueOf
    (owned : ∀ out ∈ outs, out.userAddress.elems ≠ []) : creditOf outs = valueOf outs := by
  unfold creditOf valueOf
  congr 1
  apply List.map_congr_left
  intro out inOuts
  rw [outValue, if_neg (owned out inOuts)]

/-! ### System transactions -/

theorem outValue_le (inData : dataValue out.data.elems = value)
    (positive : 0 < value) : outValue out ≤ value := by
  unfold outValue
  split <;> omega

/-- Outs that carry coins, worth what was spent. -/
structure Settles (outs spent : List OutPoint) : Prop where
  sum_eq : creditOf outs = creditOf spent
  positive : ∀ out ∈ outs, 0 < dataValue out.data.elems

theorem Settles.valueOf_le {spent : List OutPoint}
    (settles : Settles outs spent) : valueOf outs ≤ creditOf spent := by
  rw [← settles.sum_eq]
  exact List.sum_le_sum fun out inOuts => outValue_le rfl (settles.positive out inOuts)

/-- The outs of a system transaction that carry coins: those of a deployed contract have
the indices 0 and 1, and its refund has the index 2. -/
def mtvOuts (result : SystemResult) : List OutPoint :=
  if result.sc.isSome then result.ops.filter fun out => out.index = 2 else result.ops

variable {platform : Platform}

variable {secShard : ShardIndex} {tx : MsgTx} {outData : Bytes} {params : TransferParams}
  {ops : List OutPoint}

/-- What a payment makes: one out of the whole of the inputs, or an out and the
change of its sender. -/
theorem executeTransaction_cases
    (executed : executeTransaction platform secShard tx outData params = .ok ops) :
    0 < params.amount ∧ ∃ totalInputs txHash,
      sumValues creditedValue tx.inputs = .ok totalInputs ∧ tx.txHash = .ok txHash ∧
      let paid :=
        systemOut platform params.shard txHash 0 params.receiver (outTypeOf tx.api) outData
      ((totalInputs = params.amount ∧ ops = [paid]) ∨ params.amount < totalInputs ∧ ∃ owner data,
          mtvValueToData (totalInputs - params.amount) = .ok data ∧
          ops = [paid, systemOut platform secShard txHash 1 owner OutType.transfer data]) := by
  simp only [executeTransaction, bind_eq_ok, Go.require_eq_ok, Go.assert_eq_ok,
    decide_eq_true_eq] at executed
  obtain ⟨_, _, totalInputs, summed, _, ⟨covered, positive⟩, txHash, hashed, executed⟩ := executed
  refine ⟨positive, totalInputs, txHash, summed, hashed, ?_⟩
  split at executed
  · simp only [bind_eq_ok, pure_eq_ok] at executed
    obtain ⟨owner, _, data, written, rfl⟩ := executed
    exact .inr ⟨by omega, owner, data, written, rfl⟩
  · exact .inl ⟨by omega, (pure_eq_ok.mp executed).symm⟩

/-- A payment and its change are worth what was spent. -/
theorem settles_executeTransaction (paidData : dataValue outData = params.amount)
    (executed : executeTransaction platform secShard tx outData params = .ok ops) :
    Settles ops tx.inputs := by
  obtain ⟨positive, totalInputs, txHash, summed, _, made⟩ := executeTransaction_cases executed
  have totalEq := sumValues_eq (fun _ _ => dataValue_of_creditedValue) summed
  rcases made with ⟨whole, rfl⟩ | ⟨_, owner, data, written, rfl⟩
  · constructor
    · simp [creditOf, systemOut, paidData, ← whole, totalEq]
    · simpa [systemOut, paidData] using positive
  · obtain ⟨changePositive, inRead⟩ := decodeBytes_mtvValueToData written
    have changeData := dataValue_of_coins inRead
    constructor
    · simp only [creditOf, systemOut, List.map_cons, List.map_nil, List.sum_cons, List.sum_nil,
        Slice.elems_of, paidData, changeData] at totalEq ⊢
      omega
    · simpa [systemOut, paidData, changeData] using ⟨positive, by omega⟩

/-- The outs of a deployed contract have no owner. -/
theorem mem_contractOuts {txHash : Hash} {contractAddr : Address} {scBytes : Bytes}
    {initData : ShardIndex → Go Bytes} {shards : List ShardIndex} {outs : List (List OutPoint)}
    (made : shards.mapM (contractOuts txHash contractAddr scBytes initData) = .ok outs) :
    ∀ out ∈ outs.flatten, out.userAddress = .nil ∧ out.index ≠ 2 := by
  intro out inOuts
  obtain ⟨pair, inPairs, inPair⟩ := List.mem_flatten.mp inOuts
  obtain ⟨shardIdx, _, madePair⟩ := exists_of_mem_mapM made inPairs
  simp only [contractOuts, bind_eq_ok, pure_eq_ok] at madePair
  obtain ⟨data, _, rfl⟩ := madePair
  rcases List.mem_pair.mp inPair with rfl | rfl
  · exact ⟨rfl, by simp⟩
  · exact ⟨rfl, by simp⟩

variable {shard : ShardIndex} {result : SystemResult}

/-- A deployment returns the coins it was given. -/
theorem settles_executeDeploy (executed : executeDeploy platform shard tx = .ok result) :
    Settles (mtvOuts result) tx.inputs ∧ valueOf result.ops = valueOf (mtvOuts result) := by
  simp only [executeDeploy, bind_eq_ok] at executed
  obtain ⟨params, _, _, _, txHash, _, scHash, _, executed⟩ := executed
  split at executed
  · exact absurd executed (Go.fail_ne_ok _ _)
  · simp only [bind_eq_ok, pure_eq_ok] at executed
    obtain ⟨outs, made, totalInputs, summed, owner, _, data, written, rfl⟩ := executed
    obtain ⟨positive, inRead⟩ := decodeBytes_mtvValueToData written
    have totalEq := sumValues_eq (fun _ _ => dataValue_of_getMtvValueFromOut) summed
    have noCoins : outs.flatten.filter (fun out => out.index = 2) = [] := by
      rw [List.filter_eq_nil_iff]
      exact fun out inOuts => by simpa using (mem_contractOuts made out inOuts).2
    have unowned : valueOf outs.flatten = 0 := by
      refine List.sum_eq_zero fun value inValues => ?_
      obtain ⟨out, inOuts, rfl⟩ := List.mem_map.mp inValues
      rw [outValue, (mem_contractOuts made out inOuts).1]
      rfl
    simp only [mtvOuts, Option.isSome_some, if_true, List.filter_append, noCoins, List.nil_append,
      valueOf_append, unowned, zero_add]
    refine ⟨⟨?_, ?_⟩, rfl⟩
    · simp [creditOf, systemOut, dataValue_of_coins inRead, totalEq]
    · simpa [systemOut, dataValue_of_coins inRead] using positive

variable {rewardTxCount : Nat} {height : Int}

/-- Every system transaction except a reward conserves value. -/
theorem settles_executeSystem (notReward : tx.isRewardTx = false)
    (executed : executeSystem platform shard rewardTxCount tx height = .ok result) :
    Settles (mtvOuts result) tx.inputs ∧ valueOf result.ops = valueOf (mtvOuts result) := by
  simp only [MsgTx.isRewardTx, decide_eq_false_iff_not] at notReward
  simp only [executeSystem, bind_eq_ok, if_neg notReward] at executed
  obtain ⟨_, _, executed⟩ := executed
  split at executed
  · simp only [executeTransfer, bind_eq_ok, pure_eq_ok] at executed
    obtain ⟨params, _, outData, written, ops, paid, rfl⟩ := executed
    exact ⟨settles_executeTransaction
      (dataValue_of_coins (decodeBytes_mtvValueToData written).2) paid, rfl⟩
  split at executed
  · simp only [executeDeposit, bind_eq_ok, pure_eq_ok] at executed
    obtain ⟨params, _, _, _, outData, written, ops, paid, rfl⟩ := executed
    exact ⟨settles_executeTransaction
      (dataValue_of_deposit (MTVDepositData.decodeBytes_toData written).2) paid, rfl⟩
  split at executed
  · simp only [executeWithdraw, bind_eq_ok, pure_eq_ok] at executed
    obtain ⟨params, _, outData, written, ops, paid, rfl⟩ := executed
    exact ⟨settles_executeTransaction
      (dataValue_of_withdrawal (MTVWithdrawData.decodeBytes_toData written).2) paid, rfl⟩
  split at executed
  · simp only [executeBinding, bind_eq_ok, pure_eq_ok] at executed
    obtain ⟨params, _, outData, written, ops, paid, rfl⟩ := executed
    exact ⟨settles_executeTransaction
      (dataValue_of_deposit (MTVDepositData.decodeBytes_toData written).2) paid, rfl⟩
  split at executed
  · exact settles_executeDeploy executed
  · exact absurd executed (Go.fail_ne_ok _ _)

theorem valueOf_executeSystem_le (notReward : tx.isRewardTx = false)
    (executed : executeSystem platform shard rewardTxCount tx height = .ok result) :
    valueOf result.ops ≤ creditOf tx.inputs := by
  obtain ⟨settles, sameValue⟩ := settles_executeSystem notReward executed
  rw [sameValue]
  exact settles.valueOf_le

/-- A transfer of 60 out of 100 coins. -/
def sampleTransfer : MsgTx :=
  { (default : MsgTx) with
    txIn := .of [{ previousOutPoint := { (default : OutPoint) with data := .of [0xC1, 100] } }]
    api := SysAPI.transfer
    params := .of [0xC3, 0x80, 0x80, 60] }

/-- A reward pays the amount in its parameters, and only the first one does. -/
theorem executeSystem_reward (reward : tx.isRewardTx = true)
    (executed : executeSystem platform shard rewardTxCount tx height = .ok result) :
    rewardTxCount = 0 ∧ ∃ params out, decodeParams Codec.rewardParams tx = .ok params ∧
      result = ⟨[out], none⟩ ∧ dataValue out.data.elems = params.amount ∧ 0 < params.amount := by
  simp only [MsgTx.isRewardTx, decide_eq_true_eq] at reward
  simp only [executeSystem, bind_eq_ok, reward] at executed
  obtain ⟨_, _, executed⟩ := executed
  simp only [show SysAPI.reward ≠ SysAPI.transfer by decide,
    show SysAPI.reward ≠ SysAPI.deposit by decide, show SysAPI.reward ≠ SysAPI.withdraw by decide,
    show SysAPI.reward ≠ SysAPI.binding by decide, if_false, if_true, executeReward,
    bind_eq_ok, pure_eq_ok, Go.require_eq_ok, decide_eq_true_eq] at executed
  obtain ⟨_, first, params, decoded, txHash, _, data, written, rfl⟩ := executed
  obtain ⟨positive, inRead⟩ := decodeBytes_mtvValueToData written
  exact ⟨first, params, _, decoded, rfl, dataValue_of_coins inRead, positive⟩

/-! ### Whole executions -/

/-- The calls gathered for all contracts. -/
def callTxs (calls : List (Bytes × List MsgTx)) : List MsgTx := calls.flatMap Prod.snd

@[simp]
theorem callTxs_nil : callTxs [] = [] := rfl

/-- The points of some outs. -/
def pointsOf (outs : List OutState) : List OutPoint := outs.map OutState.outPoint

@[simp]
theorem pointsOf_append (first second : List OutState) :
    pointsOf (first ++ second) = pointsOf first ++ pointsOf second := by
  simp [pointsOf]

@[simp]
theorem pointsOf_unspent (outs : List OutPoint) :
    pointsOf (outs.map OutPoint.toUnspentOutState) = outs := by
  simp [pointsOf, Function.comp_def, OutPoint.toUnspentOutState]

/-- What some transactions spend, valued by the data of the inputs. -/
def creditOfTxs (txs : List MsgTx) : Int := creditOf (txs.flatMap MsgTx.inputs)

/-- What some transactions spend. -/
def spentBy (txs : List MsgTx) : Int := valueOf (txs.flatMap MsgTx.inputs)

theorem creditOfTxs_cons (tx : MsgTx) (txs : List MsgTx) :
    creditOfTxs (tx :: txs) = creditOf tx.inputs + creditOfTxs txs := by
  simp [creditOfTxs, creditOf]

theorem callTxs_addCall (pkHash : Bytes) (tx : MsgTx) (calls : List (Bytes × List MsgTx)) :
    (callTxs (addCall pkHash tx calls)).Perm (tx :: callTxs calls) := by
  induction calls with
  | nil => simp [callTxs, addCall]
  | cons call calls ih =>
    obtain ⟨key, txs⟩ := call
    simp only [addCall]
    split
    · simp only [callTxs, List.flatMap_cons, List.append_assoc]
      exact List.perm_middle
    · simp only [callTxs, List.flatMap_cons] at ih ⊢
      exact (ih.append_left txs).trans List.perm_middle

/-- What one iteration of the first loop does: it drops the transaction, adds a
call, or executes a system transaction. -/
theorem gatherTx_cases {gathered next : Gathered}
    (stepped : gatherTx platform shard height gathered tx = .ok next) :
    next = gathered ∨
    (tx.isSmartContractTx platform.toPrimitives = true ∧
      ∃ pkHash, next = { gathered with calls := addCall pkHash tx gathered.calls }) ∨
    (tx.isSmartContractTx platform.toPrimitives = false ∧
      ∃ result, executeSystem platform shard gathered.rewardTxCount tx height = .ok result ∧
        next = {
          rewardTxCount := gathered.rewardTxCount + if tx.isRewardTx then 1 else 0
          successfulTxs := gathered.successfulTxs ++ [tx]
          outStates := gathered.outStates ++ result.ops.map OutPoint.toUnspentOutState
          scs := gathered.scs ++ result.sc.toList
          calls := gathered.calls }) := by
  unfold gatherTx at stepped
  split at stepped
  · next contract =>
    obtain ⟨_ | pkHash, _, stepped⟩ := bind_eq_ok.mp stepped
    · exact .inl (pure_eq_ok.mp stepped).symm
    · exact .inr (.inl ⟨contract, pkHash, (pure_eq_ok.mp stepped).symm⟩)
  · next system =>
    obtain ⟨_ | result, attempted, stepped⟩ := bind_eq_ok.mp stepped
    · exact .inl (pure_eq_ok.mp stepped).symm
    · refine .inr (.inr ⟨by simpa using system, result, ?_, (pure_eq_ok.mp stepped).symm⟩)
      exact (Go.attempt_eq_ok_some _ _).mp attempted

/-- A system transaction that is not a reward and has parameters. -/
def PlainSystemTx (platform : Platform) (tx : MsgTx) : Prop :=
  tx.isSmartContractTx platform.toPrimitives = false ∧ tx.isRewardTx = false ∧ tx.params.length ≠ 0

/-- After a reward, only plain system transactions are executed. -/
theorem plainSystemTx_of_executeSystem (rewarded : 0 < rewardTxCount)
    (system : tx.isSmartContractTx platform.toPrimitives = false)
    (executed : executeSystem platform shard rewardTxCount tx height = .ok result) :
    PlainSystemTx platform tx := by
  refine ⟨system, ?_, ?_⟩
  · by_contra reward
    have := (executeSystem_reward (by simpa using reward) executed).1
    omega
  · simp only [executeSystem, bind_eq_ok, Go.require_eq_ok, decide_eq_true_eq] at executed
    obtain ⟨_, ⟨_, hasParams⟩, _⟩ := executed
    exact hasParams

/-- How the first loop of `Execute` splits its transactions. -/
structure Gathers (platform : Platform) (start finish : Gathered)
    (txs systemTxs newCalls dropped : List MsgTx) : Prop where
  successful : finish.successfulTxs = start.successfulTxs ++ systemTxs
  calls : (callTxs finish.calls).Perm (newCalls ++ callTxs start.calls)
  split : txs.Perm (systemTxs ++ (newCalls ++ dropped))
  contracts : ∀ tx ∈ newCalls, tx.isSmartContractTx platform.toPrimitives = true
  /-- Once a reward has been paid, value is conserved. -/
  conserved : 0 < start.rewardTxCount → (∀ tx ∈ systemTxs, PlainSystemTx platform tx) ∧
      valueOf (pointsOf finish.outStates) ≤
        valueOf (pointsOf start.outStates) + creditOfTxs systemTxs

theorem gathers_of_foldlM {txs : List MsgTx} {start finish : Gathered}
    (ran : txs.foldlM (gatherTx platform shard height) start = .ok finish) :
    ∃ systemTxs newCalls dropped, Gathers platform start finish txs systemTxs newCalls dropped := by
  induction txs generalizing start with
  | nil =>
    obtain rfl := pure_eq_ok.mp ran
    exact ⟨[], [], [], by simp, by simp, by simp, by simp, fun _ => by
      simp [creditOfTxs, creditOf]⟩
  | cons tx txs ih =>
    rw [List.foldlM_cons] at ran
    obtain ⟨next, stepped, ran⟩ := bind_eq_ok.mp ran
    obtain ⟨systemTxs, newCalls, dropped, rest⟩ := ih ran
    rcases gatherTx_cases stepped with
      rfl | ⟨contract, pkHash, rfl⟩ | ⟨system, result, executed, rfl⟩
    · refine ⟨systemTxs, newCalls, tx :: dropped, rest.successful, rest.calls, ?_,
        rest.contracts, rest.conserved⟩
      refine (rest.split.cons tx).trans ?_
      rw [← List.append_assoc, ← List.append_assoc]
      exact List.perm_middle.symm
    · refine ⟨systemTxs, tx :: newCalls, dropped, rest.successful, ?_, ?_, ?_, rest.conserved⟩
      · refine rest.calls.trans (((callTxs_addCall pkHash tx start.calls).append_left _).trans ?_)
        exact List.perm_middle
      · exact (rest.split.cons tx).trans List.perm_middle.symm
      · intro other inCalls
        rcases List.mem_cons.mp inCalls with rfl | inCalls
        · exact contract
        · exact rest.contracts other inCalls
    · refine ⟨tx :: systemTxs, newCalls, dropped, ?_, rest.calls, rest.split.cons tx,
        rest.contracts, fun rewarded => ?_⟩
      · rw [rest.successful, List.append_assoc]
        rfl
      · have plain := plainSystemTx_of_executeSystem rewarded system executed
        obtain ⟨plainRest, conservedRest⟩ := rest.conserved (by
          dsimp only
          omega)
        refine ⟨?_, ?_⟩
        · intro other inTxs
          rcases List.mem_cons.mp inTxs with rfl | inTxs
          · exact plain
          · exact plainRest other inTxs
        · have spent := valueOf_executeSystem_le plain.2.1 executed
          rw [creditOfTxs_cons]
          simp only [pointsOf_append, pointsOf_unspent, valueOf_append] at conservedRest
          omega

/-- Contract executors that report some of their calls as successful, in their order. -/
def Reports (contracts : ContractExecutor) : Prop :=
  ∀ pkHash txs result, contracts pkHash txs = some result → result.successfulTxs.Sublist txs

/-- Contract executors whose outs are also worth no more than what these calls spend. -/
structure ConservesValue (contracts : ContractExecutor) : Prop where
  successful : Reports contracts
  conserved : ∀ pkHash txs result, contracts pkHash txs = some result →
    valueOf (pointsOf result.newOuts) ≤ spentBy result.successfulTxs

variable {contracts : ContractExecutor}

theorem successfulTxs_sublist (reports : Reports contracts)
    (calls : List (Bytes × List MsgTx)) :
    ((contractResults contracts calls).flatMap ContractResult.successfulTxs).Sublist
      (callTxs calls) := by
  induction calls with
  | nil => exact List.Sublist.refl _
  | cons call calls ih =>
    obtain ⟨pkHash, txs⟩ := call
    simp only [contractResults, List.filterMap_cons, callTxs, List.flatMap_cons] at *
    cases executed : contracts pkHash txs with
    | none => exact ih.trans (List.sublist_append_right _ _)
    | some result =>
      rw [List.flatMap_cons]
      exact (reports _ _ _ executed).append ih

/-- When all calls are reported, each contract has reported all of its calls. -/
theorem reported_of_eq (reports : Reports contracts) {calls : List (Bytes × List MsgTx)}
    (nonempty : ∀ call ∈ calls, call.2 ≠ [])
    (all : (contractResults contracts calls).flatMap ContractResult.successfulTxs = callTxs calls) :
    ∀ call ∈ calls, ∃ result, contracts call.1 call.2 = some result ∧
      result.successfulTxs = call.2 := by
  induction calls with
  | nil => simp
  | cons call calls ih =>
    obtain ⟨firstNonempty, restNonempty⟩ := List.forall_mem_cons.mp nonempty
    have rest := successfulTxs_sublist reports calls
    have lengths := congrArg List.length all
    have positive := List.length_pos_iff.mpr firstNonempty
    simp only [contractResults, List.filterMap_cons, callTxs, List.flatMap_cons] at all lengths rest
    cases executed : contracts call.1 call.2 with
    | none =>
      simp only [executed, List.length_append] at lengths
      exact absurd rest.length_le (by omega)
    | some result =>
      have first := reports _ _ _ executed
      simp only [executed, List.flatMap_cons, List.length_append] at all lengths
      have firstLe := first.length_le
      have restLe := rest.length_le
      refine List.forall_mem_cons.mpr ⟨⟨result, executed, first.eq_of_length (by omega)⟩, ?_⟩
      exact ih restNonempty (rest.eq_of_length (by omega))

/-- When all transactions of a list succeed, none is dropped and every call is reported. -/
theorem execute_reports (reports : Reports contracts) {order : MapOrder} {txs : List MsgTx}
    {result : Result} (nonempty : txs ≠ [])
    (executed : execute platform contracts order shard txs height = .ok result)
    (successful : result.successfulTxs.length = txs.length) :
    ∃ finish, txs.foldlM (gatherTx platform shard height) ⟨0, [], [], [], []⟩ = .ok finish ∧
      result.successfulTxs.Perm txs ∧ (contractResults contracts
        (order.visit finish.calls)).flatMap ContractResult.successfulTxs =
          callTxs (order.visit finish.calls) := by
  simp only [execute, List.isEmpty_iff, if_neg nonempty, bind_eq_ok, pure_eq_ok] at executed
  obtain ⟨finish, ran, leaves, _, rfl⟩ := executed
  obtain ⟨systemTxs, newCalls, dropped, gathers⟩ := gathers_of_foldlM ran
  have visited : (callTxs (order.visit finish.calls)).Perm newCalls := by
    have listed := ((order.visit_perm finish.calls).flatMap_right Prod.snd).trans gathers.calls
    rwa [callTxs_nil, List.append_nil] at listed
  have reported := successfulTxs_sublist reports (order.visit finish.calls)
  have reportedLe := reported.length_le
  have visitedLength := visited.length_eq
  have splitLength := gathers.split.length_eq
  simp only [gathers.successful, List.nil_append, List.length_append] at successful splitLength ⊢
  have noneDropped : dropped = [] := List.length_eq_zero_iff.mp (by omega)
  have allReported := reported.eq_of_length (by omega)
  have split : txs.Perm (systemTxs ++ newCalls) := by simpa [noneDropped] using gathers.split
  refine ⟨finish, ran, ?_, allReported⟩
  rw [allReported]
  exact (visited.append_left systemTxs).trans split.symm

theorem valueOf_newOuts_le (conserves : ConservesValue contracts)
    (calls : List (Bytes × List MsgTx)) :
    valueOf (pointsOf ((contractResults contracts calls).flatMap ContractResult.newOuts)) ≤
      spentBy ((contractResults contracts calls).flatMap ContractResult.successfulTxs) := by
  induction calls with
  | nil => exact le_refl _
  | cons call calls ih =>
    obtain ⟨pkHash, txs⟩ := call
    simp only [contractResults, List.filterMap_cons] at *
    cases executed : contracts pkHash txs with
    | none => exact ih
    | some result =>
      have conserved := conserves.conserved _ _ _ executed
      simp only [List.flatMap_cons, pointsOf_append, valueOf_append, spentBy,
        List.flatMap_append] at *
      omega

/-- When a block starts with a reward and all its transactions succeed, no other
transaction is a reward, and the outs are worth no more than the reward and what
the other transactions spend. -/
theorem execute_conserves (conserves : ConservesValue contracts) {order : MapOrder} {first : MsgTx}
    {rest : List MsgTx} {result : Result}
    (system : first.isSmartContractTx platform.toPrimitives = false)
    (reward : first.isRewardTx = true)
    (executed : execute platform contracts order shard (first :: rest) height = .ok result)
    (successful : result.successfulTxs.length = (first :: rest).length) :
    ∃ firstResult systemTxs calls, executeSystem platform shard 0 first height = .ok firstResult ∧
      rest.Perm (systemTxs ++ calls) ∧
      (∀ tx ∈ systemTxs, PlainSystemTx platform tx) ∧
      (∀ tx ∈ calls, tx.isSmartContractTx platform.toPrimitives = true) ∧
      valueOf (pointsOf result.outStates) ≤
        valueOf firstResult.ops + creditOfTxs systemTxs + spentBy calls := by
  simp only [execute, List.isEmpty_cons, Bool.false_eq_true, if_false, bind_eq_ok,
    pure_eq_ok, List.foldlM_cons] at executed
  obtain ⟨finish, ⟨next, stepped, ran⟩, leaves, _, rfl⟩ := executed
  obtain ⟨systemTxs, newCalls, dropped, gathers⟩ := gathers_of_foldlM ran
  have visited : (callTxs (order.visit finish.calls)).Perm (newCalls ++ callTxs next.calls) :=
    ((order.visit_perm finish.calls).flatMap_right Prod.snd).trans gathers.calls
  have reported := successfulTxs_sublist conserves.successful (order.visit finish.calls)
  have reportedLe := reported.length_le
  have visitedLength := visited.length_eq
  have restLength := gathers.split.length_eq
  simp only [gathers.successful, List.length_append, List.length_cons] at *
  rcases gatherTx_cases stepped with rfl | ⟨contract, _, _⟩ | ⟨_, firstResult, paid, rfl⟩
  · -- A first transaction that is dropped is missing among the successful ones.
    simp only [callTxs_nil, List.length_nil] at visitedLength successful
    omega
  · rw [system] at contract
    cases contract
  · simp only [callTxs_nil, List.length_nil, List.nil_append, List.length_cons,
      List.append_nil] at visitedLength successful visited
    have noneDropped : dropped = [] := List.length_eq_zero_iff.mp (by omega)
    have allReported := reported.eq_of_length (by omega)
    obtain ⟨plain, conserved⟩ := gathers.conserved (by simp [reward])
    refine ⟨firstResult, systemTxs, newCalls, paid, ?_, plain, gathers.contracts, ?_⟩
    · simpa [noneDropped] using gathers.split
    · have callsConserved := valueOf_newOuts_le conserves (order.visit finish.calls)
      rw [allReported] at callsConserved
      have spentEq : spentBy (callTxs (order.visit finish.calls)) = spentBy newCalls :=
        valueOf_perm (visited.flatMap_right MsgTx.inputs)
      have sorted : valueOf (pointsOf (sortOuts (finish.outStates ++
          (contractResults contracts (order.visit finish.calls)).flatMap
            ContractResult.newOuts))) = _ :=
        valueOf_perm ((List.perm_insertionSort _ _).map OutState.outPoint)
      simp only [pointsOf_append, pointsOf_unspent, valueOf_append, List.nil_append,
        ← pointsOf.eq_def] at sorted conserved
      rw [sorted]
      omega

end MultiVac.Contract
