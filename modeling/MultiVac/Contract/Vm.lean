import MultiVac.Contract.System

/-!
# The outs of a contract call

`generateOuts` turns the output of the virtual machine into outs: the user data
the contract returns, payments to third parties, and the change of the caller.
The data of a user data out is free, while a transfer reads value from the data
of any out, whichever contract made it.
-/

namespace MultiVac.Contract

open Lib Wire

/-- `outputUserData`. -/
structure OutputUserData where
  shard : ShardIndex
  userAddress : Address
  data : GoBytes

/-- `outputMtvData`. -/
structure OutputMtvData where
  shard : ShardIndex
  userAddress : Address
  value : UInt64

/-- The part of `mvvmOutput` that becomes outs. -/
structure MvvmOutput where
  userData : List OutputUserData
  mtvData : List OutputMtvData

/-- An out of a contract call; its type stays the zero value. -/
def callOut (shard : ShardIndex) (txHash : Hash) (index : Nat) (owner : Address) (data : GoBytes)
    (contract : Address) : OutPoint where
  shard := shard
  txHash := txHash
  index := index
  userAddress := owner
  type := 0
  data := data
  contractAddress := contract

/-- The first loop of `generateOuts`. -/
def userDataOuts (tx : MsgTx) (txHash : Hash) : Nat → List OutputUserData → List OutState
  | _, [] => []
  | index, data :: rest =>
    (callOut data.shard txHash index data.userAddress data.data
      tx.contractAddress).toUnspentOutState :: userDataOuts tx txHash (index + 1) rest

/-- The second loop of `generateOuts`, with the value that is left after it. -/
def paymentOuts (tx : MsgTx) (txHash : Hash) :
    Nat → Int64 → List OutputMtvData → Go (List OutState × Int64)
  | _, value, [] => .ok ([], value)
  | index, value, cost :: rest => do
    let paid := cost.value.toInt64
    Go.require (0 ≤ paid ∧ paid ≤ value) "invalid change value after executing smart contract"
    let data ← mtvValueToData cost.value.toNat
    let out := callOut cost.shard txHash index cost.userAddress (.of data) tx.contractAddress
    let (outs, left) ← paymentOuts tx txHash (index + 1) (value - paid) rest
    return (out.toUnspentOutState :: outs, left)

variable (platform : Platform)

/-- `generateOuts` on the value of the inputs as a 64-bit integer: the outs, and
the index of the next one. -/
def generateOuts (tx : MsgTx) (value : Int64) (output : MvvmOutput) (gasfee : Int64) :
    Go (List OutState × Nat) := do
  let sender ← firstOwner tx
  let txHash ← tx.txHash
  let userOuts := userDataOuts tx txHash 0 output.userData
  let (payments, left) ← paymentOuts tx txHash userOuts.length value output.mtvData
  let index := userOuts.length + payments.length
  if tx.isReduceTx then
    return (userOuts ++ payments, index)
  else
    Go.require (gasfee ≤ left) "not enough gas fee after mtv cost"
    let change := callOut tx.shard txHash index sender
      (.of (← mtvValueToData (left - gasfee).toInt)) (sysAPIAddress platform.toPrimitives)
    return (userOuts ++ payments ++ [change.toUnspentOutState], index + 1)

/-- The outs of a contract call, from the value of the inputs of the transaction
and what the virtual machine returned. -/
def callOuts (tx : MsgTx) (output : MvvmOutput) (gasfee : Int64) : Go (List OutState × Nat) := do
  let total ← tx.totalMtvValue platform.toPrimitives
  generateOuts platform tx (Int64.ofInt total) output gasfee

/-- The value that a transfer credits for an out; an out whose data it cannot
read is worth nothing. -/
def spendableValue (out : OutPoint) : Int :=
  match creditedValue out with
  | .ok value => value
  | .error _ => 0

/-- The sum of what transfers credit for some outs. -/
def spendableSum (outs : List OutState) : Int :=
  (outs.map fun out => spendableValue out.outPoint).sum

/-- The coins that the data of a user data out can be read as. -/
def coinsIn (data : OutputUserData) : Int :=
  match decodeBytes Codec.mtvCoinData data.data.elems with
  | some coins => coins.value
  | none => 0

/-- The sum of some payments to third parties. -/
def costSum (costs : List OutputMtvData) : Int :=
  (costs.map fun cost => (cost.value.toNat : Int)).sum

/-- The sum of the payments of a call. -/
def paymentSum (output : MvvmOutput) : Int := costSum output.mtvData

theorem spendableValue_callOut (shard : ShardIndex) (txHash : Hash) (index : Nat) (owner : Address)
    (data : GoBytes) (contract : Address) :
    spendableValue (callOut shard txHash index owner data contract) =
      match decodeBytes Codec.mtvCoinData data.elems with
      | some coins => coins.value
      | none => 0 := by
  have notWithdrawn : (callOut shard txHash index owner data contract).isWithdrawOut = false := rfl
  have notDeposited : (callOut shard txHash index owner data contract).isDepositOut = false := rfl
  have isData : (callOut shard txHash index owner data contract).data = data := rfl
  simp only [spendableValue, creditedValue, notWithdrawn, notDeposited, Bool.false_eq_true, if_false,
    OutPoint.getMtvValueFromOut, isData]
  cases decodeBytes Codec.mtvCoinData data.elems <;> rfl

/-- An out that was paid is worth what was paid. -/
theorem spendableValue_paid {value : Int} {bytes : Bytes}
    (written : mtvValueToData value = .ok bytes) (shard : ShardIndex) (txHash : Hash) (index : Nat)
    (owner : Address) (contract : Address) :
    spendableValue (callOut shard txHash index owner (.of bytes) contract) = value := by
  rw [spendableValue_callOut, Slice.elems_of, (decodeBytes_mtvValueToData written).2]

theorem spendableSum_userDataOuts (tx : MsgTx) (txHash : Hash) (index : Nat)
    (userData : List OutputUserData) :
    spendableSum (userDataOuts tx txHash index userData) = (userData.map coinsIn).sum := by
  induction userData generalizing index with
  | nil => rfl
  | cons data rest ih =>
    have others := ih (index + 1)
    simp only [spendableSum] at others
    simp only [spendableSum, userDataOuts, List.map_cons, List.sum_cons, others]
    congr 1
    exact spendableValue_callOut _ _ _ _ _ _

/-- Outs with consecutive indices. -/
def Numbered : Nat → List OutState → Prop
  | _, [] => True
  | index, out :: rest => out.outPoint.index = index ∧ Numbered (index + 1) rest

theorem numbered_append {index : Nat} {outs others : List OutState} :
    Numbered index (outs ++ others) ↔
      Numbered index outs ∧ Numbered (index + outs.length) others := by
  induction outs generalizing index with
  | nil => simp [Numbered]
  | cons out rest ih =>
    rw [List.cons_append, Numbered, Numbered, ih, List.length_cons, and_assoc, Nat.add_right_comm,
      Nat.add_assoc]

theorem numbered_userDataOuts (tx : MsgTx) (txHash : Hash) (index : Nat)
    (userData : List OutputUserData) : Numbered index (userDataOuts tx txHash index userData) := by
  induction userData generalizing index with
  | nil => trivial
  | cons data rest ih => exact ⟨rfl, ih (index + 1)⟩

variable {value : Int64}

/-- A payment is made when the value that is left covers it. -/
private theorem accepted_iff {cost : UInt64} :
    0 ≤ cost.toInt64 ∧ cost.toInt64 ≤ value ↔ (cost.toNat : Int) ≤ value.toInt := by
  have wrapped : cost.toInt64.toInt = (cost.toNat : Int).bmod (2 ^ 64) :=
    BitVec.toInt_eq_toNat_bmod cost.toBitVec
  have bound := cost.toNat_lt
  have small := Int64.toInt_lt value
  rw [Int64.le_iff_toInt_le, Int64.le_iff_toInt_le, Int64.toInt_zero, wrapped, Int.bmod_def]
  split <;> omega

/-- It is subtracted without a wrap. -/
private theorem toInt_sub_paid {cost : UInt64} (covered : (cost.toNat : Int) ≤ value.toInt) :
    (value - cost.toInt64).toInt = value.toInt - cost.toNat := by
  have small := Int64.toInt_lt value
  have magnitude : cost.toInt64.toInt = cost.toNat := BitVec.toInt_eq_toNat_of_lt (by
      change 2 * cost.toNat < 2 ^ 64
      omega)
  rw [Int64.toInt_sub, magnitude, Int.bmod_eq_of_le] <;> omega

variable {tx : MsgTx} {txHash : Hash} {index : Nat} {outs : List OutState}
  {costs : List OutputMtvData}

/-- The third parties are paid out of the value, and what is left is the rest. -/
theorem settled_paymentOuts {left : Int64}
    (paid : paymentOuts tx txHash index value costs = .ok (outs, left)) :
    Numbered index outs ∧ spendableSum outs = costSum costs ∧
      left.toInt = value.toInt - costSum costs := by
  induction costs generalizing index value left outs with
  | nil =>
    simp only [paymentOuts, Except.ok.injEq, Prod.mk.injEq] at paid
    obtain ⟨rfl, rfl⟩ := paid
    simp [spendableSum, costSum, Numbered]
  | cons cost rest ih =>
    simp only [paymentOuts, bind_eq_ok, Go.require_eq_ok, pure_eq_ok, decide_eq_true_eq] at paid
    obtain ⟨_, accepted, data, written, ⟨others, remaining⟩, paidOthers, same⟩ := paid
    obtain ⟨rfl, rfl⟩ := Prod.mk.inj same
    obtain ⟨numbered, otherSum, remainingEq⟩ := ih paidOthers
    rw [toInt_sub_paid (accepted_iff.mp accepted)] at remainingEq
    simp only [spendableSum, costSum] at otherSum remainingEq
    simp only [spendableSum, costSum, List.map_cons, List.sum_cons, otherSum]
    refine ⟨⟨rfl, numbered⟩, ?_, by omega⟩
    congr 1
    exact spendableValue_paid written _ _ _ _ _

/-- A payment of zero is reached: the payments before it are covered. -/
def PaysZero (value : Int64) (costs : List OutputMtvData) : Prop :=
  ∃ earlier cost later, costs = earlier ++ cost :: later ∧ cost.value = 0 ∧
    costSum earlier ≤ value.toInt

theorem costSum_nonneg (costs : List OutputMtvData) : 0 ≤ costSum costs :=
  List.sum_nonneg (by simp)

theorem paysZero_cons {cost : OutputMtvData} (covered : (cost.value.toNat : Int) ≤ value.toInt) :
    PaysZero value (cost :: costs) ↔
      cost.value = 0 ∨ PaysZero (value - cost.value.toInt64) costs := by
  constructor
  · rintro ⟨_ | ⟨_, earlier⟩, zero, later, split, isZero, reached⟩
    · obtain ⟨rfl, rfl⟩ := List.cons.inj split
      exact .inl isZero
    · obtain ⟨rfl, rfl⟩ := List.cons.inj split
      refine .inr ⟨earlier, zero, later, rfl, isZero, ?_⟩
      rw [toInt_sub_paid covered]
      simp only [costSum, List.map_cons, List.sum_cons] at reached ⊢
      omega
  · rintro (isZero | ⟨earlier, zero, later, rfl, isZero, reached⟩)
    · refine ⟨[], cost, costs, rfl, isZero, ?_⟩
      simp only [costSum, List.map_nil, List.sum_nil]
      omega
    · refine ⟨cost :: earlier, zero, later, rfl, isZero, ?_⟩
      rw [toInt_sub_paid covered] at reached
      simp only [costSum, List.map_cons, List.sum_cons] at reached ⊢
      omega

theorem not_paysZero_cons {cost : OutputMtvData} (notCovered : value.toInt < cost.value.toNat) :
    ¬ PaysZero value (cost :: costs) := by
  rintro ⟨_ | ⟨_, earlier⟩, zero, later, split, isZero, reached⟩
  · obtain ⟨rfl, rfl⟩ := List.cons.inj split
    rw [isZero] at notCovered
    exact absurd reached (not_le.mpr notCovered)
  · obtain ⟨rfl, rfl⟩ := List.cons.inj split
    have := costSum_nonneg earlier
    simp only [costSum, List.map_cons, List.sum_cons] at reached this
    omega

/-- The payments panic at a zero that is reached; without one they are made if they are
covered and refused if they are not. -/
theorem paymentOuts_cases :
    PaysZero value costs ∧ paymentOuts tx txHash index value costs = Go.panic ∨
      ¬ PaysZero value costs ∧ (costs = [] ∨ costSum costs ≤ value.toInt) ∧
        (∃ made, paymentOuts tx txHash index value costs = .ok made) ∨
      ¬ PaysZero value costs ∧ ¬ (costs = [] ∨ costSum costs ≤ value.toInt) ∧
        ∃ text, paymentOuts tx txHash index value costs = Go.fail text := by
  induction costs generalizing index value with
  | nil => exact .inr (.inl ⟨fun ⟨_, _, _, split, _⟩ => by simp at split, .inl rfl, _, rfl⟩)
  | cons cost rest ih =>
    have small := cost.value.toNat_lt
    have restNonneg := costSum_nonneg rest
    have sum : costSum (cost :: rest) = cost.value.toNat + costSum rest := rfl
    rw [paymentOuts, decide_eq_decide.mpr accepted_iff, sum]
    by_cases covered : (cost.value.toNat : Int) ≤ value.toInt
    · rw [decide_eq_true covered, paysZero_cons covered]
      by_cases isZero : cost.value = 0
      · refine .inl ⟨.inl isZero, ?_⟩
        rw [(mtvValueToData_eq_panic (by omega)).mpr (by simp [isZero])]
        rfl
      have positive : 0 < cost.value.toNat := Nat.pos_of_ne_zero fun zero =>
        isZero (UInt64.toNat_inj.mp zero)
      obtain ⟨data, written⟩ := @exists_mtvValueToData cost.value.toNat (by omega) (by omega)
      have left := toInt_sub_paid covered
      rw [written]
      rcases @ih (value - cost.value.toInt64) (index + 1) with
        ⟨paysZero, panics⟩ | ⟨noZero, restCovered, made, paid⟩ | ⟨noZero, notCovered, text, refused⟩
      · refine .inl ⟨.inr paysZero, ?_⟩
        change (paymentOuts _ _ _ _ _ >>= _) = _
        rw [panics]
        rfl
      · refine .inr (.inl ⟨not_or.mpr ⟨isZero, noZero⟩, .inr ?_, _, bind_eq_ok.mpr ⟨(), rfl,
          bind_eq_ok.mpr ⟨data, rfl, bind_eq_ok.mpr ⟨made, paid, rfl⟩⟩⟩⟩)
        rcases restCovered with rfl | restCovered
        · simpa [costSum] using covered
        · omega
      · refine .inr (.inr ⟨not_or.mpr ⟨isZero, noZero⟩, ?_, text, ?_⟩)
        · rw [not_or] at notCovered ⊢
          exact ⟨List.cons_ne_nil _ _, by omega⟩
        · change (paymentOuts _ _ _ _ _ >>= _) = _
          rw [refused]
          rfl
    · rw [decide_eq_false covered]
      refine .inr (.inr ⟨not_paysZero_cons (not_le.mp covered), ?_, _, rfl⟩)
      rw [not_or]
      exact ⟨List.cons_ne_nil _ _, by omega⟩

variable {platform : Platform} {output : MvvmOutput} {gasfee : Int64}

/-- The outs are the user data, and outs worth either the payments of a reduce transaction
or the value of the inputs without the gas fee. -/
theorem generateOuts_settled
    (generated : generateOuts platform tx value output gasfee = .ok (outs, index)) :
    Numbered 0 outs ∧ ∃ txHash settled, outs = userDataOuts tx txHash 0 output.userData ++ settled ∧
        spendableSum settled =
          if tx.isReduceTx then paymentSum output else value.toInt - gasfee.toInt := by
  simp only [generateOuts, bind_eq_ok] at generated
  obtain ⟨sender, _, txHash, _, ⟨payments, left⟩, paid, generated⟩ := generated
  obtain ⟨paidNumbered, paidSum, leftEq⟩ := settled_paymentOuts paid
  have userNumbered := numbered_userDataOuts tx txHash 0 output.userData
  rw [← Nat.zero_add (userDataOuts _ _ _ _).length] at paidNumbered
  split at generated
  · next reduce =>
    obtain ⟨rfl, _⟩ := Prod.mk.inj (pure_eq_ok.mp generated)
    refine ⟨numbered_append.mpr ⟨userNumbered, paidNumbered⟩, txHash, payments, rfl, ?_⟩
    rw [if_pos reduce, paidSum, paymentSum]
  · next ordinary =>
    simp only [bind_eq_ok, Go.require_eq_ok, decide_eq_true_eq, pure_eq_ok,
      Prod.mk.injEq] at generated
    obtain ⟨_, enough, data, written, rfl, _⟩ := generated
    -- A wrapped difference would be negative, and no out is made for it.
    have changeValue : (left - gasfee).toInt = left.toInt - gasfee.toInt := by
      have positive := (decodeBytes_mtvValueToData written).1
      rw [Int64.le_iff_toInt_le] at enough
      have leftSmall := Int64.toInt_lt left
      have gasSmall := Int64.le_toInt gasfee
      rw [Int64.toInt_sub, Int.bmod_def] at positive ⊢
      split at positive <;> split <;> omega
    refine ⟨?_, txHash, _, List.append_assoc _ _ _, ?_⟩
    · simp only [numbered_append, Nat.zero_add, List.length_append] at paidNumbered ⊢
      exact ⟨⟨userNumbered, paidNumbered⟩, rfl, trivial⟩
    · have changeSum := spendableValue_paid written tx.shard txHash
        ((userDataOuts tx txHash 0 output.userData).length + payments.length) sender
        (sysAPIAddress platform.toPrimitives)
      simp only [spendableSum, OutPoint.toUnspentOutState, List.map_append, List.sum_append,
        List.map_cons, List.map_nil, List.sum_cons, List.sum_nil] at paidSum ⊢
      rw [paidSum, changeSum, changeValue, leftEq, if_neg ordinary]
      ring

/-- The outs are worth the coins in the user data, and either the payments of a
reduce transaction or the value of the inputs without the gas fee. -/
theorem spendableSum_generateOuts
    (generated : generateOuts platform tx value output gasfee = .ok (outs, index)) :
    spendableSum outs = (output.userData.map coinsIn).sum +
      if tx.isReduceTx then paymentSum output else value.toInt - gasfee.toInt := by
  obtain ⟨_, txHash, settled, rfl, sum⟩ := generateOuts_settled generated
  have userSum := spendableSum_userDataOuts tx txHash 0 output.userData
  simp only [spendableSum] at userSum sum ⊢
  rw [List.map_append, List.sum_append, userSum, sum]

/-- The payments are covered and the gas fee is accepted, but the change is not positive:
nothing is left, or what is left wraps. -/
def LeavesNoChange (value : Int64) (output : MvvmOutput) (gasfee : Int64) : Prop :=
  (output.mtvData = [] ∨ paymentSum output ≤ value.toInt) ∧
    (paymentSum output + gasfee.toInt = value.toInt ∨
      2 ^ 63 ≤ value.toInt - paymentSum output - gasfee.toInt)

/-- With a sender and a hash, a call panics exactly at a payment of zero that is reached, or
when it leaves no change. -/
theorem generateOuts_eq_panic_iff {sender : Address} (hasInputs : firstOwner tx = .ok sender)
    (hashed : tx.txHash = .ok txHash) (ordinary : tx.isReduceTx = false) :
    generateOuts platform tx value output gasfee = Go.panic ↔
      PaysZero value output.mtvData ∨ LeavesNoChange value output gasfee := by
  have unfolded : generateOuts platform tx value output gasfee = Go.panic ↔
      paymentOuts tx txHash (userDataOuts tx txHash 0 output.userData).length value
          output.mtvData = Go.panic ∨
        ∃ made, paymentOuts tx txHash (userDataOuts tx txHash 0 output.userData).length value
            output.mtvData = .ok made ∧
          gasfee ≤ made.2 ∧ mtvValueToData (made.2 - gasfee).toInt = Go.panic := by
    simp only [generateOuts, Go.bind_eq_panic, hasInputs, hashed, Go.ok_ne_panic, false_or,
      Except.ok.injEq, exists_eq_left', ordinary, Bool.false_eq_true, if_false,
      Go.require_ne_panic, Go.require_eq_ok, decide_eq_true_eq, pure, Except.pure, and_false,
      exists_false, or_false, exists_const]
  rw [unfolded]
  rcases @paymentOuts_cases value tx txHash (userDataOuts tx txHash 0 output.userData).length
    output.mtvData with ⟨paysZero, panics⟩ | ⟨noZero, covered, ⟨payments, left⟩, paid⟩ |
      ⟨noZero, notCovered, text, refused⟩
  · exact iff_of_true (.inl panics) (.inl paysZero)
  · obtain ⟨_, _, leftEq⟩ := settled_paymentOuts paid
    have leftSmall := Int64.toInt_lt left
    have gasLarge := Int64.le_toInt gasfee
    have changeSmall := Int64.toInt_lt (left - gasfee)
    simp only [paid, Go.ok_ne_panic, false_or, Except.ok.injEq, exists_eq_left', noZero,
      mtvValueToData_eq_panic (changeSmall.trans (by decide)), LeavesNoChange, paymentSum, covered,
      true_and]
    rw [Int64.le_iff_toInt_le, Int64.toInt_sub, Int.bmod_def]
    split <;> omega
  · simp only [refused, Go.fail_ne_panic, Go.fail_ne_ok, false_and, exists_false, or_self, noZero,
      LeavesNoChange, paymentSum, notCovered]

/-- The payments, the change and the gas fee of a call are the value of its inputs exactly
when this value has 64 bits. A call panics exactly when it has no input, when it cannot be
hashed, at a payment of zero that is reached, or when it leaves no change. -/
theorem callOuts_settles (platform : Platform) (tx : MsgTx) (output : MvvmOutput) (gasfee : Int64)
    (ordinary : tx.isReduceTx = false) :
    (∀ outs index, callOuts platform tx output gasfee = .ok (outs, index) →
      Numbered 0 outs ∧ ∃ total, tx.totalMtvValue platform.toPrimitives = .ok total ∧
        ∃ txHash settled, outs = userDataOuts tx txHash 0 output.userData ++ settled ∧
          (spendableSum settled + gasfee.toInt = total ↔ -2 ^ 63 ≤ total ∧ total < 2 ^ 63)) ∧
    ∀ value, generateOuts platform tx value output gasfee = Go.panic ↔
      tx.inputs = [] ∨ tx.txHash = Go.panic ∨ (∃ txHash, tx.txHash = .ok txHash) ∧
        (PaysZero value output.mtvData ∨ LeavesNoChange value output gasfee) := by
  constructor
  · intro outs index generated
    obtain ⟨total, inputs, generated⟩ := bind_eq_ok.mp generated
    obtain ⟨numbered, txHash, settled, rfl, sum⟩ := generateOuts_settled generated
    refine ⟨numbered, total, inputs, txHash, settled, rfl, ?_⟩
    have narrowed : (Int64.ofInt total).toInt = total ↔ -2 ^ 63 ≤ total ∧ total < 2 ^ 63 := by
      rw [Int64.toInt_ofInt, Int.bmod_def, show Int64.size = 2 ^ 64 from rfl]
      split <;> omega
    rw [sum, ordinary, ← narrowed]
    simp
  · intro value
    cases isInputs : tx.inputs with
    | nil =>
      refine iff_of_true ?_ (.inl rfl)
      rw [generateOuts, firstOwner, isInputs]
      rfl
    | cons input inputs =>
      have hasInputs : firstOwner tx = .ok input.userAddress := by rw [firstOwner, isInputs]
      simp only [List.cons_ne_nil, false_or]
      cases hashed : tx.txHash with
      | ok txHash =>
        rw [generateOuts_eq_panic_iff hasInputs hashed ordinary]
        simp [Go.ok_ne_panic]
      | error fault =>
        rw [generateOuts, hasInputs, hashed]
        cases fault <;> simp [Go.panic, bind, Except.bind]

/-- What the user data of a call may be worth without the call minting coins: the
gas fee and the part of the inputs that a 64-bit integer does not hold, or, in a
reduce transaction, what the payments leave of the inputs. -/
def userDataAllowance (tx : MsgTx) (output : MvvmOutput) (gasfee : Int64) (total : Int) : Int :=
  if tx.isReduceTx then total - paymentSum output
  else gasfee.toInt + (total - (Int64.ofInt total).toInt)

/-- A contract call makes outs worth no more than its inputs exactly when the
coins that can be read from its user data stay within their allowance. -/
theorem spendableSum_callOuts_le_iff (platform : Platform) (tx : MsgTx) (output : MvvmOutput)
    (gasfee : Int64) (outs : List OutState) (index : Nat)
    (generated : callOuts platform tx output gasfee = .ok (outs, index)) :
    ∃ total, tx.totalMtvValue platform.toPrimitives = .ok total ∧ (spendableSum outs ≤ total ↔
        (output.userData.map coinsIn).sum ≤ userDataAllowance tx output gasfee total) := by
  obtain ⟨total, inputs, generated⟩ := bind_eq_ok.mp generated
  refine ⟨total, inputs, ?_⟩
  rw [spendableSum_generateOuts generated, userDataAllowance]
  split
  · constructor <;> intro bound <;> linarith
  · constructor <;> intro bound <;> linarith

/-- A call of the contract with address `[1]` that spends an out of 100 coins. -/
def mintingTx : MsgTx :=
  let spent : OutPoint := { (default : OutPoint) with
    data := .of [0xC1, 100]
    contractAddress := sysAPIAddress Platform.plain.toPrimitives }
  { (default : MsgTx) with
    txIn := .of [{ previousOutPoint := spent }]
    contractAddress := .of [1]
    api := ascii ['r', 'u', 'n'] }

/-- User data that can be read as 1000 coins. -/
def mintingOutput : MvvmOutput where
  userData := [{ shard := 0, userAddress := .of [], data := .of [0xC3, 0x82, 0x03, 0xE8] }]
  mtvData := []

/-- The outs of a call of `mintingTx` that uses one coin of gas. -/
def mintingOuts (output : MvvmOutput) : List OutState :=
  match callOuts Platform.plain mintingTx output 1 with
  | .ok (outs, _) => outs
  | .error _ => []

/-- User data that can be read as the one coin of gas does not mint. -/
theorem spendableSum_callOuts_le_iff_oneCoin :
    let output : MvvmOutput := ⟨[⟨0, .of [], .of [0xC1, 1]⟩], []⟩
    (output.userData.map coinsIn).sum = 1 ∧
      mintingTx.totalMtvValue Platform.plain.toPrimitives = .ok 100 ∧
      spendableSum (mintingOuts output) ≤ 100 := by
  intro output
  have inputs : mintingTx.totalMtvValue Platform.plain.toPrimitives = .ok 100 := by decide +kernel
  obtain ⟨total, isTotal, bound⟩ := spendableSum_callOuts_le_iff Platform.plain mintingTx output 1
    (mintingOuts output) 2 (by decide +kernel)
  obtain rfl : total = 100 := Except.ok.inj (isTotal.symm.trans inputs)
  exact ⟨by decide +kernel, inputs, bound.mpr (by decide +kernel)⟩

/-- A call that spends 100 coins and returns user data that looks like 1000
coins leaves outs that transfers credit with 1099 coins. -/
theorem callOuts_mints :
    mintingTx.isSmartContractTx Platform.plain.toPrimitives = true ∧
      mintingTx.totalMtvValue Platform.plain.toPrimitives = .ok 100 ∧
      callOuts Platform.plain mintingTx mintingOutput 1 = .ok (mintingOuts mintingOutput, 2) ∧
      spendableSum (mintingOuts mintingOutput) = 1099 := by
  decide +kernel

/-- A call of `mintingTx` that pays nine coins and uses one coin of gas. -/
theorem callOuts_settles_mintingTx :
    let outs := mintingOuts ⟨[], [⟨0, .of [], 9⟩]⟩
    Numbered 0 outs ∧ ∃ total, mintingTx.totalMtvValue Platform.plain.toPrimitives = .ok total ∧
      ∃ txHash settled, outs = userDataOuts mintingTx txHash 0 [] ++ settled ∧
        (spendableSum settled + 1 = total ↔ -2 ^ 63 ≤ total ∧ total < 2 ^ 63) :=
  (callOuts_settles Platform.plain mintingTx ⟨[], [⟨0, .of [], 9⟩]⟩ 1 (by decide)).1 _ 2
    (by decide +kernel)

/-- A call that uses all of its coins panics, and a call with `2 ^ 64 + 100` coins loses
all but 100 of them. -/
theorem callOuts_unsettled :
    callOuts Platform.plain mintingTx ⟨[], []⟩ 100 = Go.panic ∧
      let spent : OutPoint := { (default : OutPoint) with
        data := .of [0xCA, 0x89, 1, 0, 0, 0, 0, 0, 0, 0, 100]
        contractAddress := sysAPIAddress Platform.plain.toPrimitives }
      let tx := { mintingTx with txIn := .of [{ previousOutPoint := spent }] }
      tx.totalMtvValue Platform.plain.toPrimitives = .ok (2 ^ 64 + 100) ∧
        (callOuts Platform.plain tx ⟨[], []⟩ 1).map (fun result => spendableSum result.1) =
          .ok 99 := by
  decide +kernel

end MultiVac.Contract
