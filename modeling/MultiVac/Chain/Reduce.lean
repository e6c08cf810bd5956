import MultiVac.Chain.Body
import MultiVac.Contract.Calls
import MultiVac.Contract.Conservation
import MultiVac.Ledger.Clock

/-!
# Reduce transactions

A contract call in one shard leaves reduce actions for other shards in the header of
its block. Every miner of an addressed shard executes them when its ledger mounts
that header. Over a whole run each mounted header has its reduce actions executed
once, by the block that mounts it, as long as the executor of a contract reports as
successful what it has been given and nothing twice.
-/

namespace MultiVac.Chain

open Lib Wire Merkle Ledger Contract

/-- The reduce actions of a header that are addressed to a shard. -/
def reduceActionsFor (shardIndex : ShardIndex) (header : BlockHeader) : List ReduceAction :=
  header.reduceActions.filter fun action => action.toBeReducedOut.shard = shardIndex

/-- A transaction is the signed reduce transaction of an action. -/
def Reduces (env : Environment) (shardIndex : ShardIndex) (action : ReduceAction)
    (tx : MsgTxWithProofs) : Prop :=
  (reduceTx shardIndex action).signReduce env.platform.toPrimitives = .ok tx.tx ∧ tx.proofs = .nil

/-- The reduce transactions in an accepted block. -/
def Event.reduceTxs (event : Event) : List MsgTxWithProofs :=
  match event.call, event.returnedNil with
  | .acceptBlock _ block, true => block.body.transactions.filter fun tx => tx.tx.isReduceTx
  | _, _ => []

/-- The reduce transactions that are executed when a block is verified, and succeed. -/
def Event.executed (env : Environment) (before : Miner) (event : Event) : List MsgTx :=
  match event.call, event.returnedNil with
  | .acceptBlock surroundings block, true =>
    match execute env.platform env.contracts surroundings.visits.body before.shardIndex
        (bodyTxs block.body) before.proposeBlockHgt with
    | .ok result => result.successfulTxs.filter MsgTx.isReduceTx
    | .error _ => []
  | _, _ => []

/-- The calls of a contract in an accepted block, in the order of the block. -/
def Event.callsOf (env : Environment) (event : Event) (pkHash : Bytes) : List MsgTx :=
  match event.call, event.returnedNil with
  | .acceptBlock _ block, true => (bodyTxs block.body).filter (calledBy env.platform · = some pkHash)
  | _, _ => []

/-- The headers that the ledger mounts in a call. -/
def Event.mounted (before : Miner) (event : Event) : List BlockHeader :=
  (keysBetween before.state.shardHeights event.after.state.shardHeights).filterMap fun key =>
    event.after.state.chain.getShardsHeaderByHeight key.1 key.2

/-- The calls of a run, each with the miner before it. -/
def history : Miner → List Event → List (Miner × Event)
  | _, [] => []
  | miner, event :: trace => (miner, event) :: history event.after trace

/-- The miner after a run. -/
def minerAfter (miner : Miner) (trace : List Event) : Miner :=
  trace.foldl (fun _ event => event.after) miner

/-! ### What a block executes -/

section Execution

variable {platform : Platform}

theorem lookup_addCall (pkHash key : Bytes) (tx : MsgTx) (calls : List (Bytes × List MsgTx)) :
    (addCall pkHash tx calls).lookup key =
      if key = pkHash then some ((calls.lookup key).getD [] ++ [tx]) else calls.lookup key := by
  induction calls with
  | nil =>
    by_cases same : key = pkHash
    · simp [addCall, same]
    · simp [addCall, List.lookup_cons, same, beq_false_of_ne same]
  | cons call calls ih =>
    obtain ⟨name, txs⟩ := call
    rw [addCall]
    by_cases isKey : key = name
    · by_cases isName : name = pkHash <;> simp [isKey, isName]
    · have skips : (key == name) = false := beq_false_of_ne isKey
      split
      next isName => simp [List.lookup_cons, skips, isName ▸ isKey]
      next => simp [List.lookup_cons, skips, ih]

/-- The calls of a contract are collected in their order. -/
theorem lookup_callsOf (txs : List MsgTx) (key : Bytes) :
    (callsOf platform txs).lookup key =
      if txs.filter (calledBy platform · = some key) = [] then none
      else some (txs.filter (calledBy platform · = some key)) := by
  induction txs using List.reverseRecOn with
  | nil => rfl
  | append_singleton txs tx ih =>
    rw [callsOf, List.foldl_append, List.foldl_cons, List.foldl_nil, ← callsOf, collectCall,
      List.filter_append]
    cases called : calledBy platform tx with
    | none => simpa [called] using ih
    | some pkHash =>
      rw [lookup_addCall, ih]
      by_cases same : key = pkHash
      · have kept : [tx].filter (calledBy platform · = some key) = [tx] := by simp [called, same]
        rw [if_pos same, kept, if_neg (List.append_ne_nil_of_right_ne_nil _ (List.cons_ne_nil _ _))]
        split
        next none => simp [none]
        next => rfl
      · have different : pkHash ≠ key := Ne.symm same
        simp [called, same, different]

theorem nonempty_of_mem_addCall {pkHash : Bytes} {tx : MsgTx} {calls : List (Bytes × List MsgTx)}
    (nonempty : ∀ call ∈ calls, call.2 ≠ []) : ∀ call ∈ addCall pkHash tx calls, call.2 ≠ [] := by
  induction calls with
  | nil => simp [addCall]
  | cons call calls ih =>
    obtain ⟨first, rest⟩ := List.forall_mem_cons.mp nonempty
    rw [addCall]
    split
    · exact List.forall_mem_cons.mpr ⟨by simp, rest⟩
    · exact List.forall_mem_cons.mpr ⟨first, ih rest⟩

theorem nonempty_of_mem_callsOf (txs : List MsgTx) :
    ∀ call ∈ callsOf platform txs, call.2 ≠ [] := by
  induction txs using List.reverseRecOn with
  | nil => simp [callsOf]
  | append_singleton txs tx ih =>
    rw [callsOf, List.foldl_append, List.foldl_cons, List.foldl_nil, ← callsOf, collectCall]
    split
    · exact nonempty_of_mem_addCall ih
    · exact ih

/-- In a block whose transactions all succeed, every contract is executed on its calls in
their order and reports them all. -/
theorem reported_of_verified {env : Environment} {miner : Miner} {visits : Visits}
    {block : MsgBlock} (reports : Reports env.contracts) (verified : Verified env miner visits block) :
    ∃ result, execute env.platform env.contracts visits.body miner.shardIndex (bodyTxs block.body)
        miner.proposeBlockHgt = .ok result ∧ result.successfulTxs.Perm (bodyTxs block.body) ∧
      ∀ pkHash, (bodyTxs block.body).filter (calledBy env.platform · = some pkHash) ≠ [] →
        ∃ called, env.contracts pkHash ((bodyTxs block.body).filter
            (calledBy env.platform · = some pkHash)) = some called ∧
          called.successfulTxs = (bodyTxs block.body).filter
            (calledBy env.platform · = some pkHash) := by
  obtain ⟨result, executed, -, -, successful⟩ := verified.executed
  have successful : result.successfulTxs.length = (bodyTxs block.body).length := by
    rw [successful, bodyTxs, List.length_map]
  generalize bodyTxs block.body = txs at executed successful ⊢
  refine ⟨result, executed, ?_⟩
  by_cases empty : txs = []
  · subst empty
    exact ⟨List.length_eq_zero_iff.mp successful ▸ .nil, by simp⟩
  · obtain ⟨finish, ran, perm, all⟩ := execute_reports reports empty executed successful
    have collected : finish.calls = callsOf env.platform txs := calls_of_foldlM ran
    rw [collected] at all
    refine ⟨perm, fun pkHash hasCalls => ?_⟩
    have found := @lookup_callsOf env.platform txs pkHash
    rw [if_neg hasCalls] at found
    have inCalls : (pkHash, txs.filter (calledBy env.platform · = some pkHash)) ∈
        callsOf env.platform txs := by
      obtain ⟨before, after, split, -⟩ := List.lookup_eq_some_iff.mp found
      simp [split]
    exact reported_of_eq reports (fun call visited => nonempty_of_mem_callsOf txs call
      ((visits.body.mem_visit _ _).mp visited)) all _ ((visits.body.mem_visit _ _).mpr inCalls)

end Execution

variable {env : Environment}

/-! ### One call -/

variable {miner : Miner} {txs : List MsgTxWithProofs}

theorem forall₂_generateReduceTxsByHeader {header : BlockHeader}
    (generated : generateReduceTxsByHeader env miner header = .ok txs) :
    List.Forall₂ (Reduces env miner.shardIndex) (reduceActionsFor miner.shardIndex header) txs := by
  refine (mapM_eq_ok_iff.mp generated).imp fun action tx stepped => ?_
  simp only [bind_eq_ok, pure_eq_ok] at stepped
  obtain ⟨_, _, signed, signs, rfl⟩ := stepped
  exact ⟨signs, rfl⟩

theorem forall₂_generateReduceTxs {headers : List BlockHeader}
    (generated : generateReduceTxs env miner headers = .ok txs) :
    List.Forall₂ (Reduces env miner.shardIndex)
      (headers.flatMap (reduceActionsFor miner.shardIndex)) txs := by
  obtain ⟨parts, collected, joined⟩ := bind_eq_ok.mp generated
  obtain rfl := pure_eq_ok.mp joined
  have related := mapM_eq_ok_iff.mp collected
  clear collected generated joined
  induction related with
  | nil => exact .nil
  | cons stepped _ ih =>
    exact List.rel_append (forall₂_generateReduceTxsByHeader stepped) ih

theorem keysBetween_congr {old new other : ShardIndex → Int}
    (same : ∀ index ∈ shardList, new index = other index) :
    keysBetween old new = keysBetween old other :=
  List.flatMap_congr fun index inList => by rw [same index inList]

theorem keysBetween_self (heights : ShardIndex → Int) : keysBetween heights heights = [] := by
  simp [keysBetween]

/-- What one call does to the ledger's clock, and which reduce actions it executes. -/
structure Event.Mounts (env : Environment) (before : Miner) (event : Event) : Prop where
  shardIndex : event.after.shardIndex = before.shardIndex
  heights : ∀ index ∈ shardList,
    before.state.shardHeights index ≤ event.after.state.shardHeights index
  keys : (event.mounted before).map headerKey =
    keysBetween before.state.shardHeights event.after.state.shardHeights
  listed : List.Forall₂ (Reduces env before.shardIndex)
    ((event.mounted before).flatMap (reduceActionsFor before.shardIndex)) event.reduceTxs
  executed : (event.executed env before).Perm (event.reduceTxs.map MsgTxWithProofs.tx)
  ordered : ∀ pkHash, event.callsOf env pkHash ≠ [] →
    ∃ called, env.contracts pkHash (event.callsOf env pkHash) = some called ∧
      called.successfulTxs = event.callsOf env pkHash

/-- A call that leaves the clock alone mounts nothing. -/
theorem Event.mounts_of_same {before : Miner} {event : Event}
    (shardIndex : event.after.shardIndex = before.shardIndex)
    (heights : event.after.state.shardHeights = before.state.shardHeights)
    (noBlock : event.reduceTxs = [] ∧ event.executed env before = [] ∧
      ∀ pkHash, event.callsOf env pkHash = []) : event.Mounts env before := by
  obtain ⟨noTxs, noneExecuted, noCalls⟩ := noBlock
  have nothing : event.mounted before = [] := by
    rw [Event.mounted, heights, keysBetween_self]
    rfl
  refine ⟨shardIndex, fun index _ => by rw [heights], ?_, ?_, ?_, fun pkHash hasCalls => ?_⟩
  · rw [nothing, heights, keysBetween_self]
    rfl
  · rw [nothing, noTxs]
    exact .nil
  · rw [noneExecuted, noTxs]
    exact .nil
  · exact absurd (noCalls pkHash) hasCalls

variable {after : Miner}

/-- An accepted block mounts the headers up to its clock vector, and its reduce
transactions are those of these headers. -/
theorem acceptBlock_mounts (reports : Reports env.contracts) {surroundings : Surroundings}
    {block : MsgBlock} (accepted : acceptBlock env surroundings miner block = .ok (after, true)) :
    Event.Mounts env miner ⟨.acceptBlock surroundings block, true, after⟩ := by
  obtain ⟨chain, _, verified, committed⟩ := acceptBlock_cases accepted
  obtain ⟨update, state, updated, applied, rfl, sameShard, _⟩ := commitBlock_cases committed
  obtain ⟨headers, found, heights⟩ := shardHeights_of_applyUpdate updated applied
  obtain ⟨keys, stored, higher⟩ := keys_getBlockHeadersToAppend found
  have isVerified := (verifyBlock_eq_ok_iff _ _ _ _ _).mp verified
  obtain ⟨others, foundToo, generated⟩ := isVerified.reduced
  obtain ⟨result, executed, perm, ordered⟩ := reported_of_verified reports isVerified
  obtain rfl := Except.ok.inj (found.symm.trans foundToo)
  have sameChain : after.state.chain = chain := by
    simp only [ShardStateManager.applyUpdate, bind_eq_ok, pure_eq_ok] at applied
    obtain ⟨_, _, _, _, _, _, isState⟩ := applied
    rw [← isState]
  have newKeys : keysBetween miner.state.shardHeights after.state.shardHeights =
      headers.map headerKey := by
    rw [keysBetween_congr heights]
    exact keys.symm
  have mounted : Event.mounted miner ⟨.acceptBlock surroundings block, true, after⟩ = headers := by
    simp only [Event.mounted, newKeys, sameChain, List.filterMap_map]
    exact (List.filterMap_congr fun header inHeaders => stored header inHeaders).trans
      List.filterMap_some
  refine ⟨sameShard, fun index inList => ?_, ?_, ?_, ?_, ordered⟩
  · show miner.state.shardHeights index ≤ after.state.shardHeights index
    rw [heights index inList]
    exact higher index inList
  · rw [mounted]
    exact newKeys.symm
  · rw [mounted]
    exact forall₂_generateReduceTxs generated
  · have reduced := perm.filter MsgTx.isReduceTx
    rw [bodyTxs, List.filter_map] at reduced
    simp only [Event.executed, Event.reduceTxs]
    rw [show execute env.platform env.contracts surroundings.visits.body miner.shardIndex
      (bodyTxs block.body) miner.proposeBlockHgt = .ok result from executed]
    exact reduced

theorem Call.mounts (reports : Reports env.contracts) {call : Call} {returnedNil : Bool}
    (performed : call.perform env miner = .ok (after, returnedNil)) :
    Event.Mounts env miner ⟨call, returnedNil, after⟩ := by
  cases call with
  | acceptBlock surroundings block =>
    cases returnedNil with
    | true => exact acceptBlock_mounts reports performed
    | false =>
      obtain ⟨sameShard, _, sameState⟩ := acceptBlock_refused performed
      exact Event.mounts_of_same sameShard (by rw [sameState]) ⟨rfl, rfl, fun _ => rfl⟩
  | proposeAndAcceptEmptyBlock height =>
    obtain ⟨sameShard, _, sameState⟩ := proposeAndAcceptEmptyBlock_same performed
    exact Event.mounts_of_same sameShard (by rw [sameState]) ⟨rfl, rfl, fun _ => rfl⟩

/-! ### Runs -/

/-- The keys of the headers mounted in a run. -/
def mountedKeys (miner : Miner) (trace : List Event) : List (ShardIndex × Int) :=
  (history miner trace).flatMap fun entry => (entry.2.mounted entry.1).map headerKey

/-- In every run, each call lists exactly the reduce transactions of the headers it mounts, in
their order, and executes these with success and no others, contract by contract in their
order; no header is mounted twice; and the mounted headers are those up to the clock of the
ledger. The loop of a contract's executor reports its calls as it is assumed. -/
theorem reduceActions_executed_once (reports : Reports env.contracts) {miner : Miner}
    {trace : List Event} (runs : Runs env miner trace) :
    (∀ machine (txs : List MsgTx) out, ((txs.foldl (runCall machine)
      ⟨[], [], out, [], []⟩).successfulTxs).Sublist txs) ∧
    (∀ entry ∈ history miner trace, entry.2.Mounts env entry.1) ∧
    (mountedKeys miner trace).Nodup ∧
    ∀ index ∈ shardList, ∀ height, (index, height) ∈ mountedKeys miner trace ↔
      miner.state.shardHeights index < height ∧
        height ≤ (minerAfter miner trace).state.shardHeights index := by
  suffices invariant : (∀ entry ∈ history miner trace, entry.2.Mounts env entry.1) ∧
      (mountedKeys miner trace).Nodup ∧
      (∀ index ∈ shardList, miner.state.shardHeights index ≤
        (minerAfter miner trace).state.shardHeights index) ∧
      ∀ key, key ∈ mountedKeys miner trace ↔ key.1 ∈ shardList ∧
        miner.state.shardHeights key.1 < key.2 ∧
        key.2 ≤ (minerAfter miner trace).state.shardHeights key.1 by
    obtain ⟨executed, distinct, _, keys⟩ := invariant
    refine ⟨fun machine txs out => ?_, executed, distinct, fun index inList height =>
      (keys (index, height)).trans (and_iff_right inList)⟩
    obtain ⟨state, threads, same⟩ := threads_foldl machine txs ⟨[], [], out, [], []⟩
    rw [same]
    exact threads.sublist
  induction runs with
  | nil miner =>
    refine ⟨by simp [history], by simp [mountedKeys, history], fun _ _ => le_refl _, ?_⟩
    intro key
    simp only [mountedKeys, history, List.flatMap_nil, List.not_mem_nil, minerAfter,
      List.foldl_nil, false_iff]
    omega
  | @cons miner after call returnedNil trace performed _ ih =>
    obtain ⟨executed, distinct, higher, keys⟩ := ih
    have mounts := Call.mounts reports performed
    have heights := mounts.heights
    dsimp only at heights
    have split : mountedKeys miner (⟨call, returnedNil, after⟩ :: trace) =
        keysBetween miner.state.shardHeights after.state.shardHeights ++
          mountedKeys after trace := by
      rw [← mounts.keys]
      rfl
    refine ⟨?_, ?_, fun index inList => (heights index inList).trans (higher index inList), ?_⟩
    · exact List.forall_mem_cons.mpr ⟨mounts, executed⟩
    · rw [split]
      refine (nodup_keysBetween _ _).append distinct fun key now later => ?_
      have before := (@mem_keysBetween _ _ key.1 key.2).mp now
      have rest := (keys key).mp later
      omega
    · rintro ⟨index, height⟩
      rw [split, List.mem_append, mem_keysBetween, keys]
      constructor
      · rintro (⟨inList, above, below⟩ | ⟨inList, above, below⟩)
        · exact ⟨inList, above, below.trans (higher index inList)⟩
        · exact ⟨inList, (heights index inList).trans_lt above, below⟩
      · rintro ⟨inList, above, below⟩
        by_cases now : height ≤ after.state.shardHeights index
        · exact .inl ⟨inList, above, now⟩
        · exact .inr ⟨inList, not_le.mp now, below⟩

/-- A header of another shard with a reduce action for a contract of shard zero. -/
def reduceHeader : BlockHeader :=
  { (default : BlockHeader) with
    shardIndex := 1
    height := 1
    reduceActions := [
      { toBeReducedOut := { callerCoins with contractAddress := calledContract }
        api := ascii ['r', 'u', 'n'] }] }

/-- Contracts as before, and signatures of one byte. -/
def reduceEnvironment : Environment :=
  { callEnvironment with platform := { Platform.plain with ed25519Sign := fun _ _ => [1] } }

/-- A miner that knows this header. -/
def reduceMiner : Miner :=
  { callMiner with state := { callMiner.state with chain := { headers := [reduceHeader] } } }

/-- A block that mounts a header of shard one. -/
def mountingBlock (env : Environment) (miner : Miner) (header : BlockHeader) : MsgBlock :=
  match generateReduceTxs env miner [header] with
  | .error _ => default
  | .ok reduceTxs =>
    match rewardedBody env miner reduceTxs with
    | .error _ => default
    | .ok body => sealed env miner { body with ledgerInfo := ⟨1, [⟨1, 1⟩]⟩ }

/-- The block that mounts this header. -/
def reduceBlock : MsgBlock := mountingBlock reduceEnvironment reduceMiner reduceHeader

/-- The block is accepted once: the second time its header is not the next one. -/
theorem reduceActions_executed_once_reduceBlock :
    ∃ after again, let call := Call.acceptBlock .calm reduceBlock
      let trace : List Event := [⟨call, true, after⟩, ⟨call, false, again⟩]
      Runs reduceEnvironment reduceMiner trace ∧ mountedKeys reduceMiner trace = [(1, 1)] ∧
      ∃ tx, Event.executed reduceEnvironment reduceMiner ⟨call, true, after⟩ = [tx] := by
  have runs : (do
      let first ← (Call.acceptBlock .calm reduceBlock).perform reduceEnvironment reduceMiner
      let second ← (Call.acceptBlock .calm reduceBlock).perform reduceEnvironment first.1
      return (first.2, second.2, mountedKeys reduceMiner
        [⟨.acceptBlock .calm reduceBlock, first.2, first.1⟩,
          ⟨.acceptBlock .calm reduceBlock, second.2, second.1⟩])) = .ok (true, false, [(1, 1)]) ∧
      (reduceBlock.body.transactions.filter fun tx => tx.tx.isReduceTx).length = 1 := by
    decide +kernel
  obtain ⟨runs, once⟩ := runs
  simp only [bind_eq_ok, pure_eq_ok, Prod.mk.injEq] at runs
  obtain ⟨⟨after, _⟩, first, ⟨again, _⟩, second, rfl, rfl, keys⟩ := runs
  have isRun := Runs.cons first (.cons second (.nil again))
  have reports : Reports reduceEnvironment.contracts := by
    rintro _ txs _ ⟨⟩
    exact List.Sublist.refl txs
  have executed := ((reduceActions_executed_once reports isRun).2.1 _ List.mem_cons_self).executed
  refine ⟨after, again, isRun, keys, List.length_eq_one_iff.mp ?_⟩
  rw [executed.length_eq, List.length_map]
  exact once

/-- A second contract. -/
def otherContract : Address :=
  Address.generateAddress Platform.plain.toPrimitives [8] .smartContractAddress

/-- A header with reduce actions for both contracts. -/
def twoActions : BlockHeader :=
  { reduceHeader with reduceActions := reduceHeader.reduceActions ++
      [{ toBeReducedOut := { callerCoins with contractAddress := otherContract }
         api := ascii ['r', 'u', 'n'] }] }

/-- An executor that fails for the second contract and reports the calls of the first twice. -/
def doublingEnvironment : Environment :=
  { reduceEnvironment with
    contracts := fun _ txs =>
      if txs.any (·.contractAddress = otherContract) then none
      else some ⟨txs ++ txs, writeShardData, [], []⟩ }

/-- A miner that knows the header with two actions. -/
def doublingMiner : Miner :=
  { callMiner with state := { callMiner.state with chain := { headers := [twoActions] } } }

/-- A block that mounts it is accepted, and the second reduce transaction is not executed. -/
theorem acceptBlock_doublingEnvironment :
    ∃ after, let event : Event :=
        ⟨.acceptBlock .calm (mountingBlock doublingEnvironment doublingMiner twoActions), true, after⟩
      Runs doublingEnvironment doublingMiner [event] ∧ event.mounted doublingMiner = [twoActions] ∧
        ∃ tx ∈ event.reduceTxs, tx.tx ∉ event.executed doublingEnvironment doublingMiner := by
  have runs : (do
      let block := mountingBlock doublingEnvironment doublingMiner twoActions
      let outcome ← (Call.acceptBlock .calm block).perform doublingEnvironment doublingMiner
      let event : Event := ⟨.acceptBlock .calm block, outcome.2, outcome.1⟩
      return (outcome.2, event.mounted doublingMiner, event.reduceTxs.all fun tx =>
        tx.tx ∈ event.executed doublingEnvironment doublingMiner)) =
        .ok (true, [twoActions], false) := by
    decide +kernel
  simp only [bind_eq_ok, pure_eq_ok, Prod.mk.injEq] at runs
  obtain ⟨⟨after, _⟩, first, rfl, mounted, missing⟩ := runs
  refine ⟨after, .cons first (.nil after), mounted, ?_⟩
  simpa using missing

end MultiVac.Chain
