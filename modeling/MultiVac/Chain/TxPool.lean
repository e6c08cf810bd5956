import MultiVac.Chain.Spending
import MultiVac.Ledger.Pools
import MultiVac.Lib.Booking
import MultiVac.Wire.Header

/-!
# The transaction pool

A transaction is added to the pool if its proofs verify and no transaction of the pool
spends one of its inputs. Every update of the ledger refreshes the proofs, and the
transactions whose proofs cannot be refreshed are deleted. After any such run the
counter, the set of used outs and the proofs agree with the pooled transactions.
-/

namespace MultiVac

open Lib Wire Merkle Contract

/-- `MsgTxWithProofs.ToBytesArray`: an error of the encoder is logged, and there are no
bytes. -/
def Wire.MsgTxWithProofs.toBytesArray (tx : MsgTxWithProofs) : Go Bytes := do
  return (← Go.attempt (encodeToBytes Codec.msgTxWithProofs tx)).getD []

namespace Ledger
namespace TxPool

/-- The hash of an input that no transaction of the pool spends. -/
def unusedHash (txPool : TxPool) (out : OutPoint) : Go MerkleHash := do
  let hash ← out.unspentOutHash
  Go.require (hash ∉ txPool.usedOutsInPool) "The txin has been used in other txs in txpool"
  return hash

/-- `addTransaction`. -/
def addTransaction (txPool : TxPool) (tx : MsgTxWithProofs) : Go TxPool := do
  let usedOutsHash ← tx.tx.inputs.mapM txPool.unusedHash
  let hash := sha256 (← tx.toBytesArray)
  return {
    pool := txPool.pool.insert hash tx
    usedOutsInPool := usedOutsHash ++ txPool.usedOutsInPool
    counter := txPool.counter + 1 }

/-- `AddNewTransaction`. -/
def addNewTransaction (env : Chain.Environment) (txPool : TxPool) (tx : MsgTxWithProofs)
    (root : MerkleHash) : Go TxPool := do
  Chain.verifyTxWithProof env tx root
  txPool.addTransaction tx

/-! ### The inputs of pooled transactions -/

/-- The hashes of the inputs of a transaction. -/
def inputHashes (tx : MsgTxWithProofs) : List MerkleHash :=
  tx.tx.inputs.map fun out => digest out.toUnspentOutState

variable {tx : MsgTxWithProofs}

theorem inputHashes_eq {hashes : List MerkleHash}
    (hashed : tx.tx.inputs.mapM OutPoint.unspentOutHash = .ok hashes) :
    hashes = inputHashes tx :=
  eq_map_of_mapM (fun _ _ isHash => (digest_eq isHash).symm) hashed

/-- The encoding of a transaction determines the hashes of its inputs. -/
theorem inputHashes_decoded (tx : MsgTxWithProofs) :
    inputHashes (Codec.msgTxWithProofs.decoded tx) = inputHashes tx := by
  have inputs : (Codec.msgTxWithProofs.decoded tx).tx.inputs =
      tx.tx.inputs.map Codec.outPoint.decoded := by
    change List.map _ (List.map _ _) = List.map _ (List.map _ _)
    rw [List.map_map, List.map_map]
    rfl
  rw [inputHashes, inputs, List.map_map, inputHashes]
  refine List.map_congr_left fun out _ => ?_
  have isDecoded : (Codec.outPoint.decoded out).toUnspentOutState =
      Codec.outState.decoded out.toUnspentOutState := by
    rw [OutPoint.toUnspentOutState, OutPoint.toUnspentOutState]
    exact congrArg (OutState.mk _) (Codec.decoded_uint8 _).symm
  rw [Function.comp_apply, isDecoded, digest, digest, OutState.merkleHash, hashOf_decoded]
  rfl

variable {bytes : Bytes}

theorem encodeToBytes_of_toBytesArray (written : tx.toBytesArray = .ok bytes) :
    encodeToBytes Codec.msgTxWithProofs tx = .ok bytes := by
  simp only [MsgTxWithProofs.toBytesArray, bind_eq_ok, pure_eq_ok] at written
  obtain ⟨attempted, isAttempt, rfl⟩ := written
  cases attempted with
  | some bytes => exact (Go.attempt_eq_ok_some _ _).mp isAttempt
  | none =>
    obtain ⟨text, failed⟩ := (Go.attempt_eq_ok_none _).mp isAttempt
    cases Rlp.bytesOf_failsOnly Codec.msgTxWithProofs_failsOnly tx _ failed

theorem inputHashes_eq_of_toBytesArray {first second : MsgTxWithProofs}
    (wroteFirst : first.toBytesArray = .ok bytes)
    (wroteSecond : second.toBytesArray = .ok bytes) : inputHashes first = inputHashes second := by
  have same : Codec.msgTxWithProofs.decoded first = Codec.msgTxWithProofs.decoded second :=
    (Rlp.bytesOf Fault.panic Codec.msgTxWithProofs).decoded_of_write
      (encodeToBytes_of_toBytesArray wroteFirst) (encodeToBytes_of_toBytesArray wroteSecond)
  rw [← inputHashes_decoded first, same, inputHashes_decoded]

variable {root : MerkleHash}

/-- The inputs of a verified transaction differ, and there are some. -/
theorem inputHashes_of_verifyTxWithProof {env : Chain.Environment}
    (verified : Chain.verifyTxWithProof env tx root = .ok ()) :
    (inputHashes tx).Nodup ∧ inputHashes tx ≠ [] := by
  simp only [Chain.verifyTxWithProof, MsgTx.verifyTransaction, bind_eq_ok,
    refuseDuplicates_eq_ok_iff, Go.require_eq_ok] at verified
  obtain ⟨_, ⟨_, _, _, _, _, _, _, ⟨hashes, hashed, distinct, _⟩, nonempty⟩, _⟩ := verified
  rw [← inputHashes_eq hashed]
  refine ⟨distinct, fun empty => ?_⟩
  rw [inputHashes_eq hashed] at empty
  simp [List.map_eq_nil_iff.mp empty] at nonempty

/-! ### What adding and refreshing preserve -/

/-- The counter and the used outs agree with the pool, and every transaction is stored
under the hash of the bytes it was added with. -/
structure WellFormed (strings : Set Bytes) (txPool : TxPool) : Prop where
  counted : txPool.counter = txPool.pool.entries.length
  booked : Booked inputHashes txPool.pool txPool.usedOutsInPool
  keyed : ∀ entry ∈ txPool.pool.entries, ∃ added : MsgTxWithProofs, ∃ bytes ∈ strings,
    added.toBytesArray = .ok bytes ∧ entry.1 = sha256 bytes ∧ added.tx = entry.2.tx

theorem WellFormed.empty (strings : Set Bytes) : WellFormed strings .empty :=
  ⟨rfl, ⟨.nil, List.nodup_nil⟩, nofun⟩

variable {env : Chain.Environment} {strings : Set Bytes} {txPool after : TxPool}

/-- A transaction with other inputs has another hash. -/
theorem WellFormed.not_mem (injective : Set.InjOn sha256 strings)
    (wellFormed : WellFormed strings txPool) (written : tx.toBytesArray = .ok bytes)
    (inStrings : bytes ∈ strings) (nonempty : inputHashes tx ≠ [])
    (unused : ∀ hash ∈ inputHashes tx, hash ∉ txPool.usedOutsInPool) :
    sha256 bytes ∉ txPool.pool := by
  intro present
  obtain ⟨stored, isStored⟩ := Option.isSome_iff_exists.mp (AList.lookup_isSome.mpr present)
  have inEntries := AList.mem_lookup_iff.mp isStored
  obtain ⟨added, others, othersIn, wroteAdded, sameKey, sameTx⟩ := wellFormed.keyed _ inEntries
  obtain rfl := injective inStrings othersIn sameKey
  have sameHashes : inputHashes tx = inputHashes stored := by
    rw [inputHashes_eq_of_toBytesArray written wroteAdded, inputHashes, sameTx]
    rfl
  obtain ⟨hash, inHashes⟩ := List.exists_mem_of_ne_nil _ nonempty
  refine unused hash inHashes (wellFormed.booked.perm.mem_iff.mpr ?_)
  rw [sameHashes] at inHashes
  exact List.mem_flatMap.mpr ⟨_, inEntries, inHashes⟩

theorem WellFormed.addNewTransaction (injective : Set.InjOn sha256 strings)
    (encoded : ∀ bytes, tx.toBytesArray = .ok bytes → bytes ∈ strings)
    (wellFormed : WellFormed strings txPool)
    (added : txPool.addNewTransaction env tx root = .ok after) :
    WellFormed strings after ∧ ∀ entry ∈ after.pool.entries, entry ∈ txPool.pool.entries ∨
        Chain.verifyTxWithProof env entry.2 root = .ok () := by
  simp only [TxPool.addNewTransaction, addTransaction, bind_eq_ok, pure_eq_ok] at added
  obtain ⟨_, verified, hashes, unusedHashes, bytes, written, rfl⟩ := added
  obtain ⟨distinct, nonempty⟩ := inputHashes_of_verifyTxWithProof verified
  have isHashes : hashes = inputHashes tx := by
    refine eq_map_of_mapM (fun out hash isUnused => ?_) unusedHashes
    simp only [unusedHash, bind_eq_ok, pure_eq_ok] at isUnused
    obtain ⟨_, isHash, _, _, rfl⟩ := isUnused
    exact (digest_eq isHash).symm
  have unused : ∀ hash ∈ inputHashes tx, hash ∉ txPool.usedOutsInPool := by
    intro hash inHashes
    rw [← isHashes] at inHashes
    obtain ⟨out, _, isUnused⟩ := exists_of_mem_mapM unusedHashes inHashes
    simp only [unusedHash, bind_eq_ok, pure_eq_ok, Go.require_eq_ok, decide_eq_true_eq] at isUnused
    obtain ⟨_, _, _, notUsed, rfl⟩ := isUnused
    exact notUsed
  have absent := wellFormed.not_mem injective written (encoded bytes written) nonempty unused
  have entries := AList.entries_insert_of_notMem (b := tx) absent
  refine ⟨⟨?_, ?_, ?_⟩, ?_⟩
  · rw [entries, List.length_cons, wellFormed.counted]
    push_cast
    ring
  · rw [isHashes]
    exact wellFormed.booked.insert absent distinct unused
  · rw [entries]
    refine List.forall_mem_cons.mpr ⟨?_, wellFormed.keyed⟩
    exact ⟨tx, bytes, encoded bytes written, written, rfl, rfl⟩
  · rw [entries]
    exact List.forall_mem_cons.mpr ⟨.inr verified, fun _ => .inl⟩

/-- What becomes of a pooled transaction. -/
def Refreshed (update : Update) (old new : MsgTxWithProofs) : Prop :=
  ∃ proofs, update.updateProofs old.proofs.elems = .ok proofs ∧
    new = { old with proofs := .of proofs }

variable {update : Update}

/-- One iteration of the loop of `RefreshPool`. -/
theorem WellFormed.refreshTx {key : MerkleHash} (wellFormed : WellFormed strings txPool)
    (present : txPool.pool.lookup key = some tx)
    (refreshed : txPool.refreshTx update key tx = .ok after) :
    WellFormed strings after ∧
      (∀ entry ∈ after.pool.entries, entry.1 = key ∧ Refreshed update tx entry.2 ∨
        entry.1 ≠ key ∧ entry ∈ txPool.pool.entries) ∧
      ∀ entry ∈ txPool.pool.entries, entry.1 ≠ key → entry ∈ after.pool.entries := by
  have perm := Table.perm_erase present
  have length : txPool.pool.entries.length = (txPool.pool.erase key).entries.length + 1 :=
    perm.length_eq
  have keyed := (List.forall_mem_cons.mp fun entry inRest =>
    wellFormed.keyed entry (perm.mem_iff.mpr inRest))
  unfold TxPool.refreshTx at refreshed
  obtain ⟨attempted, isAttempt, refreshed⟩ := bind_eq_ok.mp refreshed
  cases attempted with
  | some proofs =>
    obtain rfl := pure_eq_ok.mp refreshed
    have updated := (Go.attempt_eq_ok_some _ _).mp isAttempt
    refine ⟨⟨?_, wellFormed.booked.replace present rfl, ?_⟩, ?_, ?_⟩
    · rw [wellFormed.counted, length]
      rfl
    · exact List.forall_mem_cons.mpr keyed
    · refine List.forall_mem_cons.mpr ⟨.inl ⟨rfl, proofs, updated, rfl⟩, fun entry inRest => ?_⟩
      exact .inr (Table.mem_erase_iff.mp inRest)
    · intro entry inPool other
      exact List.mem_cons_of_mem _ (Table.mem_erase_iff.mpr ⟨other, inPool⟩)
  | none =>
    simp only [bind_eq_ok, pure_eq_ok] at refreshed
    obtain ⟨used, hashed, rfl⟩ := refreshed
    rw [inputHashes_eq hashed]
    refine ⟨⟨?_, wellFormed.booked.erase present, keyed.2⟩, ?_, ?_⟩
    · change txPool.counter - 1 = _
      rw [wellFormed.counted, length]
      push_cast
      ring
    · exact fun entry inRest => .inr (Table.mem_erase_iff.mp inRest)
    · exact fun entry inPool other => Table.mem_erase_iff.mpr ⟨other, inPool⟩

/-- The loop of `RefreshPool` over some of the entries. -/
theorem WellFormed.refreshLoop {visited : List (Sigma fun _ : MerkleHash => MsgTxWithProofs)}
    (distinct : visited.NodupKeys) (wellFormed : WellFormed strings txPool)
    (inPool : ∀ entry ∈ visited, entry ∈ txPool.pool.entries)
    (looped : visited.foldlM (fun current entry => current.refreshTx update entry.1 entry.2)
      txPool = .ok after) :
    WellFormed strings after ∧ ∀ entry ∈ after.pool.entries,
      (∃ old ∈ visited, Refreshed update old.2 entry.2) ∨
        entry.1 ∉ visited.keys ∧ entry ∈ txPool.pool.entries := by
  induction visited generalizing txPool with
  | nil =>
    obtain rfl := pure_eq_ok.mp looped
    exact ⟨wellFormed, fun entry inAfter => .inr ⟨List.not_mem_nil, inAfter⟩⟩
  | cons first rest ih =>
    obtain ⟨fresh, distinctRest⟩ := List.nodupKeys_cons.mp distinct
    obtain ⟨firstIn, restIn⟩ := List.forall_mem_cons.mp inPool
    rw [List.foldlM_cons, bind_eq_ok] at looped
    obtain ⟨next, refreshed, looped⟩ := looped
    obtain ⟨nextWellFormed, become, stay⟩ :=
      wellFormed.refreshTx (AList.mem_lookup_iff.mpr firstIn) refreshed
    have restStays : ∀ entry ∈ rest, entry ∈ next.pool.entries := by
      intro entry inRest
      refine stay entry (restIn entry inRest) fun same => fresh ?_
      rw [← same]
      exact List.mem_keys_of_mem inRest
    obtain ⟨afterWellFormed, origin⟩ := ih distinctRest nextWellFormed restStays looped
    refine ⟨afterWellFormed, fun entry inAfter => ?_⟩
    rcases origin entry inAfter with ⟨old, inRest, isRefreshed⟩ | ⟨notRest, inNext⟩
    · exact .inl ⟨old, List.mem_cons_of_mem _ inRest, isRefreshed⟩
    · rcases become entry inNext with ⟨_, isRefreshed⟩ | ⟨notFirst, inBefore⟩
      · exact .inl ⟨first, List.mem_cons_self, isRefreshed⟩
      · refine .inr ⟨?_, inBefore⟩
        rw [List.keys_cons, List.mem_cons, not_or]
        exact ⟨notFirst, notRest⟩

/-- `RefreshPool`, with the map visited in any order. -/
def Refreshes (update : Update) (txPool after : TxPool) : Prop :=
  ∃ visited : List (Sigma fun _ : MerkleHash => MsgTxWithProofs),
    visited.Perm txPool.pool.entries ∧
    visited.foldlM (fun current entry => current.refreshTx update entry.1 entry.2) txPool =
      .ok after

theorem refreshes_of_refreshPool
    (refreshed : txPool.refreshPool update = .ok after) : Refreshes update txPool after :=
  ⟨txPool.pool.entries, List.Perm.refl _, refreshed⟩

theorem WellFormed.refreshes (wellFormed : WellFormed strings txPool)
    (refreshes : Refreshes update txPool after) :
    WellFormed strings after ∧ ∀ entry ∈ after.pool.entries,
      ∃ old ∈ txPool.pool.entries, Refreshed update old.2 entry.2 := by
  obtain ⟨visited, perm, looped⟩ := refreshes
  have distinct : visited.NodupKeys := (List.perm_nodupKeys perm).mpr txPool.pool.nodupKeys
  obtain ⟨afterWellFormed, origin⟩ :=
    wellFormed.refreshLoop distinct (fun _ => perm.mem_iff.mp) looped
  refine ⟨afterWellFormed, fun entry inAfter => ?_⟩
  rcases origin entry inAfter with ⟨old, inVisited, isRefreshed⟩ | ⟨notVisited, inBefore⟩
  · exact ⟨old, perm.mem_iff.mp inVisited, isRefreshed⟩
  · exact absurd (List.mem_keys_of_mem (perm.mem_iff.mpr inBefore)) notVisited

/-! ### Refreshed proofs -/

theorem getLeaf_of_refreshMerklePath {tree : DeltaMerkleTree} {path newPath : MerklePath}
    {leaf : MerkleHash} (refreshed : tree.refreshMerklePath path = .ok newPath)
    (isLeaf : getLeaf path = .ok leaf) : getLeaf newPath = .ok leaf := by
  simp only [MerkleTree.refreshMerklePath, isLeaf, bind_eq_ok] at refreshed
  obtain ⟨_, _, _, ⟨⟩, refreshed⟩ := refreshed
  split at refreshed
  · obtain rfl := pure_eq_ok.mp refreshed
    rfl
  · obtain ⟨_, _, refreshed⟩ := bind_eq_ok.mp refreshed
    obtain rfl := pure_eq_ok.mp refreshed
    rfl

variable {newRoot : MerkleHash}

/-- The refreshed proofs of some outs verify against the root of the update. -/
theorem verifyProofs_of_updateProofs {inputs : List OutPoint} {proofs newProofs : List MerklePath}
    (rootOf : update.deltaTree.getMerkleRoot = .ok newRoot)
    (verified : Chain.verifyProofs root inputs proofs = .ok ())
    (updated : update.updateProofs proofs = .ok newProofs) :
    Chain.verifyProofs newRoot inputs newProofs = .ok () := by
  have related := mapM_eq_ok_iff.mp updated
  clear updated
  induction related generalizing inputs with
  | nil =>
    cases inputs with
    | nil => rfl
    | cons => exact absurd verified (Go.panic_ne_ok _)
  | cons refreshed _ ih =>
    cases inputs with
    | nil => rfl
    | cons out inputs =>
      simp only [Chain.verifyProofs, bind_eq_ok] at verified ⊢
      simp only [rootOf, bind_eq_ok] at refreshed
      obtain ⟨hash, hashed, leaf, isLeaf, _, same, _, _, rest⟩ := verified
      obtain ⟨newProof, refreshed, _, ⟨⟩, attempted, checked, result⟩ := refreshed
      cases attempted with
      | none => exact absurd result (Go.fail_ne_ok _ _)
      | some _ =>
        obtain rfl := pure_eq_ok.mp result
        refine ⟨hash, hashed, leaf, getLeaf_of_refreshMerklePath refreshed isLeaf, (), same,
          (), ?_, ih rest⟩
        exact (Go.attempt_eq_ok_some _ _).mp checked

theorem verifyTxWithProof_of_refreshed {old new : MsgTxWithProofs}
    (rootOf : update.deltaTree.getMerkleRoot = .ok newRoot)
    (verified : Chain.verifyTxWithProof env old root = .ok ())
    (refreshed : Refreshed update old new) : Chain.verifyTxWithProof env new newRoot = .ok () := by
  obtain ⟨proofs, updated, rfl⟩ := refreshed
  have sameLength : old.proofs.elems.length = proofs.length := (mapM_eq_ok_iff.mp updated).length_eq
  simp only [Chain.verifyTxWithProof, bind_eq_ok, Go.require_eq_ok, decide_eq_true_eq] at verified ⊢
  obtain ⟨_, transaction, _, paired, proofsVerified⟩ := verified
  refine ⟨(), transaction, (), paired.trans sameLength, ?_⟩
  exact verifyProofs_of_updateProofs rootOf proofsVerified updated

end TxPool
end Ledger

namespace Chain

open Ledger

/-- What happens to a pool. -/
inductive PoolEvent where
  | add (tx : MsgTxWithProofs)
  | refresh (update : Update)

/-- One event: a transaction is added or refused under the root of the ledger, or the
pool is refreshed with an update that is then applied to the ledger. -/
inductive PoolStep (env : Environment) :
    PoolEvent → ShardStateManager → TxPool → ShardStateManager → TxPool → Prop where
  | added {tx : MsgTxWithProofs} {state : ShardStateManager} {txPool after : TxPool}
      (accepted : txPool.addNewTransaction env tx state.getLedgerRoot = .ok after) :
      PoolStep env (.add tx) state txPool state after
  | refused {tx : MsgTxWithProofs} {state : ShardStateManager} {txPool : TxPool} {text : String}
      (failed : txPool.addNewTransaction env tx state.getLedgerRoot = .error (.error text)) :
      PoolStep env (.add tx) state txPool state txPool
  | refreshed {update : Update} {state next : ShardStateManager} {txPool after : TxPool}
      (refreshes : TxPool.Refreshes update txPool after)
      (applied : state.applyUpdate update = .ok next) :
      PoolStep env (.refresh update) state txPool next after

/-- A sequence of events. -/
inductive PoolRun (env : Environment) (start : ShardStateManager) :
    List PoolEvent → ShardStateManager → TxPool → Prop where
  | start : PoolRun env start [] start .empty
  | step {events : List PoolEvent} {event : PoolEvent} {state next : ShardStateManager}
      {txPool after : TxPool}
      (run : PoolRun env start events state txPool)
      (stepped : PoolStep env event state txPool next after) :
      PoolRun env start (event :: events) next after

/-- The encodings of the transactions that were to be added. -/
def addedStrings (events : List PoolEvent) : Set Bytes :=
  {bytes | ∃ tx, .add tx ∈ events ∧ tx.toBytesArray = .ok bytes}

/-- The counter, the used outs and the proofs agree with the pooled transactions. -/
structure PoolSound (env : Environment) (root : MerkleHash) (txPool : TxPool) : Prop where
  counted : txPool.counter = txPool.pool.entries.length
  used : txPool.usedOutsInPool.Perm
    (txPool.pool.entries.flatMap fun entry => TxPool.inputHashes entry.2)
  disjoint : (txPool.pool.entries.flatMap fun entry => TxPool.inputHashes entry.2).Nodup
  proofs : ∀ entry ∈ txPool.pool.entries, verifyTxWithProof env entry.2 root = .ok ()

variable {state next : ShardStateManager}

theorem getLedgerRoot_of_applyUpdate {update : Update}
    (applied : state.applyUpdate update = .ok next) :
    update.deltaTree.getMerkleRoot = .ok next.getLedgerRoot := by
  simp only [ShardStateManager.applyUpdate, bind_eq_ok, pure_eq_ok] at applied
  obtain ⟨root, rootOf, _, _, _, _, rfl⟩ := applied
  exact rootOf

variable {env : Environment} {strings : Set Bytes} {txPool : TxPool}

/-- What every event keeps. -/
theorem PoolStep.keeps {event : PoolEvent} {after : TxPool} (injective : Set.InjOn sha256 strings)
    (encoded : addedStrings [event] ⊆ strings) (wellFormed : txPool.WellFormed strings)
    (verified : ∀ entry ∈ txPool.pool.entries,
      verifyTxWithProof env entry.2 state.getLedgerRoot = .ok ())
    (stepped : PoolStep env event state txPool next after) :
    after.WellFormed strings ∧ ∀ entry ∈ after.pool.entries,
      verifyTxWithProof env entry.2 next.getLedgerRoot = .ok () := by
  cases stepped with
  | @added tx _ _ _ accepted =>
    have inStrings : ∀ bytes, tx.toBytesArray = .ok bytes → bytes ∈ strings :=
      fun bytes written => encoded ⟨tx, List.mem_singleton_self _, written⟩
    obtain ⟨afterWellFormed, origin⟩ := wellFormed.addNewTransaction injective inStrings accepted
    refine ⟨afterWellFormed, fun entry inAfter => ?_⟩
    exact (origin entry inAfter).elim (verified entry) id
  | refused => exact ⟨wellFormed, verified⟩
  | refreshed refreshes applied =>
    obtain ⟨afterWellFormed, origin⟩ := wellFormed.refreshes refreshes
    refine ⟨afterWellFormed, fun entry inAfter => ?_⟩
    obtain ⟨old, inBefore, isRefreshed⟩ := origin entry inAfter
    exact TxPool.verifyTxWithProof_of_refreshed (getLedgerRoot_of_applyUpdate applied)
      (verified old inBefore) isRefreshed

theorem PoolRun.keeps {start : ShardStateManager} {events : List PoolEvent}
    (injective : Set.InjOn sha256 strings) (encoded : addedStrings events ⊆ strings)
    (run : PoolRun env start events state txPool) :
    txPool.WellFormed strings ∧ ∀ entry ∈ txPool.pool.entries,
      verifyTxWithProof env entry.2 state.getLedgerRoot = .ok () := by
  induction run with
  | start => exact ⟨.empty strings, nofun⟩
  | @step events event _ _ _ _ _ stepped ih =>
    have earlier : addedStrings events ⊆ strings := by
      rintro bytes ⟨tx, inEvents, written⟩
      exact encoded ⟨tx, List.mem_cons_of_mem _ inEvents, written⟩
    have last : addedStrings [event] ⊆ strings := by
      rintro bytes ⟨tx, isEvent, written⟩
      obtain rfl := List.mem_singleton.mp isEvent
      exact encoded ⟨tx, List.mem_cons_self, written⟩
    obtain ⟨wellFormed, verified⟩ := ih earlier
    exact stepped.keeps injective last wellFormed verified

/-- After every sequence of additions and refreshes the counter is the number of pooled
transactions, the used outs are the inputs of these transactions, no two of which share
one, and all proofs verify against the root of the ledger. -/
theorem pool_sound_after_run {env : Environment} {start state : ShardStateManager}
    {events : List PoolEvent} {txPool : TxPool} (injective : Set.InjOn sha256 (addedStrings events))
    (run : PoolRun env start events state txPool) : PoolSound env state.getLedgerRoot txPool := by
  obtain ⟨wellFormed, verified⟩ := run.keeps injective Set.Subset.rfl
  exact ⟨wellFormed.counted, wellFormed.booked.perm, wellFormed.booked.nodup, verified⟩

/-! ### A payment in the pool -/

/-- A header of another shard whose outs are mounted. -/
def mountedHeader : BlockHeader :=
  { (default : BlockHeader) with
    shardIndex := 1
    height := 1
    outsMerkleRoot := sha256 [] }

/-- A payment is added, and the pool is refreshed while the outs of another shard are
mounted. What is returned are the pool before the refresh and the update. -/
def mountUnderPool : Go (TxPool × Update) := do
  let txPool ← TxPool.empty.addNewTransaction .plain (payTx coinPath) coinMiner.state.getLedgerRoot
  let update ← coinMiner.state.newUpdate
  return (txPool, ← update.addHeaders [mountedHeader])

/-- A payment enters the pool. -/
theorem pool_sound_after_run_payment :
    ∃ update state txPool,
      PoolRun .plain coinMiner.state [.refresh update, .add (payTx coinPath)] state txPool ∧
      txPool.counter = 1 ∧ state.getLedgerRoot ≠ coinMiner.state.getLedgerRoot ∧
      PoolSound .plain state.getLedgerRoot txPool := by
  have runs : (do
      let (txPool, update) ← mountUnderPool
      let after ← txPool.refreshPool update
      let next ← coinMiner.state.applyUpdate update
      return decide (after.counter = 1 ∧
        next.getLedgerRoot ≠ coinMiner.state.getLedgerRoot)) = .ok true := by
    decide +kernel
  simp only [mountUnderPool, bind_eq_ok, pure_eq_ok, decide_eq_true_eq] at runs
  obtain ⟨_, ⟨txPool, added, _, _, update, _, rfl⟩, after, refreshed, next, applied, counter,
    otherRoot⟩ := runs
  have run : PoolRun .plain coinMiner.state [.refresh update, .add (payTx coinPath)] next after :=
    .step (.step .start (.added added))
      (.refreshed (TxPool.refreshes_of_refreshPool refreshed) applied)
  refine ⟨update, next, after, run, counter, otherRoot, pool_sound_after_run ?_ run⟩
  -- Only one transaction was added.
  rintro first ⟨tx, inEvents, wroteFirst⟩ second ⟨other, otherIn, wroteSecond⟩ _
  obtain rfl : tx = payTx coinPath := by simpa using inEvents
  obtain rfl : other = payTx coinPath := by simpa using otherIn
  exact Except.ok.inj (wroteFirst.symm.trans wroteSecond)

end Chain
end MultiVac
