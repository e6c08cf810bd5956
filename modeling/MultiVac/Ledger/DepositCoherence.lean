import MultiVac.Ledger.DepositFrame

/-!
# The two copies of a deposit

A pool with a database keeps the deposits that it was given in memory and in the database.
The two agree as long as no database operation fails and every update can refresh all the
paths that it finds. An update that returns an error has changed some deposits in memory
and none in the database.
-/

namespace MultiVac.Ledger

open Lib Wire Merkle

/-! ### Encoding a deposit only panics -/

theorem DepositInfo.codec_failsOnly : DepositInfo.codec.FailsOnly Fault.panic :=
  Codec.struct_failsOnly (Codec.outPoint_failsOnly.field <| Codec.merklePath_failsOnly.field <|
    Codec.int64_failsOnly.field <| Codec.bool_failsOnly.field Codec.noFields_failsOnly) _

theorem encodeDeposit_failsOnly (deposit : DepositInfo) :
    FailsOnly Fault.panic (encodeToBytes DepositInfo.codec deposit) :=
  Rlp.bytesOf_failsOnly DepositInfo.codec_failsOnly deposit

theorem unspentOutHash_failsOnly (out : OutPoint) : FailsOnly Fault.panic out.unspentOutHash :=
  (Rlp.bytesOf_failsOnly Codec.outState_failsOnly _).bind fun _ _ => failsOnly_ok _ _

namespace DepositStore

open Lib.Stateful

/-! ### Runs -/

/-- A call that changes the pool. -/
inductive Call where
  | add (out : Option OutPoint) (height : Int) (proof : Option MerklePath)
  | remove (out : OutPoint)
  | lock (out : OutPoint)
  | update (update : Ledger.Update) (shard : ShardIndex) (height : Int)

/-- A call with what the environment decides about it: the database operations that fail,
and the order in which the deposits in memory are visited. -/
structure Request where
  call : Call
  fails : DbOperation → Bool
  order : MapOrder

namespace Request

/-- `Act` for the calls that change the pool. -/
def perform (request : Request) : DepositCall Unit :=
  match request.call with
  | .add out height proof => add request.fails out height proof
  | .remove out => remove request.fails out
  | .lock out => lock request.fails out
  | .update changes shard height =>
    DepositStore.update request.fails request.order changes shard height

/-- The request puts a deposit under a key. -/
def Adds (request : Request) (key : MerkleHash) : Prop :=
  ∃ out height proof, request.call = .add (some out) height (some proof) ∧
    out.unspentOutHash = .ok key

/-- The request takes the deposit under a key away. -/
def Removes (request : Request) (key : MerkleHash) : Prop :=
  ∃ out, request.call = .remove out ∧ out.unspentOutHash = .ok key

end Request

/-- The pool after some requests, whether they return errors or not. A panic ends the
node. -/
def run : List Request → DepositStore → Option DepositStore
  | [], store => some store
  | request :: requests, store =>
    match request.perform store with
    | (.error .panic, _) => none
    | (_, after) => run requests after

/-- The path of a deposit leads through the delta tree of an update to the new root. -/
def Refreshes (update : Ledger.Update) (deposit : DepositInfo) : Prop :=
  ∃ path root, update.deltaTree.refreshMerklePath deposit.proof = .ok path ∧
    update.deltaTree.getMerkleRoot = .ok root ∧ verify path root = .ok ()

/-- The database works, and an update covers the paths of all deposits that it refreshes. -/
structure Request.Met (request : Request) (store : DepositStore) : Prop where
  reliable : ∀ operation, request.fails operation = false
  covered : ∀ update shard height, request.call = .update update shard height →
    ∀ key deposit, store.Contains key deposit → deposit.outPoint.shard = shard →
      deposit.locked = false → Refreshes update deposit

/-- Every request of a run finds a pool that meets the conditions for it. -/
def AllMet : List Request → DepositStore → Prop
  | [], _ => True
  | request :: requests, store =>
    request.Met store ∧ AllMet requests (request.perform store).2

/-- Every deposit in memory is in the database. -/
def Mirrored (store : DepositStore) : Prop :=
  ∀ key deposit, store.pool.lookup key = some deposit → Holds store.depositDb key deposit

/-! ### A keyed database -/

section Keyed

variable {fails : DbOperation → Bool} {store : DepositStore}

/-- The pool uses a database, and it is keyed. -/
def IsBacked (store : DepositStore) : Prop :=
  store.isUsedDB = true ∧ Keyed store.depositDb

theorem dbGet_eq (key : MerkleHash) :
    dbGet fails key store = (if fails (.get key) then Go.fail "leveldb" else
        match store.depositDb.lookup key with
        | some value => .ok value
        | none => Go.fail "leveldb: not found", store) := by
  unfold dbGet operate
  split
  · rfl
  · cases found : store.depositDb.lookup key <;> simp [bind_apply, found]

variable {key : MerkleHash} {data : Bytes}

theorem Keyed.erase {db : Table MerkleHash Bytes} (keyed : Keyed db) (key : MerkleHash) :
    Keyed (db.erase key) := by
  intro other data found
  by_cases same : other = key
  · rw [same, AList.lookup_erase] at found
    cases found
  · rw [AList.lookup_erase_ne same] at found
    exact keyed other data found

variable {deposit : DepositInfo}

/-- The deposit that the database holds under a key has this key. -/
theorem Keyed.unspentOutHash_of_holds {db : Table MerkleHash Bytes} (keyed : Keyed db)
    (holds : Holds db key deposit) : deposit.outPoint.unspentOutHash = .ok key := by
  obtain ⟨data, found, written⟩ := holds
  obtain ⟨stored, storedWritten, isKey⟩ := keyed key data found
  have same := (Rlp.bytesOf Fault.panic DepositInfo.codec).decoded_of_write written storedWritten
  have sameOut : Codec.outPoint.decoded deposit.outPoint =
    Codec.outPoint.decoded stored.outPoint := congrArg DepositInfo.outPoint same
  rw [← OutPoint.unspentOutHash_decoded, sameOut, OutPoint.unspentOutHash_decoded]
  exact isKey

variable {update : Ledger.Update} {shard : ShardIndex} {height : Int}

/-- An update does not change the out of a deposit. -/
theorem outPoint_of_updateDeposit {kept : DepositInfo}
    (updated : DepositPool.updateDeposit update shard height deposit = .ok (some kept)) :
    kept.outPoint = deposit.outPoint := by
  rw [DepositPool.updateDeposit_eq] at updated
  split at updated
  · split at updated
    · cases updated
    · cases updated
      rfl
  · split at updated
    · cases updated
      rfl
    · obtain ⟨_, _, isKept⟩ := map_eq_ok.mp updated
      cases isKept
      rfl

theorem Updated.isBacked {before after : DepositStore}
    (updated : Updated update shard height before after)
    (backed : before.IsBacked) : after.IsBacked := by
  refine ⟨updated.isUsedDB.trans backed.1, fun key data found => ?_⟩
  cases was : before.depositDb.lookup key with
  | none =>
    rw [updated.absentInDatabase key was] at found
    cases found
  | some old =>
    obtain ⟨stored, written, isKey⟩ := backed.2 key old was
    obtain ⟨next, step, gone, keeps⟩ := updated.inDatabase backed.1 key stored ⟨old, was, written⟩
    cases next with
    | none =>
      rw [gone rfl] at found
      cases found
    | some kept =>
      obtain ⟨newData, isNew, newWritten⟩ := keeps kept rfl
      obtain rfl := Option.some.inj (isNew.symm.trans found)
      exact ⟨kept, newWritten, by rw [outPoint_of_updateDeposit step]; exact isKey⟩

end Keyed

/-! ### What a request does when the conditions are met -/

/-- Only the deposit under one key has changed. -/
structure OnlyAt (key : MerkleHash) (before after : DepositStore) : Prop where
  inMemory : ∀ other, other ≠ key → after.pool.lookup other = before.pool.lookup other
  inDatabase : ∀ other, other ≠ key → after.depositDb.lookup other = before.depositDb.lookup other

/-- What a request can do to a pool. -/
inductive Effect (before after : DepositStore) : Call → Prop
  | idle {call : Call} (notRemove : ∀ out, call ≠ .remove out) (same : after = before) :
      Effect before after call
  | added {out : OutPoint} {height : Int} {proof : MerklePath} {key : MerkleHash}
      {deposit : DepositInfo}
      (isKey : out.unspentOutHash = .ok key)
      (onlyAt : OnlyAt key before after)
      (inMemory : after.pool.lookup key = some deposit)
      (inDatabase : Holds after.depositDb key deposit)
      (sameProof : deposit.proof = proof) :
      Effect before after (.add (some out) height (some proof))
  | removed {out : OutPoint} {key : MerkleHash} (isKey : out.unspentOutHash = .ok key)
      (onlyAt : OnlyAt key before after)
      (inMemory : after.pool.lookup key = none)
      (inDatabase : after.depositDb.lookup key = none) :
      Effect before after (.remove out)
  | locked {out : OutPoint} {key : MerkleHash} (onlyAt : OnlyAt key before after)
      (known : before.depositDb.lookup key ≠ none)
      (absent : before.pool.lookup key = none → after.pool.lookup key = none)
      (present : ∀ deposit, before.pool.lookup key = some deposit →
        ∃ kept, after.pool.lookup key = some kept ∧ Holds after.depositDb key kept) :
      Effect before after (.lock out)
  | updated {update : Ledger.Update} {shard : ShardIndex} {height : Int}
      (updated : Updated update shard height before after) :
      Effect before after (.update update shard height)

section Effects

variable {store : DepositStore}

/-- A database whose operations all succeed. -/
abbrev reliable : DbOperation → Bool := fun _ => false

theorem operate_reliable {α : Type} (operation : DbOperation) (effect : DepositCall α) :
    operate reliable operation effect = effect := rfl

theorem dbHas_reliable (key : MerkleHash) :
    dbHas reliable key store = (.ok (store.depositDb.lookup key).isSome, store) := rfl

variable {key : MerkleHash} {data : Bytes}

theorem dbGet_reliable (found : store.depositDb.lookup key = some data) :
    dbGet reliable key store = (.ok data, store) := by
  rw [dbGet_eq, found]
  rfl

/-- Writing a deposit replaces what the database holds under its key, unless it panics. -/
theorem save_reliable (key : MerkleHash) (deposit : DepositInfo)
    (noPanic : ((do dbPut reliable key (← lift (encodeToBytes DepositInfo.codec deposit)) :
      DepositCall Unit) store).1 ≠ Go.panic) :
    ∃ data, encodeToBytes DepositInfo.codec deposit = .ok data ∧
      (do dbPut reliable key (← lift (encodeToBytes DepositInfo.codec deposit)) :
        DepositCall Unit) store =
          (.ok (), { store with depositDb := store.depositDb.insert key data }) := by
  cases encoded : encodeToBytes DepositInfo.codec deposit with
  | error fault =>
    rw [encodeDeposit_failsOnly deposit fault encoded] at encoded
    rw [bind_apply, lift_apply, encoded] at noPanic
    exact absurd rfl noPanic
  | ok data => exact ⟨data, rfl, rfl⟩

theorem OnlyAt.insert_db (store : DepositStore) (key : MerkleHash) (data : Bytes) :
    OnlyAt key store { store with depositDb := store.depositDb.insert key data } where
  inMemory := fun _ _ => rfl
  inDatabase := fun _ differs => AList.lookup_insert_ne differs

theorem OnlyAt.insert_pool (store : DepositStore) (key : MerkleHash) (deposit : DepositInfo) :
    OnlyAt key store { store with pool := store.pool.insert key deposit } where
  inMemory := fun _ differs => AList.lookup_insert_ne differs
  inDatabase := fun _ _ => rfl

theorem OnlyAt.trans {before between after : DepositStore} (first : OnlyAt key before between)
    (second : OnlyAt key between after) : OnlyAt key before after where
  inMemory := fun other differs => (second.inMemory other differs).trans (first.inMemory other differs)
  inDatabase := fun other differs =>
    (second.inDatabase other differs).trans (first.inDatabase other differs)

variable {deposit : DepositInfo}

theorem saveAdded_reliable (backed : store.IsBacked)
    (isKey : deposit.outPoint.unspentOutHash = .ok key)
    (inMemory : store.pool.lookup key = some deposit)
    (noPanic : (saveAdded reliable key deposit store).1 ≠ Go.panic) :
    (saveAdded reliable key deposit store).2.IsBacked ∧
      OnlyAt key store (saveAdded reliable key deposit store).2 ∧
      ∃ kept, kept.proof = deposit.proof ∧
        (saveAdded reliable key deposit store).2.pool.lookup key = some kept ∧
        Holds (saveAdded reliable key deposit store).2.depositDb key kept := by
  rw [saveAdded, bind_apply, dbHas_reliable] at noPanic ⊢
  cases found : store.depositDb.lookup key with
  | none =>
    rw [found] at noPanic
    obtain ⟨data, written, saved⟩ := save_reliable key deposit noPanic
    simp only [Option.isSome_none, Bool.false_eq_true, if_false, saved]
    exact ⟨⟨backed.1, backed.2.insert written isKey⟩, .insert_db store key data, deposit, rfl,
      inMemory, data, AList.lookup_insert _, written⟩
  | some stored =>
    obtain ⟨known, knownWritten, -⟩ := backed.2 key stored found
    have got := dbGet_reliable found
    have decoded := decodeDeposit_of_encode knownWritten
    simp only [found, Option.isSome_some, if_true, bind_of_ok got, decoded,
      bind_of_ok (lift_apply _ _), bind_of_ok (change_apply _ _)] at noPanic ⊢
    obtain ⟨data, written, saved⟩ := save_reliable key _ noPanic
    rw [saved]
    refine ⟨⟨backed.1, backed.2.insert written isKey⟩,
      (OnlyAt.insert_pool store key _).trans (.insert_db _ key data),
      { deposit with locked := (DepositInfo.codec.decoded known).locked }, rfl, ?_, ?_⟩
    · exact AList.lookup_insert _
    · exact ⟨data, AList.lookup_insert _, written⟩

/-- A call that starts with the hash of an out gets it, unless it panics. -/
theorem exists_key {out : OutPoint} {rest : MerkleHash → DepositCall Unit}
    (noPanic : ((do rest (← lift out.unspentOutHash) : DepositCall Unit) store).1 ≠ Go.panic) :
    ∃ key, out.unspentOutHash = .ok key := by
  cases isKey : out.unspentOutHash with
  | ok key => exact ⟨key, rfl⟩
  | error fault =>
    rw [unspentOutHash_failsOnly out fault isKey] at isKey
    rw [bind_apply, lift_apply, isKey] at noPanic
    exact absurd rfl noPanic

theorem effect_of_add (backed : store.IsBacked) (out : OutPoint) (height : Int) (proof : MerklePath)
    (noPanic : (add reliable (some out) height (some proof) store).1 ≠ Go.panic) :
    (add reliable (some out) height (some proof) store).2.IsBacked ∧
      Effect store (add reliable (some out) height (some proof) store).2
        (.add (some out) height (some proof)) := by
  obtain ⟨key, isKey⟩ := exists_key noPanic
  simp only [add, bind_apply, lift_apply, isKey, inspect_apply, change_apply, backed.1,
    if_true] at noPanic ⊢
  obtain ⟨isBacked, onlyAt, kept, sameProof, inMemory, holds⟩ :=
    saveAdded_reliable (by exact ⟨rfl, backed.2⟩) (by exact isKey)
      (by exact AList.lookup_insert _) noPanic
  refine ⟨isBacked, .added isKey ⟨fun other differs => ?_, onlyAt.inDatabase⟩ inMemory holds
    sameProof⟩
  rw [onlyAt.inMemory other differs, AList.lookup_insert_ne differs]

theorem effect_of_remove (backed : store.IsBacked) (out : OutPoint)
    (noPanic : (remove reliable out store).1 ≠ Go.panic) :
    (remove reliable out store).2.IsBacked ∧
      Effect store (remove reliable out store).2 (.remove out) := by
  obtain ⟨key, isKey⟩ := exists_key noPanic
  have others : ∀ other, other ≠ key →
      (store.pool.erase key).lookup other = store.pool.lookup other :=
    fun _ differs => AList.lookup_erase_ne differs
  simp only [remove, bind_apply, lift_apply, isKey, inspect_apply, change_apply, backed.1, if_true,
    dbHas_reliable]
  cases found : store.depositDb.lookup key with
  | none =>
    exact ⟨⟨rfl, backed.2⟩, .removed isKey ⟨others, fun _ _ => rfl⟩ (AList.lookup_erase _ _) found⟩
  | some data =>
    refine ⟨⟨rfl, backed.2.erase key⟩, .removed isKey ⟨others, ?_⟩
      (AList.lookup_erase _ _) (AList.lookup_erase _ _)⟩
    exact fun _ differs => AList.lookup_erase_ne differs

/-- The lock of a deposit that is read from the database is the lock of the one that was
written. -/
theorem encode_locked (deposit : DepositInfo) :
    encodeToBytes DepositInfo.codec { DepositInfo.codec.decoded deposit with locked := true } =
      encodeToBytes DepositInfo.codec { deposit with locked := true } := by
  apply encodeToBytes_of_decoded_eq
  simp only [decoded_codec, Codec.outPoint.decoded_decoded, Codec.merklePath.decoded_decoded]

theorem saveLocked_reliable (found : store.depositDb.lookup key = some data)
    (written : encodeToBytes DepositInfo.codec deposit = .ok data)
    (noPanic : (saveLocked reliable key store).1 ≠ Go.panic) :
    ∃ newData, encodeToBytes DepositInfo.codec { deposit with locked := true } = .ok newData ∧
      saveLocked reliable key store =
        (.ok (), { store with depositDb := store.depositDb.insert key newData }) := by
  have got := dbGet_reliable found
  have decoded := decodeDeposit_of_encode written
  simp only [saveLocked, bind_of_ok (dbHas_reliable key), found, Option.isSome_some, if_true,
    bind_of_ok got, decoded, bind_of_ok (lift_apply _ _)] at noPanic ⊢
  obtain ⟨newData, newWritten, saved⟩ := save_reliable key _ noPanic
  exact ⟨newData, (encode_locked deposit).symm.trans newWritten, saved⟩

theorem effect_of_lock (backed : store.IsBacked) (mirrored : store.Mirrored) (out : OutPoint)
    (noPanic : (lock reliable out store).1 ≠ Go.panic) :
    (lock reliable out store).2.IsBacked ∧
      Effect store (lock reliable out store).2 (.lock out) := by
  obtain ⟨key, isKey⟩ := exists_key noPanic
  simp only [lock, bind_apply, lift_apply, isKey, change_apply, inspect_apply] at noPanic ⊢
  cases inMemory : store.pool.lookup key with
  | none =>
    simp only [inMemory, backed.1, if_true] at noPanic ⊢
    cases found : store.depositDb.lookup key with
    | none =>
      rw [saveLocked, bind_of_ok (dbHas_reliable key), found]
      exact ⟨backed, .idle nofun rfl⟩
    | some data =>
      obtain ⟨stored, written, isStored⟩ := backed.2 key data found
      obtain ⟨newData, newWritten, saved⟩ := saveLocked_reliable found written noPanic
      rw [saved]
      refine ⟨⟨backed.1, backed.2.insert newWritten isStored⟩,
        .locked (.insert_db store key newData) (by simp [found]) (fun _ => inMemory) ?_⟩
      intro deposit isDeposit
      rw [inMemory] at isDeposit
      cases isDeposit
  | some deposit =>
    simp only [inMemory, backed.1, if_true] at noPanic ⊢
    obtain ⟨data, found, written⟩ := mirrored key deposit inMemory
    have isDeposit := backed.2.unspentOutHash_of_holds (mirrored key deposit inMemory)
    obtain ⟨newData, newWritten, saved⟩ := saveLocked_reliable (by exact found) written noPanic
    rw [saved]
    refine ⟨⟨rfl, backed.2.insert newWritten isDeposit⟩,
      .locked ⟨fun _ differs => AList.lookup_insert_ne differs,
        fun _ differs => AList.lookup_insert_ne differs⟩ (by simp [found]) ?_ ?_⟩
    · intro isAbsent
      rw [inMemory] at isAbsent
      cases isAbsent
    · exact fun _ _ => ⟨{ deposit with locked := true }, AList.lookup_insert _, newData,
        AList.lookup_insert _, newWritten⟩

theorem refreshes_iff {update : Ledger.Update} {deposit : DepositInfo} :
    Refreshes update deposit ↔ ∃ path, update.updateProof deposit.proof = .ok path := by
  constructor
  · rintro ⟨path, root, refreshed, isRoot, verified⟩
    refine ⟨path, ?_⟩
    simp only [Update.updateProof, refreshed, isRoot, verified, bind, Except.bind]
    rfl
  · rintro ⟨path, refreshed⟩
    obtain ⟨newPath, isNewPath, rest⟩ := bind_eq_ok.mp refreshed
    obtain ⟨root, isRoot, rest⟩ := bind_eq_ok.mp rest
    obtain ⟨_, verified, -⟩ := bind_eq_ok.mp rest
    exact ⟨newPath, root, isNewPath, isRoot, verified⟩

variable {update : Ledger.Update} {shard : ShardIndex}

theorem exists_updateDeposit (height : Int)
    (refreshes : deposit.outPoint.shard = shard → deposit.locked = false →
      Refreshes update deposit) :
    ∃ next, DepositPool.updateDeposit update shard height deposit = .ok next := by
  rw [DepositPool.updateDeposit_eq]
  split
  · exact ⟨_, rfl⟩
  · next unlocked =>
    split
    · exact ⟨_, rfl⟩
    · next own =>
      obtain ⟨path, isPath⟩ :=
        refreshes_iff.mp (refreshes (not_not.mp own) (Bool.eq_false_of_not_eq_true unlocked))
      rw [isPath]
      exact ⟨_, rfl⟩

theorem updateInDatabase_failsOnly (height : Int)
    (refreshes : deposit.outPoint.shard = shard → deposit.locked = false →
      ∃ path, update.updateProof deposit.proof = .ok path) (store : DepositStore) :
    FailsOnly Fault.panic (updateInDatabase reliable update shard height deposit store).1 := by
  unfold updateInDatabase
  split
  · split
    · refine bind_failsOnly (unspentOutHash_failsOnly _) fun key between _ => ?_
      refine bind_failsOnly (failsOnly_ok _ _) fun has between _ => ?_
      cases has <;> exact failsOnly_ok _ _
    · exact failsOnly_ok _ _
  · next unlocked =>
    split
    · exact failsOnly_ok _ _
    · next own =>
      obtain ⟨path, isPath⟩ := refreshes (not_not.mp own) (Bool.eq_false_of_not_eq_true unlocked)
      rw [isPath]
      refine bind_failsOnly (failsOnly_ok _ _) fun newProof between _ => ?_
      refine bind_failsOnly (unspentOutHash_failsOnly _) fun key between _ => ?_
      refine bind_failsOnly (encodeDeposit_failsOnly _) fun data between _ => ?_
      exact failsOnly_ok _ _

/-- The deposits that are read from the database are copies of those that it holds. -/
theorem getAllDeposit_reliable (backed : store.IsBacked) :
    ∃ deposits, getAllDeposit reliable store = (.ok deposits, store) ∧
      ∀ deposit ∈ deposits, ∃ key stored, Holds store.depositDb key stored ∧
        deposit = DepositInfo.codec.decoded stored := by
  have decodes : ∀ data ∈ store.depositDb.entries.map Sigma.snd, ∃ key stored,
      store.depositDb.lookup key = some data ∧
        encodeToBytes DepositInfo.codec stored = .ok data := by
    intro data isMember
    obtain ⟨entry, inEntries, rfl⟩ := List.mem_map.mp isMember
    have found := AList.mem_lookup_iff.mpr inEntries
    obtain ⟨stored, written, -⟩ := backed.2 entry.1 entry.2 found
    exact ⟨entry.1, stored, found, written⟩
  obtain ⟨deposits, decoded⟩ := exists_mapM fun data inValues => by
    obtain ⟨_, stored, -, written⟩ := decodes data inValues
    exact ⟨_, decodeDeposit_of_encode written⟩
  refine ⟨deposits, ?_, fun deposit isMember => ?_⟩
  · rw [getAllDeposit, operate_reliable, bind_of_ok (inspect_apply _ _), decoded]
    rfl
  · obtain ⟨data, inValues, isDecoded⟩ := exists_of_mem_mapM decoded isMember
    obtain ⟨key, stored, found, written⟩ := decodes data inValues
    rw [decodeDeposit_of_encode written] at isDecoded
    exact ⟨key, stored, ⟨data, found, written⟩, (Except.ok.inj isDecoded).symm⟩

/-- An update that covers the paths of all its deposits does not fail. -/
theorem update_failsOnly (backed : store.IsBacked)
    (covered : ∀ key deposit, store.Contains key deposit → deposit.outPoint.shard = shard →
      deposit.locked = false → Refreshes update deposit) (height : Int) (order : MapOrder) :
    FailsOnly Fault.panic (DepositStore.update reliable order update shard height store).1 := by
  refine bind_failsOnly (failsOnly_ok _ _) fun entries _ visited => ?_
  obtain ⟨isVisited, rfl⟩ := Prod.mk.inj visited
  obtain rfl := Except.ok.inj isVisited
  refine bind_failsOnly (each_failsOnly (fun entry isMember state => ?_) _) fun _ between looped => ?_
  · have found := AList.mem_lookup_iff.mpr ((order.visit_perm _).mem_iff.mp isMember)
    obtain ⟨next, updated⟩ := exists_updateDeposit height (covered entry.1 entry.2 (Or.inl found))
    rw [updateInMemory, updated]
    exact failsOnly_ok _ _
  · obtain ⟨pool, rfl, -⟩ := each_updateInMemory looped
    refine bind_failsOnly (failsOnly_ok _ _) fun used _ looked => ?_
    obtain ⟨isUsed, rfl⟩ := Prod.mk.inj looked
    obtain rfl := Except.ok.inj isUsed
    split
    · next used =>
      obtain ⟨deposits, listed, copies⟩ :=
        @getAllDeposit_reliable ({ store with pool } : DepositStore) backed
      rw [bind_of_ok listed]
      refine each_failsOnly (fun deposit isMember state => ?_) _
      obtain ⟨key, stored, holds, rfl⟩ := copies deposit isMember
      refine updateInDatabase_failsOnly height (fun own unlocked => ?_) state
      have sameShard : (DepositInfo.codec.decoded stored).outPoint.shard = stored.outPoint.shard :=
        Codec.decoded_uint32 _
      rw [sameShard] at own
      obtain ⟨path, isPath⟩ :=
        refreshes_iff.mp (covered key stored (Or.inr ⟨used, holds⟩) own unlocked)
      exact ⟨path, (update.updateProof_decoded stored.proof).trans isPath⟩
    · exact failsOnly_ok _ _

theorem effect_of_update (backed : store.IsBacked)
    (covered : ∀ key deposit, store.Contains key deposit → deposit.outPoint.shard = shard →
      deposit.locked = false → Refreshes update deposit) (height : Int) (order : MapOrder)
    (noPanic : (DepositStore.update reliable order update shard height store).1 ≠ Go.panic) :
    (DepositStore.update reliable order update shard height store).2.IsBacked ∧
      Effect store (DepositStore.update reliable order update shard height store).2
        (.update update shard height) := by
  have updated := @updated_of_update reliable update shard height order store _ backed.2
    (Prod.ext (by
      cases outcome : (DepositStore.update reliable order update shard height store).1 with
      | ok result => rfl
      | error fault =>
        rw [outcome, update_failsOnly backed covered height order fault outcome] at noPanic
        exact absurd rfl noPanic) rfl)
  exact ⟨updated.isBacked backed, .updated updated⟩

theorem effect_of_perform {request : Request} (backed : store.IsBacked) (mirrored : store.Mirrored)
    (met : request.Met store) (noPanic : (request.perform store).1 ≠ Go.panic) :
    (request.perform store).2.IsBacked ∧ Effect store (request.perform store).2 request.call := by
  obtain ⟨call, fails, order⟩ := request
  obtain rfl : fails = reliable := funext met.reliable
  cases call with
  | add out height proof =>
    cases out with
    | none => exact ⟨backed, .idle nofun rfl⟩
    | some out =>
      cases proof with
      | none => exact ⟨backed, .idle nofun rfl⟩
      | some proof => exact effect_of_add backed out height proof noPanic
  | remove out => exact effect_of_remove backed out noPanic
  | lock out => exact effect_of_lock backed mirrored out noPanic
  | update changes shard height =>
    exact effect_of_update backed (met.covered changes shard height rfl) height order noPanic

end Effects

/-! ### The copies agree -/

/-- A deposit that is not in memory is not in the database either. -/
def GoneTogether (key : MerkleHash) (store : DepositStore) : Prop :=
  store.pool.lookup key = none → store.depositDb.lookup key = none

/-- There is no deposit under a key. -/
def Absent (key : MerkleHash) (store : DepositStore) : Prop :=
  store.pool.lookup key = none ∧ store.depositDb.lookup key = none

namespace Effect

variable {before after : DepositStore} {call : Call} {key : MerkleHash}

/-- The copies agree after a change at one key if they agree there. -/
theorem mirrored_of_onlyAt (mirrored : before.Mirrored) (onlyAt : OnlyAt key before after)
    (atKey : ∀ deposit, after.pool.lookup key = some deposit → Holds after.depositDb key deposit) :
    after.Mirrored := by
  intro other deposit found
  by_cases same : other = key
  · subst same
    exact atKey deposit found
  · rw [onlyAt.inMemory other same] at found
    obtain ⟨data, present, written⟩ := mirrored other deposit found
    exact ⟨data, (onlyAt.inDatabase other same).trans present, written⟩

/-- The deposit that an update keeps in memory is the one that it keeps in the database. -/
theorem holds_of_updated {update : Ledger.Update} {shard : ShardIndex} {height : Int}
    (updated : Updated update shard height before after) (used : before.isUsedDB = true)
    (mirrored : before.Mirrored) {old : DepositInfo} (found : before.pool.lookup key = some old) :
    (after.pool.lookup key = none → after.depositDb.lookup key = none) ∧
      ∀ kept, after.pool.lookup key = some kept → Holds after.depositDb key kept := by
  obtain ⟨next, step, gone, keeps⟩ := updated.inDatabase used key old (mirrored key old found)
  obtain rfl := Except.ok.inj ((updated.inMemory key old found).symm.trans step)
  exact ⟨gone, keeps⟩

theorem mirrored (effect : Effect before after call) (used : before.isUsedDB = true)
    (mirrored : before.Mirrored) : after.Mirrored := by
  cases effect with
  | idle notRemove same => rwa [same]
  | added isKey onlyAt inMemory inDatabase sameProof =>
    refine mirrored_of_onlyAt mirrored onlyAt fun deposit found => ?_
    obtain rfl := Option.some.inj (inMemory.symm.trans found)
    exact inDatabase
  | removed isKey onlyAt inMemory inDatabase =>
    refine mirrored_of_onlyAt mirrored onlyAt fun deposit found => ?_
    rw [inMemory] at found
    cases found
  | @locked _ key onlyAt known absent present =>
    refine mirrored_of_onlyAt mirrored onlyAt fun deposit found => ?_
    cases was : before.pool.lookup key with
    | none =>
      rw [absent was] at found
      cases found
    | some old =>
      obtain ⟨kept, isKept, holds⟩ := present old was
      obtain rfl := Option.some.inj (isKept.symm.trans found)
      exact holds
  | updated updated =>
    intro key deposit found
    cases was : before.pool.lookup key with
    | none =>
      rw [updated.absentInMemory key was] at found
      cases found
    | some old => exact (holds_of_updated updated used mirrored was).2 deposit found

theorem goneTogether (effect : Effect before after call) (used : before.isUsedDB = true)
    (mirrored : before.Mirrored) (together : before.GoneTogether key) : after.GoneTogether key := by
  -- A change at one key matters only if it is this key.
  have elsewhere : ∀ {changed}, OnlyAt changed before after → key ≠ changed →
      after.GoneTogether key := by
    intro changed onlyAt differs isGone
    rw [onlyAt.inMemory key differs] at isGone
    rw [onlyAt.inDatabase key differs]
    exact together isGone
  intro isGone
  cases effect with
  | idle notRemove same =>
    rw [same] at isGone ⊢
    exact together isGone
  | @added _ _ _ changed _ isKey onlyAt inMemory inDatabase sameProof =>
    by_cases same : key = changed
    · rw [same, inMemory] at isGone
      cases isGone
    · exact elsewhere onlyAt same isGone
  | @removed _ changed isKey onlyAt inMemory inDatabase =>
    by_cases same : key = changed
    · rwa [same]
    · exact elsewhere onlyAt same isGone
  | @locked _ changed onlyAt known absent present =>
    by_cases same : key = changed
    · subst same
      cases was : before.pool.lookup key with
      | none => exact absurd (together was) known
      | some old =>
        obtain ⟨kept, isKept, -⟩ := present old was
        rw [isKept] at isGone
        cases isGone
    · exact elsewhere onlyAt same isGone
  | updated updated =>
    cases was : before.pool.lookup key with
    | none => exact updated.absentInDatabase key (together was)
    | some old => exact (holds_of_updated updated used mirrored was).1 isGone

theorem Absent.of_onlyAt {key changed : MerkleHash} (absent : before.Absent key)
    (onlyAt : OnlyAt changed before after) (differs : key ≠ changed) : after.Absent key :=
  ⟨(onlyAt.inMemory key differs).trans absent.1, (onlyAt.inDatabase key differs).trans absent.2⟩

variable {request : Request}

/-- A request that does not add a deposit does not bring one back. -/
theorem absent (effect : Effect before after request.call) (absent : before.Absent key)
    (notAdded : ¬ request.Adds key) : after.Absent key := by
  generalize isCall : request.call = call at effect
  cases effect with
  | idle notRemove same => rwa [same]
  | @added out height proof changed _ isKey onlyAt inMemory inDatabase sameProof =>
    refine Absent.of_onlyAt absent onlyAt fun same => ?_
    exact notAdded ⟨out, height, proof, isCall, same ▸ isKey⟩
  | @removed _ changed isKey onlyAt inMemory inDatabase =>
    by_cases same : key = changed
    · exact same ▸ ⟨inMemory, inDatabase⟩
    · exact Absent.of_onlyAt absent onlyAt same
  | locked onlyAt known _ _ =>
    refine Absent.of_onlyAt absent onlyAt fun same => ?_
    exact known (same ▸ absent.2)
  | updated updated =>
    exact ⟨updated.absentInMemory key absent.1, updated.absentInDatabase key absent.2⟩

theorem absent_of_removes (effect : Effect before after request.call)
    (removes : request.Removes key) : after.Absent key := by
  obtain ⟨out, isCall, isKey⟩ := removes
  rw [isCall] at effect
  cases effect with
  | idle notRemove same => exact absurd rfl (notRemove out)
  | removed isKeyToo onlyAt inMemory inDatabase =>
    rw [isKey] at isKeyToo
    obtain rfl := Except.ok.inj isKeyToo
    exact ⟨inMemory, inDatabase⟩

end Effect

/-! ### Whole runs -/

/-- The pool uses its database, and the copies agree. -/
structure Coherent (store : DepositStore) : Prop where
  backed : store.IsBacked
  mirrored : store.Mirrored

variable {request : Request} {requests : List Request}

theorem run_cons_eq_some {store after : DepositStore} :
    run (request :: requests) store = some after ↔
      (request.perform store).1 ≠ Go.panic ∧ run requests (request.perform store).2 = some after := by
  rw [run]
  rcases request.perform store with ⟨(_ | _) | _, between⟩ <;> simp [Go.panic]

theorem run_append (earlier later : List Request) (store : DepositStore) :
    run (earlier ++ later) store = (run earlier store).bind (run later) := by
  induction earlier generalizing store with
  | nil => rfl
  | cons request requests ih =>
    rw [List.cons_append, run, run]
    rcases request.perform store with ⟨(_ | _) | _, between⟩
    · exact ih between
    · rfl
    · exact ih between

theorem allMet_append {earlier later : List Request} {store between : DepositStore}
    (met : AllMet (earlier ++ later) store)
    (ran : run earlier store = some between) : AllMet earlier store ∧ AllMet later between := by
  induction earlier generalizing store with
  | nil =>
    obtain rfl := Option.some.inj ran
    exact ⟨trivial, met⟩
  | cons request requests ih =>
    obtain ⟨-, ran⟩ := run_cons_eq_some.mp ran
    obtain ⟨metFirst, metOthers⟩ := ih met.2 ran
    exact ⟨⟨met.1, metFirst⟩, metOthers⟩

theorem Coherent.perform {store : DepositStore} (coherent : store.Coherent)
    (met : request.Met store) (noPanic : (request.perform store).1 ≠ Go.panic) :
    (request.perform store).2.Coherent where
  backed := (effect_of_perform coherent.backed coherent.mirrored met noPanic).1
  mirrored := (effect_of_perform coherent.backed coherent.mirrored met noPanic).2.mirrored
      coherent.backed.1 coherent.mirrored

variable {start after : DepositStore}

/-- What every step keeps holds after a run. -/
theorem Coherent.run_keeps (coherent : start.Coherent) (met : AllMet requests start)
    (ran : run requests start = some after) (property : DepositStore → Prop)
    (holds : property start)
    (step : ∀ request ∈ requests, ∀ before after, before.Coherent → property before →
      Effect before after request.call → property after) :
    after.Coherent ∧ property after := by
  induction requests generalizing start with
  | nil =>
    obtain rfl := Option.some.inj ran
    exact ⟨coherent, holds⟩
  | cons request requests ih =>
    obtain ⟨noPanic, ran⟩ := run_cons_eq_some.mp ran
    have effect := (effect_of_perform coherent.backed coherent.mirrored met.1 noPanic).2
    refine ih (coherent.perform met.1 noPanic) met.2 ran ?_ ?_
    · exact step request List.mem_cons_self start _ coherent holds effect
    · exact fun other isMember => step other (List.mem_cons_of_mem _ isMember)

theorem Coherent.run (coherent : start.Coherent) (met : AllMet requests start)
    (ran : DepositStore.run requests start = some after) : after.Coherent :=
  (coherent.run_keeps met ran (fun _ => True) trivial fun _ _ _ _ _ _ _ => trivial).1

/-- The copies of the deposits after a run. -/
structure Agrees (requests : List Request) (start after : DepositStore) : Prop where
  mirrored : after.Mirrored
  dropped : ∀ earlier later between key, requests = earlier ++ later →
    run earlier start = some between → between.pool.lookup key ≠ none →
      after.pool.lookup key = none → after.depositDb.lookup key = none
  removed : ∀ earlier request later key, requests = earlier ++ request :: later →
    request.Removes key → (∀ other ∈ later, ¬ other.Adds key) → after.Absent key

/-- In a run whose requests all meet the conditions, the deposits in memory are in the
database, and what is dropped or removed is in neither. -/
theorem agrees_of_run (start : StoredDeposits) (used : start.isUsedDB = true)
    (empty : start.pool = ∅) (requests : List Request) (met : AllMet requests start.toDepositStore)
    (after : DepositStore) (ran : run requests start.toDepositStore = some after) :
    Agrees requests start.toDepositStore after := by
  have fresh : start.toDepositStore.Coherent := by
    refine ⟨⟨used, start.keyed⟩, fun key deposit found => ?_⟩
    rw [empty] at found
    cases found
  constructor
  · exact (fresh.run met ran).mirrored
  · intro earlier later between key isSplit ranEarlier inMemory
    subst isSplit
    obtain ⟨metEarlier, metLater⟩ := allMet_append met ranEarlier
    rw [run_append, ranEarlier] at ran
    have coherent := fresh.run metEarlier ranEarlier
    refine (coherent.run_keeps metLater ran (GoneTogether key) (fun isGone => absurd isGone inMemory)
      fun request _ before after coherent together effect => ?_).2
    exact effect.goneTogether coherent.backed.1 coherent.mirrored together
  · intro earlier request later key isSplit removes notAdded
    subst isSplit
    rw [run_append] at ran
    obtain ⟨between, ranEarlier, ran⟩ := Option.bind_eq_some_iff.mp ran
    obtain ⟨metEarlier, metLater⟩ := allMet_append met ranEarlier
    have coherent := fresh.run metEarlier ranEarlier
    obtain ⟨noPanic, ran⟩ := run_cons_eq_some.mp ran
    have effect := (effect_of_perform coherent.backed coherent.mirrored metLater.1 noPanic).2
    refine ((coherent.perform metLater.1 noPanic).run_keeps metLater.2 ran (Absent key)
      (effect.absent_of_removes removes) fun other isMember before after _ absent effect => ?_).2
    exact effect.absent absent (notAdded other isMember)

/-- A new pool with an empty database. -/
def newPool : StoredDeposits where
  pool := ∅
  isUsedDB := true
  depositDb := ∅
  keyed := keyed_empty

/-- A request to a database that works. -/
def plainRequest (call : Call) : Request where
  call := call
  fails := reliable
  order := .listed

/-- `Add` of a deposit that is the only leaf of its ledger. -/
def addLonely : Request :=
  plainRequest (.add (lonelyDeposit 0 false).outPoint 1 (lonelyDeposit 0 false).proof)

/-- `Add` of a deposit with a path that leads to no root. -/
def addStray : Request :=
  plainRequest (.add (some { (default : OutPoint) with index := 1 }) 1 (pathOf (sha256 []) []))

theorem addLonely_met (store : DepositStore) : addLonely.Met store where
  reliable := fun _ => rfl
  covered := nofun

/-- Every deposit after the first `Add` is a copy of the one that was added. -/
theorem update_met_after_addLonely :
    (plainRequest (.update idleUpdate 0 2)).Met (addLonely.perform newPool.toDepositStore).2 := by
  refine ⟨fun _ => rfl, ?_⟩
  rintro _ _ _ ⟨⟩ key deposit contains - -
  have inMemory : (addLonely.perform newPool.toDepositStore).2.pool.entries.map (·.2.proof) =
      [(lonelyDeposit 0 false).proof] := by decide
  have inDatabase : (addLonely.perform newPool.toDepositStore).2.depositDb.entries.map
      (Except.ok ·.2) = [encodeToBytes DepositInfo.codec (lonelyDeposit 0 false)] := by
    decide
  suffices same : Codec.merklePath.decoded deposit.proof =
      Codec.merklePath.decoded (lonelyDeposit 0 false).proof by
    rw [refreshes_iff, ← Update.updateProof_decoded, same]
    exact ⟨(lonelyDeposit 0 false).proof, by decide⟩
  rcases contains with found | ⟨-, data, found, written⟩
  · have isMember := List.mem_map_of_mem (f := (·.2.proof)) (AList.mem_lookup_iff.mp found)
    rw [inMemory] at isMember
    exact congrArg _ (List.mem_singleton.mp isMember)
  · have isMember := List.mem_map_of_mem (f := (.ok ·.2 : _ → Go Bytes)) (AList.mem_lookup_iff.mp found)
    rw [inDatabase] at isMember
    exact congrArg DepositInfo.proof ((Rlp.bytesOf Fault.panic DepositInfo.codec).decoded_of_write
      written (List.mem_singleton.mp isMember).symm)

/-- A deposit that is added, refreshed and removed. -/
theorem agrees_of_add_update_remove :
    ∃ after, run [addLonely, plainRequest (.update idleUpdate 0 2),
        plainRequest (.remove (lonelyDeposit 0 false).outPoint)] newPool.toDepositStore = some after ∧
      Agrees [addLonely, plainRequest (.update idleUpdate 0 2),
        plainRequest (.remove (lonelyDeposit 0 false).outPoint)] newPool.toDepositStore after := by
  have ends : (run [addLonely, plainRequest (.update idleUpdate 0 2),
      plainRequest (.remove (lonelyDeposit 0 false).outPoint)] newPool.toDepositStore).isSome := by
    decide
  obtain ⟨after, ran⟩ := Option.isSome_iff_exists.mp ends
  refine ⟨after, ran, agrees_of_run newPool rfl rfl _ ?_ after ran⟩
  exact ⟨addLonely_met _, update_met_after_addLonely, ⟨fun _ => rfl, nofun⟩, trivial⟩

/-- An update that cannot refresh one of two deposits has refreshed the other in memory
when it returns the error. -/
theorem failed_update_splits_copies :
    ∃ after, run [addStray, addLonely, plainRequest (.update idleUpdate 0 2)] newPool.toDepositStore =
      some after ∧ ¬ after.Mirrored := by
  have evaluated :
      (run [addStray, addLonely, plainRequest (.update idleUpdate 0 2)] newPool.toDepositStore).map
          (fun after => ((after.pool.lookup (keyOf (lonelyDeposit 0 false))).map DepositInfo.blockHeight,
            after.depositDb.lookup (keyOf (lonelyDeposit 0 false)))) =
        some (some 2, (encodeToBytes DepositInfo.codec (lonelyDeposit 0 false)).toOption) ∧
      encodeToBytes DepositInfo.codec (lonelyDeposit 0 false) =
        .ok ((encodeToBytes DepositInfo.codec (lonelyDeposit 0 false)).toOption.getD []) := by
    decide
  obtain ⟨ran, written⟩ := evaluated
  obtain ⟨after, isAfter, seen⟩ := Option.map_eq_some_iff.mp ran
  refine ⟨after, isAfter, fun mirrored => ?_⟩
  obtain ⟨inMemory, inDatabase⟩ := Prod.mk.inj seen
  obtain ⟨deposit, found, isTwo⟩ := Option.map_eq_some_iff.mp inMemory
  obtain ⟨data, present, writtenToo⟩ := mirrored _ deposit found
  rw [inDatabase, written] at present
  obtain rfl := Option.some.inj present
  have same := (Rlp.bytesOf Fault.panic DepositInfo.codec).decoded_of_write written writtenToo
  have sameHeight : (1 : Int) = deposit.blockHeight := congrArg DepositInfo.blockHeight same
  rw [isTwo] at sameHeight
  exact absurd sameHeight (by decide)

end DepositStore

end MultiVac.Ledger
