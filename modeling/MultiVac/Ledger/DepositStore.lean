import MultiVac.Ledger.Pools
import MultiVac.Lib.Stateful
import MultiVac.Wire.Header

/-!
# The deposit pool and its database

`depositpool.DepositPool` with the database of a pool that uses one. Every call first
changes the deposits in memory and then the database, and returns at the first error, so
an error may come between the two.
-/

namespace MultiVac.Ledger

open Lib Wire Merkle

/-- The RLP format of `DepositInfo`. -/
def DepositInfo.codec : Codec DepositInfo :=
  Codec.struct (Format.field Codec.outPoint <| Format.field Codec.merklePath <|
      Format.field Codec.int64 <|
      Format.field Codec.bool <|
      Format.noFields)
    (fun value => (value.outPoint, value.proof, value.blockHeight, value.locked, ()))
    (fun (outPoint, proof, blockHeight, locked, _) => { outPoint, proof, blockHeight, locked })
    (fun _ => rfl)

/-- An operation on the database that the environment may let fail. -/
inductive DbOperation where
  | has (key : MerkleHash)
  | get (key : MerkleHash)
  | put (key : MerkleHash)
  | delete (key : MerkleHash)
  | iterate

/-- `DepositPool`. The keys of the database are the hashes that the keys of the map spell out
in hexadecimal digits. -/
structure DepositStore where
  pool : DepositPool
  isUsedDB : Bool
  depositDb : Table MerkleHash Bytes

/-- A call on the pool. -/
abbrev DepositCall (α : Type) := Stateful Fault DepositStore α

namespace DepositStore

open Lib.Stateful

/-! ### The database -/

section Database

variable (fails : DbOperation → Bool)

/-- An operation that fails or has an effect. -/
def operate {α : Type} (operation : DbOperation) (effect : DepositCall α) : DepositCall α :=
  if fails operation then lift (Go.fail "leveldb") else effect

variable (key : MerkleHash)

/-- `depositDb.Has`. -/
def dbHas : DepositCall Bool :=
  operate fails (.has key) (inspect fun store => (store.depositDb.lookup key).isSome)

/-- `depositDb.Get`. -/
def dbGet : DepositCall Bytes :=
  operate fails (.get key) do
    match ← inspect fun store => store.depositDb.lookup key with
    | some value => return value
    | none => lift (Go.fail "leveldb: not found")

/-- `depositDb.Put`. -/
def dbPut (value : Bytes) : DepositCall Unit :=
  operate fails (.put key)
    (change fun store => { store with depositDb := store.depositDb.insert key value })

/-- `depositDb.Delete`. -/
def dbDelete : DepositCall Unit :=
  operate fails (.delete key)
    (change fun store => { store with depositDb := store.depositDb.erase key })

/-- `rlp.DecodeBytes` of a deposit. -/
def decodeDeposit (data : Bytes) : Go DepositInfo :=
  match decodeBytes DepositInfo.codec data with
  | some deposit => .ok deposit
  | none => Go.fail "rlp"

/-- `getAllDeposit`. -/
def getAllDeposit : DepositCall (List DepositInfo) :=
  operate fails .iterate do
    let values ← inspect fun store => store.depositDb.entries.map Sigma.snd
    lift (values.mapM decodeDeposit)

/-! ### The calls -/

/-- The part of `Add` for the database. -/
def saveAdded (d : DepositInfo) : DepositCall Unit := do
  if ← dbHas fails key then
    let deposit ← lift (decodeDeposit (← dbGet fails key))
    -- the deposit in memory is the same object
    let d := { d with locked := deposit.locked }
    change fun store => { store with pool := store.pool.insert key d }
    dbPut fails key (← lift (encodeToBytes DepositInfo.codec d))
  else
    dbPut fails key (← lift (encodeToBytes DepositInfo.codec d))

/-- `Add`. -/
def add (out : Option OutPoint) (height : Int) (proof : Option MerklePath) : DepositCall Unit :=
  match out, proof with
  | some out, some proof => do
    let key ← lift out.unspentOutHash
    let known ← inspect fun store => store.pool.lookup key
    let d : DepositInfo :=
      { outPoint := out, proof, blockHeight := height
        locked := known.elim false DepositInfo.locked }
    change fun store => { store with pool := store.pool.insert key d }
    if ← inspect DepositStore.isUsedDB then saveAdded fails key d
  | _, _ => lift (Go.fail "add nil proof or out")

/-- `Remove`. -/
def remove (out : OutPoint) : DepositCall Unit := do
  let key ← lift out.unspentOutHash
  change fun store => { store with pool := store.pool.erase key }
  if ← inspect DepositStore.isUsedDB then
    if ← dbHas fails key then dbDelete fails key

/-- The part of `Lock` for the database. -/
def saveLocked : DepositCall Unit := do
  if ← dbHas fails key then
    let deposit ← lift (decodeDeposit (← dbGet fails key))
    dbPut fails key (← lift (encodeToBytes DepositInfo.codec { deposit with locked := true }))
  else
    lift (Go.fail "this deposit tx not exist")

/-- `Lock`. -/
def lock (out : OutPoint) : DepositCall Unit := do
  let key ← lift out.unspentOutHash
  change fun store =>
    match store.pool.lookup key with
    | some deposit =>
      { store with pool := store.pool.insert key { deposit with locked := true } }
    | none => store
  if ← inspect DepositStore.isUsedDB then saveLocked fails key

/-- The first loop of `Update`, for one deposit in memory. -/
def updateInMemory (update : Update) (shard : ShardIndex) (height : Int)
    (entry : Sigma fun _ : MerkleHash => DepositInfo) : DepositCall Unit := do
  let next ← lift (DepositPool.updateDeposit update shard height entry.2)
  change fun store => { store with pool := store.pool.put entry.1 next }

/-- The second loop of `Update`, for one deposit in the database. -/
def updateInDatabase (update : Update) (shard : ShardIndex) (height : Int)
    (deposit : DepositInfo) : DepositCall Unit :=
  if deposit.locked then
    if height - deposit.blockHeight > withdrawHeight then do
      let key ← lift deposit.outPoint.unspentOutHash
      if ← dbHas fails key then dbDelete fails key
    else pure ()
  else if deposit.outPoint.shard ≠ shard then pure ()
  else do
    let newProof ← lift (update.updateProof deposit.proof)
    let deposit := { deposit with proof := newProof, blockHeight := height }
    let key ← lift deposit.outPoint.unspentOutHash
    dbPut fails key (← lift (encodeToBytes DepositInfo.codec deposit))

/-- `Update`. Go visits the map in any order. -/
def update (order : MapOrder) (update : Update) (shard : ShardIndex) (height : Int) :
    DepositCall Unit := do
  let entries ← inspect fun store => order.visit store.pool.entries
  each entries (updateInMemory update shard height)
  if ← inspect DepositStore.isUsedDB then
    each (← getAllDeposit fails) (updateInDatabase fails update shard height)

end Database

end DepositStore

/-! ### Deposits after a stay in the database -/

theorem merklePath_complete : Codec.merklePath.Complete :=
  Codec.struct_complete
    (((Codec.list_complete Codec.byteArray_complete).via Slice.elems_of).field <|
      Codec.byteSlice_complete.field Codec.noFields_complete) _

theorem DepositInfo.codec_complete : DepositInfo.codec.Complete :=
  Codec.struct_complete
    (Codec.outPoint_complete.field <| merklePath_complete.field <| Codec.int64_complete.field <|
      Codec.bool_complete.field Codec.noFields_complete) _

theorem decoded_codec (deposit : DepositInfo) :
    DepositInfo.codec.decoded deposit =
      { outPoint := Codec.outPoint.decoded deposit.outPoint
        proof := Codec.merklePath.decoded deposit.proof
        blockHeight := deposit.blockHeight
        locked := deposit.locked } := rfl

/-- A path is refreshed by its hashes and sides, whether its slices are `nil` or empty. -/
theorem Update.updateProof_decoded (update : Update) (proof : MerklePath) :
    update.updateProof (Codec.merklePath.decoded proof) = update.updateProof proof := by
  have sameHashes : (Codec.merklePath.decoded proof).hashes.elems = proof.hashes.elems := by
    exact List.map_id _
  have sameSides : (Codec.merklePath.decoded proof).proofPath.elems = proof.proofPath.elems := rfl
  simp only [updateProof, MerkleTree.refreshMerklePath, verify, getLeaf, steps, Slice.length,
    sameHashes, sameSides]
  rfl

theorem OutPoint.unspentOutHash_decoded (out : OutPoint) :
    (Codec.outPoint.decoded out).unspentOutHash = out.unspentOutHash := by
  have sameState : (Codec.outPoint.decoded out).toUnspentOutState =
      Codec.outState.decoded out.toUnspentOutState := by
    rfl
  rw [OutPoint.unspentOutHash, sameState]
  exact hashOf_decoded Codec.outState _

/-- The encoding of a deposit does not tell `nil` slices of its out from empty ones. -/
theorem encodeToBytes_of_decoded_eq {first second : DepositInfo}
    (same : DepositInfo.codec.decoded first = DepositInfo.codec.decoded second) :
    encodeToBytes DepositInfo.codec first = encodeToBytes DepositInfo.codec second := by
  have firstWrites := (Rlp.bytesOf Fault.panic DepositInfo.codec).write_decoded first
  have secondWrites := (Rlp.bytesOf Fault.panic DepositInfo.codec).write_decoded second
  rw [encodeToBytes, encodeToBytes, ← firstWrites, ← secondWrites]
  exact congrArg _ same

/-- What `Update` makes of a deposit, by cases. -/
theorem DepositPool.updateDeposit_eq (update : Update) (shard : ShardIndex) (height : Int)
    (deposit : DepositInfo) :
    DepositPool.updateDeposit update shard height deposit =
      if deposit.locked = true then
        .ok (if height - deposit.blockHeight > withdrawHeight then none else some deposit)
      else if deposit.outPoint.shard ≠ shard then .ok (some deposit)
      else (update.updateProof deposit.proof).map fun newProof =>
        some { deposit with proof := newProof, blockHeight := height } := by
  unfold updateDeposit
  split
  · rfl
  · split
    · rfl
    · cases update.updateProof deposit.proof <;> rfl

/-- What `Update` makes of a deposit and of its copy in the database has one encoding. -/
theorem DepositPool.updateDeposit_decoded {update : Update} {shard : ShardIndex} {height : Int}
    {deposit : DepositInfo} {next : Option DepositInfo}
    (updated : DepositPool.updateDeposit update shard height (DepositInfo.codec.decoded deposit) =
      .ok next) :
    ∃ own, DepositPool.updateDeposit update shard height deposit = .ok own ∧
      own.map (encodeToBytes DepositInfo.codec) = next.map (encodeToBytes DepositInfo.codec) := by
  have sameBytes : encodeToBytes DepositInfo.codec (DepositInfo.codec.decoded deposit) =
      encodeToBytes DepositInfo.codec deposit :=
    encodeToBytes_of_decoded_eq (DepositInfo.codec.decoded_decoded deposit)
  have sameLocked : (DepositInfo.codec.decoded deposit).locked = deposit.locked := rfl
  have sameHeight : (DepositInfo.codec.decoded deposit).blockHeight = deposit.blockHeight := rfl
  have sameShard : (DepositInfo.codec.decoded deposit).outPoint.shard = deposit.outPoint.shard :=
    Codec.decoded_uint32 _
  have samePath : update.updateProof (DepositInfo.codec.decoded deposit).proof =
      update.updateProof deposit.proof :=
    update.updateProof_decoded deposit.proof
  rw [updateDeposit_eq, sameLocked, sameHeight, sameShard, samePath] at updated
  rw [updateDeposit_eq]
  split at updated
  · next locked =>
    obtain rfl := Except.ok.inj updated
    rw [if_pos locked]
    refine ⟨_, rfl, ?_⟩
    split
    · rfl
    · rw [Option.map_some, Option.map_some, sameBytes]
  · next unlocked =>
    rw [if_neg unlocked]
    split at updated
    · next other =>
      obtain rfl := Except.ok.inj updated
      rw [if_pos other]
      exact ⟨_, rfl, by rw [Option.map_some, Option.map_some, sameBytes]⟩
    · next own =>
      rw [if_neg own]
      obtain ⟨newProof, refreshed, rfl⟩ := map_eq_ok.mp updated
      rw [refreshed]
      refine ⟨_, rfl, ?_⟩
      rw [Option.map_some, Option.map_some, encodeToBytes_of_decoded_eq]
      simp only [decoded_codec, Codec.outPoint.decoded_decoded]

namespace DepositStore

open Lib.Stateful

/-- The database holds a deposit under a key. -/
def Holds (db : Table MerkleHash Bytes) (key : MerkleHash) (deposit : DepositInfo) : Prop :=
  ∃ data, db.lookup key = some data ∧ encodeToBytes DepositInfo.codec deposit = .ok data

/-- Every deposit in the database is under the hash of its out. -/
def Keyed (db : Table MerkleHash Bytes) : Prop :=
  ∀ key data, db.lookup key = some data →
    ∃ deposit, encodeToBytes DepositInfo.codec deposit = .ok data ∧
      deposit.outPoint.unspentOutHash = .ok key

/-- The deposit that is read for one that was written. -/
theorem decodeDeposit_of_encode {deposit : DepositInfo} {data : Bytes}
    (written : encodeToBytes DepositInfo.codec deposit = .ok data) :
    decodeDeposit data = .ok (DepositInfo.codec.decoded deposit) := by
  rw [decodeDeposit, decodeBytes_of_encodeToBytes DepositInfo.codec_complete written]

theorem keyed_empty : Keyed ∅ := by
  intro key data found
  cases found

theorem Keyed.insert {db : Table MerkleHash Bytes} (keyed : Keyed db) {deposit : DepositInfo}
    {data : Bytes} (written : encodeToBytes DepositInfo.codec deposit = .ok data) {key : MerkleHash}
    (isKey : deposit.outPoint.unspentOutHash = .ok key) : Keyed (db.insert key data) := by
  intro other otherData found
  by_cases same : other = key
  · rw [same, AList.lookup_insert] at found
    cases found
    exact ⟨deposit, written, same ▸ isKey⟩
  · rw [AList.lookup_insert_ne same] at found
    exact keyed other otherData found

/-! ### What a successful `Update` does -/

section Update

variable {fails : DbOperation → Bool} {update : Update} {shard : ShardIndex} {height : Int}
  {store after : DepositStore}

theorem operate_eq_ok {α : Type} {operation : DbOperation} {effect : DepositCall α} {result : α} :
    operate fails operation effect store = (.ok result, after) ↔
      fails operation = false ∧ effect store = (.ok result, after) := by
  unfold operate
  cases failed : fails operation <;> simp [Go.fail]

theorem each_updateInMemory {entries : List (Sigma fun _ : MerkleHash => DepositInfo)}
    (ran : each entries (updateInMemory update shard height) store = (.ok (), after)) :
    ∃ pool, after = { store with pool } ∧ entries.foldlM (fun current entry => do
        return current.put entry.1 (← DepositPool.updateDeposit update shard height entry.2))
        store.pool = .ok pool := by
  induction entries generalizing store with
  | nil =>
    cases ran
    exact ⟨_, rfl, rfl⟩
  | cons entry entries ih =>
    obtain ⟨between, first, others⟩ := each_cons_eq_ok.mp ran
    obtain ⟨next, _, updated, changed⟩ := Stateful.bind_eq_ok.mp first
    obtain ⟨isNext, rfl⟩ := Prod.mk.inj updated
    obtain ⟨-, rfl⟩ := Prod.mk.inj changed
    obtain ⟨pool, rfl, looped⟩ := ih others
    refine ⟨pool, rfl, ?_⟩
    rw [List.foldlM_cons, isNext]
    exact looped

variable {deposit : DepositInfo} {key : MerkleHash}

theorem updateInDatabase_spec (isKey : deposit.outPoint.unspentOutHash = .ok key)
    (ran : updateInDatabase fails update shard height deposit store = (.ok (), after)) :
    after.pool = store.pool ∧ after.isUsedDB = store.isUsedDB ∧
      (∀ other, other ≠ key → after.depositDb.lookup other = store.depositDb.lookup other) ∧
      ∃ next, DepositPool.updateDeposit update shard height deposit = .ok next ∧
        (next = none → after.depositDb.lookup key = none) ∧
        ∀ kept, next = some kept →
          kept = deposit ∧ after = store ∨ Holds after.depositDb key kept := by
  rw [DepositPool.updateDeposit_eq]
  unfold updateInDatabase at ran
  split at ran
  · next locked =>
    rw [if_pos locked]
    split at ran
    · next expired =>
      obtain ⟨_, _, hashed, rest⟩ := Stateful.bind_eq_ok.mp ran
      obtain ⟨sameKey, rfl⟩ := Prod.mk.inj hashed
      rw [isKey] at sameKey
      cases sameKey
      obtain ⟨has, _, looked, rest⟩ := Stateful.bind_eq_ok.mp rest
      obtain ⟨-, isHas⟩ := operate_eq_ok.mp looked
      obtain ⟨sameHas, rfl⟩ := Prod.mk.inj isHas
      cases sameHas
      rw [if_pos expired]
      split at rest
      · obtain ⟨-, deleted⟩ := operate_eq_ok.mp rest
        obtain ⟨-, rfl⟩ := Prod.mk.inj deleted
        refine ⟨rfl, rfl, fun other differs => AList.lookup_erase_ne differs, none, rfl, ?_, ?_⟩
        · exact fun _ => AList.lookup_erase _ _
        · exact fun _ isSome => absurd isSome (by simp)
      · next absent =>
        obtain ⟨-, rfl⟩ := Prod.mk.inj rest
        refine ⟨rfl, rfl, fun _ _ => rfl, none, rfl, ?_, ?_⟩
        · exact fun _ => Option.not_isSome_iff_eq_none.mp absent
        · exact fun _ isSome => absurd isSome (by simp)
    · next current =>
      obtain ⟨-, rfl⟩ := Prod.mk.inj ran
      rw [if_neg current]
      exact ⟨rfl, rfl, fun _ _ => rfl, some deposit, rfl, by simp, by simp⟩
  · next unlocked =>
    rw [if_neg unlocked]
    split at ran
    · next other =>
      obtain ⟨-, rfl⟩ := Prod.mk.inj ran
      rw [if_pos other]
      exact ⟨rfl, rfl, fun _ _ => rfl, some deposit, rfl, by simp, by simp⟩
    · next own =>
      rw [if_neg own]
      obtain ⟨newProof, _, refreshed, rest⟩ := Stateful.bind_eq_ok.mp ran
      obtain ⟨isProof, rfl⟩ := Prod.mk.inj refreshed
      obtain ⟨_, _, hashed, rest⟩ := Stateful.bind_eq_ok.mp rest
      obtain ⟨sameKey, rfl⟩ := Prod.mk.inj hashed
      rw [isKey] at sameKey
      cases sameKey
      obtain ⟨data, _, encoded, rest⟩ := Stateful.bind_eq_ok.mp rest
      obtain ⟨isData, rfl⟩ := Prod.mk.inj encoded
      obtain ⟨-, put⟩ := operate_eq_ok.mp rest
      obtain ⟨-, rfl⟩ := Prod.mk.inj put
      refine ⟨rfl, rfl, fun other differs => AList.lookup_insert_ne differs, _, by rw [isProof]; rfl,
        fun isNone => absurd isNone (by simp), ?_⟩
      rintro _ ⟨⟩
      exact Or.inr ⟨data, AList.lookup_insert _, isData⟩

/-- What `Update` makes of a deposit in the database. -/
def Refreshed (update : Ledger.Update) (shard : ShardIndex) (height : Int)
    (db : Table MerkleHash Bytes) (key : MerkleHash) (deposit : DepositInfo) : Prop :=
  ∃ next, DepositPool.updateDeposit update shard height deposit = .ok next ∧
    (next = none → db.lookup key = none) ∧ ∀ kept, next = some kept → Holds db key kept

/-- The step for a deposit, from the step for the copy that was read. -/
theorem refreshed_of_decoded {data : Bytes}
    (written : encodeToBytes DepositInfo.codec deposit = .ok data)
    (isKey : deposit.outPoint.unspentOutHash = .ok key)
    (present : store.depositDb.lookup key = some data)
    (ran : updateInDatabase fails update shard height (DepositInfo.codec.decoded deposit) store =
      (.ok (), after)) :
    after.pool = store.pool ∧ after.isUsedDB = store.isUsedDB ∧
      (∀ other, other ≠ key → after.depositDb.lookup other = store.depositDb.lookup other) ∧
      Refreshed update shard height after.depositDb key deposit := by
  have sameKey : (DepositInfo.codec.decoded deposit).outPoint.unspentOutHash = .ok key :=
    (OutPoint.unspentOutHash_decoded _).trans isKey
  obtain ⟨samePool, sameUse, others, next, updated, gone, kept⟩ := updateInDatabase_spec sameKey ran
  obtain ⟨own, updatedOwn, sameBytes⟩ := DepositPool.updateDeposit_decoded updated
  refine ⟨samePool, sameUse, others, own, updatedOwn, ?_, ?_⟩
  · rintro rfl
    exact gone (Option.map_eq_none_iff.mp sameBytes.symm)
  · rintro ownKept rfl
    obtain ⟨copy, rfl, sameCopy⟩ := Option.map_eq_some_iff.mp sameBytes.symm
    rcases kept copy rfl with ⟨rfl, rfl⟩ | ⟨copyData, found, isData⟩
    · refine ⟨data, present, ?_⟩
      rw [← sameCopy, encodeToBytes_of_decoded_eq (DepositInfo.codec.decoded_decoded deposit)]
      exact written
    · exact ⟨copyData, found, by rw [← sameCopy, isData]⟩

theorem each_updateInDatabase {entries : List (Sigma fun _ : MerkleHash => Bytes)}
    (distinct : entries.NodupKeys)
    (keyed : ∀ entry ∈ entries, ∃ deposit, encodeToBytes DepositInfo.codec deposit = .ok entry.2 ∧
      deposit.outPoint.unspentOutHash = .ok entry.1) {deposits : List DepositInfo}
    (decoded : (entries.map Sigma.snd).mapM decodeDeposit = .ok deposits)
    (present : ∀ entry ∈ entries, store.depositDb.lookup entry.1 = some entry.2)
    (ran : each deposits (updateInDatabase fails update shard height) store = (.ok (), after)) :
    after.pool = store.pool ∧ after.isUsedDB = store.isUsedDB ∧
      (∀ key, key ∉ entries.keys → after.depositDb.lookup key = store.depositDb.lookup key) ∧
      ∀ entry ∈ entries, ∀ deposit, encodeToBytes DepositInfo.codec deposit = .ok entry.2 →
        Refreshed update shard height after.depositDb entry.1 deposit := by
  induction entries generalizing deposits store with
  | nil =>
    obtain rfl := pure_eq_ok.mp decoded
    cases ran
    exact ⟨rfl, rfl, fun _ _ => rfl, by simp⟩
  | cons entry entries ih =>
    obtain ⟨fresh, distinctRest⟩ := List.nodupKeys_cons.mp distinct
    obtain ⟨deposit, written, isKey⟩ := keyed entry List.mem_cons_self
    rw [List.map_cons, List.mapM_cons, decodeDeposit_of_encode written] at decoded
    obtain ⟨_, ⟨⟩, decoded⟩ := bind_eq_ok.mp decoded
    obtain ⟨rest, decodedRest, same⟩ := bind_eq_ok.mp decoded
    obtain rfl := pure_eq_ok.mp same
    obtain ⟨between, first, others⟩ := each_cons_eq_ok.mp ran
    have isPresent := present entry List.mem_cons_self
    obtain ⟨samePool, sameUse, untouched, -⟩ := refreshed_of_decoded written isKey isPresent first
    have presentRest : ∀ other ∈ entries, between.depositDb.lookup other.1 = some other.2 := by
      intro other isMember
      have differs : other.1 ≠ entry.1 := fun same => fresh (same ▸ List.mem_keys_of_mem isMember)
      rw [untouched _ differs]
      exact present other (List.mem_cons_of_mem _ isMember)
    obtain ⟨samePoolRest, sameUseRest, untouchedRest, refreshedRest⟩ :=
      ih distinctRest (fun other isMember => keyed other (List.mem_cons_of_mem _ isMember))
        decodedRest presentRest others
    refine ⟨samePoolRest.trans samePool, sameUseRest.trans sameUse, ?_, ?_⟩
    · intro key notIn
      rw [List.keys_cons, List.mem_cons, not_or] at notIn
      rw [untouchedRest key notIn.2, untouched key notIn.1]
    · refine List.forall_mem_cons.mpr ⟨fun other writtenToo => ?_, refreshedRest⟩
      have sameDecoded : DepositInfo.codec.decoded deposit = DepositInfo.codec.decoded other :=
        (Rlp.bytesOf Fault.panic DepositInfo.codec).decoded_of_write written writtenToo
      have isKeyToo : other.outPoint.unspentOutHash = .ok entry.1 := by
        have sameOut := congrArg DepositInfo.outPoint sameDecoded
        simp only [decoded_codec] at sameOut
        rw [← OutPoint.unspentOutHash_decoded, ← sameOut, OutPoint.unspentOutHash_decoded, isKey]
      rw [sameDecoded] at first
      obtain ⟨-, -, -, next, updated, gone, kept⟩ :=
        refreshed_of_decoded writtenToo isKeyToo isPresent first
      -- The later steps do not touch the key of this one.
      have sameLater := untouchedRest entry.1 fresh
      refine ⟨next, updated, fun isNone => sameLater.trans (gone isNone), fun keeps isKept => ?_⟩
      obtain ⟨data, found, isData⟩ := kept keeps isKept
      exact ⟨data, sameLater.trans found, isData⟩

/-- What a successful `Update` does to both stores. -/
structure Updated (update : Ledger.Update) (shard : ShardIndex) (height : Int)
    (before after : DepositStore) : Prop where
  isUsedDB : after.isUsedDB = before.isUsedDB
  absentInMemory : ∀ key, before.pool.lookup key = none → after.pool.lookup key = none
  inMemory : ∀ key deposit, before.pool.lookup key = some deposit →
    DepositPool.updateDeposit update shard height deposit = .ok (after.pool.lookup key)
  absentInDatabase : ∀ key, before.depositDb.lookup key = none → after.depositDb.lookup key = none
  inDatabase : before.isUsedDB = true → ∀ key deposit, Holds before.depositDb key deposit →
    Refreshed update shard height after.depositDb key deposit

theorem updated_of_update {order : MapOrder} {before after : DepositStore}
    (keyed : Keyed before.depositDb)
    (ran : DepositStore.update fails order update shard height before = (.ok (), after)) :
    Updated update shard height before after := by
  obtain ⟨_, _, visited, rest⟩ := Stateful.bind_eq_ok.mp ran
  obtain ⟨isVisited, rfl⟩ := Prod.mk.inj visited
  cases isVisited
  obtain ⟨_, between, looped, rest⟩ := Stateful.bind_eq_ok.mp rest
  obtain ⟨pool, rfl, isPool⟩ := each_updateInMemory looped
  have visitedPerm := order.visit_perm before.pool.entries
  obtain ⟨updatedInMemory, others⟩ := @Table.lookup_foldlM_put _ _ _ _
    (fun _ deposit => DepositPool.updateDeposit update shard height deposit) _
    ((List.perm_nodupKeys visitedPerm).mpr before.pool.nodupKeys) _ _ isPool
  have absentInMemory : ∀ key, before.pool.lookup key = none → pool.lookup key = none := by
    intro key absent
    rw [others key, absent]
    intro isMember
    exact AList.lookup_eq_none.mp absent ((visitedPerm.map Sigma.fst).mem_iff.mp isMember)
  have inMemory : ∀ key deposit, before.pool.lookup key = some deposit →
      DepositPool.updateDeposit update shard height deposit = .ok (pool.lookup key) := by
    intro key deposit found
    exact updatedInMemory ⟨key, deposit⟩ (visitedPerm.mem_iff.mpr (AList.mem_lookup_iff.mp found))
  obtain ⟨_, _, used, rest⟩ := Stateful.bind_eq_ok.mp rest
  obtain ⟨isUsed, rfl⟩ := Prod.mk.inj used
  cases isUsed
  split at rest
  · obtain ⟨deposits, _, listed, looped⟩ := Stateful.bind_eq_ok.mp rest
    obtain ⟨-, listed⟩ := operate_eq_ok.mp listed
    obtain ⟨_, _, values, decoded⟩ := Stateful.bind_eq_ok.mp listed
    obtain ⟨isValues, rfl⟩ := Prod.mk.inj values
    cases isValues
    obtain ⟨isDecoded, rfl⟩ := Prod.mk.inj decoded
    have present : ∀ entry ∈ before.depositDb.entries,
        ({ before with pool } : DepositStore).depositDb.lookup entry.1 = some entry.2 :=
      fun entry isMember => AList.mem_lookup_iff.mpr isMember
    obtain ⟨samePool, sameUse, untouched, refreshed⟩ := each_updateInDatabase
      before.depositDb.nodupKeys
      (fun entry isMember => keyed entry.1 entry.2 (present entry isMember)) isDecoded present looped
    refine ⟨sameUse, by rwa [samePool], by rwa [samePool], ?_, ?_⟩
    · intro key absent
      rw [untouched key (AList.lookup_eq_none.mp absent), absent]
    · rintro - key deposit ⟨data, found, written⟩
      exact refreshed ⟨key, data⟩ (AList.mem_lookup_iff.mp found) deposit written
  · next unused =>
    obtain ⟨-, rfl⟩ := Prod.mk.inj rest
    exact ⟨rfl, absentInMemory, inMemory, fun _ absent => absent,
      fun isUsed => absurd isUsed unused⟩

end Update

end DepositStore

end MultiVac.Ledger
