import MultiVac.Base.Bytes

/-!
# The database of a storage node

`base/db`: a key-value store with a write set. While a record is open, writes go
to the write set and deletions to the store below it. The write set does not keep
two hashes for one node: a new hash first deletes the hash with which the node was
recorded. The model also lists the keys that a record has deleted, so that the contents of
the store below it can be told at every moment.
-/

namespace MultiVac

/-- `valueInDB`: the hash of a node with the ids of its parent and its children. Zero
is `NilKey`, the id of no node. -/
structure ValueInDB where
  hash : MerkleHash
  pid : Nat
  lid : Nat
  rid : Nat
deriving DecidableEq

/-- The keys that are used: hashes of 32 bytes, node ids of 8 bytes, and some texts
of other lengths. -/
inductive DbKey where
  | hash (hash : MerkleHash)
  | node (id : Nat)
  | nodeCursor
  | ledgertreeRoot
  | ledgertreeLastnodehash
  | ledgertreeSize
  | storageShardheight
  | shardHeight (id : UInt32)
deriving DecidableEq

/-- The values behind the keys. -/
inductive DbValue where
  | id (id : Nat)
  | node (value : ValueInDB)
  | number (value : Int)
  | hash (hash : Option MerkleHash)
deriving DecidableEq

/-- `dbImpl`. The map `imem` is empty except during `CommitTransaction`. -/
structure Database where
  db : DbKey → Option DbValue
  blockWriteSet : Option (DbKey → Option DbValue)
  /-- The keys passed to `Delete` since the record was started. The source does not keep
  them, and no operation reads them. -/
  deleted : List DbKey

namespace Database

/-- A database without entries. -/
def empty : Database := ⟨fun _ => none, none, []⟩

variable (store : Database)

variable (key : DbKey)

/-- `Get`: the write set hides the store below it. -/
def get : Option DbValue :=
  match store.blockWriteSet with
  | none => store.db key
  | some writeSet => (writeSet key).or (store.db key)

/-- The rule of `Put` for keys of 32 bytes: when the node that gets a hash is in the
write set, the hash that it has there is deleted. -/
def forgetHash (writeSet : DbKey → Option DbValue) : DbKey → DbValue → DbKey → Option DbValue
  | .hash _, .id id =>
    match writeSet (.node id) with
    | some (.node value) => Function.update writeSet (.hash value.hash) none
    | _ => writeSet
  | _, _ => writeSet

/-- `Put`: into the write set of the record if one is open. -/
def put (value : DbValue) : Database :=
  match store.blockWriteSet with
  | none => { store with db := Function.update store.db key (some value) }
  | some writeSet =>
    { store with
      blockWriteSet := some (Function.update (forgetHash writeSet key value) key (some value)) }

/-- `Delete`, which does not look at the write set. -/
def delete : Database :=
  { store with db := Function.update store.db key none, deleted := key :: store.deleted }

/-- `StartTransactionRecord`. -/
def startTransactionRecord : Database :=
  { store with blockWriteSet := some fun _ => none, deleted := [] }

/-- `CommitTransaction`: the batch of the write set is written as one. -/
def commitTransaction : Database := ⟨store.get, none, []⟩

/-- A record is open. -/
def isOpen : Bool := store.blockWriteSet.isSome

@[simp]
theorem isOpen_put (value : DbValue) : (store.put key value).isOpen = store.isOpen := by
  cases writes : store.blockWriteSet <;> simp [put, isOpen, writes]

@[simp]
theorem deleted_put (value : DbValue) : (store.put key value).deleted = store.deleted := by
  cases writes : store.blockWriteSet <;> simp [put, writes]

/-- In a record, puts do not reach the store below it. -/
theorem db_put {store : Database} (opened : store.isOpen = true) (key : DbKey)
    (value : DbValue) : (store.put key value).db = store.db := by
  obtain ⟨writeSet, isWriteSet⟩ := Option.isSome_iff_exists.mp opened
  simp only [put, isWriteSet]

@[simp]
theorem isOpen_delete : (store.delete key).isOpen = store.isOpen := rfl

/-! ### What is read after a write -/

@[simp]
theorem get_put_self (value : DbValue) : (store.put key value).get key = some value := by
  cases writes : store.blockWriteSet <;> simp [put, get, writes]

theorem forgetHash_of_noHash (writeSet : DbKey → Option DbValue) (key : DbKey) (value : DbValue)
    {other : DbKey} (noHash : ∀ hash, other ≠ .hash hash) :
    forgetHash writeSet key value other = writeSet other := by
  cases key <;> cases value <;> simp only [forgetHash]
  rename_i id
  rcases writeSet (.node id) with _ | (_ | _ | _ | _) <;> simp [noHash]

/-- A key that is not a hash is only changed by a write to itself. -/
theorem get_put_of_ne {key other : DbKey} (value : DbValue)
    (different : other ≠ key) (noHash : ∀ hash, other ≠ .hash hash) :
    (store.put key value).get other = store.get other := by
  cases writes : store.blockWriteSet with
  | none => simp [put, get, writes, different]
  | some writeSet =>
    simp [put, get, writes, different, forgetHash_of_noHash writeSet key value noHash]

/-! ### Writes between two moments -/

/-- A database becomes another one by puts and by deletions of hashes. -/
inductive Reaches (first : Database) : Database → Prop where
  | refl : Reaches first first
  | put {last : Database} (reaches : Reaches first last) (key : DbKey) (value : DbValue) :
      Reaches first (last.put key value)
  | delete {last : Database} (reaches : Reaches first last) (hash : MerkleHash) :
      Reaches first (last.delete (.hash hash))

namespace Reaches

variable {first second third : Database}

theorem trans (reaches : first.Reaches second) (reachesThird : second.Reaches third) :
    first.Reaches third := by
  induction reachesThird with
  | refl => exact reaches
  | put _ key value ih => exact ih.put key value
  | delete _ hash ih => exact ih.delete hash

theorem isOpen (reaches : first.Reaches second) : second.isOpen = first.isOpen := by
  induction reaches with
  | refl => rfl
  | put _ key value ih => rw [isOpen_put, ih]
  | delete _ hash ih => rw [isOpen_delete, ih]

theorem deleted_subset (reaches : first.Reaches second) : first.deleted ⊆ second.deleted := by
  induction reaches with
  | refl => exact List.Subset.refl _
  | put _ key value ih =>
    rw [deleted_put]
    exact ih
  | delete _ hash ih => exact List.subset_cons_of_subset _ ih

/-- In a record, the store below the write set loses the deleted keys and nothing else. -/
theorem db_eq (reaches : first.Reaches second) (opened : first.isOpen = true)
    (fresh : first.deleted = []) (key : DbKey) :
    second.db key = if key ∈ second.deleted then none else first.db key := by
  induction reaches with
  | refl => rw [fresh, if_neg List.not_mem_nil]
  | @put last reaches written value ih =>
    rw [db_put (reaches.isOpen.trans opened), deleted_put]
    exact ih
  | @delete last reaches hash ih =>
    by_cases isDeleted : key = .hash hash
    · simp [isDeleted, Database.delete]
    · simp only [Database.delete, Function.update_of_ne isDeleted, List.mem_cons, isDeleted,
        false_or]
      exact ih

/-- The store stays the same up to the end of a record exactly when no deleted key was in
it. -/
theorem durable_iff (reaches : first.Reaches second) (opened : first.isOpen = true)
    (fresh : first.deleted = []) :
    (∀ moment, first.Reaches moment → moment.Reaches second → moment.db = first.db) ↔
      ∀ key ∈ second.deleted, first.db key = none := by
  constructor
  · intro same key isDeleted
    rw [← same second reaches .refl, reaches.db_eq opened fresh, if_pos isDeleted]
  · intro absent moment before after
    funext key
    rw [before.db_eq opened fresh]
    split
    · next isDeleted => exact (absent key (after.deleted_subset isDeleted)).symm
    · rfl

end Reaches

end Database
end MultiVac
