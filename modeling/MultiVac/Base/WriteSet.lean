import MultiVac.Base.Slice
import MultiVac.Base.Fault
import MultiVac.Lib.Table

/-!
# The write set of a database

`base/db` at the level of bytes. Between `StartTransactionRecord` and
`CommitTransaction` writes are kept in a write set, while `Delete` and `Has` go to
the store below it. Such a record is compared with a map to which the operations
are applied one by one.
-/

namespace MultiVac.WriteSet

open Lib

/-- `HashSize`. -/
def hashSize : Nat := 32

/-- A byte slice with what lies behind it in its array, up to the capacity. -/
structure Buffer where
  bytes : Bytes
  spare : Bytes

/-- `string(value[0:HashSize])`, which panics beyond the capacity. -/
def Buffer.hash (value : Buffer) : Go Bytes := do
  Go.assert (hashSize ≤ (value.bytes ++ value.spare).length)
  return (value.bytes ++ value.spare).take hashSize

/-- The contents of a store. -/
abbrev Contents := Bytes → Option Bytes

/-- `dbImpl` with the contents of the LevelDB instance. The map `imem` and the batch
are empty except during `CommitTransaction`. -/
structure DbImpl where
  db : Contents
  blockWriteSet : Option (Table Bytes Buffer)

namespace DbImpl

/-- `Get`. -/
def get (store : DbImpl) (key : Bytes) : Option Bytes :=
  match store.blockWriteSet with
  | none => store.db key
  | some writeSet =>
    match writeSet.lookup key with
    | some value => some value.bytes
    | none => store.db key

/-- The rule of `Put` for keys of 32 bytes: the key that is deleted from the write set. -/
def forgottenHash (writeSet : Table Bytes Buffer) (key : Bytes) (value : Buffer) :
    Go (Option Bytes) :=
  if key.length = hashSize then
    match writeSet.lookup value.bytes with
    | some old => some <$> old.hash
    | none => pure none
  else
    pure none

/-- `Put`. -/
def put (store : DbImpl) (key : Bytes) (value : Buffer) : Go DbImpl :=
  match store.blockWriteSet with
  | some writeSet => do
    let forgotten ← forgottenHash writeSet key value
    let writeSet := forgotten.elim writeSet writeSet.erase
    return { store with blockWriteSet := some (writeSet.insert key value) }
  | none => return { store with db := Function.update store.db key (some value.bytes) }

/-- `Has`. -/
def has (store : DbImpl) (key : Bytes) : Bool := (store.db key).isSome

/-- `Delete`. -/
def delete (store : DbImpl) (key : Bytes) : DbImpl :=
  { store with db := Function.update store.db key none }

/-- `StartTransactionRecord`. -/
def startTransactionRecord (store : DbImpl) : DbImpl :=
  { store with blockWriteSet := some ∅ }

/-- `atomicWrite`. -/
def atomicWrite (db : Contents) (batch : List (Bytes × Bytes)) : Contents :=
  batch.foldl (fun db entry => Function.update db entry.1 (some entry.2)) db

/-- `CommitTransaction`, which visits the write set in some order. -/
def commitTransaction (order : MapOrder) (store : DbImpl) : DbImpl where
  db := atomicWrite store.db <| (order.visit (store.blockWriteSet.getD ∅).entries).map
    fun entry => (entry.1, entry.2.bytes)
  blockWriteSet := none

end DbImpl

/-! ### Sequences of operations -/

/-- A call between the start of a record and its end. -/
inductive Operation where
  | get (key : Bytes)
  | has (key : Bytes)
  | put (key : Bytes) (value : Buffer)
  | delete (key : Bytes)

/-- What a call returns. -/
inductive Answer where
  | value (value : Option Bytes)
  | present (present : Bool)
  | done
deriving DecidableEq

/-- One call. -/
def DbImpl.call (store : DbImpl) : Operation → Go (Answer × DbImpl)
  | .get key => pure (.value (store.get key), store)
  | .has key => pure (.present (store.has key), store)
  | .put key value => (fun next => (.done, next)) <$> store.put key value
  | .delete key => pure (.done, store.delete key)

/-- A sequence of calls. -/
def DbImpl.calls : DbImpl → List Operation → Go (List Answer × DbImpl)
  | store, [] => pure ([], store)
  | store, operation :: operations => do
    let (answer, next) ← store.call operation
    let (answers, last) ← next.calls operations
    return (answer :: answers, last)

/-- The same call of a map. -/
def Contents.call (contents : Contents) : Operation → Answer × Contents
  | .get key => (.value (contents key), contents)
  | .has key => (.present (contents key).isSome, contents)
  | .put key value => (.done, Function.update contents key (some value.bytes))
  | .delete key => (.done, Function.update contents key none)

/-- The same calls of a map. -/
def Contents.calls : Contents → List Operation → List Answer × Contents
  | contents, [] => ([], contents)
  | contents, operation :: operations =>
    let (answer, next) := Contents.call contents operation
    let (answers, last) := Contents.calls next operations
    (answer :: answers, last)

/-- A record is a map: the calls return, answer as the map does, and what is stored at
the end is the map, in whatever order the write set is visited. -/
def IsMap (store : DbImpl) (operations : List Operation) : Prop :=
  ∃ last, store.startTransactionRecord.calls operations =
      .ok ((Contents.calls store.db operations).1, last) ∧
    ∀ order, (last.commitTransaction order).db = (Contents.calls store.db operations).2

/-! ### Calls that treat a record as a map -/

/-- The entry of the write set. -/
def DbImpl.recorded (store : DbImpl) (key : Bytes) : Option Buffer :=
  store.blockWriteSet.bind (·.lookup key)

/-- `Has` and `Delete` are not called for keys that only the write set has, and the rule
for keys of 32 bytes deletes no entry that is still needed. -/
def DbImpl.Respects (store : DbImpl) : Operation → Prop
  | .get _ => True
  | .has key => (store.recorded key).isSome → (store.db key).isSome
  | .put key value => key.length = hashSize → ∀ old, store.recorded value.bytes = some old →
      ∃ hash, old.hash = .ok hash ∧ (hash = key ∨
        ∀ other, store.recorded hash = some other → store.db hash = some other.bytes)
  | .delete key => store.recorded key = none

/-- Every call of a sequence is of this kind. -/
def DbImpl.AllRespect : DbImpl → List Operation → Prop
  | _, [] => True
  | store, operation :: operations => store.Respects operation ∧
      ∀ answer next, store.call operation = .ok (answer, next) → next.AllRespect operations

namespace DbImpl

variable {store next : DbImpl} {key : Bytes} {value : Buffer}

theorem get_eq (store : DbImpl) (key : Bytes) :
    store.get key = ((store.recorded key).map Buffer.bytes).or (store.db key) := by
  unfold get recorded
  cases store.blockWriteSet with
  | none => rfl
  | some writeSet => cases found : writeSet.lookup key <;> simp [found]

/-- The store has every entry of the write set that it has an entry for. -/
theorem has_eq_isSome_get_iff :
    store.has key = (store.get key).isSome ↔ store.Respects (.has key) := by
  rw [get_eq]
  cases isRecorded : store.recorded key <;> simp [has, Respects, isRecorded]

theorem get_delete_iff :
    (store.delete key).get = Function.update store.get key none ↔ store.Respects (.delete key) := by
  have get_delete : ∀ other, (store.delete key).get other =
      ((store.recorded other).map Buffer.bytes).or (Function.update store.db key none other) :=
    fun other => get_eq _ other
  constructor
  · intro same
    have atKey := congrFun same key
    rw [get_delete, Function.update_self, Function.update_self, Option.or_none,
      Option.map_eq_none_iff] at atKey
    exact atKey
  · intro notRecorded
    funext other
    rw [get_delete]
    by_cases isKey : other = key
    · subst isKey
      rw [Function.update_self, Function.update_self, Option.or_none, notRecorded, Option.map_none]
    · rw [Function.update_of_ne isKey, Function.update_of_ne isKey, get_eq]

variable {writeSet : Table Bytes Buffer}

theorem put_eq_ok_iff (isOpen : store.blockWriteSet = some writeSet) :
    store.put key value = .ok next ↔ ∃ forgotten, forgottenHash writeSet key value = .ok forgotten ∧
        ⟨store.db, some ((forgotten.elim writeSet writeSet.erase).insert key value)⟩ = next := by
  simp only [put, isOpen, Lib.bind_eq_ok, Lib.pure_eq_ok]

theorem lookup_elim_erase (writeSet : Table Bytes Buffer) (forgotten : Option Bytes) (key : Bytes) :
    (forgotten.elim writeSet writeSet.erase).lookup key =
      if forgotten = some key then none else writeSet.lookup key := by
  cases forgotten with
  | none => rfl
  | some hash =>
    by_cases isKey : hash = key
    · subst isKey
      simp
    · simp [isKey, AList.lookup_erase_ne (Ne.symm isKey)]

/-- The rule for keys of 32 bytes deletes nothing that is needed. -/
theorem respects_put_iff (isOpen : store.blockWriteSet = some writeSet) :
    store.Respects (.put key value) ↔
      ∃ forgotten, forgottenHash writeSet key value = .ok forgotten ∧
        ∀ hash, forgotten = some hash → hash = key ∨
          ∀ other, store.recorded hash = some other → store.db hash = some other.bytes := by
  have recorded_eq : store.recorded value.bytes = writeSet.lookup value.bytes := by
    rw [recorded, isOpen, Option.bind_some]
  simp only [Respects, forgottenHash, recorded_eq]
  by_cases isHash : key.length = hashSize
  · cases found : writeSet.lookup value.bytes with
    | none => simp [isHash, Lib.pure_eq_ok]
    | some old => simp [isHash, Lib.map_eq_ok]
  · simp [isHash, Lib.pure_eq_ok]

theorem get_put_iff_forgotten (isOpen : store.blockWriteSet = some writeSet) (key : Bytes)
    (value : Buffer) (forgotten : Option Bytes) :
    get ⟨store.db, some ((forgotten.elim writeSet writeSet.erase).insert key value)⟩ =
        Function.update store.get key (some value.bytes) ↔
      ∀ hash, forgotten = some hash → hash = key ∨
        ∀ other, store.recorded hash = some other → store.db hash = some other.bytes := by
  have recorded_eq : ∀ other, store.recorded other = writeSet.lookup other := by
    intro other
    rw [recorded, isOpen, Option.bind_some]
  have get_other : ∀ other, other ≠ key →
      get ⟨store.db, some ((forgotten.elim writeSet writeSet.erase).insert key value)⟩ other =
        ((if forgotten = some other then none else store.recorded other).map Buffer.bytes).or
          (store.db other) := by
    intro other different
    rw [get_eq, recorded, Option.bind_some, AList.lookup_insert_ne different, lookup_elim_erase,
      recorded_eq]
  constructor
  · rintro same hash rfl
    refine or_iff_not_imp_left.mpr fun different other isOther => ?_
    have atHash := congrFun same hash
    rw [get_other hash different, Function.update_of_ne different, get_eq, if_pos rfl,
      Option.map_none, Option.none_or, isOther, Option.map_some, Option.some_or] at atHash
    exact atHash
  · intro keeps
    funext other
    by_cases isKey : other = key
    · subst isKey
      rw [get_eq, recorded, Option.bind_some, AList.lookup_insert, Option.map_some,
        Option.some_or, Function.update_self]
    · rw [get_other other isKey, Function.update_of_ne isKey, get_eq]
      split
      case isFalse => rfl
      case isTrue isForgotten =>
        cases isRecorded : store.recorded other with
        | none => rfl
        | some old =>
          have kept := (keeps other isForgotten).resolve_left isKey old isRecorded
          rw [Option.map_none, Option.none_or, kept, Option.map_some, Option.some_or]

theorem get_put_iff (isOpen : store.blockWriteSet.isSome) :
    (∃ next, store.put key value = .ok next ∧
        next.get = Function.update store.get key (some value.bytes)) ↔
      store.Respects (.put key value) := by
  obtain ⟨writeSet, isWriteSet⟩ := Option.isSome_iff_exists.mp isOpen
  rw [respects_put_iff isWriteSet]
  constructor
  · rintro ⟨next, putOk, same⟩
    obtain ⟨forgotten, isForgotten, rfl⟩ := (put_eq_ok_iff isWriteSet).mp putOk
    exact ⟨forgotten, isForgotten, (get_put_iff_forgotten isWriteSet key value _).mp same⟩
  · rintro ⟨forgotten, isForgotten, keeps⟩
    exact ⟨_, (put_eq_ok_iff isWriteSet).mpr ⟨forgotten, isForgotten, rfl⟩,
      (get_put_iff_forgotten isWriteSet key value _).mpr keeps⟩

/-! ### Steps and runs -/

variable {operation : Operation} {answer : Answer}

theorem isOpen_call (isOpen : store.blockWriteSet.isSome)
    (called : store.call operation = .ok (answer, next)) : next.blockWriteSet.isSome := by
  cases operation with
  | get key => cases called; exact isOpen
  | has key => cases called; exact isOpen
  | delete key => cases called; exact isOpen
  | put key value =>
    obtain ⟨writeSet, isWriteSet⟩ := Option.isSome_iff_exists.mp isOpen
    obtain ⟨after, putOk, same⟩ := Lib.map_eq_ok.mp called
    cases same
    obtain ⟨forgotten, -, rfl⟩ := (put_eq_ok_iff isWriteSet).mp putOk
    rfl

/-- A call is answered as by a map, and leaves the entries of this map, for exactly the
calls that respect the write set. -/
theorem call_iff (isOpen : store.blockWriteSet.isSome) (operation : Operation) :
    (∃ next, store.call operation = .ok ((Contents.call store.get operation).1, next) ∧
        next.get = (Contents.call store.get operation).2) ↔ store.Respects operation := by
  cases operation with
  | get key => exact ⟨fun _ => trivial, fun _ => ⟨store, rfl, rfl⟩⟩
  | has key =>
    rw [← has_eq_isSome_get_iff]
    constructor
    · rintro ⟨next, called, -⟩
      have same := (Prod.mk.inj (Lib.pure_eq_ok.mp called)).1
      exact Answer.present.inj same
    · intro same
      exact ⟨store, by rw [Contents.call, call, same]; rfl, rfl⟩
  | delete key =>
    rw [← get_delete_iff]
    constructor
    · rintro ⟨next, called, same⟩
      cases called
      exact same
    · intro same
      exact ⟨_, rfl, same⟩
  | put key value =>
    rw [← get_put_iff isOpen]
    constructor
    · rintro ⟨next, called, same⟩
      obtain ⟨after, putOk, isAfter⟩ := Lib.map_eq_ok.mp called
      cases isAfter
      exact ⟨_, putOk, same⟩
    · rintro ⟨next, putOk, same⟩
      exact ⟨next, Lib.map_eq_ok.mpr ⟨next, putOk, rfl⟩, same⟩

theorem calls_cons_eq_ok {operations : List Operation} {answers : List Answer} {last : DbImpl} :
    store.calls (operation :: operations) = .ok (answer :: answers, last) ↔
      ∃ next, store.call operation = .ok (answer, next) ∧
        next.calls operations = .ok (answers, last) := by
  simp only [calls, Lib.bind_eq_ok, Lib.pure_eq_ok, Prod.exists, Prod.mk.injEq, List.cons.injEq]
  constructor
  · rintro ⟨_, next, called, _, _, rest, ⟨rfl, rfl⟩, rfl⟩
    exact ⟨next, called, rest⟩
  · rintro ⟨next, called, rest⟩
    exact ⟨answer, next, called, answers, last, rest, ⟨rfl, rfl⟩, rfl⟩

/-- The calls are answered as by a map and leave its entries. -/
def Answers (store : DbImpl) (operations : List Operation) : Prop :=
  ∃ last, store.calls operations = .ok ((Contents.calls store.get operations).1, last) ∧
    last.get = (Contents.calls store.get operations).2

/-- After a call that is answered as by a map. -/
theorem answers_cons_iff
    (called : store.call operation = .ok ((Contents.call store.get operation).1, next))
    (same : next.get = (Contents.call store.get operation).2) (operations : List Operation) :
    store.Answers (operation :: operations) ↔ next.Answers operations := by
  unfold Answers
  rw [same]
  refine exists_congr fun last => and_congr_left fun _ => ?_
  refine calls_cons_eq_ok.trans ⟨?_, fun rest => ⟨next, called, rest⟩⟩
  rintro ⟨other, calledOther, rest⟩
  obtain ⟨-, rfl⟩ := Prod.mk.inj (Except.ok.inj (called.symm.trans calledOther))
  exact rest

theorem answers_singleton_iff {operation : Operation} :
    store.Answers [operation] ↔
      ∃ next, store.call operation = .ok ((Contents.call store.get operation).1, next) ∧
        next.get = (Contents.call store.get operation).2 := by
  refine exists_congr fun last => and_congr_left fun _ => calls_cons_eq_ok.trans ?_
  constructor
  · rintro ⟨next, called, rest⟩
    obtain ⟨-, rfl⟩ := Prod.mk.inj (Lib.pure_eq_ok.mp rest)
    exact called
  · intro called
    exact ⟨last, called, rfl⟩

/-- All beginnings of a sequence are answered as by a map. -/
theorem answers_iff (isOpen : store.blockWriteSet.isSome) (operations : List Operation) :
    (∀ first, first <+: operations → store.Answers first) ↔ store.AllRespect operations := by
  induction operations generalizing store with
  | nil =>
    refine ⟨fun _ => trivial, fun _ first isPrefix => ?_⟩
    obtain rfl := List.prefix_nil.mp isPrefix
    exact ⟨store, rfl, rfl⟩
  | cons operation operations ih =>
    constructor
    · intro answered
      have answeredFirst := answers_singleton_iff.mp (answered [operation] (by simp))
      refine ⟨(call_iff isOpen operation).mp answeredFirst, fun answer other called => ?_⟩
      obtain ⟨next, nextCalled, same⟩ := answeredFirst
      obtain ⟨-, rfl⟩ := Prod.mk.inj (Except.ok.inj (nextCalled.symm.trans called))
      refine (ih (isOpen_call isOpen called)).mp fun first isPrefix => ?_
      exact (answers_cons_iff nextCalled same first).mp
        (answered _ (List.cons_prefix_cons.mpr ⟨rfl, isPrefix⟩))
    · rintro ⟨respects, allRespect⟩ first isPrefix
      obtain ⟨next, called, same⟩ := (call_iff isOpen operation).mpr respects
      rcases List.prefix_cons_iff.mp isPrefix with rfl | ⟨rest, rfl, isRest⟩
      · exact ⟨store, rfl, rfl⟩
      · refine (answers_cons_iff called same rest).mpr ?_
        exact (ih (isOpen_call isOpen called)).mpr (allRespect _ next called) rest isRest

theorem atomicWrite_eq {entries : List (Sigma fun _ : Bytes => Buffer)}
    (distinct : entries.NodupKeys) (db : Contents) (key : Bytes) :
    atomicWrite db (entries.map fun entry => (entry.1, entry.2.bytes)) key =
      ((entries.dlookup key).map Buffer.bytes).or (db key) := by
  induction entries generalizing db with
  | nil => rfl
  | cons entry entries ih =>
    obtain ⟨fresh, distinctRest⟩ := List.nodupKeys_cons.mp distinct
    rw [atomicWrite, List.map_cons, List.foldl_cons]
    rw [← atomicWrite, ih distinctRest]
    by_cases isKey : entry.1 = key
    · subst isKey
      rw [List.dlookup_eq_none.mpr fresh, List.dlookup_cons_eq, Option.map_none, Option.none_or,
        Function.update_self, Option.map_some, Option.some_or]
    · rw [Function.update_of_ne (Ne.symm isKey), List.dlookup_cons_ne _ _ (Ne.symm isKey)]

/-- The order in which the write set is visited does not matter. -/
theorem db_commitTransaction (order : MapOrder) (store : DbImpl) :
    (store.commitTransaction order).db = store.get := by
  funext key
  have visited := order.visit_perm (store.blockWriteSet.getD ∅).entries
  have distinct := (store.blockWriteSet.getD ∅).nodupKeys
  have distinctVisited := (List.perm_nodupKeys visited).mpr distinct
  calc (store.commitTransaction order).db key
      = (((order.visit (store.blockWriteSet.getD ∅).entries).dlookup key).map Buffer.bytes).or
          (store.db key) := atomicWrite_eq distinctVisited store.db key
    _ = (((store.blockWriteSet.getD ∅).lookup key).map Buffer.bytes).or (store.db key) := by
        rw [List.perm_dlookup key distinctVisited visited, AList.lookup]
    _ = store.get key := by
        rw [get_eq]
        cases isOpen : store.blockWriteSet <;> simp only [recorded, isOpen] <;> rfl

end DbImpl

/-- A record is a map, whatever part of its operations has been done, for exactly the
sequences in which every call respects the write set. -/
theorem isMap_iff (store : DbImpl) (operations : List Operation) :
    (∀ first, first <+: operations → IsMap store first) ↔
      store.startTransactionRecord.AllRespect operations := by
  rw [← DbImpl.answers_iff rfl]
  refine forall₂_congr fun first _ => exists_congr fun last => and_congr_right fun _ => ?_
  simp only [DbImpl.db_commitTransaction]
  exact ⟨fun same => same .listed, fun same _ => same⟩

/-- A key that is written and deleted in a record is still found, and it is stored at the
end. A key that is written in a record is not there for `Has`. -/
theorem not_isMap_put_delete :
    let store : DbImpl := ⟨fun _ => none, none⟩
    ¬ IsMap store [.put [1] ⟨[2], []⟩, .delete [1], .get [1]] ∧
      ¬ IsMap store [.put [1] ⟨[2], []⟩, .has [1]] := by
  constructor
  · rintro ⟨last, called, -⟩
    have answers := (Prod.mk.inj (Except.ok.inj called)).1
    exact absurd answers (by decide)
  · rintro ⟨last, called, -⟩
    have answers := (Prod.mk.inj (Except.ok.inj called)).1
    exact absurd answers (by decide)

end MultiVac.WriteSet
