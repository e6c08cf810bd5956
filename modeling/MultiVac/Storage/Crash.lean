import MultiVac.Storage.Step
import MultiVac.Merkle.DiskWrites

/-!
# Crashes during an update of the ledger

`onSlimBlockReceived` updates the ledger inside of a record of its database. What is in
the store below the record survives a crash. The puts of an update are kept in the
record, but its deletions of hashes are not.
-/

namespace MultiVac.Storage

open Lib Ledger
open Merkle
open Wire
open Database (Reaches)

/-- `NewOnDiskFullMerkleTree`: the tree that the entries of a database describe. -/
def newOnDiskFullMerkleTree (db : Database) : DiskTree :=
  let number := fun key => match db.get key with
    | some (.number value) => value
    | _ => 0
  let cursor := (number .nodeCursor).toNat
  match db.get .ledgertreeLastnodehash with
  | some (.hash (some lastNodeHash)) => {
      db
      cursor
      size := number .ledgertreeSize
      merkleRoot := match db.get .ledgertreeRoot with
        | some (.hash (some root)) => root
        | _ => emptyHash
      lastNodeHash := some lastNodeHash }
  | _ => { db, cursor, size := 0, merkleRoot := emptyHash, lastNodeHash := none }

example : newOnDiskFullMerkleTree .empty = emptyDiskTree := rfl

/-- The tree that is opened after a crash. -/
def reopen (db : Database) : DiskTree := newOnDiskFullMerkleTree ⟨db.db, none, []⟩

namespace StorageNode

/-- The database of the ledger. -/
def db (node : StorageNode) : Database := node.ledgerTree.db

variable {genesis : Genesis} {node new : StorageNode} {tree out : DiskTree}

/-! ### The writes of an update -/

/-- `persistentInfo` only puts. -/
theorem persistentInfo_of_put {property : Database → Prop}
    (puts : ∀ db key value, property db → property (db.put key value))
    (holds : property node.db) : property node.persistentInfo.db := by
  have heights : ∀ (shards : List ShardIndex) (db : Database), property db →
      property (shards.foldl (fun db shard => db.put
        (.shardHeight shard) (.number (getShardHeight node.ledgerInfo shard))) db) := by
    intro shards
    induction shards with
    | nil => exact fun db holds => holds
    | cons shard shards ih =>
      exact fun db holds => ih _ (puts db _ _ holds)
  exact puts _ _ _ (puts _ _ _ (puts _ _ _ (puts _ _ _ (heights shardList _ holds))))

theorem reaches_persistentInfo (node : StorageNode) : node.db.Reaches node.persistentInfo.db :=
  persistentInfo_of_put (fun _ key value reaches => reaches.put key value) .refl

/-- A loop whose steps write to the database of the ledger. -/
theorem reaches_foldlM {α β : Type} {db : β → Database} {step : β → α → Go β}
    (steps : ∀ state input next, step state input = .ok next → (db state).Reaches (db next))
    {inputs : List α} {start final : β}
    (looped : inputs.foldlM step start = .ok final) : (db start).Reaches (db final) :=
  foldlM_invariant (fun current input _ next stepped reaches =>
    Reaches.trans reaches (steps current input next stepped)) looped .refl

theorem reaches_writeActions {actions : List UpdateAction}
    (wrote : writeActions tree actions = .ok out) : tree.db.Reaches out.db := by
  refine reaches_foldlM (fun current action next stepped => ?_) wrote
  simp only [bind_eq_ok, Go.orPanic_eq_ok] at stepped
  obtain ⟨_, _, _, _, updated⟩ := stepped
  exact DiskTree.reaches_updateLeaf updated

variable {shard : ShardIndex}

theorem reaches_mountGenesis
    (mounted : mountGenesis genesis tree shard = .ok out) : tree.db.Reaches out.db := by
  simp only [mountGenesis, bind_eq_ok, Go.orPanic_eq_ok] at mounted
  obtain ⟨between, appended, hooked⟩ := mounted
  exact (DiskTree.reaches_append appended).trans (DiskTree.reaches_hookSecondLayerTree hooked)

theorem reaches_mountOuts {header : BlockHeader} {outs : Tree}
    (mounted : mountOuts tree header outs = .ok out) : tree.db.Reaches out.db := by
  rw [mountOuts] at mounted
  split at mounted
  · simp only [bind_eq_ok, Go.orPanic_eq_ok] at mounted
    obtain ⟨_, _, between, appended, hooked⟩ := mounted
    exact (DiskTree.reaches_append appended).trans (DiskTree.reaches_hookSecondLayerTree hooked)
  · obtain rfl := pure_eq_ok.mp mounted
    exact .refl

theorem reaches_mountBlock {height : Int}
    (mounted : node.mountBlock genesis shard tree height = .ok (some out)) :
    tree.db.Reaches out.db := by
  rw [mountBlock] at mounted
  split at mounted
  · obtain ⟨_, isMounted, same⟩ := bind_eq_ok.mp mounted
    obtain rfl := Option.some.inj (pure_eq_ok.mp same)
    exact reaches_mountGenesis isMounted
  split at mounted
  · cases mounted
  split at mounted
  · obtain rfl := Option.some.inj (pure_eq_ok.mp mounted)
    exact .refl
  split at mounted
  · cases mounted
  obtain ⟨rebuilt, -, mounted⟩ := bind_eq_ok.mp mounted
  cases rebuilt with
  | none => cases mounted
  | some clipped =>
    obtain ⟨outsMounted, isMounted, mounted⟩ := bind_eq_ok.mp mounted
    split at mounted
    · obtain ⟨_, wrote, same⟩ := bind_eq_ok.mp mounted
      obtain rfl := Option.some.inj (pure_eq_ok.mp same)
      exact (reaches_mountOuts isMounted).trans (reaches_writeActions wrote)
    · obtain rfl := Option.some.inj (pure_eq_ok.mp mounted)
      exact reaches_mountOuts isMounted

theorem reaches_mountBlocks {heights : List Int} {ended : Bool}
    (mounted : node.mountBlocks genesis shard tree heights = .ok (out, ended)) :
    tree.db.Reaches out.db := by
  induction heights generalizing tree with
  | nil =>
    cases mounted
    exact .refl
  | cons height heights ih =>
    obtain ⟨result, isResult, rest⟩ := bind_eq_ok.mp mounted
    cases result with
    | none =>
      cases rest
      exact .refl
    | some between => exact (reaches_mountBlock isResult).trans (ih rest)

variable {shards : List ShardIndex}

theorem reaches_mountShards {ledgerInfo : LedgerInfo}
    (mounted : node.mountShards genesis ledgerInfo shards = .ok new) : node.db.Reaches new.db := by
  induction shards generalizing node with
  | nil =>
    cases mounted
    exact .refl
  | cons shard shards ih =>
    obtain ⟨⟨between, ended⟩, isBetween, rest⟩ := bind_eq_ok.mp mounted
    have reaches := reaches_mountBlocks isBetween
    cases ended with
    | false =>
      obtain rfl := pure_eq_ok.mp rest
      exact reaches
    | true =>
      have persists := reaches_persistentInfo { node with
        ledgerTree := between
        ledgerInfo := setShardHeight node.ledgerInfo shard
          (getShardHeight ledgerInfo shard) }
      exact (reaches.trans persists).trans (ih rest)

theorem reaches_spendInput {tx : MsgTx} {outPoint : OutPoint}
    (spent : spendInput tx node outPoint = .ok new) : node.db.Reaches new.db := by
  simp only [spendInput, bind_eq_ok, pure_eq_ok, Go.orPanic_eq_ok] at spent
  obtain ⟨_, _, _, _, _, updated, _, _, rfl⟩ := spent
  exact DiskTree.reaches_updateLeaf updated

variable {txs : List MsgTxWithProofs}

theorem reaches_spendInputs (spent : node.spendInputs txs = .ok new) : node.db.Reaches new.db := by
  refine reaches_foldlM (fun node tx next stepped => ?_) spent
  split at stepped
  · obtain rfl := pure_eq_ok.mp stepped
    exact .refl
  · exact reaches_foldlM (fun _ _ _ => reaches_spendInput) stepped

theorem ledgerTree_processDeposit {deposit : OutState}
    (processed : node.processDeposit deposit = .ok new) : new.ledgerTree = node.ledgerTree := by
  rw [processDeposit] at processed
  split at processed
  · simp only [bind_eq_ok] at processed
    obtain ⟨_, _, proof, _, processed⟩ := processed
    cases proof with
    | none =>
      obtain rfl := pure_eq_ok.mp processed
      rfl
    | some proof =>
      simp only [bind_eq_ok, pure_eq_ok] at processed
      obtain ⟨_, _, rfl⟩ := processed
      rfl
  · obtain rfl := pure_eq_ok.mp processed
    rfl

theorem ledgerTree_saveDeposits {entry : IndexAndHeight}
    (saved : node.saveDeposits entry = .ok new) : new.ledgerTree = node.ledgerTree :=
  foldlM_invariant (fun _ _ _ _ stepped same =>
    (ledgerTree_processDeposit stepped).trans same) saved rfl

theorem ledgerTree_tryToSaveDeposit (saved : node.tryToSaveDeposit = .ok new) :
    new.ledgerTree = node.ledgerTree := by
  rw [tryToSaveDeposit] at saved
  split at saved
  · obtain rfl := Except.ok.inj saved
    rfl
  · split at saved
    · split at saved
      · cases saved
      · simp only [bind_eq_ok, pure_eq_ok] at saved
        obtain ⟨between, looped, rfl⟩ := saved
        have same : between.ledgerTree = node.ledgerTree :=
          foldlM_invariant (fun _ _ _ _ stepped same =>
            (ledgerTree_saveDeposits stepped).trans same) looped rfl
        exact same
    · obtain rfl := Except.ok.inj saved
      rfl

theorem of_spendAndUpdate_ledgerTree {slimblock : SlimBlock}
    (applied : node.spendAndUpdate slimblock = .ok new) :
    ∃ spent, node.spendInputs slimblock.transactions = .ok spent ∧
      writeActions spent.ledgerTree slimblock.updateActions.elems = .ok new.ledgerTree := by
  simp only [spendAndUpdate, updateStateBySlimblock, bind_eq_ok, pure_eq_ok,
    Go.orPanic_eq_ok] at applied
  obtain ⟨spent, isSpent, saved, isSaved, _, ⟨_, _, _, _, _, wrote, _, _, _, _, rfl⟩, rfl⟩ := applied
  rw [ledgerTree_tryToSaveDeposit isSaved] at wrote
  exact ⟨spent, isSpent, wrote⟩

/-- An update writes to the database and deletes hashes from it. -/
theorem reaches_maybeUpdateLedger (updated : node.maybeUpdateLedger genesis = .ok new) :
    node.db.Reaches new.db := by
  rw [maybeUpdateLedger] at updated
  split at updated
  · obtain rfl := Except.ok.inj updated
    exact .refl
  split at updated
  · cases updated
  simp only at updated
  split at updated
  · obtain rfl := Except.ok.inj updated
    exact reaches_persistentInfo { node with shardHeight := node.shardHeight + 1 }
  · obtain ⟨between, applied, mounted⟩ := bind_eq_ok.mp updated
    obtain ⟨spent, isSpent, wrote⟩ := of_spendAndUpdate_ledgerTree applied
    have spends := reaches_spendInputs isSpent
    exact (spends.trans (reaches_writeActions wrote)).trans (reaches_mountShards mounted)

/-! ### What survives a crash -/

theorem deleted_persistentInfo (node : StorageNode) :
    node.persistentInfo.db.deleted = node.db.deleted := by
  refine @persistentInfo_of_put node (fun db => db.deleted = node.db.deleted) ?_ rfl
  intro db key value same
  rw [Database.deleted_put, same]

/-- A block that spends no out, changes no data of contracts and mounts no block. -/
structure Inert (info : LedgerInfo) (slimblock : SlimBlock) : Prop where
  inputs : ∀ tx ∈ slimblock.transactions, tx.tx.isReduceTx = false → tx.tx.inputs = []
  updateActions : slimblock.updateActions.elems = []
  heights : ∀ shardIndex ∈ shardList,
    getShardHeight slimblock.ledgerInfo shardIndex ≤ getShardHeight info shardIndex

theorem deleted_mountShards {info : LedgerInfo}
    (heights : ∀ shard ∈ shards,
      getShardHeight info shard ≤ getShardHeight node.ledgerInfo shard)
    (mounted : node.mountShards genesis info shards = .ok new) :
    new.db.deleted = node.db.deleted := by
  induction shards generalizing node with
  | nil =>
    cases mounted
    rfl
  | cons shard shards ih =>
    have none : heightsAbove (getShardHeight node.ledgerInfo shard)
        (getShardHeight info shard) = [] := by
      have below := heights shard List.mem_cons_self
      rw [heightsAbove, Int.toNat_eq_zero.mpr (by omega), List.range_zero, List.map_nil]
    rw [mountShards] at mounted
    simp only [none, mountBlocks] at mounted
    have persisted := deleted_persistentInfo { node with
      ledgerInfo := setShardHeight node.ledgerInfo shard (getShardHeight info shard) }
    refine (ih (fun other inShards => ?_) mounted).trans persisted
    change _ ≤ getShardHeight (setShardHeight node.ledgerInfo shard _) other
    rw [getShardHeight_setShardHeight]
    split
    · rename_i isOther
      rw [isOther]
    · exact heights other (List.mem_cons_of_mem _ inShards)

theorem spendInputs_eq_self (inputs : ∀ tx ∈ txs, tx.tx.isReduceTx = false → tx.tx.inputs = [])
    (spent : node.spendInputs txs = .ok new) : node = new := by
  let kept (current : StorageNode) : Prop := node = current
  have steps : ∀ current, ∀ tx ∈ txs, ∀ next,
      (if tx.tx.isReduceTx then pure current else tx.tx.inputs.foldlM (spendInput tx.tx) current) =
        Except.ok next → kept current → kept next := by
    intro current tx inTxs next stepped same
    split at stepped
    · exact same.trans (pure_eq_ok.mp stepped)
    · rename_i isPlain
      rw [inputs tx inTxs (Bool.eq_false_iff.mpr isPlain)] at stepped
      exact same.trans (pure_eq_ok.mp stepped)
  exact foldlM_invariant steps spent rfl

/-- The next block is marked as empty, or it does not change the tree. -/
def NextIsQuiet (node : StorageNode) : Prop :=
  ∀ slimblock, node.getSlimBlock node.shardIndex (node.shardHeight + 1) = some slimblock →
    slimblock.header.isEmptyBlock = true ∨ Inert node.ledgerInfo slimblock

/-- An update with a quiet block only puts. -/
theorem NextIsQuiet.deleted (quiet : node.NextIsQuiet)
    (updated : node.maybeUpdateLedger genesis = .ok new) : new.db.deleted = node.db.deleted := by
  rw [maybeUpdateLedger] at updated
  split at updated
  · obtain rfl := Except.ok.inj updated
    rfl
  cases isNext : node.getSlimBlock node.shardIndex (node.shardHeight + 1) with
  | none => simp [isNext] at updated
  | some slimblock =>
    simp only [isNext] at updated
    split at updated
    · obtain rfl := Except.ok.inj updated
      exact deleted_persistentInfo { node with shardHeight := node.shardHeight + 1 }
    · next notEmpty =>
      have inert := (quiet slimblock isNext).resolve_left notEmpty
      obtain ⟨between, applied, mounted⟩ := bind_eq_ok.mp updated
      obtain ⟨spent, isSpent, wrote⟩ := of_spendAndUpdate_ledgerTree applied
      have sameInfo := (of_spendAndUpdate applied).2.ledgerInfo
      obtain rfl := spendInputs_eq_self inert.inputs isSpent
      rw [inert.updateActions] at wrote
      have sameTree : node.ledgerTree = between.ledgerTree := pure_eq_ok.mp wrote
      have sameDb : between.db = node.db := congrArg DiskTree.db sameTree.symm
      rw [← sameDb]
      refine deleted_mountShards (fun shard inShards => ?_) mounted
      rw [sameInfo]
      exact inert.heights shard inShards

/-- The node when a record has been started. -/
def startRecord (node : StorageNode) : StorageNode :=
  { node with
    ledgerTree := { node.ledgerTree with db := node.ledgerTree.db.startTransactionRecord } }

/-- The only leaf of a ledger. -/
def leafHash : MerkleHash := digest (indexedOut 0)

/-- A node of the shard 0 with a ledger of one leaf, which has been committed, and a next
block. -/
def leafNode (next : SlimBlock) : StorageNode := persistentInfo { nodeAtTwo [] with
  ledgerTree := {
    db := (emptyDiskTree.newNode leafHash).2.db
    cursor := 1
    size := 1
    merkleRoot := leafHash
    lastNodeHash := some leafHash }
  state := {
    tree := ⟨leafHash, 1, pathOf leafHash []⟩
    shardHeights := fun shardIndex => if shardIndex = 0 then 1 else 0
    chain := ⟨[]⟩ }
  slimBlocks := AList.singleton (0, 0, 3) next }

/-- A block that mounts nothing and has the given transactions. -/
def blockWith (transactions : List MsgTxWithProofs) : SlimBlock :=
  { slimBlockAt 3 [] ⟨1, [⟨0, 1⟩]⟩ with transactions }

/-- The out is spent. -/
def spendsLeaf : MsgTxWithProofs where
  tx := { (default : MsgTx) with txIn := .of [⟨(indexedOut 0).outPoint⟩] }
  proofs := .of [pathOf leafHash []]

end StorageNode
end MultiVac.Storage
