import MultiVac.Lib.Table
import MultiVac.Merkle.Clipped
import MultiVac.Ledger.State

/-!
# What a miner keeps besides the ledger

The transaction pool, the data of contracts and the pool of the miner's own
deposits. All of them hold Merkle paths into the ledger, which every accepted block
refreshes.
-/

namespace MultiVac.Ledger

open Wire Merkle
open Lib (Table)

/-! ### Paths into the ledger -/

/-- `updateProof` of the deposit pool. -/
def Update.updateProof (update : Update) (proof : MerklePath) : Go MerklePath := do
  let newProof ← update.deltaTree.refreshMerklePath proof
  verify newProof (← update.deltaTree.getMerkleRoot)
  return newProof

/-- `UpdateProofs`. -/
def Update.updateProofs (update : Update) (proofs : List MerklePath) : Go (List MerklePath) :=
  proofs.mapM fun proof => do
    let newProof ← update.deltaTree.refreshMerklePath proof
    match ← Go.attempt (verify newProof (← update.deltaTree.getMerkleRoot)) with
    | none => Go.fail "Leaf node is changed"
    | some _ => return newProof

/-- `GetMerklePath` of a delta tree. The tree has the given root: its field is a
pointer to the root of the ledger. -/
def getMerklePath (tree : DeltaMerkleTree) (root hash : MerkleHash) : Go MerklePath := do
  match tree.nodeMap hash with
  | none => Go.fail "can't find hash in merkle tree"
  | some id =>
    let proof ← tree.createMerkleProof (tree.nextNode + 1) id (tree.node id).parent
    verify (pathOf hash proof) root
    return pathOf hash proof

/-- `getOutProofByUpdate`, after the ledger has got its new root. -/
def getOutProofByUpdate (tree : DeltaMerkleTree) (root : MerkleHash) (outs : List MerkleHash)
    (out : OutState) : Go MerklePath := do
  let outHash ← out.merkleHash
  let proofInBlock ← fullMerklePath outs outHash
  let topProof ← getMerklePath tree root (fullRoot outs)
  return {
    hashes := .of (proofInBlock.hashes.elems ++ topProof.hashes.elems.tail)
    proofPath := .of (proofInBlock.proofPath.elems ++ topProof.proofPath.elems) }

/-- The steps that `GetMerklePath` finds for an appended leaf lead to the current root. -/
theorem getMerklePath_eq {base : Tree} {value : MerkleHash → MerkleHash} {extra : List MerkleHash}
    {sized : Bool} {tree : DeltaMerkleTree} {sketch : Sketch}
    (represents : tree.Represents base value extra sized sketch) {hash : MerkleHash}
    (inExtra : hash ∈ extra) :
    ∃ steps, climb hash steps = fullRoot (base.leaves.map value ++ extra) ∧
      ∀ root, getMerklePath tree root hash =
        (do verify (pathOf hash steps) root; return pathOf hash steps) := by
  obtain ⟨id, isId, inStubs⟩ := represents.indexed hash inExtra
  obtain ⟨frames, place⟩ := Sketch.exists_plug_of_mem_stubs inStubs
  have same : value hash = hash :=
    represents.unchanged hash fun isKnown => represents.fresh hash inExtra isKnown.1
  have proof := @MerkleTree.createMerkleProof_stored tree value frames (.stub id (.leaf hash))
    (place ▸ represents.known.stored) (place ▸ represents.known.nodup)
    (place ▸ represents.known.bound)
  refine ⟨frames.map (MerkleTree.proofStep value), ?_, fun root => ?_⟩
  · have climbs := climb_stepOf (.leaf hash)
      ((frames.map Sketch.Frame.whole).map (Lib.HashTree.Frame.map value))
    rw [← represents.leaves_map, fullRoot_leaves (represents.compact.map value), place,
      Sketch.whole_plug, Lib.HashTree.map_plug, Sketch.whole, Lib.HashTree.map, same, ← climbs,
      List.map_map, List.map_map]
    rfl
  · simp only [getMerklePath, isId, Sketch.id] at proof ⊢
    rw [proof]
    rfl

/-- What `GetMerklePath` of a full tree returns leads to its root. -/
theorem fullMerklePath_cases {leaves : List MerkleHash} {hash : MerkleHash} {path : MerklePath}
    (found : fullMerklePath leaves hash = .ok path) :
    ∃ steps, path = pathOf hash steps ∧ climb hash steps = fullRoot leaves := by
  unfold fullMerklePath at found
  cases built : fullTree leaves with
  | none => simp [built] at found
  | some tree =>
    simp only [built, getMerklePathAmong] at found
    split at found
    · simp at found
    · obtain ⟨_, verified, isPath⟩ := Lib.bind_eq_ok.mp found
      rw [fullRoot, built]
      exact ⟨_, (Lib.pure_eq_ok.mp isPath).symm, (verify_pathOf _ _ _).mp verified⟩

/-- After any changes, `GetMerklePath` returns a path of an appended leaf that verifies
against the current root exactly when the root of the ledger has been set to it. Then the outs
below the leaf get valid proofs. The new value of an updated leaf is found only if a node had
this hash before. -/
theorem getMerklePath_performAll_iff {leaves : List MerkleHash} {base : Tree}
    (built : fullTree leaves = some base) (distinct : leaves.Nodup) {changes : List Change}
    (valid : ∀ change ∈ changes, change.Valid leaves)
    (small : ∀ list ∈ visited (false, leaves) changes, list.length < 2 ^ 63)
    (collisionFree : NoCollision (visited (false, leaves) changes))
    (fresh : ∀ change ∈ changes, ∀ leaf ∈ change.appended, leaf ∉ leaves) {index : Nat}
    {hash : MerkleHash} (appended : leaves.length ≤ index)
    (isLeaf : (changes.foldl Change.apply (false, leaves)).2[index]? = some hash) :
    ∃ tree current, performAll base (newDeltaMerkleTree (fullRoot leaves)) changes = .ok tree ∧
      tree.getMerkleRoot = .ok current ∧
      (∀ root, (∃ path, getMerklePath tree root hash = .ok path ∧ getLeaf path = .ok hash ∧
        verify path current = .ok ()) ↔
          root = fullRoot (changes.foldl Change.apply (false, leaves)).2) ∧
      (∀ outs out outHash inBlock, fullRoot outs = hash → out.merkleHash = .ok outHash →
        fullMerklePath outs outHash = .ok inBlock →
        ∃ proof, getOutProofByUpdate tree current outs out = .ok proof ∧
          getLeaf proof = .ok outHash ∧ verify proof current = .ok ()) ∧
      ∀ place leaf newHash, leaves[place]? = some leaf →
        ∃ updated, tree.updateLeaf (genuinePath base place) newHash = .ok updated ∧
          ∀ root path, getMerklePath updated root newHash = .ok path →
            (tree.buildPartialTree leaf ((base.framesAt place).map stepOf)).nodeMap newHash ≠
              none := by
  obtain ⟨value, extra, sized, tree, performs, applied, holds⟩ :=
    performAll_new built distinct valid small collisionFree fresh
  have compact := compact_fullTree built
  have isRoot := holds.getMerkleRoot compact
  have listEq := congrArg Prod.snd applied
  rw [listEq, List.getElem?_append_right (by simpa using appended)] at isLeaf
  have inExtra := List.mem_of_getElem? isLeaf
  obtain rfl := leaves_of_fullTree built
  have injective := MerkleTree.treeRoot_injective collisionFree.separated
    (within_of_mem compact (mem_visited_self (false, base.leaves) changes))
  have updates := fun place leaf newHash (isLeaf : base.leaves[place]? = some leaf) =>
    holds.updateLeaf injective distinct compact isLeaf newHash
  rcases holds with ⟨-, -, rfl, -⟩ | ⟨sketch, represents⟩
  · cases inExtra
  obtain ⟨steps, climbs, gets⟩ := getMerklePath_eq represents inExtra
  have verified := (verify_pathOf hash steps _).mpr climbs
  have found : getMerklePath tree (fullRoot (base.leaves.map value ++ extra)) hash =
      .ok (pathOf hash steps) := by rw [gets, verified]; rfl
  refine ⟨tree, _, performs, isRoot, fun root => ?_, ?_, ?_⟩
  · rw [listEq]
    constructor
    · rintro ⟨path, isFound, -, -⟩
      rw [gets] at isFound
      obtain ⟨_, same, -⟩ := Lib.bind_eq_ok.mp isFound
      exact ((verify_pathOf hash steps root).mp same).symm.trans climbs
    · rintro rfl
      exact ⟨_, found, rfl, verified⟩
  · rintro outs out outHash inBlock rfl isHash isPath
    obtain ⟨lower, rfl, leads⟩ := fullMerklePath_cases isPath
    refine ⟨pathOf outHash (lower ++ steps), ?_, rfl, (verify_pathOf _ _ _).mpr ?_⟩
    · simp [getOutProofByUpdate, isHash, isPath, found, pathOf, bind, Except.bind, pure, Except.pure]
    · rw [climb, List.foldl_append]
      exact (congrArg (climb · steps) leads).trans climbs
  · intro place leaf newHash isLeaf
    obtain ⟨updated, isUpdated, nodeMap, -⟩ := updates place leaf newHash isLeaf
    refine ⟨updated, isUpdated, fun root path isFound unknown => ?_⟩
    simp [getMerklePath, nodeMap, unknown] at isFound

/-- The appended leaf of the sample. -/
theorem getMerklePath_performAll_iff_sample :
    fullTree sampleBase.leaves = some sampleBase ∧ ∃ tree current,
        performAll sampleBase (newDeltaMerkleTree (fullRoot sampleBase.leaves))
          (sampleChanges (sha256 [3])) = .ok tree ∧
        tree.getMerkleRoot = .ok current ∧
        ∀ root, (∃ path, getMerklePath tree root (sha256 [3]) = .ok path ∧
          getLeaf path = .ok (sha256 [3]) ∧ verify path current = .ok ()) ↔
            root = fullRoot [sha256 [5], sha256 [2], sha256 [3]] := by
  have built : fullTree sampleBase.leaves = some sampleBase := by decide
  obtain ⟨tree, current, performs, isRoot, iff, -⟩ := @getMerklePath_performAll_iff _ _ built
    (by decide) (sampleChanges (sha256 [3])) (by decide +kernel) (by decide +kernel)
    (by decide +kernel) (by decide +kernel) 2 (sha256 [3]) (by decide) (by decide)
  exact ⟨built, tree, current, performs, isRoot, iff⟩

/-- The new value of an updated leaf is not in the map of nodes, and the path of an
appended leaf does not lead to the old root. -/
theorem getMerklePath_performAll_fails :
    (sampleChanges (sha256 [3])).foldl Change.apply (false, sampleBase.leaves) =
        (true, [sha256 [5], sha256 [2], sha256 [3]]) ∧
      (do
        let tree ← performAll sampleBase (newDeltaMerkleTree (fullRoot sampleBase.leaves))
          (sampleChanges (sha256 [3]))
        getMerklePath tree (← tree.getMerkleRoot) (sha256 [5])) =
          Go.fail "can't find hash in merkle tree" ∧
      (do
        let tree ← performAll sampleBase (newDeltaMerkleTree (fullRoot sampleBase.leaves))
          (sampleChanges (sha256 [3]))
        return ((← Go.attempt (getMerklePath tree tree.merkleRoot (sha256 [3]))).isSome)) =
          .ok false := by
  decide +kernel

/-- `GetShardDataMerklePath`. -/
def getShardDataMerklePath (tree : DeltaMerkleTree) (oldHash newHash : MerkleHash) :
    Go MerklePath := do
  match tree.nodeMap oldHash with
  | none => Go.fail "can't find hash in deltaMerkleTree"
  | some id =>
    let proof ← tree.createMerkleProof (tree.nextNode + 1) id (tree.node id).parent
    verify (pathOf newHash proof) (← tree.getMerkleRoot)
    return pathOf newHash proof

/-! ### The transaction pool -/

/-- `txPool`, with the transactions under the hashes they were added with. -/
structure TxPool where
  pool : Table MerkleHash MsgTxWithProofs
  usedOutsInPool : List MerkleHash
  counter : Int

namespace TxPool

/-- `NewTxPool`. -/
def empty : TxPool := ⟨∅, [], 0⟩

/-- One iteration of the loop of `RefreshPool`. -/
def refreshTx (update : Update) (txPool : TxPool) (hash : MerkleHash) (tx : MsgTxWithProofs) :
    Go TxPool := do
  match ← Go.attempt (update.updateProofs tx.proofs.elems) with
  | some newProofs =>
    return { txPool with pool := txPool.pool.insert hash { tx with proofs := .of newProofs } }
  | none =>
    let used ← tx.tx.inputs.mapM OutPoint.unspentOutHash
    return {
      pool := txPool.pool.erase hash
      usedOutsInPool := txPool.usedOutsInPool.filter (· ∉ used)
      counter := txPool.counter - 1 }

/-- `RefreshPool`. -/
def refreshPool (txPool : TxPool) (update : Update) : Go TxPool :=
  txPool.pool.entries.foldlM (fun current entry => current.refreshTx update entry.1 entry.2) txPool

end TxPool

/-! ### Contract data -/

/-- `wire.SmartContractInfo`. -/
structure SmartContractInfo where
  smartContract : SmartContract
  shardIdx : ShardIndex
  codeOut : OutState
  codeOutProof : MerklePath
  shardInitOut : OutState
  shardInitOutProof : MerklePath

/-- `IsSmartContractShardInitOut`. -/
def isSmartContractShardInitOut (primitives : Primitives) (out : OutPoint) : Bool :=
  Address.isEqual (Address.generateAddress primitives out.txHash.bytes .smartContractAddress)
    out.contractAddress ∧ out.index = 1

/-- `SContractDataStore`, by the public key hashes of the contracts. -/
abbrev ContractStore := Table Bytes SmartContractInfo

namespace ContractStore

/-- Refresh the proofs of a contract; a contract whose proofs cannot be refreshed is
forgotten. -/
def refreshInfo (update : Update) (info : SmartContractInfo) : Go (Option SmartContractInfo) := do
  match ← Go.attempt (update.updateProofs [info.codeOutProof, info.shardInitOutProof]) with
  | some [codeOutProof, shardInitOutProof] =>
    return some { info with codeOutProof, shardInitOutProof }
  | _ => return none

/-- The contract of an update action after the action. -/
def actOn (update : Update) (action : UpdateAction) (info : SmartContractInfo) :
    Go (Option SmartContractInfo) := do
  match ← Go.attempt (update.updateProofs [info.codeOutProof]) with
  | some [codeOutProof] =>
    let oldHash ← action.originOut.merkleHash
    let newHash ← action.newOut.merkleHash
    match ← Go.attempt (getShardDataMerklePath update.deltaTree oldHash newHash) with
    | some shardInitOutProof =>
      return some { info with
        shardInitOut := action.newOut, codeOutProof, shardInitOutProof }
    | none => return none
  | _ => return none

/-- One iteration of the loop over the update actions. The data of a contract that
is not in the store is dereferenced. -/
def act (primitives : Primitives) (shardIdx : ShardIndex) (update : Update) (store : ContractStore)
    (action : UpdateAction) : Go ContractStore := do
  let origin := action.originOut.outPoint
  match ← Go.attempt
      (Address.getPublicKeyHash primitives origin.contractAddress .smartContractAddress) with
  | none => return store
  | some pkHash =>
    if origin.shard ≠ shardIdx ∨ !isSmartContractShardInitOut primitives origin then
      return store
    match store.lookup pkHash with
    | none => Go.panic
    | some info => return store.put pkHash (← actOn update action info)

/-- `RefreshDataStore`. -/
def refreshDataStore (primitives : Primitives) (shardIdx : ShardIndex) (store : ContractStore)
    (update : Update) (actions : List UpdateAction) : Go ContractStore :=
  if actions.isEmpty then
    store.refresh fun _ info => refreshInfo update info
  else
    actions.foldlM (act primitives shardIdx update) store

end ContractStore

/-! ### Deposits -/

/-- `depositpool.DepositInfo`. -/
structure DepositInfo where
  outPoint : OutPoint
  proof : MerklePath
  blockHeight : Int
  locked : Bool

/-- `DepositPool` in memory, by the hashes of the unspent outs. -/
abbrev DepositPool := Table MerkleHash DepositInfo

namespace DepositPool

/-- `Add`. -/
def add (pool : DepositPool) (out : OutPoint) (height : Int) (proof : MerklePath) :
    Go DepositPool := do
  let key ← out.unspentOutHash
  let locked := (pool.lookup key).elim false DepositInfo.locked
  return pool.insert key { outPoint := out, proof, blockHeight := height, locked }

/-- `Remove`. -/
def remove (pool : DepositPool) (out : OutPoint) : Go DepositPool := do
  return pool.erase (← out.unspentOutHash)

/-- `Lock`. -/
def lock (pool : DepositPool) (out : OutPoint) : Go DepositPool := do
  let key ← out.unspentOutHash
  match pool.lookup key with
  | none => return pool
  | some deposit => return pool.insert key { deposit with locked := true }

/-- What `Update` makes of one deposit. -/
def updateDeposit (update : Update) (shard : ShardIndex) (height : Int) (deposit : DepositInfo) :
    Go (Option DepositInfo) := do
  if deposit.locked then
    return if height - deposit.blockHeight > withdrawHeight then none else some deposit
  if deposit.outPoint.shard ≠ shard then
    return some deposit
  let newProof ← update.updateProof deposit.proof
  return some { deposit with proof := newProof, blockHeight := height }

/-- `Update`. -/
def update (pool : DepositPool) (update : Update) (shard : ShardIndex) (height : Int) :
    Go DepositPool :=
  pool.refresh fun _ deposit => updateDeposit update shard height deposit

end DepositPool

end MultiVac.Ledger
