import MultiVac.Ledger.Commitment
import MultiVac.Merkle.Tracking

/-!
# The two layers of the ledger

The leaves of the ledger tree are the roots of the trees over the outs of blocks. Inner
nodes and outs are hashed by the same function, and a path may have any length and any
sides. Nevertheless a path that starts at the hash of an out and leads to the root
belongs to an out of the ledger.
-/

namespace MultiVac.Ledger

open Lib Wire Merkle

/-- Some outs contain an out, up to `nil` slices. -/
def Holds (outs : List OutState) (out : OutState) : Prop :=
  ∃ entry ∈ outs, Codec.outState.decoded entry = Codec.outState.decoded out

/-- The strings that are hashed to verify a path. -/
def pathStrings (path : MerklePath) : Set Bytes :=
  {bytes | ∃ pair ∈ climbedPairs path, bytes = nodePreimage pair.1 pair.2}

variable {outs : List OutState}

/-- An out with a path to the root of a tree over outs is one of them. -/
theorem holds_of_verify {strings : Set Bytes} (injective : Set.InjOn sha256 strings) {tree : Tree}
    (treeOf : TreeOf tree outs) (outsIn : encodings outs ⊆ strings)
    (treeIn : nodeStrings tree ⊆ strings) {out : OutState} {hash : MerkleHash}
    (hashed : out.merkleHash = .ok hash) (outIn : encodings [out] ⊆ strings) {path : MerklePath}
    (starts : getLeaf path = .ok hash) (pathIn : pathStrings path ⊆ strings)
    (verified : verify path (treeRoot tree) = .ok ()) : Holds outs out := by
  obtain ⟨bytes, written, isHash⟩ := (merkleHash_eq_ok_iff _ _).mp hashed
  have isAtom : hash ∈ outHashes strings :=
    ⟨out, bytes, written, outIn ⟨out, List.mem_singleton_self out, written⟩, isHash.symm⟩
  obtain ⟨frames, genuine⟩ := exists_genuine_leaf (separated_of_injOn injective)
    (treeOf.within outsIn treeIn) verified (fun pair inPairs => pathIn ⟨pair, inPairs, rfl⟩)
    starts isAtom
  have inLeaves : hash ∈ tree.leaves := by
    rw [← genuine.place, HashTree.leaves_plug]
    simp [HashTree.leaves]
  obtain ⟨entry, inOuts, entryHashed⟩ := exists_of_mem_mapM treeOf inLeaves
  have entryIn : encodings [entry] ⊆ strings := by
    rintro string ⟨same, isEntry, encoded⟩
    obtain rfl := List.mem_singleton.mp isEntry
    exact outsIn ⟨same, inOuts, encoded⟩
  exact ⟨entry, inOuts, decoded_eq_of_injOn injective entryIn outIn entryHashed hashed⟩

/-- The roots that are appended to the ledger tree for some lists of outs: those of the
lists that are not empty. -/
def unitRoots (units : List (List OutState)) : Go (List MerkleHash) := do
  return (← units.mapM outsRoot).filter (· ≠ emptyHash)

/-- The root of the two-layer ledger over some lists of outs; without any outs there is
no root. -/
def ledgerRoot (units : List (List OutState)) : Go MerkleHash := do
  let roots ← unitRoots units
  Go.assert (!roots.isEmpty)
  return fullRoot roots

/-- The strings that are hashed for the two-layer ledger. -/
def ledgerStrings (units : List (List OutState)) : Set Bytes :=
  {bytes | ∃ unit ∈ units, bytes ∈ hashedForRoot unit} ∪
    {bytes | ∃ roots tree, unitRoots units = .ok roots ∧ fullTree roots = some tree ∧
      bytes ∈ nodeStrings tree}

variable {units : List (List OutState)}

/-- Lists of outs whose roots are appended, with their trees. -/
theorem exists_unitTrees {roots : List MerkleHash} (rooted : unitRoots units = .ok roots) :
    ∃ trees : List Tree, trees.map treeRoot = roots ∧
      (∀ tree ∈ trees, ∃ unit ∈ units, TreeOf tree unit ∧ fullTree tree.leaves = some tree) := by
  obtain ⟨all, collected, filtered⟩ := bind_eq_ok.mp rooted
  obtain rfl := pure_eq_ok.mp filtered
  have related := mapM_eq_ok_iff.mp collected
  clear rooted collected filtered
  induction related with
  | nil => exact ⟨[], rfl, by simp⟩
  | @cons unit root units all unitRooted _ ih =>
    obtain ⟨trees, same, each⟩ := ih
    have later : ∀ tree ∈ trees, ∃ other ∈ unit :: units,
        TreeOf tree other ∧ fullTree tree.leaves = some tree := by
      intro tree inTrees
      obtain ⟨other, inUnits, facts⟩ := each tree inTrees
      exact ⟨other, List.mem_cons_of_mem _ inUnits, facts⟩
    by_cases empty : root = emptyHash
    · rw [List.filter_cons_of_neg (by simpa using empty)]
      exact ⟨trees, same, later⟩
    · rw [List.filter_cons_of_pos (by simpa using empty)]
      rcases outsRoot_cases unitRooted with ⟨_, isEmpty⟩ | ⟨tree, treeOf, built, rfl⟩
      · exact absurd isEmpty empty
      · refine ⟨tree :: trees, by rw [List.map_cons, same], List.forall_mem_cons.mpr ⟨?_, later⟩⟩
        exact ⟨unit, List.mem_cons_self, treeOf, built⟩

/-- The leaves of trees over lists of outs are the hashes of outs of these lists. -/
theorem exists_treeOf_flatMap {trees : List Tree}
    (each : ∀ tree ∈ trees, ∃ unit ∈ units, TreeOf tree unit) :
    ∃ outs : List OutState, outs ⊆ units.flatten ∧
      outs.mapM OutState.merkleHash = .ok (trees.flatMap HashTree.leaves) := by
  induction trees with
  | nil => exact ⟨[], List.nil_subset _, rfl⟩
  | cons tree trees ih =>
    obtain ⟨⟨unit, inUnits, treeOf⟩, rest⟩ := List.forall_mem_cons.mp each
    obtain ⟨outs, subset, hashed⟩ := ih rest
    refine ⟨unit ++ outs, List.append_subset.mpr ⟨?_, subset⟩, ?_⟩
    · exact fun out inUnit => List.mem_flatten.mpr ⟨unit, inUnits, inUnit⟩
    · rw [List.mapM_append, show unit.mapM OutState.merkleHash = .ok tree.leaves from treeOf, hashed]
      rfl

/-- An out with a path to the root of a two-layer ledger is one of its outs. -/
theorem holds_of_ledgerRoot (units : List (List OutState)) (root : MerkleHash)
    (built : ledgerRoot units = .ok root) (out : OutState) (path : MerklePath)
    (injective : Set.InjOn sha256 (ledgerStrings units ∪ encodings [out] ∪ pathStrings path))
    (hash : MerkleHash) (hashed : out.merkleHash = .ok hash) (starts : getLeaf path = .ok hash)
    (verified : verify path root = .ok ()) : Holds units.flatten out := by
  simp only [ledgerRoot, bind_eq_ok, Go.assert_eq_ok, pure_eq_ok] at built
  obtain ⟨roots, rooted, _, nonempty, rfl⟩ := built
  obtain ⟨trees, same, each⟩ := exists_unitTrees rooted
  obtain ⟨top, isTop⟩ : ∃ top, fullTree roots = some top := by
    have whole := leaves_fullTree roots
    rw [if_neg (by simpa using nonempty)] at whole
    obtain ⟨top, isTop, _⟩ := Option.map_eq_some_iff.mp whole
    exact ⟨top, isTop⟩
  have digests : trees.map (HashTree.digest nodeHash) = top.leaves :=
    same.trans (leaves_of_fullTree isTop).symm
  obtain ⟨outs, subset, outsHashed⟩ := exists_treeOf_flatMap fun tree inTrees => by
    obtain ⟨unit, inUnits, treeOf, _⟩ := each tree inTrees
    exact ⟨unit, inUnits, treeOf⟩
  have treeOf : TreeOf (top.graft trees) outs := by
    rw [TreeOf, HashTree.leaves_graft (HashTree.length_of_map_digest digests)]
    exact outsHashed
  have isRoot : treeRoot (top.graft trees) = fullRoot roots := by
    rw [fullRoot, isTop]
    exact HashTree.digest_graft digests
  have ledgerIn : ledgerStrings units ⊆ ledgerStrings units ∪ encodings [out] ∪ pathStrings path :=
    fun _ inLedger => .inl (.inl inLedger)
  have outsIn : encodings outs ⊆ ledgerStrings units := by
    rintro bytes ⟨entry, inOuts, written⟩
    obtain ⟨unit, inUnits, inUnit⟩ := List.mem_flatten.mp (subset inOuts)
    exact .inl ⟨unit, inUnits, .inl ⟨entry, inUnit, written⟩⟩
  have treeIn : nodeStrings (top.graft trees) ⊆ ledgerStrings units := by
    rintro bytes ⟨pair, inPairs, rfl⟩
    rcases HashTree.mem_pairs_graft digests inPairs with inTop | ⟨tree, inTrees, inTree⟩
    · exact .inr ⟨roots, top, rooted, isTop, pair, inTop, rfl⟩
    · obtain ⟨unit, inUnits, unitOf, unitBuilt⟩ := each tree inTrees
      exact .inl ⟨unit, inUnits, .inr ⟨tree, unitOf, unitBuilt, pair, inTree, rfl⟩⟩
  rw [← isRoot] at verified
  obtain ⟨entry, inOuts, isOut⟩ := holds_of_verify injective treeOf (outsIn.trans ledgerIn)
    (treeIn.trans ledgerIn) hashed (fun _ inOut => .inl (.inr inOut)) starts
    (fun _ inPath => .inr inPath) verified
  exact ⟨entry, subset inOuts, isOut⟩

/-- The strings that are hashed for the root of some outs, as a list. -/
def rootStrings (outs : List OutState) : List Bytes :=
  outStrings outs ++ match outs.mapM OutState.merkleHash with
    | .ok hashes => fullTreeStrings hashes
    | .error _ => []

variable {bytes : Bytes}

theorem mem_rootStrings (isHashed : bytes ∈ hashedForRoot outs) : bytes ∈ rootStrings outs := by
  rcases isHashed with isEncoding | ⟨tree, treeOf, built, inNodes⟩
  · exact List.mem_append_left _ (mem_outStrings isEncoding)
  · refine List.mem_append_right _ ?_
    rw [show outs.mapM OutState.merkleHash = .ok tree.leaves from treeOf]
    exact mem_fullTreeStrings built inNodes

/-- The strings that are hashed for the two-layer ledger, as a list. -/
def ledgerStringList (units : List (List OutState)) : List Bytes :=
  units.flatMap rootStrings ++ match unitRoots units with
    | .ok roots => fullTreeStrings roots
    | .error _ => []

theorem mem_ledgerStringList
    (inLedger : bytes ∈ ledgerStrings units) : bytes ∈ ledgerStringList units := by
  rcases inLedger with ⟨unit, inUnits, inUnit⟩ | ⟨roots, tree, rooted, built, inNodes⟩
  · exact List.mem_append_left _ (List.mem_flatMap_of_mem inUnits (mem_rootStrings inUnit))
  · refine List.mem_append_right _ ?_
    rw [rooted]
    exact mem_fullTreeStrings built inNodes

/-- An out with a given index. -/
def indexedOut (index : Int) : OutState := { (default : OutPoint) with index }.toUnspentOutState

/-- A ledger of two blocks with one out each. -/
def indexedUnits : List (List OutState) := [[indexedOut 0], [indexedOut 1]]

/-- The path of the second out. -/
def indexedPath : MerklePath where
  hashes := .of [digest (indexedOut 1), digest (indexedOut 0)]
  proofPath := .of [leftSide]

/-- The path of the second out. -/
theorem holds_of_ledgerRoot_indexedUnits :
    ∃ root, ledgerRoot indexedUnits = .ok root ∧ verify indexedPath root = .ok () ∧
      Holds indexedUnits.flatten (indexedOut 1) := by
  have checked : (ledgerRoot indexedUnits >>= verify indexedPath) = .ok () ∧
      (indexedOut 1).merkleHash = .ok (digest (indexedOut 1)) ∧
      ((ledgerStringList indexedUnits).dedup.map sha256).Nodup ∧
      (∀ bytes ∈ ledgerStringList indexedUnits, sha256 bytes ≠ emptyHash) ∧
      ∀ bytes ∈ outStrings [indexedOut 1] ++ (climbedPairs indexedPath).map pairString,
        bytes ∈ ledgerStringList indexedUnits := by
    decide +kernel
  obtain ⟨runs, hashed, nodup, nonempty, covered⟩ := checked
  obtain ⟨root, built, verified⟩ := bind_eq_ok.mp runs
  have injective := (collisionFree_of_list ⟨nodup, nonempty⟩).injective
  refine ⟨root, built, verified, holds_of_ledgerRoot indexedUnits root built (indexedOut 1)
    indexedPath (injective.mono ?_) _ hashed rfl verified⟩
  rintro bytes ((inLedger | inOut) | ⟨pair, inPairs, rfl⟩)
  · exact mem_ledgerStringList inLedger
  · exact covered bytes (List.mem_append_left _ (mem_outStrings inOut))
  · exact covered _ (List.mem_append_right _ (List.mem_map_of_mem (f := pairString) inPairs))

end MultiVac.Ledger
