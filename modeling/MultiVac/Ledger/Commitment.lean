import MultiVac.Merkle.FullTree
import MultiVac.Wire.Out

/-!
# What a Merkle root commits to

SHA-256 is assumed not to collide on the byte strings that are hashed. The
encoding of an out never has the form of the string that is hashed for an inner
node, so the root of a Merkle tree over outs determines the outs, up to the
difference between `nil` and empty slices that the encoding does not show.
-/

namespace MultiVac.Ledger

open Lib Wire Merkle

/-- SHA-256 does not collide on some strings, and does not map them to the empty
hash. -/
structure CollisionFree (strings : Set Bytes) : Prop where
  injective : Set.InjOn sha256 strings
  nonempty : ∀ string ∈ strings, sha256 string ≠ emptyHash

theorem CollisionFree.mono {strings smaller : Set Bytes} (collisionFree : CollisionFree strings)
    (subset : smaller ⊆ strings) : CollisionFree smaller where
  injective := collisionFree.injective.mono subset
  nonempty := fun string inSmaller => collisionFree.nonempty string (subset inSmaller)

/-- The pairs of hashes whose node is hashed. -/
def nodePairs (strings : Set Bytes) : Set (MerkleHash × MerkleHash) :=
  {pair | nodePreimage pair.1 pair.2 ∈ strings}

/-- The hashes of the outs whose encodings are hashed. -/
def outHashes (strings : Set Bytes) : Set MerkleHash :=
  {hash | ∃ out bytes, encodeToBytes Codec.outState out = .ok bytes ∧ bytes ∈ strings ∧
    hash = sha256 bytes}

theorem nodePreimage_injective {left right otherLeft otherRight : MerkleHash}
    (same : nodePreimage left right = nodePreimage otherLeft otherRight) :
    left = otherLeft ∧ right = otherRight := by
  unfold nodePreimage at same
  have lengths := right.length_eq.trans otherRight.length_eq.symm
  obtain ⟨sameFirst, sameLeft⟩ := List.append_inj same (by simp [lengths])
  exact ⟨Bytes32.ext sameLeft, Bytes32.ext (List.append_cancel_left sameFirst)⟩

theorem decode_nodePreimage (left right : MerkleHash) :
    Rlp.Item.decode (nodePreimage left right) = none := by
  change Rlp.Item.decode (0 :: (List.replicate 63 0 ++ right.bytes ++ left.bytes)) = none
  exact Rlp.Item.decode_byte_cons (by decide) (by simp)

variable {strings : Set Bytes}

/-- The string for a node is never the encoding of an out. -/
theorem separated_of_injOn (injective : Set.InjOn sha256 strings) :
    HashTree.Separated nodeHash (nodePairs strings) (outHashes strings) where
  injective := by
    intro pair inPairs other inPairsToo same
    have sameString := injective inPairs inPairsToo same
    obtain ⟨sameLeft, sameRight⟩ := nodePreimage_injective sameString
    exact Prod.ext sameLeft sameRight
  disjoint := by
    rintro pair inPairs ⟨out, bytes, written, inStrings, same⟩
    have sameString := injective inPairs inStrings same
    obtain ⟨item, decoded⟩ := decode_of_encodeToBytes written
    rw [← sameString, decode_nodePreimage] at decoded
    cases decoded

theorem CollisionFree.separated (collisionFree : CollisionFree strings) :
    HashTree.Separated nodeHash (nodePairs strings) (outHashes strings) :=
  separated_of_injOn collisionFree.injective

/-- The bytes behind the hash of an out. -/
theorem merkleHash_eq_ok_iff (out : OutState) (hash : MerkleHash) :
    out.merkleHash = .ok hash ↔
      ∃ bytes, encodeToBytes Codec.outState out = .ok bytes ∧ sha256 bytes = hash := by
  simp [OutState.merkleHash, hashOf]

/-- The hash of an out; the empty hash for an out that cannot be encoded. -/
def digest (out : OutState) : MerkleHash :=
  match out.merkleHash with
  | .ok hash => hash
  | .error _ => emptyHash

variable {out : OutState} {hash : MerkleHash}

theorem digest_eq (hashed : out.merkleHash = .ok hash) : digest out = hash := by
  rw [digest, hashed]

/-- The encodings of some outs. -/
def encodings (outs : List OutState) : Set Bytes :=
  {bytes | ∃ out ∈ outs, encodeToBytes Codec.outState out = .ok bytes}

variable {first second : OutState}

/-- The hash of an out determines it up to `nil` slices. -/
theorem decoded_eq_of_injOn (injective : Set.InjOn sha256 strings)
    (firstIn : encodings [first] ⊆ strings) (secondIn : encodings [second] ⊆ strings)
    (hashedFirst : first.merkleHash = .ok hash) (hashedSecond : second.merkleHash = .ok hash) :
    Codec.outState.decoded first = Codec.outState.decoded second := by
  obtain ⟨bytes, written, rfl⟩ := (merkleHash_eq_ok_iff _ _).mp hashedFirst
  obtain ⟨other, writtenToo, same⟩ := (merkleHash_eq_ok_iff _ _).mp hashedSecond
  obtain rfl := injective (secondIn ⟨second, List.mem_cons_self, writtenToo⟩)
    (firstIn ⟨first, List.mem_cons_self, written⟩) same
  exact (Rlp.bytesOf Fault.panic Codec.outState).decoded_of_write written writtenToo

theorem CollisionFree.decoded_eq (collisionFree : CollisionFree strings)
    (firstIn : encodings [first] ⊆ strings) (secondIn : encodings [second] ⊆ strings)
    (hashedFirst : first.merkleHash = .ok hash) (hashedSecond : second.merkleHash = .ok hash) :
    Codec.outState.decoded first = Codec.outState.decoded second :=
  decoded_eq_of_injOn collisionFree.injective firstIn secondIn hashedFirst hashedSecond

/-- The strings that are hashed for the inner nodes of a tree. -/
def nodeStrings (tree : Tree) : Set Bytes :=
  {bytes | ∃ pair ∈ tree.pairs nodeHash, bytes = nodePreimage pair.1 pair.2}

/-- A tree has the hashes of some outs as its leaves. -/
def TreeOf (tree : Tree) (outs : List OutState) : Prop :=
  outs.mapM OutState.merkleHash = .ok tree.leaves

variable {tree : Tree} {outs : List OutState}

/-- A tree over outs is hashed from their encodings and from its inner nodes. -/
theorem TreeOf.within (treeOf : TreeOf tree outs) (outsIn : encodings outs ⊆ strings)
    (nodesIn : nodeStrings tree ⊆ strings) :
    HashTree.Within nodeHash (nodePairs strings) (outHashes strings) tree where
  pairs := fun pair inPairs => nodesIn ⟨pair, inPairs, rfl⟩
  leaves := by
    intro leaf inLeaves
    obtain ⟨out, inOuts, hashed⟩ := exists_of_mem_mapM treeOf inLeaves
    obtain ⟨bytes, written, rfl⟩ := (merkleHash_eq_ok_iff _ _).mp hashed
    exact ⟨out, bytes, written, outsIn ⟨out, inOuts, written⟩, rfl⟩

/-- Outs with the same hashes are the same up to `nil` slices. -/
theorem CollisionFree.map_decoded_eq (collisionFree : CollisionFree strings)
    {first second : List OutState} (firstIn : encodings first ⊆ strings)
    (secondIn : encodings second ⊆ strings) {hashes : List MerkleHash}
    (hashedFirst : first.mapM OutState.merkleHash = .ok hashes)
    (hashedSecond : second.mapM OutState.merkleHash = .ok hashes) :
    first.map Codec.outState.decoded = second.map Codec.outState.decoded := by
  have firstRelated := mapM_eq_ok_iff.mp hashedFirst
  clear hashedFirst
  induction firstRelated generalizing second with
  | nil =>
    cases mapM_eq_ok_iff.mp hashedSecond
    rfl
  | @cons out hash outs hashes hashed _ ih =>
    cases mapM_eq_ok_iff.mp hashedSecond with
    | @cons other _ others _ hashedToo relatedToo =>
      have narrow : ∀ {out : OutState} {outs : List OutState}, encodings (out :: outs) ⊆ strings →
            encodings [out] ⊆ strings ∧ encodings outs ⊆ strings := by
        intro out outs subset
        constructor
        · rintro bytes ⟨same, inSingle, written⟩
          obtain rfl := List.mem_singleton.mp inSingle
          exact subset ⟨same, List.mem_cons_self, written⟩
        · rintro bytes ⟨same, inOuts, written⟩
          exact subset ⟨same, List.mem_cons_of_mem _ inOuts, written⟩
      obtain ⟨outIn, outsIn⟩ := narrow firstIn
      obtain ⟨otherIn, othersIn⟩ := narrow secondIn
      rw [List.map_cons, List.map_cons, collisionFree.decoded_eq outIn otherIn hashed hashedToo,
        ih outsIn othersIn (mapM_eq_ok_iff.mpr relatedToo)]

/-! ### Outs that can be encoded -/

section Encodable

variable {strings : Set Bytes}

theorem encodings_subset_iff :
    encodings outs ⊆ strings ↔ ∀ out ∈ outs, encodings [out] ⊆ strings := by
  constructor
  · rintro subset out inOuts bytes ⟨same, isOut, written⟩
    obtain rfl := List.mem_singleton.mp isOut
    exact subset ⟨same, inOuts, written⟩
  · rintro subset bytes ⟨out, inOuts, written⟩
    exact subset out inOuts ⟨out, List.mem_singleton_self out, written⟩

/-- An out can be encoded. -/
def Encodable (out : OutState) : Prop := out.merkleHash = .ok (digest out)

variable {out : OutState}

theorem encodable_of_hash (hashed : out.merkleHash = .ok hash) : Encodable out := by
  rw [Encodable, digest_eq hashed, hashed]

theorem mapM_merkleHash_iff {hashes : List MerkleHash} :
    outs.mapM OutState.merkleHash = .ok hashes ↔
      (∀ out ∈ outs, Encodable out) ∧ hashes = outs.map digest := by
  rw [mapM_eq_ok_iff]
  constructor
  · intro related
    induction related with
    | nil => simp
    | @cons out hash outs hashes hashed _ ih =>
      obtain ⟨encodable, rfl⟩ := ih
      rw [List.map_cons, digest_eq hashed]
      exact ⟨List.forall_mem_cons.mpr ⟨encodable_of_hash hashed, encodable⟩, rfl⟩
  · rintro ⟨encodable, rfl⟩
    refine List.forall₂_map_right_iff.mpr (List.forall₂_same.mpr encodable)

theorem treeOf_iff :
    TreeOf tree outs ↔ (∀ out ∈ outs, Encodable out) ∧ tree.leaves = outs.map digest :=
  mapM_merkleHash_iff

theorem digest_mem_outHashes (encodable : Encodable out)
    (outIn : encodings [out] ⊆ strings) : digest out ∈ outHashes strings := by
  obtain ⟨bytes, written, same⟩ := (merkleHash_eq_ok_iff _ _).mp encodable
  exact ⟨out, bytes, written, outIn ⟨out, List.mem_singleton_self out, written⟩, same.symm⟩

/-- Outs have the same hash when they are the same up to `nil` slices, and only then. -/
theorem CollisionFree.digest_eq_iff (collisionFree : CollisionFree strings)
    (firstIn : encodings [first] ⊆ strings) (secondIn : encodings [second] ⊆ strings)
    (firstEncodable : Encodable first) (secondEncodable : Encodable second) :
    digest first = digest second ↔
      Codec.outState.decoded first = Codec.outState.decoded second := by
  constructor
  · intro same
    exact collisionFree.decoded_eq firstIn secondIn firstEncodable (same ▸ secondEncodable)
  · intro same
    have hashes : first.merkleHash = second.merkleHash :=
      (hashOf_decoded Codec.outState first).symm.trans
        ((congrArg (hashOf Codec.outState) same).trans (hashOf_decoded Codec.outState second))
    rw [digest, digest, hashes]

theorem state_decoded (out : OutState) : (Codec.outState.decoded out).state = out.state :=
  UInt8.ofNat_toNat

end Encodable

/-! ### The root of a list of outs -/

/-- The Merkle root of some outs. -/
def outsRoot (outs : List OutState) : Go MerkleHash := do
  return fullRoot (← outs.mapM OutState.merkleHash)

/-- The strings that are hashed for the Merkle root of some outs. -/
def hashedForRoot (outs : List OutState) : Set Bytes :=
  encodings outs ∪ {bytes | ∃ tree, TreeOf tree outs ∧ fullTree tree.leaves = some tree ∧
    bytes ∈ nodeStrings tree}

variable {root : MerkleHash}

/-- The root of no outs is the empty hash, that of others the root of their tree. -/
theorem outsRoot_cases (rooted : outsRoot outs = .ok root) :
    (outs = [] ∧ root = emptyHash) ∨
      ∃ tree, TreeOf tree outs ∧ fullTree tree.leaves = some tree ∧ root = treeRoot tree := by
  simp only [outsRoot, bind_eq_ok, pure_eq_ok] at rooted
  obtain ⟨leaves, hashed, rfl⟩ := rooted
  have whole := leaves_fullTree leaves
  split at whole
  · next empty =>
    subst empty
    cases mapM_eq_ok_iff.mp hashed
    exact .inl ⟨rfl, rfl⟩
  · obtain ⟨tree, built, treeLeaves⟩ := Option.map_eq_some_iff.mp whole
    refine .inr ⟨tree, ?_, ?_, ?_⟩
    · rw [TreeOf, treeLeaves]
      exact hashed
    · rw [treeLeaves]
      exact built
    · simp only [fullRoot, built]

/-- The root of a tree over outs is not the empty hash. -/
theorem CollisionFree.treeRoot_ne_emptyHash (collisionFree : CollisionFree strings)
    (within : HashTree.Within nodeHash (nodePairs strings) (outHashes strings) tree) :
    treeRoot tree ≠ emptyHash := by
  cases tree with
  | leaf hash =>
    obtain ⟨_, bytes, _, inStrings, same⟩ := (HashTree.within_leaf_iff hash).mp within
    rw [show treeRoot (.leaf hash) = sha256 bytes from same]
    exact collisionFree.nonempty bytes inStrings
  | node left right =>
    exact collisionFree.nonempty _ ((HashTree.within_node_iff left right).mp within).1

/-- The Merkle root determines the outs up to `nil` slices. -/
theorem map_decoded_eq_of_outsRoot_eq {first second : List OutState}
    (collisionFree : CollisionFree (hashedForRoot first ∪ hashedForRoot second))
    (rootedFirst : outsRoot first = .ok root) (rootedSecond : outsRoot second = .ok root) :
    first.map Codec.outState.decoded = second.map Codec.outState.decoded := by
  have firstIn : hashedForRoot first ⊆ hashedForRoot first ∪ hashedForRoot second :=
    Set.subset_union_left
  have secondIn : hashedForRoot second ⊆ hashedForRoot first ∪ hashedForRoot second :=
    Set.subset_union_right
  have inside : ∀ {outs : List OutState} {tree : Tree},
      hashedForRoot outs ⊆ hashedForRoot first ∪ hashedForRoot second → TreeOf tree outs →
        fullTree tree.leaves = some tree →
        HashTree.Within nodeHash (nodePairs (hashedForRoot first ∪ hashedForRoot second))
          (outHashes (hashedForRoot first ∪ hashedForRoot second)) tree := by
    intro outs tree subset treeOf built
    exact treeOf.within (fun bytes inOuts => subset (.inl inOuts))
      fun bytes inNodes => subset (.inr ⟨tree, treeOf, built, inNodes⟩)
  rcases outsRoot_cases rootedFirst with ⟨rfl, rfl⟩ | ⟨tree, treeOf, built, rfl⟩
  · rcases outsRoot_cases rootedSecond with ⟨rfl, _⟩ | ⟨other, otherOf, builtToo, same⟩
    · rfl
    · exact absurd same.symm
        (collisionFree.treeRoot_ne_emptyHash (inside secondIn otherOf builtToo))
  · rcases outsRoot_cases rootedSecond with ⟨rfl, same⟩ | ⟨other, otherOf, builtToo, same⟩
    · exact absurd same (collisionFree.treeRoot_ne_emptyHash (inside firstIn treeOf built))
    · obtain rfl := HashTree.eq_of_digest_eq collisionFree.separated
        (inside firstIn treeOf built) (inside secondIn otherOf builtToo) same
      exact collisionFree.map_decoded_eq (fun bytes inOuts => firstIn (.inl inOuts))
        (fun bytes inOuts => secondIn (.inl inOuts)) treeOf otherOf

/-- The root of a single out is free of collisions. -/
theorem collisionFree_hashedForRoot_singleton (hashed : out.merkleHash = .ok hash)
    (nonempty : hash ≠ emptyHash) : CollisionFree (hashedForRoot [out]) := by
  obtain ⟨bytes, written, rfl⟩ := (merkleHash_eq_ok_iff _ _).mp hashed
  have single : ∀ string ∈ hashedForRoot [out], string = bytes := by
    rintro string (⟨other, inSingle, writtenToo⟩ | ⟨tree, treeOf, _, pair, inPairs, _⟩)
    · obtain rfl := List.mem_singleton.mp inSingle
      exact Except.ok.inj (writtenToo.symm.trans written)
    · have oneLeaf : tree.leaves.length = 1 := (mapM_eq_ok_iff.mp treeOf).length_eq.symm
      cases tree with
      | leaf hash => cases inPairs
      | node left right =>
        have leftLeaf := List.length_pos_iff.mpr left.leaves_ne_nil
        have rightLeaf := List.length_pos_iff.mpr right.leaves_ne_nil
        rw [HashTree.leaves, List.length_append] at oneLeaf
        omega
  constructor
  · intro first inFirst second inSecond _
    rw [single first inFirst, single second inSecond]
  · intro string inStrings
    rwa [single string inStrings]

/-! ### The strings of concrete outs -/

/-- The encodings of some outs as a list. -/
def outStrings (outs : List OutState) : List Bytes :=
  outs.filterMap fun out => (encodeToBytes Codec.outState out).toOption

variable {bytes : Bytes}

theorem mem_outStrings (isEncoding : bytes ∈ encodings outs) : bytes ∈ outStrings outs := by
  obtain ⟨out, inOuts, written⟩ := isEncoding
  exact List.mem_filterMap.mpr ⟨out, inOuts, by rw [written]; rfl⟩

/-- The string that is hashed for a node. -/
def pairString (pair : MerkleHash × MerkleHash) : Bytes := nodePreimage pair.1 pair.2

/-- The strings that are hashed for the inner nodes of a full tree, as a list. -/
def fullTreeStrings (leaves : List MerkleHash) : List Bytes :=
  match fullTree leaves with
  | some tree => (tree.pairs nodeHash).map pairString
  | none => []

theorem mem_fullTreeStrings {leaves : List MerkleHash} (built : fullTree leaves = some tree)
    (inNodes : bytes ∈ nodeStrings tree) : bytes ∈ fullTreeStrings leaves := by
  obtain ⟨pair, inPairs, rfl⟩ := inNodes
  rw [fullTreeStrings, built]
  exact List.mem_map_of_mem (f := pairString) inPairs

/-- Finitely many strings can be checked for collisions. -/
theorem collisionFree_of_list {list : List Bytes}
    (checked : (list.dedup.map sha256).Nodup ∧ ∀ bytes ∈ list, sha256 bytes ≠ emptyHash) :
    CollisionFree {bytes | bytes ∈ list} where
  injective := fun _ first _ second same => List.inj_on_of_nodup_map checked.1
    (List.mem_dedup.mpr first) (List.mem_dedup.mpr second) same
  nonempty := checked.2

end MultiVac.Ledger
