import MultiVac.Merkle.Heap

/-!
# Delta Merkle trees

`DeltaMerkleTree`: the part of a ledger tree that a node can build from Merkle
paths, with the changes of one block to it.
-/

namespace MultiVac.Merkle

open Wire (MerklePath)

/-- `DeltaMerkleTree`. -/
abbrev DeltaMerkleTree := MerkleTree

/-- `NewDeltaMerkleTree`. -/
def newDeltaMerkleTree (merkleRoot : MerkleHash) : DeltaMerkleTree where
  node := fun _ => default
  nextNode := 0
  nodeMap := fun _ => none
  size := unknownSize
  merkleRoot := merkleRoot
  lastNodeHash := none
  hasListener := false

namespace MerkleTree

variable (tree : DeltaMerkleTree)

/-- `getOrCreateNode`, with whether the node existed. -/
def getOrCreateNode (hash : MerkleHash) : (NodeId × Bool) × DeltaMerkleTree :=
  match tree.nodeMap hash with
  | some id => ((id, true), tree)
  | none =>
    let (id, tree) := tree.createNode hash
    ((id, false), tree)

/-- Set the pointers between a parent and its two children. -/
def link (parent current sibling : NodeId) (siblingPos : UInt8) : DeltaMerkleTree :=
  let tree := (tree.setParent current (some parent)).setParent sibling (some parent)
  if siblingPos = leftSide then tree.setChildren parent sibling current
  else tree.setChildren parent current sibling

/-- The loop of `buildPartialTreeForOldMerklePath` above the leaf. -/
def buildAbove (tree : DeltaMerkleTree) (hash : MerkleHash) (current : NodeId) :
    List (MerkleHash × UInt8) → DeltaMerkleTree
  | [] => tree
  | (siblingHash, side) :: steps =>
    let ((sibling, exists_), tree) := tree.getOrCreateNode siblingHash
    -- A sibling that exists shows that the tree above it has been built.
    if exists_ then tree else
      let parentHash := hashPair hash siblingHash side
      let ((parent, _), tree) := tree.getOrCreateNode parentHash
      let tree := tree.link parent current sibling side
      tree.buildAbove parentHash parent steps

/-- `buildPartialTreeForOldMerklePath`. -/
def buildPartialTree (leaf : MerkleHash) (steps : List (MerkleHash × UInt8)) : DeltaMerkleTree :=
  let ((current, exists_), tree) := tree.getOrCreateNode leaf
  if exists_ then tree else tree.buildAbove leaf current steps

/-- `UpdateLeaf`. -/
def updateLeaf (path : MerklePath) (newHash : MerkleHash) : Go DeltaMerkleTree := do
  verify path tree.merkleRoot
  let leaf ← getLeaf path
  let tree := tree.buildPartialTree leaf (steps path)
  match tree.nodeMap leaf with
  | none => Go.panic
  | some id => tree.updateNode id newHash

/-- `GetMerkleRoot`. -/
def getMerkleRoot : Go MerkleHash :=
  match tree.nodeMap tree.merkleRoot with
  | none => .ok tree.merkleRoot
  | some id => do
    let top ← tree.topOf (tree.nextNode + 1) id
    return (tree.node top).hash

/-- `SetSizeAndLastNodeMerklePath`. -/
def setSizeAndLastNodeMerklePath (size : Int) (path : MerklePath) : Go DeltaMerkleTree := do
  Go.require (tree.size = unknownSize) "size and merkle path for last node have already been set"
  verifyLastNodeMerklePath tree.merkleRoot size path
  let leaf ← getLeaf path
  let tree := tree.buildPartialTree leaf (steps path)
  return { tree with lastNodeHash := some leaf, size := size }

/-- The loop of `RefreshMerklePath`: the steps of an old path up to the first node
that the delta tree holds, and this node. -/
def climbToKnown (tree : DeltaMerkleTree) (hash : MerkleHash) :
    List (MerkleHash × UInt8) → List (MerkleHash × UInt8) × Option NodeId
  | [] => ([], none)
  | (siblingHash, side) :: steps =>
    let parentHash := hashPair hash siblingHash side
    match tree.nodeMap parentHash with
    | some id => ([(siblingHash, side)], some id)
    | none =>
      let (taken, found) := tree.climbToKnown parentHash steps
      ((siblingHash, side) :: taken, found)

/-- The steps of an old path up to the first node that the delta tree holds, from
the leaf on. -/
def stepsToKnown (leaf : MerkleHash) (steps : List (MerkleHash × UInt8)) :
    List (MerkleHash × UInt8) × Option NodeId :=
  match tree.nodeMap leaf with
  | some id => ([], some id)
  | none => tree.climbToKnown leaf steps

/-- `RefreshMerklePath`. -/
def refreshMerklePath (path : MerklePath) : Go MerklePath := do
  verify path tree.merkleRoot
  let leaf ← getLeaf path
  let (taken, found) := tree.stepsToKnown leaf (steps path)
  let proof ←
    match found with
    | none => pure []
    | some id => tree.createMerkleProof (tree.nextNode + 1) id (tree.node id).parent
  return {
    hashes := .of (leaf :: (taken ++ proof).map Prod.fst)
    proofPath := .of ((taken ++ proof).map Prod.snd) }

end MerkleTree

end MultiVac.Merkle
