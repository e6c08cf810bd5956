import MultiVac.Merkle.FullTree

/-!
# Merkle trees in memory

`MerkleTree`, which full and delta trees share. Nodes live in a heap and point
to their parents and children, and a map leads from hashes to nodes. A full
tree listens to the changes of hashes and keeps the map up to date; a delta tree
has no listener, so its map keeps the hash that a node had when it was made.
-/

namespace MultiVac.Merkle

open Wire (MerklePath)

/-- The place of a node in the heap. -/
abbrev NodeId := Nat

/-- `ramMerkleNode`. -/
structure Node where
  parent : Option NodeId
  leftChild : Option NodeId
  rightChild : Option NodeId
  hash : MerkleHash

instance : Inhabited Node := ⟨⟨none, none, none, emptyHash⟩⟩

/-- `MerkleTree`: nodes below `nextNode` have been allocated, and the listener is
the full tree itself or absent. -/
structure MerkleTree where
  node : NodeId → Node
  nextNode : NodeId
  nodeMap : MerkleHash → Option NodeId
  size : Int
  merkleRoot : MerkleHash
  lastNodeHash : Option MerkleHash
  hasListener : Bool

/-- `merkle.UnknownSize`. -/
def unknownSize : Int := -1

namespace MerkleTree

variable (tree : MerkleTree) (id : NodeId)

/-- Change one node of the heap. -/
def modify (change : Node → Node) : MerkleTree :=
  { tree with node := Function.update tree.node id (change (tree.node id)) }

/-- Link to a parent. -/
def setParent (parent : Option NodeId) : MerkleTree :=
  tree.modify id fun node => { node with parent := parent }

/-- Link to two children. -/
def setChildren (id left right : NodeId) : MerkleTree :=
  tree.modify id fun node => { node with leftChild := some left, rightChild := some right }

/-- Set the hash of a node. -/
def setHash (hash : MerkleHash) : MerkleTree :=
  tree.modify id fun node => { node with hash := hash }

/-- `newNode`, `setHash` and `nodeMap.set`. -/
def createNode (hash : MerkleHash) : NodeId × MerkleTree :=
  (tree.nextNode,
    { tree with
      node := Function.update tree.node tree.nextNode ⟨none, none, none, hash⟩
      nextNode := tree.nextNode + 1
      nodeMap := Function.update tree.nodeMap hash (some tree.nextNode) })

/-- `onNodeHashChanged` of a full tree. -/
def onNodeHashChanged (originalHash hash : MerkleHash) : MerkleTree :=
  if originalHash = hash then tree
  else
    { tree with
      nodeMap := Function.update (Function.update tree.nodeMap hash (some id)) originalHash none
      lastNodeHash :=
        if tree.lastNodeHash = some originalHash then some hash else tree.lastNodeHash }

/-- `if child != nil { child.setParent(node) }`. -/
def adopt : Option NodeId → MerkleTree
  | none => tree
  | some child => tree.setParent child (some id)

/-- `if pn != nil`: write the node as the left or the right child of its parent. -/
def attach (isLeftChild : Bool) : Option NodeId → MerkleTree
  | none => tree
  | some parent =>
    if isLeftChild then tree.modify parent fun node => { node with leftChild := some id }
    else tree.modify parent fun node => { node with rightChild := some id }

/-- `pn != nil && pn.getLeftChild().isEqualTo(node)`. -/
def isLeftChild : Go Bool :=
  match (tree.node id).parent with
  | none => .ok false
  | some parent =>
    match (tree.node parent).leftChild with
    | none => Go.panic
    | some left => .ok (decide (left = id))

/-- `setNodeHash`: besides the hash it writes the pointers between the node, its
children and its parent again, and tells the listener. -/
def setNodeHash (hash : MerkleHash) : Go MerkleTree := do
  let node := tree.node id
  let isLeftChild ← tree.isLeftChild id
  let tree := tree.setHash id hash
  let tree := tree.adopt id node.leftChild
  let tree := tree.adopt id node.rightChild
  let tree := tree.attach id isLeftChild node.parent
  return if tree.hasListener then tree.onNodeHashChanged id node.hash hash else tree

/-- The loop of `updateNode`: recompute the hashes from a node up to the root.
A chain of parents longer than the heap is a loop, from which the source does
not return. -/
def refreshAbove : Nat → MerkleTree → Option NodeId → Go MerkleTree
  | _, tree, none => .ok tree
  | 0, _, some _ => Go.panic
  | fuel + 1, tree, some id =>
    match (tree.node id).leftChild, (tree.node id).rightChild with
    | some left, some right => do
      let hash := nodeHash (tree.node left).hash (tree.node right).hash
      let tree ← tree.setNodeHash id hash
      refreshAbove fuel tree (tree.node id).parent
    | _, _ => Go.panic

/-- `updateNode`. -/
def updateNode (hash : MerkleHash) : Go MerkleTree := do
  let tree ← tree.setNodeHash id hash
  refreshAbove tree.nextNode tree (tree.node id).parent

/-- Follow the parents of a node to the root of its tree. -/
def topOf (tree : MerkleTree) : Nat → NodeId → Go NodeId
  | 0, _ => Go.panic
  | fuel + 1, id =>
    match (tree.node id).parent with
    | none => .ok id
    | some parent => tree.topOf fuel parent

/-- The ancestor a given number of steps above a node. -/
def ancestor (tree : MerkleTree) : Nat → NodeId → Option NodeId
  | 0, id => some id
  | height + 1, id => (tree.node id).parent.bind (tree.ancestor height)

/-- Create a joint node over a node and a new leaf, and put it in the place of the
node. -/
def replaceByJoint (nodeToReplace nodeToInsert : NodeId)
    (jointHash : MerkleHash) : NodeId × MerkleTree :=
  let above := (tree.node nodeToReplace).parent
  let (joint, tree) := tree.createNode jointHash
  let tree := (tree.setParent joint above).setChildren joint nodeToReplace nodeToInsert
  let tree := (tree.setParent nodeToInsert (some joint)).setParent nodeToReplace (some joint)
  match above with
  | none => (joint, tree)
  | some parent => (joint, tree.modify parent fun node => { node with rightChild := some joint })

/-- One iteration of the loop of `append` on a tree that is not empty: the new
leaf and the perfect subtree before it become the children of a joint node. -/
def appendLeaf (size : Nat) (lastNode : NodeId)
    (hashToInsert : MerkleHash) : Go (NodeId × MerkleTree) := do
  let (nodeToInsert, tree) := tree.createNode hashToInsert
  let depthToReplace := countOne (lowestBit size - 1 : Int)
  match tree.ancestor depthToReplace lastNode with
  | none => Go.panic
  | some nodeToReplace =>
    let jointHash := hashPair hashToInsert (tree.node nodeToReplace).hash leftSide
    let (joint, tree) := tree.replaceByJoint nodeToReplace nodeToInsert jointHash
    let tree ← tree.updateNode joint jointHash
    return (nodeToInsert, tree)

/-- The loop of `append`: the number of leaves, the node of the last one and the
leaves still to be inserted. -/
def appendAll (tree : MerkleTree) (size : Nat) (lastNode : Option NodeId) :
    List MerkleHash → Go (Option NodeId × MerkleTree)
  | [] => .ok (lastNode, tree)
  | hashToInsert :: rest =>
    if size = 0 then
      let (nodeToInsert, tree) := tree.createNode hashToInsert
      appendAll { tree with merkleRoot := hashToInsert } 1 (some nodeToInsert) rest
    else
      match lastNode with
      | none => Go.panic
      | some last => do
        let (nodeToInsert, tree) ← tree.appendLeaf size last hashToInsert
        appendAll tree (size + 1) (some nodeToInsert) rest

/-- `append`. -/
def append (leaves : List MerkleHash) : Go MerkleTree := do
  Go.require (tree.size ≠ unknownSize) "merkle tree's size and last node are unknown"
  Go.assert (0 ≤ tree.size)
  let lastNode := if 0 < tree.size then tree.lastNodeHash.bind tree.nodeMap else none
  let (lastNode, grown) ← tree.appendAll tree.size.toNat lastNode leaves
  match lastNode with
  | none => Go.panic
  | some last =>
    return { grown with
      size := tree.size + leaves.length
      lastNodeHash := some (grown.node last).hash }

/-- `createMerkleProof`. -/
def createMerkleProof (tree : MerkleTree) :
    Nat → NodeId → Option NodeId → Go (List (MerkleHash × UInt8))
  | _, _, none => .ok []
  | 0, _, some _ => Go.panic
  | fuel + 1, id, some parent =>
    match (tree.node parent).leftChild, (tree.node parent).rightChild with
    | some left, some right => do
      let rest ← tree.createMerkleProof fuel parent (tree.node parent).parent
      if left = id then
        return ((tree.node right).hash, rightSide) :: rest
      else
        return ((tree.node left).hash, leftSide) :: rest
    | _, _ => Go.panic

/-- `GetLastNodeMerklePath`. -/
def getLastNodeMerklePath : Go MerklePath :=
  match tree.lastNodeHash with
  | none => Go.fail "LastNode unknown"
  | some hash =>
    match tree.nodeMap hash with
    | none => Go.panic
    | some id => do
      let proof ← tree.createMerkleProof (tree.nextNode + 1) id (tree.node id).parent
      return {
        hashes := .of ((tree.node id).hash :: proof.map Prod.fst)
        proofPath := .of (proof.map Prod.snd) }

end MerkleTree

end MultiVac.Merkle
