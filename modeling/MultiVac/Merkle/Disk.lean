import MultiVac.Base.Database
import MultiVac.Merkle.Heap

/-!
# Full trees on disk

`FullMerkleTree` over `diskMerkleNode` and `diskNodeMap`. A node object is a copy of
what the database holds for its id; every write to an object that changes it is
saved. Nodes are compared by their hashes.
-/

namespace MultiVac.Merkle

open Wire (MerklePath)

/-- `diskMerkleNode`. -/
structure DiskNode where
  id : Nat
  v : ValueInDB

/-- `getNodeID`. -/
def getNodeID : Option DiskNode → Nat
  | none => 0
  | some node => node.id

/-- `FullMerkleTree` on disk, with the cursor of its `diskMerkleFactory`. -/
structure DiskTree where
  db : Database
  cursor : Nat
  size : Int
  merkleRoot : MerkleHash
  lastNodeHash : Option MerkleHash

/-- `NewOnDiskFullMerkleTree` on a database without entries. -/
def emptyDiskTree : DiskTree where
  db := .empty
  cursor := 0
  size := 0
  merkleRoot := emptyHash
  lastNodeHash := none

namespace DiskNode

variable (node : DiskNode)

/-- `save`. -/
def save (db : Database) : Database := db.put (.node node.id) (.node node.v)

/-- A setter of a field that saves the node if the field changes. -/
def write (v : ValueInDB) (db : Database) : DiskNode × Database :=
  if node.v = v then (node, db) else
    let node := { node with v := v }
    (node, node.save db)

/-- Link to a parent. -/
def setParent (parent : Option DiskNode) (db : Database) : DiskNode × Database :=
  node.write { node.v with pid := getNodeID parent } db

/-- Link to a left child. -/
def setLeftChild (child : Option DiskNode) (db : Database) : DiskNode × Database :=
  node.write { node.v with lid := getNodeID child } db

/-- Link to a right child. -/
def setRightChild (child : Option DiskNode) (db : Database) : DiskNode × Database :=
  node.write { node.v with rid := getNodeID child } db

end DiskNode

/-- `diskNodeMap.set`. -/
def setIndex (db : Database) (hash : MerkleHash) (node : DiskNode) : Database :=
  db.put (.hash hash) (.id node.id)

namespace DiskNode

variable (node : DiskNode)

/-- Set the hash, and let the index lead from it to the node. -/
def setHash (hash : MerkleHash) (db : Database) : DiskNode × Database :=
  let node := { node with v := { node.v with hash := hash } }
  (node, node.save (setIndex db hash node))

end DiskNode

/-- `getByID`. -/
def getByID (db : Database) (id : Nat) : Option DiskNode :=
  if id = 0 then none else
    match db.get (.node id) with
    | some (.node v) => some ⟨id, v⟩
    | _ => none

/-- `diskNodeMap.get`. -/
def getNode (db : Database) (hash : MerkleHash) : Option DiskNode :=
  match db.get (.hash hash) with
  | some (.id id) => getByID db id
  | _ => none

namespace DiskTree

variable (tree : DiskTree)

/-- `newNode` and `setHash`. -/
def newNode (hash : MerkleHash) : DiskNode × DiskTree :=
  let cursor := tree.cursor + 1
  let db := tree.db.put .nodeCursor (.number cursor)
  let (node, db) := DiskNode.setHash ⟨cursor, ⟨hash, 0, 0, 0⟩⟩ hash db
  (node, { tree with db := db, cursor := cursor })

/-- `onNodeHashChanged`. -/
def onNodeHashChanged (node : DiskNode) (originalHash hash : MerkleHash) : DiskTree :=
  if originalHash = hash then tree
  else
    { tree with
      db := (setIndex tree.db hash node).delete (.hash originalHash)
      lastNodeHash :=
        if tree.lastNodeHash = some originalHash then some hash else tree.lastNodeHash }

/-- `if child != nil { child.setParent(node) }`. -/
def adopt (db : Database) (node : DiskNode) : Option DiskNode → Database
  | none => db
  | some child => (child.setParent (some node) db).2

/-- `if pn != nil`: write the node as the left or the right child of its parent. -/
def attach (db : Database) (node : DiskNode) (isLeftChild : Bool) : Option DiskNode → Database
  | none => db
  | some pn =>
    if isLeftChild then (pn.setLeftChild (some node) db).2
    else (pn.setRightChild (some node) db).2

/-- `pn != nil && pn.getLeftChild().isEqualTo(node)`. -/
def isLeftChild (db : Database) (node : DiskNode) : Option DiskNode → Go Bool
  | none => .ok false
  | some pn =>
    match getByID db pn.v.lid with
    | none => Go.panic
    | some left => .ok (decide (left.v.hash = node.v.hash))

/-- `setNodeHash`, with the object of the node after it. -/
def setNodeHash (node : DiskNode) (hash : MerkleHash) : Go (DiskNode × DiskTree) := do
  let originalHash := node.v.hash
  let pn := getByID tree.db node.v.pid
  let isLeftChild ← isLeftChild tree.db node pn
  let (node, db) := node.setHash hash tree.db
  let db := adopt db node (getByID db node.v.lid)
  let db := adopt db node (getByID db node.v.rid)
  let db := attach db node isLeftChild pn
  return (node, onNodeHashChanged { tree with db := db } node originalHash hash)

/-- The loop of `updateNode`. -/
def refreshAbove : Nat → DiskTree → Option DiskNode → Go DiskTree
  | _, tree, none => .ok tree
  | 0, _, some _ => Go.panic
  | fuel + 1, tree, some node =>
    match getByID tree.db node.v.lid, getByID tree.db node.v.rid with
    | some left, some right => do
      let (node, tree) ← tree.setNodeHash node (nodeHash left.v.hash right.v.hash)
      refreshAbove fuel tree (getByID tree.db node.v.pid)
    | _, _ => Go.panic

/-- `updateNode`. -/
def updateNode (node : DiskNode) (hash : MerkleHash) : Go DiskTree := do
  let (node, tree) ← tree.setNodeHash node hash
  refreshAbove tree.cursor tree (getByID tree.db node.v.pid)

/-- Follow the parents of a node to the root of its tree. -/
def topOf (tree : DiskTree) : Nat → DiskNode → Go DiskNode
  | 0, _ => Go.panic
  | fuel + 1, node =>
    match getByID tree.db node.v.pid with
    | none => .ok node
    | some parent => tree.topOf fuel parent

/-- The ancestor a given number of steps above a node. -/
def ancestor (tree : DiskTree) : Nat → DiskNode → Option DiskNode
  | 0, node => some node
  | height + 1, node => (getByID tree.db node.v.pid).bind (tree.ancestor height)

/-- Create a joint node over a node and a new leaf, and put it in the place of the
node. Both the leaf and the joint node are used later. -/
def replaceByJoint (nodeToReplace nodeToInsert : DiskNode)
    (jointHash : MerkleHash) : (DiskNode × DiskNode) × DiskTree :=
  let (joint, tree) := tree.newNode jointHash
  let pn := getByID tree.db nodeToReplace.v.pid
  let (joint, db) := joint.setParent pn tree.db
  let (joint, db) := joint.setLeftChild (some nodeToReplace) db
  let (joint, db) := joint.setRightChild (some nodeToInsert) db
  let db := setIndex db jointHash joint
  let (nodeToInsert, db) := nodeToInsert.setParent (some joint) db
  let (_, db) := nodeToReplace.setParent (some joint) db
  let db :=
    match pn with
    | none => db
    | some parent => (parent.setRightChild (some joint) db).2
  ((joint, nodeToInsert), { tree with db := db })

/-- One iteration of the loop of `append` on a tree that is not empty. -/
def appendLeaf (size : Nat) (lastNode : DiskNode) (hashToInsert : MerkleHash) :
    Go (DiskNode × DiskTree) := do
  let (nodeToInsert, tree) := tree.newNode hashToInsert
  let tree := { tree with db := setIndex tree.db hashToInsert nodeToInsert }
  let depthToReplace := countOne (lowestBit size - 1 : Int)
  match tree.ancestor depthToReplace lastNode with
  | none => Go.panic
  | some nodeToReplace =>
    let jointHash := hashPair hashToInsert nodeToReplace.v.hash leftSide
    let ((joint, nodeToInsert), tree) := tree.replaceByJoint nodeToReplace nodeToInsert jointHash
    let tree ← tree.updateNode joint jointHash
    return (nodeToInsert, tree)

/-- The loop of `append`. -/
def appendAll (tree : DiskTree) (size : Nat) (lastNode : Option DiskNode) :
    List MerkleHash → Go (Option DiskNode × DiskTree)
  | [] => .ok (lastNode, tree)
  | hashToInsert :: rest =>
    if size = 0 then
      let (nodeToInsert, tree) := tree.newNode hashToInsert
      let tree := { tree with
        db := setIndex tree.db hashToInsert nodeToInsert
        merkleRoot := hashToInsert }
      appendAll tree 1 (some nodeToInsert) rest
    else
      match lastNode with
      | none => Go.panic
      | some last => do
        let (nodeToInsert, tree) ← tree.appendLeaf size last hashToInsert
        appendAll tree (size + 1) (some nodeToInsert) rest

/-- `updateMerkleRoot`. -/
def updateMerkleRoot : Go DiskTree :=
  match tree.lastNodeHash.bind (getNode tree.db) with
  | none => Go.panic
  | some node => do
    let top ← tree.topOf (tree.cursor + 1) node
    return { tree with merkleRoot := top.v.hash }

/-- `Append`. -/
def append (leaves : List MerkleHash) : Go DiskTree := do
  Go.require (tree.size ≠ unknownSize) "merkle tree's size and last node are unknown"
  Go.assert (0 ≤ tree.size)
  let lastNode := if 0 < tree.size then tree.lastNodeHash.bind (getNode tree.db) else none
  let (lastNode, grown) ← tree.appendAll tree.size.toNat lastNode leaves
  match lastNode with
  | none => Go.panic
  | some last =>
    updateMerkleRoot { grown with
      size := tree.size + leaves.length
      lastNodeHash := some last.v.hash }

/-- `UpdateLeaf`. -/
def updateLeaf (originalHash newHash : MerkleHash) : Go DiskTree :=
  match getNode tree.db originalHash with
  | none => Go.fail "can't find hash in merkle tree"
  | some node => do
    let tree ← tree.updateNode node newHash
    updateMerkleRoot tree

/-- Set the pointers between a node and its two children. -/
def join (db : Database) (node left right : DiskNode) : DiskNode × Database :=
  let (node, db) := node.setLeftChild (some left) db
  let (node, db) := node.setRightChild (some right) db
  let (_, db) := left.setParent (some node) db
  let (_, db) := right.setParent (some node) db
  (node, db)

/-- `deepcopyNode`. -/
def deepcopyNode (tree : DiskTree) : Tree → DiskNode × DiskTree
  | .leaf hash =>
    let (node, tree) := tree.newNode hash
    (node, { tree with db := setIndex tree.db hash node })
  | .node left right =>
    let hash := treeRoot (.node left right)
    let (node, tree) := tree.newNode hash
    let (leftNode, tree) := deepcopyNode tree left
    let (rightNode, tree) := deepcopyNode tree right
    let (node, db) := join tree.db node leftNode rightNode
    (node, { tree with db := setIndex db hash node })

/-- `HookSecondLayerTree`. -/
def hookSecondLayerTree : Option Tree → Go DiskTree
  | none => Go.fail "Subtree is nil"
  | some subtree =>
    match getNode tree.db (treeRoot subtree) with
    | none => Go.fail "Can't find subtree's merkle root in top layer tree"
    | some node =>
      match subtree with
      | .leaf _ => .ok tree
      | .node left right =>
        let (leftNode, tree) := deepcopyNode tree left
        let (rightNode, tree) := deepcopyNode tree right
        .ok { tree with db := (join tree.db node leftNode rightNode).2 }

/-- `createMerkleProof`. -/
def createMerkleProof (tree : DiskTree) :
    Nat → DiskNode → Option DiskNode → Go (List (MerkleHash × UInt8))
  | _, _, none => .ok []
  | 0, _, some _ => Go.panic
  | fuel + 1, node, some pnode =>
    match getByID tree.db pnode.v.lid, getByID tree.db pnode.v.rid with
    | some left, some right => do
      let rest ← tree.createMerkleProof fuel pnode (getByID tree.db pnode.v.pid)
      if left.v.hash = node.v.hash then
        return (right.v.hash, rightSide) :: rest
      else
        return (left.v.hash, leftSide) :: rest
    | _, _ => Go.panic

/-- `GetMerklePath`. -/
def getMerklePath (hash : MerkleHash) : Go MerklePath :=
  match getNode tree.db hash with
  | none => Go.fail "can't find hash in merkle tree"
  | some node => do
    let proof ← tree.createMerkleProof (tree.cursor + 1) node (getByID tree.db node.v.pid)
    let path : MerklePath := {
      hashes := .of (hash :: proof.map Prod.fst)
      proofPath := .of (proof.map Prod.snd) }
    verify path tree.merkleRoot
    return path

end DiskTree

end MultiVac.Merkle
