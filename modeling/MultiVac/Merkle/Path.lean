import MultiVac.Base.Fault
import MultiVac.Wire.Types

/-!
# Merkle paths

`model/merkle`: the hash of an inner node, the check of a Merkle path against a
root, and the check that a path belongs to the last leaf of a tree.
-/

namespace MultiVac.Merkle

open Wire (MerklePath)

/-- `merkle.Left`, the side of a sibling; every other byte means the right. -/
def leftSide : UInt8 := 0

/-- `merkle.Right`. -/
def rightSide : UInt8 := 1

/-- `merkle.EmptyHash`. -/
def emptyHash : MerkleHash := Bytes32.zero

/-- The bytes hashed for an inner node. The buffer of the source starts with 64
zero bytes, and the right child comes first. -/
def nodePreimage (left right : MerkleHash) : Bytes :=
  List.replicate 64 0 ++ right.bytes ++ left.bytes

/-- The hash of an inner node. -/
def nodeHash (left right : MerkleHash) : MerkleHash := sha256 (nodePreimage left right)

/-- `merkle.Hash`. -/
def hashPair (current sibling : MerkleHash) (side : UInt8) : MerkleHash :=
  if side = leftSide then nodeHash sibling current else nodeHash current sibling

/-- The root that a leaf and its siblings lead to. -/
def climb (leaf : MerkleHash) (steps : List (MerkleHash × UInt8)) : MerkleHash :=
  steps.foldl (fun current (sibling, side) => hashPair current sibling side) leaf

variable (path : MerklePath)

/-- `MerklePath.GetLeaf`. -/
def getLeaf : Go MerkleHash :=
  match path.hashes.elems with
  | [] => Go.panic
  | leaf :: _ => .ok leaf

/-- The siblings of a path with their sides. -/
def steps : List (MerkleHash × UInt8) :=
  path.hashes.elems.tail.zip path.proofPath.elems

/-- `MerklePath.Verify`. -/
def verify (expected : MerkleHash) : Go Unit := do
  Go.require (path.proofPath.length + 1 = path.hashes.length)
    "length of path not equal to length of hashes"
  let leaf ← getLeaf path
  Go.require (climb leaf (steps path) = expected) "RootHashMismatchError"

/-- `countOne` on a 64-bit integer. -/
def countOne (value : Int) : Nat :=
  (Nat.digits 2 (value % 2 ^ 64).toNat).count 1

/-- `VerifyLastNodeMerklePath`. -/
def verifyLastNodeMerklePath (root : MerkleHash) (size : Int) (path : MerklePath) : Go Unit := do
  verify path root
  let lengthOfProof := countOne (size - 1)
  Go.require (path.proofPath.length = lengthOfProof ∧ path.hashes.length = lengthOfProof + 1)
    "length of merkle path is wrong"
  Go.require (path.proofPath.elems.all fun side => side = leftSide)
    "wrong merkle path, not the one for last node"

/-- What a verified path says. -/
theorem verify_eq_ok_iff (expected : MerkleHash) :
    verify path expected = .ok () ↔ ∃ leaf siblings, path.hashes.elems = leaf :: siblings ∧
        path.proofPath.elems.length = siblings.length ∧
        climb leaf (siblings.zip path.proofPath.elems) = expected := by
  cases hashes : path.hashes.elems with
  | nil => simp [verify, Slice.length, hashes]
  | cons leaf siblings => simp [verify, Slice.length, getLeaf, steps, hashes]

end MultiVac.Merkle
