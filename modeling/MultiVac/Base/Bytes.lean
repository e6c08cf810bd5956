import Mathlib.Tactic
import MultiVac.Lib.Sha256

/-!
# Byte strings and fixed-width hashes

Go arrays of 32 bytes appear in the source as chain hashes, Merkle hashes and
vote keys. They are one type here, a byte list that carries its length. Both
`chainhash.HashH` and `merkle.ComputeMerkleHash` are the SHA-256 hash.
-/

namespace MultiVac

/-- A Go byte slice whose `nil` and empty values are not told apart. -/
abbrev Bytes := List UInt8

/-- A Go array of 32 bytes. -/
structure Bytes32 where
  bytes : Bytes
  length_eq : bytes.length = 32

/-- `chainhash.Hash`. -/
abbrev Hash := Bytes32

/-- `merkle.MerkleHash`. -/
abbrev MerkleHash := Bytes32

/-- `pkKey`, the fixed-width form of an ed25519 public key. -/
abbrev PkKey := Bytes32

namespace Bytes32

@[ext]
theorem ext {first second : Bytes32}
    (bytesEqual : first.bytes = second.bytes) : first = second := by
  cases first
  cases second
  simp_all

-- A derived instance would cast along the equality of the bytes, and the kernel
-- would compare two computed hashes as terms before it removes the cast.
instance : DecidableEq Bytes32 := fun first second =>
  decidable_of_iff (first.bytes = second.bytes) ⟨ext, congrArg bytes⟩

/-- The array whose bytes are all equal to one byte. -/
def fill (byte : UInt8) : Bytes32 where
  bytes := List.replicate 32 byte
  length_eq := List.length_replicate

/-- The zero value of the array type. -/
def zero : Bytes32 := fill 0

instance : Inhabited Bytes32 := ⟨zero⟩

/-- `bytes.Compare(first[0:], second[0:]) < 0`. -/
def lessThan (first second : Bytes32) : Bool :=
  compare first.bytes second.bytes == .lt

end Bytes32

/-- `sha256.Sum256`. -/
def sha256 (message : Bytes) : Hash where
  bytes := Lib.Sha256.digest message
  length_eq := Lib.Sha256.length_digest message

/-- `sha256.Sum256` of a `sha256.Sum256`. -/
def doubleSha256 (message : Bytes) : Hash := sha256 (sha256 message).bytes

end MultiVac
