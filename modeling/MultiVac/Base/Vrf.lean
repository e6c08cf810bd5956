import MultiVac.Base.Fault
import MultiVac.Base.Slice
import MultiVac.Lib.Rlp

/-!
# The verifiable random function

`Ed25519VRF.VerifyProof` of `base/vrf`. The operations of the curve are those of a
`Curve`; what the function does with the bytes of a key, of a proof and of a message is
written out, since a key or a proof that is too short is an index out of range.
-/

namespace MultiVac

open Lib (bind_eq_ok pure_eq_ok)
open Lib.Rlp (ofBigEndian)

/-- The operations of the package `edwards25519`, on points of one kind. -/
structure Curve where
  Point : Type
  /-- `FromBytes`: the point with these bytes, if there is one. -/
  fromBytes : Bytes32 → Option Point
  /-- `ToBytes`. -/
  toBytes : Point → Bytes32
  /-- `G`. -/
  base : Point
  /-- `GeDouble`. -/
  geDouble : Point → Point
  /-- `GeAdd`. -/
  geAdd : Point → Point → Point
  /-- `GeScalarMult`. -/
  geScalarMult : Point → Bytes32 → Point
  /-- `GeDoubleScalarMultVartime`: the first scalar times the point, and the second times
  the base. -/
  geDoubleScalarMultVartime : Bytes32 → Point → Bytes32 → Point

/-- `copy` into an array of 32 bytes. -/
def Bytes32.copy (bytes : Bytes) : Bytes32 where
  bytes := (bytes ++ List.replicate 32 0).take 32
  length_eq := by simp

namespace Curve

variable (curve : Curve)

/-- `OS2ECP`. A sign of zero or one replaces the highest bit. -/
def os2ecp (os : Bytes) (sign : UInt8) : Option curve.Point :=
  let buf := Bytes32.copy os
  if sign = 0 ∨ sign = 1 then
    curve.fromBytes (.copy (buf.bytes.take 31 ++ [(sign <<< 7) ||| (buf.bytes.getD 31 0 &&& 0x7f)]))
  else curve.fromBytes buf

/-- `S2OS`, for at least 32 bytes. -/
def s2os (bytes : Bytes) : Bytes := ((bytes.getD 31 0 >>> 7) + 2) :: bytes

/-- `ECP2OS` and `ECP2OSProj`. -/
def ecp2os (point : curve.Point) : Bytes := s2os (curve.toBytes point).bytes

/-- `hashToCurve`: the first of a hundred hashes that are a point, doubled three times. -/
def hashToCurve (m pk : Bytes) : Go curve.Point :=
  match (List.range 100).findSome? fun i =>
      curve.os2ecp (sha256 (m ++ pk ++ [0, 0, 0, UInt8.ofNat i])).bytes 3 with
  | some point => .ok (curve.geDouble (curve.geDouble (curve.geDouble point)))
  | none => Go.panic

/-- `hashPoints`. -/
def hashPoints (ps : List Bytes) : Nat := ofBigEndian ((sha256 ps.flatten).bytes.take 16)

/-- `DecodeProof`: the point and the two scalars of a proof, in the order of the field. -/
def decodeProof (pi : Bytes) : Go (curve.Point × Bytes32 × Bytes32) := do
  Go.assert (1 ≤ pi.length)
  let sign := pi.getD 0 0
  Go.require (sign = 2 ∨ sign = 3) "ECVRF: decode error"
  Go.assert (33 ≤ pi.length)
  match curve.os2ecp ((pi.drop 1).take 32) (sign - 2) with
  | none => Go.fail "ECVRF: decode error"
  | some r =>
    Go.assert (81 ≤ pi.length)
    return (r, .copy ((pi.drop 33).take 16).reverse, .copy ((pi.drop 49).take 32).reverse)

/-- `VerifyProof`. Its callers take an error for a proof that is wrong. -/
def verifyProof (pk proof msg : Bytes) : Go Bool := do
  match ← Go.attempt (curve.decodeProof proof) with
  | none => return false
  | some (gamma, c, s) =>
    Go.assert (32 ≤ pk.length)
    match curve.os2ecp pk (pk.getD 31 0 >>> 7) with
    | none => return false
    | some P =>
      let u := curve.geDoubleScalarMultVartime c P s
      let h ← curve.hashToCurve msg pk
      let v := curve.geAdd (curve.geScalarMult gamma c) (curve.geScalarMult h s)
      let c2 := hashPoints [curve.ecp2os curve.base, curve.ecp2os h, s2os pk,
        curve.ecp2os gamma, curve.ecp2os u, curve.ecp2os v]
      return c2 = ofBigEndian c.bytes.reverse

/-- The proof ends too early, or it can be read and the key is too short or the message is
hashed to no point. -/
def ProofPanics (pk proof msg : Bytes) : Prop :=
  proof.length < 1 ∨ (proof.getD 0 0 = 2 ∨ proof.getD 0 0 = 3) ∧ (proof.length < 33 ∨
    (curve.os2ecp ((proof.drop 1).take 32) (proof.getD 0 0 - 2)).isSome ∧ (proof.length < 81 ∨
      pk.length < 32 ∨ (curve.os2ecp pk (pk.getD 31 0 >>> 7)).isSome ∧
        curve.hashToCurve msg pk = Go.panic))

variable {curve}

theorem exists_decodeProof_iff {pi : Bytes} :
    (∃ parts, curve.decodeProof pi = .ok parts) ↔ (pi.getD 0 0 = 2 ∨ pi.getD 0 0 = 3) ∧
      (curve.os2ecp ((pi.drop 1).take 32) (pi.getD 0 0 - 2)).isSome ∧ 81 ≤ pi.length := by
  cases point : curve.os2ecp ((pi.drop 1).take 32) (pi.getD 0 0 - 2) with
  | none => simp only [decodeProof, point, bind_eq_ok, Go.fail_ne_ok, and_false, exists_false,
      Option.isSome_none, Bool.false_eq_true, false_and]
  | some r =>
    simp only [decodeProof, point, bind_eq_ok, pure_eq_ok, Go.assert_eq_ok, Go.require_eq_ok,
      decide_eq_true_eq, exists_const, exists_and_left, exists_eq', and_true, Option.isSome_some,
      true_and]
    grind

theorem decodeProof_eq_panic_iff {pi : Bytes} :
    curve.decodeProof pi = Go.panic ↔ pi.length < 1 ∨ (pi.getD 0 0 = 2 ∨ pi.getD 0 0 = 3) ∧
      (pi.length < 33 ∨ (curve.os2ecp ((pi.drop 1).take 32) (pi.getD 0 0 - 2)).isSome ∧
        pi.length < 81) := by
  cases point : curve.os2ecp ((pi.drop 1).take 32) (pi.getD 0 0 - 2) with
  | none =>
    simp only [decodeProof, point, Go.bind_eq_panic, Go.assert_eq_panic, Go.assert_eq_ok,
      Go.require_ne_panic, Go.require_eq_ok, Go.fail_ne_panic, decide_eq_false_iff_not,
      decide_eq_true_eq, Nat.not_le, exists_const, and_false, or_false, false_or, Option.isSome_none,
      Bool.false_eq_true, false_and]
    grind
  | some r =>
    simp only [decodeProof, point, Go.bind_eq_panic, Go.assert_eq_panic, Go.assert_eq_ok,
      Go.require_ne_panic, Go.require_eq_ok, Go.pure_ne_panic, decide_eq_false_iff_not,
      decide_eq_true_eq, Nat.not_le, exists_const, and_false, or_false, false_or, Option.isSome_some,
      true_and]
    grind

/-- `VerifyProof` panics on such a key, proof and message only. -/
theorem verifyProof_eq_panic_iff {pk proof msg : Bytes} :
    curve.verifyProof pk proof msg = Go.panic ↔ curve.ProofPanics pk proof msg := by
  have decodes := @exists_decodeProof_iff curve proof
  have keyed : curve.verifyProof pk proof msg = Go.panic ↔ curve.decodeProof proof = Go.panic ∨
      (∃ parts, curve.decodeProof proof = .ok parts) ∧ (pk.length < 32 ∨ 32 ≤ pk.length ∧
        (curve.os2ecp pk (pk.getD 31 0 >>> 7)).isSome ∧ curve.hashToCurve msg pk = Go.panic) := by
    rw [verifyProof]
    rcases decoded : curve.decodeProof proof with (text | _) | parts
    · exact iff_of_false (Go.pure_ne_panic false) (by simp [Go.panic])
    · exact iff_of_true rfl (.inl rfl)
    · change (Go.assert _ >>= _) = Go.panic ↔ _
      simp only [Go.bind_eq_panic, Go.assert_eq_panic, Go.assert_eq_ok, decide_eq_false_iff_not,
        decide_eq_true_eq, Nat.not_le, exists_const, Go.ok_ne_panic, false_or, Except.ok.injEq,
        exists_eq', true_and]
      cases curve.os2ecp pk (pk.getD 31 0 >>> 7) with
      | none => simp [Go.pure_ne_panic]
      | some point =>
        simp only [Go.bind_eq_panic, Go.pure_ne_panic, and_false, exists_false, or_false,
          Option.isSome_some, true_and]
  rw [keyed, decodeProof_eq_panic_iff, decodes, ProofPanics]
  grind

end Curve

end MultiVac
