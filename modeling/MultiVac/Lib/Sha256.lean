import Mathlib.Tactic

/-!
# SHA-256

The hash of FIPS 180-4 on byte strings. Words are natural numbers below
`2 ^ 32`, so that the kernel evaluates the hash of a concrete message.
-/

namespace MultiVac.Lib
namespace Sha256

/-- Addition of words. -/
def add (first second : Nat) : Nat :=
  Nat.mod (Nat.add first second) 4294967296

/-- Rotation of a word to the right. -/
def rotateRight (word count : Nat) : Nat :=
  Nat.lor (Nat.shiftRight word count)
    (Nat.mod (Nat.shiftLeft word (Nat.sub 32 count)) 4294967296)

/-- The parity of three words. -/
def xor3 (first second third : Nat) : Nat :=
  Nat.xor (Nat.xor first second) third

/-- The first word chooses between the other two. -/
def choose (first second third : Nat) : Nat :=
  Nat.xor (Nat.land first second) (Nat.land (Nat.xor first 4294967295) third)

/-- The majority of three words. -/
def majority (first second third : Nat) : Nat :=
  xor3 (Nat.land first second) (Nat.land first third) (Nat.land second third)

/-- `Σ₀` of the standard. -/
def bigSigma0 (word : Nat) : Nat :=
  xor3 (rotateRight word 2) (rotateRight word 13) (rotateRight word 22)

/-- `Σ₁` of the standard. -/
def bigSigma1 (word : Nat) : Nat :=
  xor3 (rotateRight word 6) (rotateRight word 11) (rotateRight word 25)

/-- `σ₀` of the standard. -/
def smallSigma0 (word : Nat) : Nat :=
  xor3 (rotateRight word 7) (rotateRight word 18) (Nat.shiftRight word 3)

/-- `σ₁` of the standard. -/
def smallSigma1 (word : Nat) : Nat :=
  xor3 (rotateRight word 17) (rotateRight word 19) (Nat.shiftRight word 10)

/-- The round constants. -/
def constants : List Nat := [
  0x428a2f98, 0x71374491, 0xb5c0fbcf, 0xe9b5dba5, 0x3956c25b, 0x59f111f1, 0x923f82a4, 0xab1c5ed5,
  0xd807aa98, 0x12835b01, 0x243185be, 0x550c7dc3, 0x72be5d74, 0x80deb1fe, 0x9bdc06a7, 0xc19bf174,
  0xe49b69c1, 0xefbe4786, 0x0fc19dc6, 0x240ca1cc, 0x2de92c6f, 0x4a7484aa, 0x5cb0a9dc, 0x76f988da,
  0x983e5152, 0xa831c66d, 0xb00327c8, 0xbf597fc7, 0xc6e00bf3, 0xd5a79147, 0x06ca6351, 0x14292967,
  0x27b70a85, 0x2e1b2138, 0x4d2c6dfc, 0x53380d13, 0x650a7354, 0x766a0abb, 0x81c2c92e, 0x92722c85,
  0xa2bfe8a1, 0xa81a664b, 0xc24b8b70, 0xc76c51a3, 0xd192e819, 0xd6990624, 0xf40e3585, 0x106aa070,
  0x19a4c116, 0x1e376c08, 0x2748774c, 0x34b0bcb5, 0x391c0cb3, 0x4ed8aa4a, 0x5b9cca4f, 0x682e6ff3,
  0x748f82ee, 0x78a5636f, 0x84c87814, 0x8cc70208, 0x90befffa, 0xa4506ceb, 0xbef9a3f7, 0xc67178f2]

/-- The eight working variables, or the eight words of a hash value. -/
structure Words where
  a : Nat
  b : Nat
  c : Nat
  d : Nat
  e : Nat
  f : Nat
  g : Nat
  h : Nat

/-- The initial hash value. -/
def initial : Words where
  a := 0x6a09e667
  b := 0xbb67ae85
  c := 0x3c6ef372
  d := 0xa54ff53a
  e := 0x510e527f
  f := 0x9b05688c
  g := 0x1f83d9ab
  h := 0x5be0cd19

/-- One round with its constant and its word of the message schedule. -/
def round (words : Words) (constant scheduled : Nat) : Words :=
  let first := add (add (add words.h (bigSigma1 words.e))
    (add (choose words.e words.f words.g) constant)) scheduled
  let second := add (bigSigma0 words.a) (majority words.a words.b words.c)
  { a := add first second
    b := words.a
    c := words.b
    d := words.c
    e := add words.d first
    f := words.e
    g := words.f
    h := words.g }

/-- Extend the message schedule, kept with its latest word first. -/
def schedule : Nat → List Nat → List Nat
  | 0, words => words
  | count + 1, words =>
    let next := add (add (smallSigma1 (words.getD 1 0)) (words.getD 6 0))
      (add (smallSigma0 (words.getD 14 0)) (words.getD 15 0))
    schedule count (next :: words)

/-- The big-endian words of a block. -/
def wordsOf : List UInt8 → List Nat
  | first :: second :: third :: fourth :: rest =>
    (first.toNat * 2 ^ 24 + second.toNat * 2 ^ 16 + third.toNat * 2 ^ 8 + fourth.toNat) ::
      wordsOf rest
  | _ => []

/-- The hash value after one more block. -/
def compress (value : Words) (block : List UInt8) : Words :=
  let scheduled := (schedule 48 (wordsOf block).reverse).reverse
  let worked := (constants.zip scheduled).foldl
    (fun words (constant, word) => round words constant word) value
  { a := add value.a worked.a
    b := add value.b worked.b
    c := add value.c worked.c
    d := add value.d worked.d
    e := add value.e worked.e
    f := add value.f worked.f
    g := add value.g worked.g
    h := add value.h worked.h }

/-- The big-endian bytes of a number in a fixed width. -/
def bytesOf : Nat → Nat → List UInt8
  | 0, _ => []
  | width + 1, number => bytesOf width (number / 256) ++ [UInt8.ofNat number]

/-- The message followed by the bit one, zeros and its length in bits. -/
def pad (message : List UInt8) : List UInt8 :=
  message ++ 0x80 :: (List.replicate ((119 - message.length % 64) % 64) 0 ++
    bytesOf 8 (8 * message.length))

/-- Feed the blocks of a padded message. -/
def absorb : Nat → Words → List UInt8 → Words
  | 0, value, _ => value
  | blocks + 1, value, padded =>
    absorb blocks (compress value (padded.take 64)) (padded.drop 64)

/-- The SHA-256 hash of a message. -/
def digest (message : List UInt8) : List UInt8 :=
  let padded := pad message
  let value := absorb (padded.length / 64) initial padded
  bytesOf 4 value.a ++ bytesOf 4 value.b ++ bytesOf 4 value.c ++ bytesOf 4 value.d ++
    bytesOf 4 value.e ++ bytesOf 4 value.f ++ bytesOf 4 value.g ++ bytesOf 4 value.h

@[simp]
theorem length_bytesOf (width number : Nat) : (bytesOf width number).length = width := by
  induction width generalizing number with
  | zero => rfl
  | succ width ih => simp [bytesOf, ih]

/-- A hash has 32 bytes. -/
theorem length_digest (message : List UInt8) : (digest message).length = 32 := by
  simp [digest]

example : digest [0x61, 0x62, 0x63] = [
    0xba, 0x78, 0x16, 0xbf, 0x8f, 0x01, 0xcf, 0xea, 0x41, 0x41, 0x40, 0xde, 0x5d, 0xae, 0x22, 0x23,
    0xb0, 0x03, 0x61, 0xa3, 0x96, 0x17, 0x7a, 0x9c, 0xb4, 0x10, 0xff, 0x61, 0xf2, 0x00, 0x15, 0xad] := by
  decide +kernel

end Sha256
end MultiVac.Lib
