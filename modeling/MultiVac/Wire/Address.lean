import MultiVac.Base.Fault
import MultiVac.Wire.Types

/-!
# Addresses

`multivacaddress`: an address is the text `MTV` followed by the base 58 form of
a type byte, a public key hash of 20 bytes and a checksum of 4 bytes. Base 58,
RIPEMD-160 and ed25519 come from other repositories and are parameters.
-/

namespace MultiVac.Wire

/-- The functions of other repositories that addresses and signatures use. -/
structure Primitives where
  base58Encode : Bytes → Bytes
  base58Decode : Bytes → Bytes
  ripemd160 : Bytes → Bytes
  /-- `ed25519.Sign` on a private key and a message. -/
  ed25519Sign : Bytes → Bytes → Bytes
  /-- `ed25519.Verify` on a public key of 32 bytes, a message and a signature. -/
  ed25519Verify : Bytes → Bytes → Bytes → Bool

/-- `multivacaddress.AddressType`. -/
inductive AddressType where
  | userAddress
  | systemContractAddress
  | smartContractAddress

/-- The byte that tells the kind of an address. -/
def AddressType.byte : AddressType → UInt8
  | .userAddress => 0x00
  | .systemContractAddress => 0x01
  | .smartContractAddress => 0x05

/-- The size of `PublicKeyHash`. -/
def publicKeyHashSize : Nat := 20

/-- Go's `copy` of a slice into a zeroed array of 20 bytes. -/
def toPublicKeyHash (bytes : Bytes) : Bytes :=
  (bytes ++ List.replicate publicKeyHashSize 0).take publicKeyHashSize

/-- The text every address starts with. -/
def addressText : Bytes := ascii ['M', 'T', 'V']

namespace Address

/-- The first four bytes of the double hash. -/
def checkSum (payload : Bytes) : Bytes := (doubleSha256 payload).bytes.take 4

variable (primitives : Primitives)

/-- The text, then the kind, the hash and a checksum in base 58. -/
def generateAddressByPublicKeyHash (pubKey : Bytes) (addrType : AddressType) : Address :=
  let versionPayload := addrType.byte :: pubKey
  .of (addressText ++ primitives.base58Encode (versionPayload ++ checkSum versionPayload))

/-- The hash part of the address of a public key. -/
def hashPublicKey (pk : Bytes) (addrType : AddressType) : Bytes :=
  match addrType with
  | .userAddress => primitives.ripemd160 (sha256 pk).bytes
  | _ => toPublicKeyHash pk

/-- The address of a public key. -/
def generateAddress (pk : Bytes) (addrType : AddressType) : Address :=
  generateAddressByPublicKeyHash primitives
    (toPublicKeyHash (hashPublicKey primitives pk addrType)) addrType

/-- Check the text, the type byte and the checksum, and return the payload.
Slicing beyond the end of the address or of the payload panics. -/
def checkedPayload (addr : Address) (addrType : AddressType) : Go Bytes := do
  Go.assert (3 ≤ addr.length)
  Go.require (addr.elems.take 3 = addressText) "address prefix error"
  let fullPayload := primitives.base58Decode (addr.elems.drop 3)
  match fullPayload.head? with
  | none => Go.fail "fail to base58.Decode address, decode results in length 0"
  | some kind => Go.require (kind = addrType.byte) "addressType error"
  Go.assert (25 ≤ fullPayload.length)
  Go.require (checkSum (fullPayload.take 21) = (fullPayload.drop 21).take 4)
    "fail to check checkSum"
  return fullPayload

/-- The address is that of the public key. -/
def verifyPublicKey (addr : Address) (pk : Bytes) (addrType : AddressType) : Go Unit := do
  let fullPayload ← checkedPayload primitives addr addrType
  Go.require ((fullPayload.drop 1).take publicKeyHashSize = hashPublicKey primitives pk addrType)
    "the public key does not match the address"

/-- The hash in an address. -/
def getPublicKeyHash (addr : Address) (addrType : AddressType) : Go Bytes := do
  let fullPayload ← checkedPayload primitives addr addrType
  return toPublicKeyHash ((fullPayload.drop 1).take (fullPayload.length - 5))

/-- `Address.IsEqual`: a `nil` address equals only another `nil`. -/
def isEqual (addr target : Address) : Bool := addr == target

end Address

/-- `isysapi.SysAPIAddress`. -/
def sysAPIAddress (primitives : Primitives) : Address :=
  Address.generateAddress primitives [] .systemContractAddress

/-- The code point and the width of the first character of a string, as a Go
`range` loop sees it: a byte that starts no valid sequence counts as `U+FFFD`. -/
def decodeRune (first : UInt8) (rest : Bytes) : Nat × Nat :=
  let lead := first.toNat
  let continuation (low high byte : Nat) : Bool := low ≤ byte && byte ≤ high
  let invalid := (0xFFFD, 1)
  if lead < 0x80 then (lead, 1)
  else if 0xC2 ≤ lead ∧ lead ≤ 0xDF then
    match rest.map UInt8.toNat with
    | second :: _ =>
      if continuation 0x80 0xBF second then
        ((lead - 0xC0) * 64 + (second - 0x80), 2)
      else invalid
    | _ => invalid
  else if 0xE0 ≤ lead ∧ lead ≤ 0xEF then
    match rest.map UInt8.toNat with
    | second :: third :: _ =>
      let low := if lead = 0xE0 then 0xA0 else 0x80
      let high := if lead = 0xED then 0x9F else 0xBF
      if continuation low high second && continuation 0x80 0xBF third then
        ((lead - 0xE0) * 4096 + (second - 0x80) * 64 + (third - 0x80), 3)
      else invalid
    | _ => invalid
  else if 0xF0 ≤ lead ∧ lead ≤ 0xF4 then
    match rest.map UInt8.toNat with
    | second :: third :: fourth :: _ =>
      let low := if lead = 0xF0 then 0x90 else 0x80
      let high := if lead = 0xF4 then 0x8F else 0xBF
      if continuation low high second && continuation 0x80 0xBF third &&
          continuation 0x80 0xBF fourth then
        ((lead - 0xF0) * 262144 + (second - 0x80) * 4096 + (third - 0x80) * 64 + (fourth - 0x80), 4)
      else invalid
    | _ => invalid
  else invalid

/-- The sum of the code points of a string; `skip` bytes belong to a character
that has been counted. -/
def runeSum : Nat → GoString → Nat
  | _, [] => 0
  | skip + 1, _ :: rest => runeSum skip rest
  | 0, first :: rest =>
    let (rune, width) := decodeRune first rest
    rune + runeSum (width - 1) rest

/-- `multivacaddress.GetDefaultAddrShard`. -/
def getDefaultAddrShard (mtvAddr : GoString) : ShardIndex :=
  UInt32.ofNat (runeSum 0 mtvAddr % 4)

end MultiVac.Wire
