import MultiVac.Base.Fault
import MultiVac.Lib.Format
import MultiVac.Wire.Types

/-!
# The wire format

The RLP formats of `base/rlp` for the types of `model/wire`. The package writes
a signed integer as a sign byte followed by the magnitude, and panics on a
magnitude of eight bytes. A `nil` slice and an empty one have the same encoding
and are read as an empty slice; `Format.decoded` records this.
-/

namespace MultiVac.Wire

open Lib
open Lib.Rlp (Item bigEndian ofBigEndian Minimal)
open Lib.Format (field noFields)

/-- The format of values that are one RLP item. -/
abbrev Codec (α : Type) := Format Fault Item α

/-- The format of the fields of a struct. -/
abbrev Fields (α : Type) := Format Fault (List Item) α

namespace Codec

/-- The content that `writeInt` puts into the string of a signed integer. -/
def signedBytes (number : Int) : Bytes :=
  if number = 0 then [] else
    (if 0 < number then 0x01 else 0x80) :: bigEndian number.natAbs

/-- `Stream.int` on the content of a string or of a single byte. -/
def readSigned (bytes : Bytes) : Option Int :=
  match bytes with
  | [] => some 0
  | [byte] => if byte ≠ 0 ∧ byte < 0x80 then some byte.toNat else none
  | sign :: magnitude =>
    if Minimal magnitude then
      if sign = 0x01 then some (ofBigEndian magnitude)
      else if sign = 0x80 then some (-(ofBigEndian magnitude : Int))
      else none
    else none

theorem readSigned_signedBytes (number : Int) : readSigned (signedBytes number) = some number := by
  unfold signedBytes
  split
  · next zero => simp [readSigned, zero]
  · next nonzero =>
    have magnitudeNonempty : bigEndian number.natAbs ≠ [] := by
      rw [Ne, Rlp.bigEndian_eq_nil_iff]
      omega
    obtain ⟨digit, digits, magnitude⟩ := List.exists_cons_of_ne_nil magnitudeNonempty
    have minimal := Rlp.bigEndian_minimal number.natAbs
    have value := Rlp.ofBigEndian_bigEndian number.natAbs
    rw [magnitude] at minimal value ⊢
    by_cases positive : 0 < number
    · simp only [readSigned, if_pos positive, if_pos minimal, if_true, value]
      congr 1
      omega
    · simp only [readSigned, if_neg positive, if_pos minimal, value]
      simp only [show ((0x80 : UInt8) = 0x01) = False by decide, if_false, if_true]
      congr 1
      omega

/-- A string of at most `size` bytes, or a list. -/
def shortString (size : Nat) (item : Item) : Bool :=
  match item with
  | .str bytes => bytes.length ≤ size
  | .list _ => true

/-- A Go `int64` or `int`. -/
def int64 : Codec Int :=
  .exact (fun number =>
      if number.natAbs < 2 ^ 56 then .ok (.str (signedBytes number)) else Go.panic)
    (fun item =>
      match item with
      | .str bytes => if bytes.length ≤ 8 then readSigned bytes else none
      | .list _ => none)
    (by
      intro number item wrote
      split at wrote
      · next small =>
        obtain rfl := Except.ok.inj wrote
        have short : (signedBytes number).length ≤ 8 := by
          unfold signedBytes
          split
          · simp
          · rw [List.length_cons]
            have := (Rlp.length_bigEndian_le_iff number.natAbs 7).mpr (by omega)
            omega
        simp [short, readSigned_signedBytes]
      · cases wrote)

/-- A Go `int32`: the reader takes at most four bytes, one of them the sign. -/
def int32 : Codec Int := int64.guarded (shortString 4)

/-- A Go `*big.Int`. -/
def bigInt : Codec Int :=
  .exact (fun number =>
      if number < 0 then Go.fail "rlp: cannot encode negative *big.Int"
      else .ok (.str (bigEndian number.toNat)))
    (fun item =>
      match item with
      | .str bytes => if Minimal bytes then some (ofBigEndian bytes : Int) else none
      | .list _ => none)
    (by
      intro number item wrote
      split at wrote
      · cases wrote
      · next nonnegative =>
        obtain rfl := Except.ok.inj wrote
        simp only [Rlp.bigEndian_minimal, if_true, Rlp.ofBigEndian_bigEndian, Option.some.injEq]
        exact Int.toNat_of_nonneg (not_lt.mp nonnegative))

/-- A Go `uint8`. -/
def uint8 : Codec UInt8 :=
  (Rlp.unsigned 1).via (fun number => ⟨number.toNat, number.toNat_lt⟩)
    (fun number => UInt8.ofNat number) (fun number => by
      apply Fin.ext
      exact UInt8.toNat_ofNat_of_lt' number.isLt)

/-- A Go `uint32`. -/
def uint32 : Codec UInt32 :=
  (Rlp.unsigned 4).via (fun number => ⟨number.toNat, number.toNat_lt⟩)
    (fun number => UInt32.ofNat number) (fun number => by
      apply Fin.ext
      exact UInt32.toNat_ofNat_of_lt' number.isLt)

/-- A Go `uint64`. -/
def uint64 : Codec UInt64 :=
  (Rlp.unsigned 8).via (fun number => ⟨number.toNat, number.toNat_lt⟩)
    (fun number => UInt64.ofNat number) (fun number => by
      apply Fin.ext
      exact UInt64.toNat_ofNat_of_lt' number.isLt)

@[simp]
theorem decoded_uint8 (number : UInt8) : uint8.decoded number = number :=
  UInt8.ofNat_toNat

@[simp]
theorem decoded_uint32 (number : UInt32) : uint32.decoded number = number :=
  UInt32.ofNat_toNat

/-- A Go `bool`. -/
def bool : Codec Bool := Rlp.flag

/-- A Go `string`, or a byte slice whose `nil` is not told from empty. -/
def string : Codec Bytes := Rlp.byteString

/-- A Go `[]byte`. -/
def byteSlice : Codec GoBytes := string.via Slice.elems Slice.of Slice.elems_of

/-- A Go `[32]byte`. -/
def byteArray : Codec Bytes32 :=
  (Rlp.fixedBytes 32).via (fun hash => ⟨hash.bytes, hash.length_eq⟩)
    (fun bytes => ⟨bytes.val, bytes.property⟩) (fun _ => rfl)

/-- A slice whose `nil` is not told from empty. -/
def list {α : Type} (codec : Codec α) : Codec (List α) := Rlp.sequence codec

/-- A Go slice of values that are not bytes. -/
def slice {α : Type} (codec : Codec α) : Codec (Slice α) :=
  (list codec).via Slice.elems Slice.of Slice.elems_of

/-- A struct, read and written field by field. -/
def struct {α β : Type} (fields : Fields β) (view : α → β) (back : β → α)
    (view_back : ∀ shown, view (back shown) = shown) : Codec α :=
  (Rlp.record fields).via view back view_back

/-- `wire.OutPoint`. -/
def outPoint : Codec OutPoint :=
  struct (field uint32 <| field byteArray <| field int64 <| field byteSlice <| field uint8 <|
      field byteSlice <| field byteSlice <| noFields)
    (fun value => (value.shard, value.txHash, value.index, value.userAddress, value.type,
      value.data, value.contractAddress, ()))
    (fun (shard, txHash, index, userAddress, type, data, contractAddress, _) =>
      { shard, txHash, index, userAddress, type, data, contractAddress })
    (fun _ => rfl)

/-- `wire.OutState`. -/
def outState : Codec OutState :=
  struct (field Codec.outPoint <| field uint8 <| noFields)
    (fun value => (value.outPoint, value.state, ()))
    (fun (outPoint, state, _) => { outPoint, state }) (fun _ => rfl)

/-- `merkle.MerklePath`. -/
def merklePath : Codec MerklePath :=
  struct (field (slice byteArray) <| field byteSlice <| noFields)
    (fun value => (value.hashes, value.proofPath, ()))
    (fun (hashes, proofPath, _) => { hashes, proofPath }) (fun _ => rfl)

/-- `wire.TxIn`. -/
def txIn : Codec TxIn :=
  struct (field Codec.outPoint <| noFields)
    (fun value => (value.previousOutPoint, ()))
    (fun (previousOutPoint, _) => { previousOutPoint }) (fun _ => rfl)

/-- `wire.MsgTx`. -/
def msgTx : Codec MsgTx :=
  struct (field int32 <| field uint32 <| field (slice Codec.txIn) <| field byteSlice <|
      field string <| field byteSlice <| field uint64 <| field byteSlice <| field byteSlice <|
      field byteSlice <| field string <| noFields)
    (fun value => (value.version, value.shard, value.txIn, value.contractAddress, value.api,
      value.params, value.nonce, value.publicKey, value.signatureScript,
      value.storageNodeAddress, value.memo, ()))
    (fun (version, shard, txIn, contractAddress, api, params, nonce, publicKey, signatureScript,
      storageNodeAddress, memo, _) =>
      { version, shard, txIn, contractAddress, api, params, nonce, publicKey, signatureScript,
        storageNodeAddress, memo })
    (fun _ => rfl)

/-- `wire.MsgTxWithProofs`. -/
def msgTxWithProofs : Codec MsgTxWithProofs :=
  struct (field msgTx <| field (slice merklePath) <| noFields)
    (fun value => (value.tx, value.proofs, ()))
    (fun (tx, proofs, _) => { tx, proofs }) (fun _ => rfl)

/-- `wire.ReduceAction`. -/
def reduceAction : Codec ReduceAction :=
  struct (field Codec.outPoint <| field string <| noFields)
    (fun value => (value.toBeReducedOut, value.api, ()))
    (fun (toBeReducedOut, api, _) => { toBeReducedOut, api }) (fun _ => rfl)

/-- `wire.UpdateAction`. -/
def updateAction : Codec UpdateAction :=
  struct (field outState <| field merklePath <| field outState <| noFields)
    (fun value => (value.originOut, value.originOutProof, value.newOut, ()))
    (fun (originOut, originOutProof, newOut, _) => { originOut, originOutProof, newOut })
    (fun _ => rfl)

/-- `wire.SmartContract`. -/
def smartContract : Codec SmartContract :=
  struct (field byteSlice <| field (slice string) <| field byteSlice <| noFields)
    (fun value => (value.contractAddr, value.apiList, value.code, ()))
    (fun (contractAddr, apiList, code, _) => { contractAddr, apiList, code }) (fun _ => rfl)

/-- `shard.IndexAndHeight`. -/
def indexAndHeight : Codec IndexAndHeight :=
  struct (field uint32 <| field int64 <| noFields)
    (fun value => (value.index, value.height, ()))
    (fun (index, height, _) => { index, height }) (fun _ => rfl)

/-- `wire.LedgerInfo`. -/
def ledgerInfo : Codec LedgerInfo :=
  struct (field int64 <| field (list indexAndHeight) <| noFields)
    (fun value => (value.size, value.shardsHeights, ()))
    (fun (size, shardsHeights, _) => { size, shardsHeights }) (fun _ => rfl)

/-- `wire.BlockHeader`. -/
def blockHeader : Codec BlockHeader :=
  struct (field int32 <| field uint32 <| field int64 <| field byteArray <| field byteArray <|
      field byteArray <| field byteArray <| field bool <| field int64 <| field (list outPoint) <|
      field (list outPoint) <| field string <| field string <| field string <| field string <|
      field byteArray <| field (list reduceAction) <| noFields)
    (fun value => (value.version, value.shardIndex, value.height, value.prevBlockHeader,
      value.blockBodyHash, value.outsMerkleRoot, value.shardLedgerMerkleRoot, value.isEmptyBlock,
      value.timeStamp, value.depositTxsOuts, value.withdrawTxsOuts, value.reshardSeed, value.pk,
      value.lastSeedSig, value.headerSig, value.seed, value.reduceActions, ()))
    (fun (version, shardIndex, height, prevBlockHeader, blockBodyHash, outsMerkleRoot,
      shardLedgerMerkleRoot, isEmptyBlock, timeStamp, depositTxsOuts, withdrawTxsOuts,
      reshardSeed, pk, lastSeedSig, headerSig, seed, reduceActions, _) =>
      { version, shardIndex, height, prevBlockHeader, blockBodyHash, outsMerkleRoot,
        shardLedgerMerkleRoot, isEmptyBlock, timeStamp, depositTxsOuts, withdrawTxsOuts,
        reshardSeed, pk, lastSeedSig, headerSig, seed, reduceActions })
    (fun _ => rfl)

/-- `wire.BlockBody`. -/
def blockBody : Codec BlockBody :=
  struct (field (list msgTxWithProofs) <| field Codec.ledgerInfo <| field (list smartContract) <|
      field (list outState) <| field (slice updateAction) <| noFields)
    (fun value => (value.transactions, value.ledgerInfo, value.smartContracts, value.outs,
      value.updateActions, ()))
    (fun (transactions, ledgerInfo, smartContracts, outs, updateActions, _) =>
      { transactions, ledgerInfo, smartContracts, outs, updateActions })
    (fun _ => rfl)

/-- `wire.MsgBlock`. -/
def msgBlock : Codec MsgBlock :=
  struct (field blockHeader <| field blockBody <| noFields)
    (fun value => (value.header, value.body, ()))
    (fun (header, body, _) => { header, body }) (fun _ => rfl)

/-! ### Writing fails only by a panic -/

theorem int64_failsOnly : int64.FailsOnly Fault.panic := by
  intro number fault failed
  simp only [int64, Format.exact] at failed
  split at failed
  · cases failed
  · exact (Except.error.inj failed).symm

theorem int32_failsOnly : int32.FailsOnly Fault.panic := int64_failsOnly

theorem uint8_failsOnly : uint8.FailsOnly Fault.panic := fun _ => failsOnly_ok _ _

theorem uint32_failsOnly : uint32.FailsOnly Fault.panic := fun _ => failsOnly_ok _ _

theorem uint64_failsOnly : uint64.FailsOnly Fault.panic := fun _ => failsOnly_ok _ _

theorem bool_failsOnly : bool.FailsOnly Fault.panic := fun _ => failsOnly_ok _ _

theorem string_failsOnly : string.FailsOnly Fault.panic := fun _ => failsOnly_ok _ _

theorem byteSlice_failsOnly : byteSlice.FailsOnly Fault.panic := fun _ => failsOnly_ok _ _

theorem byteArray_failsOnly : byteArray.FailsOnly Fault.panic := fun _ => failsOnly_ok _ _

theorem noFields_failsOnly : (noFields : Fields Unit).FailsOnly Fault.panic :=
  Format.noFields_failsOnly _

section

variable {α β : Type} {codec : Codec α} {fields : Fields β}

theorem list_failsOnly (failsOnly : codec.FailsOnly Fault.panic) :
    (list codec).FailsOnly Fault.panic := Rlp.record_failsOnly failsOnly.listOf

theorem slice_failsOnly (failsOnly : codec.FailsOnly Fault.panic) :
    (slice codec).FailsOnly Fault.panic := (list_failsOnly failsOnly).via Slice.elems_of

theorem struct_failsOnly (failsOnly : fields.FailsOnly Fault.panic) {view : α → β} {back : β → α}
    (view_back : ∀ shown, view (back shown) = shown) :
    (struct fields view back view_back).FailsOnly Fault.panic :=
  (Rlp.record_failsOnly failsOnly).via view_back

end

theorem outPoint_failsOnly : outPoint.FailsOnly Fault.panic :=
  struct_failsOnly (uint32_failsOnly.field <| byteArray_failsOnly.field <| int64_failsOnly.field <|
    byteSlice_failsOnly.field <| uint8_failsOnly.field <| byteSlice_failsOnly.field <|
      byteSlice_failsOnly.field noFields_failsOnly) _

theorem outState_failsOnly : outState.FailsOnly Fault.panic :=
  struct_failsOnly (outPoint_failsOnly.field <| uint8_failsOnly.field noFields_failsOnly) _

theorem merklePath_failsOnly : merklePath.FailsOnly Fault.panic :=
  struct_failsOnly ((slice_failsOnly byteArray_failsOnly).field <|
    byteSlice_failsOnly.field noFields_failsOnly) _

theorem txIn_failsOnly : txIn.FailsOnly Fault.panic :=
  struct_failsOnly (outPoint_failsOnly.field noFields_failsOnly) _

theorem msgTx_failsOnly : msgTx.FailsOnly Fault.panic :=
  struct_failsOnly (int32_failsOnly.field <| uint32_failsOnly.field <|
    (slice_failsOnly txIn_failsOnly).field <| byteSlice_failsOnly.field <|
    string_failsOnly.field <| byteSlice_failsOnly.field <| uint64_failsOnly.field <|
    byteSlice_failsOnly.field <| byteSlice_failsOnly.field <| byteSlice_failsOnly.field <|
      string_failsOnly.field noFields_failsOnly) _

theorem msgTxWithProofs_failsOnly : msgTxWithProofs.FailsOnly Fault.panic :=
  struct_failsOnly (msgTx_failsOnly.field <|
    (slice_failsOnly merklePath_failsOnly).field noFields_failsOnly) _

theorem reduceAction_failsOnly : reduceAction.FailsOnly Fault.panic :=
  struct_failsOnly (outPoint_failsOnly.field <| string_failsOnly.field noFields_failsOnly) _

theorem blockHeader_failsOnly : blockHeader.FailsOnly Fault.panic :=
  struct_failsOnly (int32_failsOnly.field <| uint32_failsOnly.field <| int64_failsOnly.field <|
    byteArray_failsOnly.field <| byteArray_failsOnly.field <| byteArray_failsOnly.field <|
    byteArray_failsOnly.field <| bool_failsOnly.field <| int64_failsOnly.field <|
    (list_failsOnly outPoint_failsOnly).field <| (list_failsOnly outPoint_failsOnly).field <|
    string_failsOnly.field <| string_failsOnly.field <| string_failsOnly.field <|
    string_failsOnly.field <| byteArray_failsOnly.field <|
      (list_failsOnly reduceAction_failsOnly).field noFields_failsOnly) _

end Codec

end MultiVac.Wire
