import MultiVac.Wire.Address
import MultiVac.Wire.Codec

/-!
# Outs and the value they carry

The part of `model/wire/msgtx.go` about outs: their states and hashes, and the
data that a transfer, a deposit or a withdrawal writes into an out.
-/

namespace MultiVac.Wire

open Lib

/-- `rlp.EncodeToBytes`. A value too large for a Go slice cannot be built. -/
def encodeToBytes {α : Type} (codec : Codec α) (value : α) : Go Bytes :=
  (Rlp.bytesOf Fault.panic codec).write value

/-- `rlp.DecodeBytes`: `none` stands for the error. -/
def decodeBytes {α : Type} (codec : Codec α) (bytes : Bytes) : Option α :=
  (Rlp.bytesOf Fault.panic codec).read bytes

variable {α : Type} {codec : Codec α} {value : α} {bytes : Bytes}

theorem decodeBytes_of_encodeToBytes (complete : codec.Complete)
    (written : encodeToBytes codec value = .ok bytes) :
    decodeBytes codec bytes = some (codec.decoded value) :=
  Rlp.bytesOf_complete Fault.panic complete value bytes written

/-- What is written is the encoding of one item. -/
theorem decode_of_encodeToBytes (written : encodeToBytes codec value = .ok bytes) :
    ∃ item, Rlp.Item.decode bytes = some item := by
  obtain ⟨item, _, encoded⟩ := bind_eq_ok.mp written
  exact ⟨item, Format.exact_complete _ _ _ item bytes encoded⟩

/-- A struct is read from a list with one item for each field. -/
theorem length_of_decodeBytes_struct {β : Type} {fields : Fields β} {count : Nat}
    (arity : fields.Arity count) {view : α → β} {back : β → α}
    {view_back : ∀ shown, view (back shown) = shown}
    (inRead : decodeBytes (Codec.struct fields view back view_back) bytes = some value) :
    ∃ items, Rlp.Item.decode bytes = some (.list items) ∧ items.length = count := by
  obtain ⟨item, decoded, inRead⟩ := Option.bind_eq_some_iff.mp inRead
  obtain ⟨_, inRead, _⟩ := Option.map_eq_some_iff.mp inRead
  obtain ⟨items, rfl, length⟩ := Rlp.length_of_read_record arity inRead
  exact ⟨items, decoded, length⟩

/-- The hash of an encoding. -/
def hashOf {α : Type} (codec : Codec α) (value : α) : Go Hash := do
  return sha256 (← encodeToBytes codec value)

theorem hashOf_decoded (codec : Codec α) (value : α) :
    hashOf codec (codec.decoded value) = hashOf codec value := by
  unfold hashOf encodeToBytes
  rw [show (Rlp.bytesOf Fault.panic codec).write (codec.decoded value) =
    (Rlp.bytesOf Fault.panic codec).write value from
      (Rlp.bytesOf Fault.panic codec).write_decoded value]

/-- The state of an unspent out. -/
def stateUnused : UInt8 := 0
/-- The state of a spent out. -/
def stateUsed : UInt8 := 1

namespace OutType

/-- A deposit. -/
def depositOut : UInt8 := 3
/-- A withdrawn deposit. -/
def withdrawOut : UInt8 := 4
/-- Coins. -/
def transfer : UInt8 := 6

end OutType

/-- The number of blocks for which a withdrawn out stays locked. -/
def withdrawHeight : Int := 200

/-- The number of blocks for which a bound deposit stays locked. -/
def bindingLockHeight : Int := 20

/-- `wire.MTVCoinData`, the data of a transfer out. -/
structure MTVCoinData where
  value : Int

/-- `wire.MTVDepositData`. -/
structure MTVDepositData where
  value : Int
  height : Int
  bindingAddress : Address

/-- `wire.MTVWithdrawData`. -/
structure MTVWithdrawData where
  value : Int
  withdrawHeight : Int

namespace Codec

/-- The format of `MTVCoinData`. -/
def mtvCoinData : Codec MTVCoinData :=
  struct (Format.field bigInt Format.noFields)
    (fun data => (data.value, ())) (fun (value, _) => { value }) (fun _ => rfl)

/-- The format of `MTVDepositData`. -/
def mtvDepositData : Codec MTVDepositData :=
  struct (Format.field bigInt <| Format.field int64 <| Format.field byteSlice Format.noFields)
    (fun data => (data.value, data.height, data.bindingAddress, ()))
    (fun (value, height, bindingAddress, _) => { value, height, bindingAddress }) (fun _ => rfl)

/-- The format of `MTVWithdrawData`. -/
def mtvWithdrawData : Codec MTVWithdrawData :=
  struct (Format.field bigInt <| Format.field int64 Format.noFields)
    (fun data => (data.value, data.withdrawHeight, ()))
    (fun (value, withdrawHeight, _) => { value, withdrawHeight }) (fun _ => rfl)

theorem bigInt_complete : bigInt.Complete := Format.exact_complete _ _ _

theorem int64_complete : int64.Complete := Format.exact_complete _ _ _

theorem string_complete : string.Complete := Rlp.byteString_complete

theorem byteSlice_complete : byteSlice.Complete := string_complete.via Slice.elems_of

theorem noFields_complete : (Format.noFields : Fields Unit).Complete :=
  Format.exact_complete _ _ _

theorem mtvCoinData_complete : mtvCoinData.Complete :=
  (Rlp.record_complete (bigInt_complete.field noFields_complete)).via fun _ => rfl

theorem mtvDepositData_complete : mtvDepositData.Complete :=
  (Rlp.record_complete (bigInt_complete.field
    (int64_complete.field (byteSlice_complete.field noFields_complete)))).via fun _ => rfl

theorem mtvWithdrawData_complete : mtvWithdrawData.Complete :=
  (Rlp.record_complete (bigInt_complete.field
    (int64_complete.field noFields_complete))).via fun _ => rfl

end Codec

namespace MTVDepositData

/-- The data of a deposit out. -/
def toData (data : MTVDepositData) : Go Bytes := do
  Go.assert (0 < data.value)
  Go.assert (0 < data.height)
  Go.orPanic (encodeToBytes Codec.mtvDepositData data)

/-- A deposit is read back with the value that was written. -/
theorem decodeBytes_toData {data : MTVDepositData} (written : data.toData = .ok bytes) :
    0 < data.value ∧ decodeBytes Codec.mtvDepositData bytes =
        some { data with bindingAddress := data.bindingAddress.decoded } := by
  simp only [toData, bind_eq_ok, Go.assert_eq_ok, Go.orPanic_eq_ok, decide_eq_true_eq] at written
  obtain ⟨_, positive, _, _, written⟩ := written
  exact ⟨positive, decodeBytes_of_encodeToBytes Codec.mtvDepositData_complete written⟩

end MTVDepositData

namespace MTVWithdrawData

/-- The data of a withdrawn out. -/
def toData (data : MTVWithdrawData) : Go Bytes := do
  Go.assert (0 < data.value)
  Go.assert (0 < data.withdrawHeight)
  Go.orPanic (encodeToBytes Codec.mtvWithdrawData data)

/-- A withdrawal is read back as it was written. -/
theorem decodeBytes_toData {data : MTVWithdrawData} (written : data.toData = .ok bytes) :
    0 < data.value ∧ decodeBytes Codec.mtvWithdrawData bytes = some data := by
  simp only [toData, bind_eq_ok, Go.assert_eq_ok, Go.orPanic_eq_ok, decide_eq_true_eq] at written
  obtain ⟨_, positive, _, _, written⟩ := written
  exact ⟨positive, decodeBytes_of_encodeToBytes Codec.mtvWithdrawData_complete written⟩

end MTVWithdrawData

/-- `wire.MtvValueToData`. -/
def mtvValueToData (value : Int) : Go Bytes := do
  Go.assert (0 < value)
  Go.orPanic (encodeToBytes Codec.mtvCoinData { value })

/-- The value of a transfer out is read back as it was written. -/
theorem decodeBytes_mtvValueToData {value : Int} (written : mtvValueToData value = .ok bytes) :
    0 < value ∧ decodeBytes Codec.mtvCoinData bytes = some { value } := by
  simp only [mtvValueToData, bind_eq_ok, Go.assert_eq_ok, Go.orPanic_eq_ok,
    decide_eq_true_eq] at written
  obtain ⟨_, positive, written⟩ := written
  exact ⟨positive, decodeBytes_of_encodeToBytes Codec.mtvCoinData_complete written⟩

/-- A positive value of 64 bits is written. -/
theorem exists_mtvValueToData {value : Int} (positive : 0 < value)
    (small : value < 2 ^ 64) : ∃ bytes, mtvValueToData value = .ok bytes := by
  have short : (Rlp.bigEndian value.toNat).length ≤ 8 :=
    (Rlp.length_bigEndian_le_iff _ 8).mpr (by omega)
  have payload := Rlp.length_encode_str_le (short.trans_lt (by decide))
  let item : Rlp.Item := .list [.str (Rlp.bigEndian value.toNat)]
  refine ⟨item.encode, bind_eq_ok.mpr ⟨(), by simpa using positive, ?_⟩⟩
  rw [Go.orPanic_eq_ok]
  refine bind_eq_ok.mpr ⟨item, ?_, if_pos ?_⟩
  · have number : Codec.bigInt.write value = .ok (.str (Rlp.bigEndian value.toNat)) :=
      if_neg (by omega)
    exact bind_eq_ok.mpr ⟨[_], bind_eq_ok.mpr ⟨_, number, rfl⟩, rfl⟩
  · simp only [item]
    rw [Rlp.Item.encode, Rlp.Item.encodeAll, Rlp.Item.encodeAll, List.append_nil, Rlp.header,
      if_pos (by omega), List.length_append, List.length_singleton]
    omega

/-- A value of 64 bits makes `MtvValueToData` panic unless it is positive. -/
theorem mtvValueToData_eq_panic {value : Int}
    (small : value < 2 ^ 64) : mtvValueToData value = Go.panic ↔ value ≤ 0 := by
  constructor
  · intro panics
    by_contra positive
    obtain ⟨bytes, written⟩ := exists_mtvValueToData (not_le.mp positive) small
    rw [written] at panics
    exact Go.ok_ne_panic _ panics
  · intro nonpositive
    rw [mtvValueToData, decide_eq_false (not_lt.mpr nonpositive)]
    rfl

namespace OutPoint

variable (out : OutPoint)

/-- `GetMtvValueFromOut`. -/
def getMtvValueFromOut : Go Int :=
  match decodeBytes Codec.mtvCoinData out.data.elems with
  | some data => .ok data.value
  | none => Go.panic

/-- `OutToDepositData`. -/
def outToDepositData : Option MTVDepositData :=
  decodeBytes Codec.mtvDepositData out.data.elems

/-- `OutToWithdrawData`. -/
def outToWithdrawData : Option MTVWithdrawData :=
  decodeBytes Codec.mtvWithdrawData out.data.elems

/-- The out is a deposit. -/
def isDepositOut : Bool := out.type = OutType.depositOut

/-- The out is a withdrawn deposit. -/
def isWithdrawOut : Bool := out.type = OutType.withdrawOut

/-- A withdrawn deposit that cannot be spent yet. -/
def isLock (height : Int) : Bool :=
  out.isWithdrawOut &&
    match out.outToWithdrawData with
    | none => true
    | some data =>
      height ≤ data.withdrawHeight || height - data.withdrawHeight < Wire.withdrawHeight

/-- A deposit whose binding cannot change yet. -/
def isBindingLock (height : Int) : Bool :=
  out.isDepositOut &&
    match out.outToDepositData with
    | none => true
    | some data => height - data.height < bindingLockHeight

/-- The out while it is unspent. -/
def toUnspentOutState : OutState where
  outPoint := out
  state := stateUnused

/-- The out once it is spent. -/
def toSpentOutState : OutState where
  outPoint := out
  state := stateUsed

end OutPoint

/-- `merkle.ComputeMerkleHash(out.ToBytesArray())`. -/
def OutState.merkleHash (out : OutState) : Go MerkleHash := hashOf Codec.outState out

/-- `UnspentOutHash`. -/
def OutPoint.unspentOutHash (out : OutPoint) : Go MerkleHash := out.toUnspentOutState.merkleHash

end MultiVac.Wire
