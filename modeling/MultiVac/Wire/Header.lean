import MultiVac.Wire.Out

/-!
# Headers through the codec

The reader of an `int32` takes four bytes, one of them for the sign, while the writer
takes as many as it needs. So a header with a version of more than three bytes is
written but cannot be read.
-/

namespace MultiVac.Wire
namespace Codec

open Lib
open Lib.Format (field noFields)

theorem byteArray_complete : byteArray.Complete :=
  (Format.exact_complete _ _ _ : (Rlp.fixedBytes 32).Complete).via fun _ => rfl

theorem uint8_complete : uint8.Complete :=
  (Format.exact_complete _ _ _ : (Rlp.unsigned 1).Complete).via _

theorem uint32_complete : uint32.Complete :=
  (Format.exact_complete _ _ _ : (Rlp.unsigned 4).Complete).via _

theorem bool_complete : bool.Complete :=
  (Format.exact_complete _ _ _ : (Rlp.flag : Codec Bool).Complete)

theorem list_complete {α : Type} {codec : Codec α} (complete : codec.Complete) :
    (list codec).Complete := Rlp.record_complete complete.listOf

theorem struct_complete {α β : Type} {fields : Fields β} (complete : fields.Complete) {view : α → β}
    {back : β → α} (view_back : ∀ shown, view (back shown) = shown) :
    (struct fields view back view_back).Complete :=
  (Rlp.record_complete complete).via view_back

theorem outPoint_complete : outPoint.Complete :=
  struct_complete (uint32_complete.field <| byteArray_complete.field <| int64_complete.field <|
    byteSlice_complete.field <| uint8_complete.field <| byteSlice_complete.field <|
      byteSlice_complete.field noFields_complete) _

theorem reduceAction_complete : reduceAction.Complete :=
  struct_complete (outPoint_complete.field <| string_complete.field noFields_complete) _

/-- An `int32` can be read if it has at most three bytes. -/
theorem isSome_read_int32_iff (number : Int) :
    (∃ item, int32.write number = .ok item ∧ (int32.read item).isSome) ↔
      number.natAbs < 2 ^ 24 := by
  have short : (signedBytes number).length ≤ 4 ↔ number.natAbs < 2 ^ 24 := by
    unfold signedBytes
    split
    · rename_i isZero
      simp [isZero]
    · rw [List.length_cons, Nat.add_one_le_iff, Nat.lt_succ_iff, Rlp.length_bigEndian_le_iff]
      norm_num
  have write : int32.write number =
    if number.natAbs < 2 ^ 56 then .ok (.str (signedBytes number)) else Go.panic := rfl
  have read : int32.read (.str (signedBytes number)) =
      if (signedBytes number).length ≤ 4 then
        (if (signedBytes number).length ≤ 8 then readSigned (signedBytes number) else none)
      else none := by
    simp only [int32, Format.guarded, shortString, decide_eq_true_eq]
    rfl
  constructor
  · rintro ⟨item, wrote, isRead⟩
    rw [write] at wrote
    split at wrote
    · obtain rfl := Except.ok.inj wrote
      rw [read] at isRead
      by_contra large
      rw [if_neg (mt short.mp large)] at isRead
      cases isRead
    · cases wrote
  · intro small
    have isShort := short.mpr small
    refine ⟨.str (signedBytes number), ?_, ?_⟩
    · rw [write, if_pos (lt_trans small (by norm_num))]
    · rw [read, if_pos isShort, if_pos (isShort.trans (by norm_num)), readSigned_signedBytes]
      rfl

/-- A header that has been written can be read if its version has at most three bytes. -/
theorem isSome_decodeBytes_blockHeader_iff {header : BlockHeader} {bytes : Bytes}
    (wrote : encodeToBytes blockHeader header = .ok bytes) :
    (decodeBytes blockHeader bytes).isSome ↔ header.version.natAbs < 2 ^ 24 := by
  have others : (field uint32 <| field int64 <| field byteArray <|
      field byteArray <| field byteArray <| field byteArray <|
      field bool <| field int64 <| field (list outPoint) <|
      field (list outPoint) <| field string <| field string <|
      field string <| field string <| field byteArray <|
      field (list reduceAction) <| (noFields : Fields Unit)).Complete :=
    uint32_complete.field <| int64_complete.field <| byteArray_complete.field <|
      byteArray_complete.field <| byteArray_complete.field <| byteArray_complete.field <|
      bool_complete.field <| int64_complete.field <| (list_complete outPoint_complete).field <|
      (list_complete outPoint_complete).field <| string_complete.field <|
      string_complete.field <| string_complete.field <| string_complete.field <|
      byteArray_complete.field <| (list_complete reduceAction_complete).field noFields_complete
  obtain ⟨item, wroteItem, wroteBytes⟩ := bind_eq_ok.mp wrote
  obtain ⟨items, wroteFields, isItem⟩ := bind_eq_ok.mp wroteItem
  obtain rfl : Rlp.Item.list items = item := Except.ok.inj isItem
  have complete : (Rlp.encoded Fault.panic).Complete := Format.exact_complete _ _ _
  have parsed : (Rlp.encoded Fault.panic).read bytes = some (.list items) := complete _ _ wroteBytes
  have decoded : decodeBytes blockHeader bytes = blockHeader.read (.list items) := by
    change ((Rlp.encoded Fault.panic).read bytes).bind blockHeader.read = _
    rw [parsed]
    rfl
  rw [← isSome_read_int32_iff, ← Format.isSome_read_field_iff others wroteFields, decoded]
  exact Bool.eq_iff_iff.mp Option.isSome_map

/-- What is read for an `int32` has at most three bytes. -/
theorem natAbs_lt_of_read_int32 {item : Rlp.Item} {number : Int}
    (isRead : int32.read item = some number) : number.natAbs < 2 ^ 24 := by
  obtain ⟨short, isRead⟩ := Option.ite_none_right_eq_some.mp isRead
  cases item with
  | list items => cases isRead
  | str bytes =>
    obtain ⟨-, isRead⟩ := Option.ite_none_right_eq_some.mp isRead
    have short : bytes.length ≤ 4 := of_decide_eq_true short
    rcases bytes with _ | ⟨sign, _ | ⟨first, others⟩⟩
    · obtain rfl := Option.some.inj isRead
      norm_num
    · obtain ⟨-, isRead⟩ := Option.ite_none_right_eq_some.mp isRead
      obtain rfl := Option.some.inj isRead
      have := sign.toNat_lt
      omega
    · obtain ⟨minimal, isRead⟩ := Option.ite_none_right_eq_some.mp isRead
      have small : Rlp.ofBigEndian (first :: others) < 256 ^ 3 := by
        rw [← Rlp.length_bigEndian_le_iff, Rlp.bigEndian_ofBigEndian _ minimal]
        exact Nat.le_of_succ_le_succ short
      split at isRead
      · obtain rfl := Option.some.inj isRead
        omega
      · obtain ⟨-, isRead⟩ := Option.ite_none_right_eq_some.mp isRead
        obtain rfl := Option.some.inj isRead
        omega

/-- A header that was read, alone or in a block, can be written and read again. -/
theorem natAbs_version_lt {header : BlockHeader} {item : Rlp.Item}
    (isRead : blockHeader.read item = some header) : header.version.natAbs < 2 ^ 24 := by
  obtain ⟨fields, readFields, rfl⟩ := Option.map_eq_some_iff.mp isRead
  obtain ⟨items, -, readItems⟩ := Option.bind_eq_some_iff.mp readFields
  cases items with
  | nil => cases readItems
  | cons head tail =>
    obtain ⟨version, isVersion, readTail⟩ := Option.bind_eq_some_iff.mp readItems
    obtain ⟨rest, -, isFields⟩ := Option.bind_eq_some_iff.mp readTail
    obtain rfl := Option.some.inj isFields
    exact natAbs_lt_of_read_int32 isVersion

end Codec
end MultiVac.Wire
