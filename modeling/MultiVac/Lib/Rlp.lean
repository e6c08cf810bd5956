import Mathlib.Tactic
import Mathlib.Data.Nat.Digits.Defs
import Mathlib.Data.Nat.Digits.Lemmas

/-!
# Recursive length prefix encoding

An item is a byte string or a list of items. `Item.encode` writes the
canonical encoding and `Item.decode` reads exactly one item, rejecting every
encoding that is not canonical. An item whose encoding is shorter than `2 ^ 64`
bytes is read back, so the encoding determines it.
-/

namespace MultiVac.Lib
namespace Rlp

/-- The big-endian bytes of a number, without leading zeros. -/
def bigEndian (number : Nat) : List UInt8 :=
  ((Nat.digits 256 number).map UInt8.ofNat).reverse

/-- The number that big-endian bytes stand for. -/
def ofBigEndian (bytes : List UInt8) : Nat :=
  Nat.ofDigits 256 (bytes.reverse.map UInt8.toNat)

/-- A number written without a superfluous leading zero. -/
def Minimal (bytes : List UInt8) : Prop := bytes.head? ≠ some 0

instance (bytes : List UInt8) : Decidable (Minimal bytes) :=
  inferInstanceAs (Decidable (bytes.head? ≠ some 0))

private theorem map_toNat_digits (number : Nat) :
    ((Nat.digits 256 number).map UInt8.ofNat).map UInt8.toNat = Nat.digits 256 number := by
  rw [List.map_map]
  conv_rhs => rw [← List.map_id (Nat.digits 256 number)]
  apply List.map_congr_left
  intro digit inDigits
  have small : digit < 256 := Nat.digits_lt_base (by decide) inDigits
  simpa using Nat.mod_eq_of_lt small

@[simp]
theorem ofBigEndian_bigEndian (number : Nat) : ofBigEndian (bigEndian number) = number := by
  simp only [ofBigEndian, bigEndian, List.reverse_reverse, map_toNat_digits, Nat.ofDigits_digits]

theorem bigEndian_minimal (number : Nat) : Minimal (bigEndian number) := by
  intro leadingZero
  rcases Nat.eq_zero_or_pos number with rfl | positive
  · simp [bigEndian] at leadingZero
  have nonzero : number ≠ 0 := by omega
  have digitsNonempty : Nat.digits 256 number ≠ [] := Nat.digits_ne_nil_iff_ne_zero.mpr nonzero
  have last := Nat.getLast_digit_ne_zero 256 nonzero
  have lastSmall : (Nat.digits 256 number).getLast digitsNonempty < 256 :=
    Nat.digits_lt_base (by decide) (List.getLast_mem digitsNonempty)
  rw [bigEndian, List.head?_reverse, List.getLast?_map,
    List.getLast?_eq_some_getLast digitsNonempty] at leadingZero
  simp only [Option.map_some, Option.some.injEq] at leadingZero
  have wrapped := congrArg UInt8.toNat leadingZero
  rw [UInt8.toNat_ofNat_of_lt' lastSmall] at wrapped
  exact last wrapped

theorem bigEndian_ofBigEndian (bytes : List UInt8)
    (minimal : Minimal bytes) : bigEndian (ofBigEndian bytes) = bytes := by
  have smallDigits : ∀ digit ∈ bytes.reverse.map UInt8.toNat, digit < 256 := by
    intro digit inDigits
    obtain ⟨byte, _, rfl⟩ := List.mem_map.mp inDigits
    exact byte.toNat_lt
  have lastNonzero : ∀ nonempty : bytes.reverse.map UInt8.toNat ≠ [],
      (bytes.reverse.map UInt8.toNat).getLast nonempty ≠ 0 := by
    intro nonempty zeroLast
    cases bytes with
    | nil => simp at nonempty
    | cons byte rest =>
      apply minimal
      simp only [List.getLast_map, List.getLast_reverse, List.head_cons] at zeroLast
      simpa using UInt8.toNat_inj.mp zeroLast
  rw [bigEndian, ofBigEndian, Nat.digits_ofDigits 256 (by decide) _ smallDigits lastNonzero,
    List.map_map]
  simp [Function.comp_def]

theorem length_bigEndian_le_iff (number width : Nat) :
    (bigEndian number).length ≤ width ↔ number < 256 ^ width := by
  rw [bigEndian, List.length_reverse, List.length_map]
  exact Nat.digits_length_le_iff (by decide) number

@[simp]
theorem bigEndian_eq_nil_iff (number : Nat) : bigEndian number = [] ↔ number = 0 := by
  simp [bigEndian, Nat.digits_eq_nil_iff_eq_zero]

/-- A string, or a list of items. -/
inductive Item where
  | str (bytes : List UInt8)
  | list (items : List Item)

/-- The tag byte and, for a size of 56 or more, the big-endian size. -/
def header (smallTag largeTag size : Nat) : List UInt8 :=
  if size < 56 then
    [UInt8.ofNat (smallTag + size)]
  else
    UInt8.ofNat (largeTag + (bigEndian size).length) :: bigEndian size

mutual

/-- The canonical encoding of an item. -/
def Item.encode : Item → List UInt8
  | .str bytes =>
    match bytes with
    | [byte] => if byte < 0x80 then [byte] else header 0x80 0xB7 1 ++ [byte]
    | _ => header 0x80 0xB7 bytes.length ++ bytes
  | .list items =>
    let payload := Item.encodeAll items
    header 0xC0 0xF7 payload.length ++ payload

/-- The encodings of the items, one after the other. -/
def Item.encodeAll : List Item → List UInt8
  | [] => []
  | item :: items => item.encode ++ Item.encodeAll items

end

theorem length_encode_str_le {bytes : List UInt8} (short : bytes.length < 56) :
    (Item.str bytes).encode.length ≤ bytes.length + 1 := by
  simp only [Item.encode]
  split
  · split <;> simp [header]
  · simp [header, short]

/-- Split off a payload of a given size. -/
def takeExactly (size : Nat) (input : List UInt8) : Option (List UInt8 × List UInt8) :=
  if input.length < size then none else some (input.take size, input.drop size)

/-- Read a size of 56 or more written in `count` bytes. -/
def readSize (count : Nat) (input : List UInt8) : Option (Nat × List UInt8) := do
  let (digits, rest) ← takeExactly count input
  let size := ofBigEndian digits
  if Minimal digits ∧ 56 ≤ size then some (size, rest) else none

/-- What a tag announces: a byte that stands for itself, or a payload. -/
inductive Kind where
  | byte (value : UInt8)
  | string (size : Nat)
  | list (size : Nat)

/-- Read the tag of the next item and the size it announces. -/
def readKind (input : List UInt8) : Option (Kind × List UInt8) :=
  match input with
  | [] => none
  | tag :: rest =>
    if tag < 0x80 then
      some (.byte tag, rest)
    else if tag < 0xB8 then
      some (.string (tag.toNat - 0x80), rest)
    else if tag < 0xC0 then
      (readSize (tag.toNat - 0xB7) rest).map fun (size, rest) => (.string size, rest)
    else if tag < 0xF8 then
      some (.list (tag.toNat - 0xC0), rest)
    else
      (readSize (tag.toNat - 0xF7) rest).map fun (size, rest) => (.list size, rest)

/-- A one-byte string below `0x80` must be written as the byte itself. -/
def canonicalString (bytes : List UInt8) : Bool :=
  match bytes with
  | [byte] => 0x80 ≤ byte
  | _ => true

mutual

/-- Read one item from the front of the input. -/
def parseItem : Nat → List UInt8 → Option (Item × List UInt8)
  | 0, _ => none
  | fuel + 1, input => do
    match ← readKind input with
    | (.byte value, rest) => some (.str [value], rest)
    | (.string size, rest) =>
      let (bytes, rest) ← takeExactly size rest
      if canonicalString bytes then some (.str bytes, rest) else none
    | (.list size, rest) =>
      let (payload, rest) ← takeExactly size rest
      let items ← parseAll fuel payload
      some (.list items, rest)

/-- Read items until the input is used up. -/
def parseAll : Nat → List UInt8 → Option (List Item)
  | 0, _ => none
  | fuel + 1, input =>
    match input with
    | [] => some []
    | _ :: _ => do
      let (item, rest) ← parseItem fuel input
      let items ← parseAll fuel rest
      some (item :: items)

end

/-- Read exactly one item, with nothing left over. -/
def Item.decode (input : List UInt8) : Option Item :=
  match parseItem (2 * input.length) input with
  | some (item, []) => some item
  | _ => none

theorem takeExactly_append (payload rest : List UInt8) :
    takeExactly payload.length (payload ++ rest) = some (payload, rest) := by
  simp [takeExactly]

variable {size : Nat}

private theorem readSize_bigEndian (large : 56 ≤ size) (rest : List UInt8) :
    readSize (bigEndian size).length (bigEndian size ++ rest) = some (size, rest) := by
  simp [readSize, takeExactly_append, bigEndian_minimal, large]

private theorem length_bigEndian_size (large : 56 ≤ size) (fits : size < 2 ^ 64) :
    1 ≤ (bigEndian size).length ∧ (bigEndian size).length ≤ 8 := by
  constructor
  · rw [Nat.one_le_iff_ne_zero, Ne, List.length_eq_zero_iff, bigEndian_eq_nil_iff]
    omega
  · exact (length_bigEndian_le_iff size 8).mpr (by omega)

theorem readKind_stringHeader (fits : size < 2 ^ 64) (rest : List UInt8) :
    readKind (header 0x80 0xB7 size ++ rest) = some (.string size, rest) := by
  by_cases small : size < 56
  · have tag : (UInt8.ofNat (0x80 + size)).toNat = 0x80 + size :=
      UInt8.toNat_ofNat_of_lt' (by change _ < 256; omega)
    simp only [header, if_pos small, List.singleton_append, readKind, UInt8.lt_iff_toNat_lt, tag]
    simp [show ¬0x80 + size < 0x80 by omega, show 0x80 + size < 0xB8 by omega]
  · obtain ⟨positive, short⟩ := length_bigEndian_size (by omega : 56 ≤ size) fits
    have tag : (UInt8.ofNat (0xB7 + (bigEndian size).length)).toNat =
        0xB7 + (bigEndian size).length :=
      UInt8.toNat_ofNat_of_lt' (by change _ < 256; omega)
    simp only [header, if_neg small, List.cons_append, readKind, UInt8.lt_iff_toNat_lt, tag,
      Nat.add_sub_cancel_left, readSize_bigEndian (by omega : 56 ≤ size) rest]
    simp [show ¬0xB7 + (bigEndian size).length < 0x80 by omega,
      show ¬0xB7 + (bigEndian size).length < 0xB8 by omega,
      show 0xB7 + (bigEndian size).length < 0xC0 by omega]

theorem readKind_listHeader (fits : size < 2 ^ 64) (rest : List UInt8) :
    readKind (header 0xC0 0xF7 size ++ rest) = some (.list size, rest) := by
  by_cases small : size < 56
  · have tag : (UInt8.ofNat (0xC0 + size)).toNat = 0xC0 + size :=
      UInt8.toNat_ofNat_of_lt' (by change _ < 256; omega)
    simp only [header, if_pos small, List.singleton_append, readKind, UInt8.lt_iff_toNat_lt, tag]
    simp [show ¬0xC0 + size < 0x80 by omega, show ¬0xC0 + size < 0xB8 by omega,
      show ¬0xC0 + size < 0xC0 by omega, show 0xC0 + size < 0xF8 by omega]
  · obtain ⟨positive, short⟩ := length_bigEndian_size (by omega : 56 ≤ size) fits
    have tag : (UInt8.ofNat (0xF7 + (bigEndian size).length)).toNat =
        0xF7 + (bigEndian size).length :=
      UInt8.toNat_ofNat_of_lt' (by change _ < 256; omega)
    simp only [header, if_neg small, List.cons_append, readKind, UInt8.lt_iff_toNat_lt, tag,
      Nat.add_sub_cancel_left, readSize_bigEndian (by omega : 56 ≤ size) rest]
    simp [show ¬0xF7 + (bigEndian size).length < 0x80 by omega,
      show ¬0xF7 + (bigEndian size).length < 0xB8 by omega,
      show ¬0xF7 + (bigEndian size).length < 0xC0 by omega,
      show ¬0xF7 + (bigEndian size).length < 0xF8 by omega]

theorem header_length_pos (smallTag largeTag size : Nat) :
    0 < (header smallTag largeTag size).length := by
  unfold header
  split <;> simp

theorem Item.encode_length_pos (item : Item) : 0 < item.encode.length := by
  cases item with
  | list items =>
    have positive := header_length_pos 0xC0 0xF7 (Item.encodeAll items).length
    simp only [Item.encode, List.length_append]
    omega
  | str bytes =>
    have positive := header_length_pos 0x80 0xB7
    rcases bytes with _ | ⟨byte, _ | ⟨second, rest⟩⟩
    · simpa [Item.encode] using positive 0
    · simp only [Item.encode]
      split <;> simp
    · simp only [Item.encode, List.length_append, List.length_cons]
      omega

/-- A string is read back, whatever follows it. -/
theorem parseItem_encode_str (bytes rest : List UInt8) (fits : bytes.length < 2 ^ 64) (fuel : Nat) :
    parseItem (fuel + 1) ((Item.str bytes).encode ++ rest) = some (.str bytes, rest) := by
  rcases bytes with _ | ⟨byte, _ | ⟨second, others⟩⟩
  · simp only [Item.encode, List.append_assoc]
    rw [parseItem, readKind_stringHeader (by simp)]
    simp [takeExactly, canonicalString]
  · simp only [Item.encode]
    split
    · next self =>
      simp [parseItem, readKind, self]
    · next framed =>
      rw [List.append_assoc, parseItem, readKind_stringHeader (by omega)]
      simpa [takeExactly, canonicalString] using framed
  · simp only [Item.encode, List.append_assoc]
    rw [parseItem, readKind_stringHeader fits]
    simp only [Option.bind_eq_bind, Option.bind_some, takeExactly_append, canonicalString, if_true]

mutual

/-- Every item is read back, whatever follows it. -/
theorem parseItem_encode : ∀ (item : Item) (rest : List UInt8) (fuel : Nat),
    item.encode.length < 2 ^ 64 → 2 * item.encode.length ≤ fuel →
      parseItem fuel (item.encode ++ rest) = some (item, rest)
  | .str bytes, rest, fuel, fits, enough => by
    have positive := (Item.str bytes).encode_length_pos
    obtain ⟨fuel, rfl⟩ : ∃ less, fuel = less + 1 := ⟨fuel - 1, by omega⟩
    apply parseItem_encode_str
    rcases bytes with _ | ⟨byte, _ | ⟨second, others⟩⟩
    · simp
    · simp
    · simp only [Item.encode, List.length_append] at fits
      omega
  | .list items, rest, fuel, fits, enough => by
    have tagged := header_length_pos 0xC0 0xF7 (Item.encodeAll items).length
    simp only [Item.encode, List.length_append] at fits enough
    obtain ⟨fuel, rfl⟩ : ∃ less, fuel = less + 1 := ⟨fuel - 1, by omega⟩
    have inner := parseAll_encodeAll items fuel (by omega) (by omega)
    simp only [Item.encode, List.append_assoc]
    rw [parseItem, readKind_listHeader (by omega)]
    simp [takeExactly_append, inner]

/-- The items of a payload are read back in order. -/
theorem parseAll_encodeAll : ∀ (items : List Item) (fuel : Nat),
    (Item.encodeAll items).length < 2 ^ 64 → 2 * (Item.encodeAll items).length + 1 ≤ fuel →
      parseAll fuel (Item.encodeAll items) = some items
  | [], fuel, _, enough => by
    obtain ⟨fuel, rfl⟩ : ∃ less, fuel = less + 1 := ⟨fuel - 1, by omega⟩
    simp [Item.encodeAll, parseAll]
  | item :: items, fuel, fits, enough => by
    have positive := item.encode_length_pos
    simp only [Item.encodeAll, List.length_append] at fits enough
    obtain ⟨fuel, rfl⟩ : ∃ less, fuel = less + 1 := ⟨fuel - 1, by omega⟩
    have first := parseItem_encode item (Item.encodeAll items) fuel (by omega) (by omega)
    have others := parseAll_encodeAll items fuel (by omega) (by omega)
    obtain ⟨byte, bytes, nonempty⟩ :=
      List.exists_cons_of_ne_nil (List.ne_nil_of_length_pos positive)
    rw [nonempty, List.cons_append] at first
    rw [Item.encodeAll, nonempty, List.cons_append, parseAll]
    simp [first, others]

end

/-- Decoding undoes encoding. -/
theorem Item.decode_encode (item : Item)
    (fits : item.encode.length < 2 ^ 64) : Item.decode item.encode = some item := by
  have read := parseItem_encode item [] (2 * item.encode.length) fits le_rfl
  rw [List.append_nil] at read
  rw [Item.decode, read]

/-- A byte that stands for itself is a whole item. -/
theorem Item.decode_byte_cons {byte : UInt8} {rest : List UInt8} (small : byte < 0x80)
    (more : rest ≠ []) : Item.decode (byte :: rest) = none := by
  obtain ⟨fuel, enough⟩ : ∃ fuel, 2 * (byte :: rest).length = fuel + 1 := ⟨2 * rest.length + 1, by
      rw [List.length_cons]
      omega⟩
  obtain ⟨next, others, rfl⟩ := List.exists_cons_of_ne_nil more
  rw [Item.decode, enough]
  simp [parseItem, readKind, small]

end Rlp
end MultiVac.Lib
