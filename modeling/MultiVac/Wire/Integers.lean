import MultiVac.Wire.Codec

/-!
# Signed integers on the wire

`base/rlp` writes a signed integer as a string of a sign byte and the magnitude, from a
buffer of nine bytes, and reads at most as many bytes as the type has. One of these
bytes is the sign, so a type of `n` bytes is read back for magnitudes of `n - 1` bytes
only, and a single byte below `0x80` is read although it is never written.
-/

namespace MultiVac.Wire

open Lib
open Lib.Rlp (Item bigEndian ofBigEndian Minimal readKind takeExactly)

/-- The signed integer types of Go. -/
inductive IntType where
  | int8
  | int16
  | int32
  | int64

namespace IntType

/-- The number of bytes of a type. -/
def width : IntType → Nat
  | int8 => 1
  | int16 => 2
  | int32 => 4
  | int64 => 8

/-- A number is a value of the type. -/
def Holds (type : IntType) (number : Int) : Prop :=
  -2 ^ (8 * type.width - 1) ≤ number ∧ number < 2 ^ (8 * type.width - 1)

instance (type : IntType) (number : Int) : Decidable (type.Holds number) :=
  inferInstanceAs (Decidable (_ ∧ _))

end IntType

/-- How many bytes `putint` writes. -/
def putintSize (number : Nat) : Nat :=
  if number < 2 ^ 8 then 1
  else if number < 2 ^ 16 then 2
  else if number < 2 ^ 24 then 3
  else if number < 2 ^ 32 then 4
  else if number < 2 ^ 40 then 5
  else if number < 2 ^ 48 then 6
  else if number < 2 ^ 56 then 7
  else 8

/-- `putint`: the bytes of a number from the highest one that is needed. -/
def putint (number : Nat) : Bytes :=
  (List.range (putintSize number)).reverse.map fun place => UInt8.ofNat (number >>> (8 * place))

/-- `writeInt`. The magnitude goes into the last seven bytes of the buffer, and a
longer one is an index out of range. -/
def writeInt (number : Int) : Go Bytes :=
  if number = 0 then .ok [0x80]
  else do
    let digits := putint number.natAbs
    Go.assert (digits.length ≤ 7)
    return UInt8.ofNat (0x80 + 1 + digits.length) :: (if 0 < number then 0x01 else 0x80) :: digits

/-- `Stream.readInt`. -/
def readInt (size : Nat) (input : Bytes) : Option (Int × Bytes) :=
  match size, input with
  | 0, input => some (0, input)
  | 1, _ => none
  | _ + 2, [] => none
  | size + 2, sign :: input => do
    let (digits, rest) ← takeExactly (size + 1) input
    if digits.head? = some 0 then none
    else if sign = 0x01 then some ((ofBigEndian digits : Int), rest)
    else if sign = 0x80 then some (-(ofBigEndian digits : Int), rest)
    else some (0, rest)

/-- `Stream.int` for a type of some bytes, with the input that is left. -/
def streamInt (width : Nat) (input : Bytes) : Option (Int × Bytes) :=
  match readKind input with
  | none => none
  | some (.byte value, rest) => if value = 0 then none else some (value.toNat, rest)
  | some (.string size, rest) =>
    if rest.length < size then none
    else if width < size then none
    else
      match readInt size rest with
      | none => none
      | some (number, rest) => if 0 < size ∧ number = 0 then none else some (number, rest)
  | some (.list _, _) => none

/-- `DecodeBytes` into a variable of a signed integer type. -/
def decodeInt (type : IntType) (bytes : Bytes) : Option Int :=
  match streamInt type.width bytes with
  | some (number, []) => some number
  | _ => none

/-! ### The bytes of a number -/

variable {size : Nat} {number : Nat}

theorem map_range_eq_digits (upper : number < 256 ^ size)
    (lower : ∀ less, size = less + 1 → 256 ^ less ≤ number) :
    (List.range size).map (fun place => number >>> (8 * place) % 256) = Nat.digits 256 number := by
  induction size generalizing number with
  | zero =>
    obtain rfl : number = 0 := by simpa using upper
    rfl
  | succ size ih =>
    have positive : 0 < number := Nat.lt_of_lt_of_le (Nat.pow_pos (by decide)) (lower size rfl)
    have shifted : ∀ place, number >>> (8 * (place + 1)) = (number / 256) >>> (8 * place) := by
      intro place
      rw [Nat.shiftRight_eq_div_pow, Nat.shiftRight_eq_div_pow, Nat.div_div_eq_div_mul,
        show 8 * (place + 1) = 8 + 8 * place by omega, pow_add]
      norm_num
    rw [Nat.digits_def' (by decide) positive, List.range_succ_eq_map, List.map_cons, List.map_map,
      ← ih]
    · refine List.cons_eq_cons.mpr ⟨by simp, List.map_congr_left fun place _ => ?_⟩
      rw [Function.comp_apply, Nat.succ_eq_add_one, shifted]
    · rw [pow_succ] at upper
      exact Nat.div_lt_of_lt_mul (by rwa [Nat.mul_comm])
    · rintro less rfl
      refine (Nat.le_div_iff_mul_le (by decide)).mpr ?_
      rw [← pow_succ]
      exact lower _ rfl

theorem putintSize_bounds (positive : 0 < number) (fits : number < 2 ^ 64) :
    number < 256 ^ putintSize number ∧
      ∀ less, putintSize number = less + 1 → 256 ^ less ≤ number := by
  unfold putintSize
  split_ifs <;> refine ⟨by omega, fun less same => ?_⟩ <;> cases same <;> omega

/-- `putint` writes the big-endian bytes. -/
theorem putint_eq_bigEndian (positive : 0 < number)
    (fits : number < 2 ^ 64) : putint number = bigEndian number := by
  obtain ⟨upper, lower⟩ := putintSize_bounds positive fits
  rw [bigEndian, ← map_range_eq_digits upper lower, List.map_map, putint, List.map_reverse]
  congr 1
  refine List.map_congr_left fun place _ => ?_
  apply UInt8.toNat_inj.mp
  simp

variable {digits : Bytes}

theorem ofBigEndian_ne_zero (nonempty : digits ≠ [])
    (minimal : Minimal digits) : ofBigEndian digits ≠ 0 := by
  intro zero
  have bytes := Rlp.bigEndian_ofBigEndian digits minimal
  rw [zero] at bytes
  exact nonempty (bytes.symm.trans ((Rlp.bigEndian_eq_nil_iff 0).mpr rfl))

/-! ### Writing and reading -/

variable {number : Int}

theorem natAbs_lt_of_holds {type : IntType}
    (holds : type.Holds number) : number.natAbs < 2 ^ 64 := by
  obtain ⟨lower, upper⟩ := holds
  cases type <;> simp only [IntType.width] at lower upper <;> omega

/-- What `writeInt` writes, and when it panics. -/
theorem writeInt_eq (nonzero : number ≠ 0) (fits : number.natAbs < 2 ^ 64) :
    writeInt number =
      if number.natAbs < 256 ^ 7 then
        .ok (UInt8.ofNat (0x80 + 1 + (bigEndian number.natAbs).length) ::
          (if 0 < number then 0x01 else 0x80) :: bigEndian number.natAbs)
      else Go.panic := by
  have bytes := putint_eq_bigEndian (Int.natAbs_pos.mpr nonzero) fits
  simp only [writeInt, if_neg nonzero, bytes, Rlp.length_bigEndian_le_iff, Go.assert]
  split
  · next small => rw [if_pos (of_decide_eq_true small)]; rfl
  · next large => rw [if_neg fun small => large (decide_eq_true small)]; rfl

/-- The kind of a short string. -/
theorem readKind_shortString (short : size < 56) (rest : Bytes) :
    readKind (UInt8.ofNat (0x80 + size) :: rest) = some (.string size, rest) := by
  have read := Rlp.readKind_stringHeader (Nat.lt_trans short (by decide)) rest
  rwa [Rlp.header, if_pos short, List.singleton_append] at read

variable {width : Nat}

/-- The reader accepts a sign and a magnitude when the type has room for both. -/
theorem streamInt_signed (nonempty : digits ≠ []) (minimal : Minimal digits)
    (short : digits.length ≤ 7) (positive : Bool) (rest : Bytes) :
    streamInt width (UInt8.ofNat (0x80 + 1 + digits.length) ::
        (if positive then 0x01 else 0x80) :: digits ++ rest) =
      if digits.length + 1 ≤ width then
        some (if positive then (ofBigEndian digits : Int) else -(ofBigEndian digits : Int), rest)
      else none := by
  obtain ⟨size, isSize⟩ : ∃ size, digits.length = size + 1 :=
    Nat.exists_eq_succ_of_ne_zero (by simpa using nonempty)
  have nonzero := ofBigEndian_ne_zero nonempty minimal
  have read : readInt (digits.length + 1) ((if positive then 0x01 else 0x80) :: digits ++ rest) =
        some (if positive then (ofBigEndian digits : Int) else -(ofBigEndian digits : Int), rest) := by
    have noZero : digits.head? ≠ some 0 := minimal
    rw [isSize, List.cons_append, readInt, ← isSize, Rlp.takeExactly_append]
    cases positive <;> simp [noZero]
  rw [streamInt, Nat.add_assoc, Nat.add_comm 1, List.cons_append, readKind_shortString (by omega)]
  have enough : ¬ ((if positive then 0x01 else 0x80) :: digits ++ rest).length <
      digits.length + 1 := by
    rw [List.length_append, List.length_cons]
    omega
  simp only [if_neg enough, read]
  by_cases room : digits.length + 1 ≤ width
  · rw [if_neg (Nat.not_lt.mpr room), if_pos room, if_neg]
    rintro ⟨_, zero⟩
    cases positive <;> simp [nonzero] at zero
  · rw [if_pos (Nat.lt_of_not_le room), if_neg room]

variable {input rest : Bytes}

theorem eq_of_readKind_byte {value : UInt8}
    (read : readKind input = some (.byte value, rest)) : value < 0x80 ∧ input = value :: rest := by
  unfold readKind at read
  split at read
  · cases read
  · split_ifs at read with small <;> simp at read
    · obtain ⟨rfl, rfl⟩ := read
      exact ⟨small, rfl⟩

theorem eq_of_readKind_string (short : size < 56)
    (read : readKind input = some (.string size, rest)) :
    input = UInt8.ofNat (0x80 + size) :: rest := by
  unfold readKind at read
  split at read
  · cases read
  · next tag others =>
    split_ifs at read with self tagged long
    · cases read
    · obtain ⟨isSize, rfl⟩ : tag.toNat - 0x80 = size ∧ others = rest := by simpa using read
      have large : 0x80 ≤ tag.toNat := by simpa [UInt8.lt_iff_toNat_lt] using self
      rw [← isSize, Nat.add_sub_cancel' large, UInt8.ofNat_toNat]
    · obtain ⟨⟨found, remaining⟩, sized, same⟩ := Option.map_eq_some_iff.mp read
      obtain ⟨isSize, rfl⟩ : found = size ∧ remaining = rest := by simpa using same
      unfold Rlp.readSize at sized
      obtain ⟨⟨digits, after⟩, _, sized⟩ := Option.bind_eq_some_iff.mp sized
      dsimp only at sized
      split_ifs at sized with canonical
      · have : ofBigEndian digits = found := congrArg Prod.fst (Option.some.inj sized)
        omega
    · cases read
    · obtain ⟨_, _, same⟩ := Option.map_eq_some_iff.mp read
      cases same

/-- What is read as a number: nothing as zero, or a sign and a magnitude. -/
theorem readInt_cases (read : readInt size input = some (number, rest)) :
    (size = 0 ∧ input = rest ∧ number = 0) ∨
    ∃ sign digits, digits.length + 1 = size ∧ digits ≠ [] ∧ Minimal digits ∧
      input = sign :: digits ++ rest ∧
      number = if sign = 0x01 then (ofBigEndian digits : Int)
        else if sign = 0x80 then -(ofBigEndian digits : Int) else 0 := by
  unfold readInt at read
  split at read
  · obtain ⟨rfl, rfl⟩ := Prod.mk.inj (Option.some.inj read)
    exact .inl ⟨rfl, rfl, rfl⟩
  · cases read
  · cases read
  · next size sign others =>
    obtain ⟨⟨digits, remaining⟩, taken, read⟩ := Option.bind_eq_some_iff.mp read
    unfold takeExactly at taken
    split_ifs at taken with missing
    obtain ⟨rfl, rfl⟩ := Prod.mk.inj (Option.some.inj taken)
    have isLength : (others.take (size + 1)).length = size + 1 := by
      rw [List.length_take]
      omega
    have minimal : Minimal (others.take (size + 1)) := by
      intro leading
      simp [leading] at read
    refine .inr ⟨sign, others.take (size + 1), by rw [isLength], ?_, minimal, ?_⟩
    · rintro empty
      rw [empty] at isLength
      cases isLength
    · have noZero : (others.take (size + 1)).head? ≠ some 0 := minimal
      simp only [if_neg noZero] at read
      split_ifs at read ⊢ <;> obtain ⟨rfl, rfl⟩ := Prod.mk.inj (Option.some.inj read) <;>
        exact ⟨by rw [List.cons_append, List.take_append_drop], rfl⟩

/-- What the reader accepts: a byte below `0x80` other than zero, the empty string, or a
string of a sign and a magnitude. -/
theorem streamInt_cases (narrow : width ≤ 8)
    (accepted : streamInt width input = some (number, rest)) :
    (∃ byte : UInt8, byte < 0x80 ∧ input = byte :: rest ∧ number = byte.toNat) ∨
    (input = 0x80 :: rest ∧ number = 0) ∨
    ∃ (digits : Bytes) (positive : Bool), digits ≠ [] ∧ Minimal digits ∧ digits.length + 1 ≤ width ∧
      input = UInt8.ofNat (0x80 + 1 + digits.length) :: (if positive then 0x01 else 0x80) ::
        digits ++ rest ∧
      number = if positive then (ofBigEndian digits : Int) else -(ofBigEndian digits : Int) := by
  unfold streamInt at accepted
  split at accepted
  · cases accepted
  · next value others read =>
    obtain ⟨small, rfl⟩ := eq_of_readKind_byte read
    split_ifs at accepted with zero
    obtain ⟨rfl, rfl⟩ := Prod.mk.inj (Option.some.inj accepted)
    exact .inl ⟨value, small, rfl, rfl⟩
  · next size others read =>
    split_ifs at accepted with missing wide
    have isInput := eq_of_readKind_string (by omega) read
    split at accepted
    · cases accepted
    · next found remaining readNumber =>
      split_ifs at accepted with isZero
      obtain ⟨rfl, rfl⟩ := Prod.mk.inj (Option.some.inj accepted)
      rcases readInt_cases readNumber with
        ⟨rfl, rfl, rfl⟩ | ⟨sign, digits, rfl, nonempty, minimal, rfl, isNumber⟩
      · exact .inr (.inl ⟨isInput, rfl⟩)
      · refine .inr (.inr ⟨digits, sign = 0x01, nonempty, minimal, by omega, ?_⟩)
        rw [isInput, Nat.add_assoc, Nat.add_comm 1]
        by_cases plus : sign = 0x01
        · simp [plus, isNumber]
        · by_cases minus : sign = 0x80
          · simp [minus, isNumber]
          · exact absurd ⟨by omega, by rw [isNumber, if_neg plus, if_neg minus]⟩ isZero
  · cases accepted

theorem streamInt_zero (width : Nat) (rest : Bytes) :
    streamInt width (0x80 :: rest) = some (0, rest) := by
  rw [streamInt, show (0x80 : UInt8) = UInt8.ofNat (0x80 + 0) from rfl,
    readKind_shortString (by decide)]
  simp [readInt]

/-! ### The codec of structs -/

theorem encode_shortString (sign digit : UInt8) (digits : Bytes)
    (short : (sign :: digit :: digits).length < 56) :
    (Item.str (sign :: digit :: digits)).encode =
      UInt8.ofNat (0x80 + (sign :: digit :: digits).length) :: sign :: digit :: digits := by
  simp only [Item.encode, Rlp.header, if_pos short, List.singleton_append]

/-- The codec writes the item whose encoding `writeInt` writes. -/
theorem writeInt_eq_encode (fits : number.natAbs < 2 ^ 64) :
    writeInt number = Item.encode <$> Codec.int64.write number := by
  by_cases zero : number = 0
  · subst zero
    rfl
  · rw [writeInt_eq zero fits]
    have limits : number.natAbs < 256 ^ 7 ↔ number.natAbs < 2 ^ 56 := by norm_num
    have write : Codec.int64.write number =
      if number.natAbs < 2 ^ 56 then .ok (.str (Codec.signedBytes number)) else Go.panic := rfl
    rw [write]
    by_cases small : number.natAbs < 2 ^ 56
    · rw [if_pos (limits.mpr small), if_pos small]
      have short := (Rlp.length_bigEndian_le_iff number.natAbs 7).mpr (limits.mpr small)
      have some : bigEndian number.natAbs ≠ [] := by
        rw [Ne, Rlp.bigEndian_eq_nil_iff]
        exact Int.natAbs_ne_zero.mpr zero
      obtain ⟨digit, digits, isCons⟩ := List.exists_cons_of_ne_nil some
      have signed : Codec.signedBytes number =
          (if 0 < number then 0x01 else 0x80) :: digit :: digits := by
        rw [Codec.signedBytes, if_neg zero, isCons]
      rw [signed, isCons]
      rw [isCons, List.length_cons] at short
      show _ = Except.ok (Item.encode _)
      rw [encode_shortString _ _ _ (by rw [List.length_cons, List.length_cons]; omega),
        List.length_cons, List.length_cons, List.length_cons, Nat.add_assoc 0x80 1, Nat.add_comm 1]
    · rw [if_neg fun small' => small (limits.mp small'), if_neg small]
      rfl

theorem writeInt_eq_encode_neg : writeInt (-7) = Item.encode <$> Codec.int64.write (-7) :=
  writeInt_eq_encode (by decide)

/-- The codec reads from the string what `Stream.int` reads from its encoding. -/
theorem streamInt_encode (positive : 1 ≤ width) (bytes rest : Bytes) (short : bytes.length < 56) :
    streamInt width ((Item.str bytes).encode ++ rest) =
      if bytes.length ≤ width then (Codec.readSigned bytes).map (·, rest) else none := by
  rcases bytes with _ | ⟨sign, _ | ⟨digit, digits⟩⟩
  · exact (streamInt_zero width rest).trans (by simp [Codec.readSigned])
  · rw [if_pos (show [sign].length ≤ width from positive)]
    by_cases small : sign < 0x80
    · have isByte : readKind (sign :: rest) = some (.byte sign, rest) := by
        rw [readKind, if_pos small]
      rw [Item.encode, if_pos small, List.singleton_append, streamInt, isByte]
      by_cases zero : sign = 0 <;> simp [zero, Codec.readSigned, small]
    · have isString := readKind_shortString (show 1 < 56 by decide) (sign :: rest)
      rw [Item.encode, if_neg small]
      show streamInt width (UInt8.ofNat (0x80 + 1) :: (sign :: rest)) = _
      rw [streamInt, isString]
      simp [readInt, Codec.readSigned, small]
  · rw [encode_shortString _ _ _ short, List.cons_append, streamInt, readKind_shortString short]
    have enough : ¬ (sign :: digit :: digits ++ rest).length < (sign :: digit :: digits).length := by
      rw [List.length_append]
      omega
    have taken : takeExactly (digits.length + 1) (digit :: digits ++ rest) =
        some (digit :: digits, rest) := Rlp.takeExactly_append (digit :: digits) rest
    have read : readInt (sign :: digit :: digits).length (sign :: digit :: digits ++ rest) =
        if digit = 0 then none
        else if sign = 0x01 then some ((ofBigEndian (digit :: digits) : Int), rest)
        else if sign = 0x80 then some (-(ofBigEndian (digit :: digits) : Int), rest)
        else some (0, rest) := by
      rw [List.length_cons, List.length_cons, List.cons_append, readInt, taken]
      simp
    simp only [if_neg enough, read]
    by_cases room : (sign :: digit :: digits).length ≤ width
    · rw [if_neg (Nat.not_lt.mpr room), if_pos room]
      by_cases zero : digit = 0
      · simp [zero, Codec.readSigned, Rlp.Minimal]
      · have minimal : Minimal (digit :: digits) := by simpa [Rlp.Minimal] using zero
        have nonzero := ofBigEndian_ne_zero (List.cons_ne_nil digit digits) minimal
        simp only [zero, if_false, Codec.readSigned, minimal, if_true]
        by_cases plus : sign = 0x01
        · simp [plus, nonzero]
        · by_cases minus : sign = 0x80
          · simp [minus, nonzero]
          · simp [plus, minus]
    · rw [if_pos (Nat.lt_of_not_le room), if_neg room]

theorem streamInt_encode_neg : streamInt 8 ((Item.str [0x80, 7]).encode ++ []) = some (-7, []) :=
  streamInt_encode (by decide) [0x80, 7] [] (by decide)

theorem streamInt_bigEndian (nonzero : number ≠ 0) (short : number.natAbs < 256 ^ 7)
    (rest : Bytes) :
    streamInt width (UInt8.ofNat (0x80 + 1 + (bigEndian number.natAbs).length) ::
        (if 0 < number then 0x01 else 0x80) :: bigEndian number.natAbs ++ rest) =
      if (bigEndian number.natAbs).length + 1 ≤ width then some (number, rest) else none := by
  have nonempty : bigEndian number.natAbs ≠ [] := by
    rw [Ne, Rlp.bigEndian_eq_nil_iff]
    exact Int.natAbs_ne_zero.mpr nonzero
  have read := @streamInt_signed _ width nonempty (Rlp.bigEndian_minimal number.natAbs)
    ((Rlp.length_bigEndian_le_iff _ 7).mpr short) (0 < number) rest
  simp only [decide_eq_true_eq, Rlp.ofBigEndian_bigEndian] at read
  rw [read]
  have signed : (if 0 < number then (number.natAbs : Int) else -(number.natAbs : Int)) = number := by
    split <;> omega
  rw [signed]

/-- A value of a signed integer type is written and read back exactly when its magnitude
leaves one byte of the type for the sign. -/
theorem streamInt_writeInt_iff (type : IntType) (number : Int) (holds : type.Holds number) :
    (∃ bytes, writeInt number = .ok bytes ∧
        ∀ rest, streamInt type.width (bytes ++ rest) = some (number, rest)) ↔
      number.natAbs < 256 ^ (type.width - 1) := by
  have widths : type.width - 1 ≤ 7 ∧ 1 ≤ type.width := by
    cases type <;> decide
  have bound : 256 ^ (type.width - 1) ≤ 256 ^ 7 := Nat.pow_le_pow_right (by decide) widths.1
  by_cases zero : number = 0
  · subst zero
    refine iff_of_true ⟨[0x80], rfl, streamInt_zero type.width⟩ ?_
    exact Nat.pow_pos (by decide)
  · rw [writeInt_eq zero (natAbs_lt_of_holds holds)]
    have room : (bigEndian number.natAbs).length + 1 ≤ type.width ↔
        number.natAbs < 256 ^ (type.width - 1) := by
      rw [← Rlp.length_bigEndian_le_iff]
      omega
    constructor
    · rintro ⟨bytes, written, read⟩
      by_cases short : number.natAbs < 256 ^ 7
      · rw [if_pos short] at written
        obtain rfl := Except.ok.inj written
        have readNone := read []
        rw [streamInt_bigEndian zero short] at readNone
        by_contra large
        rw [if_neg fun fits => large (room.mp fits)] at readNone
        cases readNone
      · rw [if_neg short] at written
        cases written
    · intro small
      have short : number.natAbs < 256 ^ 7 := Nat.lt_of_lt_of_le small bound
      rw [if_pos short]
      refine ⟨_, rfl, fun rest => ?_⟩
      rw [streamInt_bigEndian zero short, if_pos (room.mpr small)]

theorem streamInt_writeInt_int16 :
    IntType.int16.Holds (-200) ∧ ∃ bytes, writeInt (-200) = .ok bytes ∧
      ∀ rest, streamInt IntType.int16.width (bytes ++ rest) = some (-200, rest) :=
  ⟨by decide, (streamInt_writeInt_iff .int16 (-200) (by decide)).mpr (by decide)⟩

/-- No type reads all its values back: an `int8` has no room for a sign, and a large
`int64` does not fit the buffer of the writer. -/
theorem writeInt_not_read :
    IntType.int8.Holds 5 ∧ writeInt 5 = .ok [0x82, 0x01, 0x05] ∧
      decodeInt .int8 [0x82, 0x01, 0x05] = none ∧
      IntType.int64.Holds (2 ^ 56) ∧ writeInt (2 ^ 56) = Go.panic := by
  decide

theorem writeInt_ofBigEndian (nonempty : digits ≠ []) (minimal : Minimal digits)
    (short : digits.length ≤ 7) (positive : Bool) :
    writeInt (if positive then (ofBigEndian digits : Int) else -(ofBigEndian digits : Int)) =
      .ok (UInt8.ofNat (0x80 + 1 + digits.length) :: (if positive then 0x01 else 0x80) :: digits) := by
  have magnitude := Rlp.bigEndian_ofBigEndian digits minimal
  have small : ofBigEndian digits < 256 ^ 7 := by
    rw [← Rlp.length_bigEndian_le_iff, magnitude]
    exact short
  have above := ofBigEndian_ne_zero nonempty minimal
  have isAbs : (if positive then (ofBigEndian digits : Int)
      else -(ofBigEndian digits : Int)).natAbs = ofBigEndian digits := by
    cases positive <;> simp
  have isSign : 0 < (if positive then (ofBigEndian digits : Int)
      else -(ofBigEndian digits : Int)) ↔ positive = true := by
    cases positive
    · simp
    · simpa using Nat.pos_of_ne_zero above
  rw [writeInt_eq (by rw [← Int.natAbs_ne_zero, isAbs]; exact above) (by rw [isAbs]; omega), isAbs,
    if_pos small, magnitude]
  simp only [isSign]

/-- An accepted string is the encoding of its number exactly when it does not begin with
a byte that stands for itself. -/
theorem writeInt_of_decodeInt_iff (type : IntType) (bytes : Bytes) (number : Int)
    (accepted : decodeInt type bytes = some number) :
    writeInt number = .ok bytes ↔ ∃ first rest, bytes = first :: rest ∧ 0x80 ≤ first := by
  have narrow : type.width ≤ 8 := by cases type <;> decide
  unfold decodeInt at accepted
  split at accepted
  · next found read =>
    obtain rfl := Option.some.inj accepted
    rcases streamInt_cases narrow read with
      ⟨byte, small, rfl, rfl⟩ | ⟨rfl, rfl⟩ | ⟨digits, positive, nonempty, minimal, fits, rfl, rfl⟩
    · refine iff_of_false (fun written => ?_) ?_
      · by_cases zero : (byte.toNat : Int) = 0
        · rw [writeInt, if_pos zero] at written
          obtain rfl : 0x80 = byte := (List.cons.inj (Except.ok.inj written)).1
          exact absurd small (by decide)
        · rw [writeInt, if_neg zero] at written
          obtain ⟨_, _, same⟩ := bind_eq_ok.mp written
          have lengths := congrArg List.length (pure_eq_ok.mp same)
          simp at lengths
      · rintro ⟨first, rest, same, large⟩
        obtain rfl := (List.cons.inj same).1
        exact absurd small (UInt8.not_lt.mpr large)
    · exact iff_of_true rfl ⟨_, _, rfl, by decide⟩
    · rw [List.append_nil]
      have isLength : (UInt8.ofNat (0x80 + 1 + digits.length)).toNat = 0x80 + 1 + digits.length :=
        UInt8.toNat_ofNat_of_lt' (by change _ < 256; omega)
      refine iff_of_true ?_ ⟨_, _, rfl, UInt8.le_iff_toNat_le.mpr ?_⟩
      · exact writeInt_ofBigEndian nonempty minimal (by omega) positive
      · rw [isLength]
        change 128 ≤ _
        omega
  · cases accepted

theorem writeInt_of_decodeInt_int64 :
    decodeInt .int64 [0x82, 0x80, 0x07] = some (-7) ∧ writeInt (-7) = .ok [0x82, 0x80, 0x07] :=
  ⟨by decide, (writeInt_of_decodeInt_iff .int64 [0x82, 0x80, 0x07] (-7) (by decide)).mpr
    ⟨0x82, [0x80, 0x07], rfl, by decide⟩⟩

/-- A single byte is read as a number whose encoding is another one. -/
theorem decodeInt_single_byte :
    decodeInt .int64 [0x05] = some 5 ∧ decodeInt .int64 [0x82, 0x01, 0x05] = some 5 ∧
      writeInt 5 = .ok [0x82, 0x01, 0x05] := by
  decide

end MultiVac.Wire
