import MultiVac.Lib.Outcome
import MultiVac.Lib.Rlp

/-!
# Formats that forget

A format writes the values of a type and reads them back. Reading need not
return the written value: `decoded` says which value it returns, so a format may
forget a distinction that equality sees. Writing may fail, and reading may
refuse what was written, but what is read is always the decoded value.
-/

namespace MultiVac.Lib

/-- A way to write values of `α` as values of `σ`, with the laws every reader
and writer of this development satisfies. -/
structure Format (ε σ α : Type) where
  /-- Write a value, or fail. -/
  write : α → Except ε σ
  /-- Read a value, or refuse. -/
  read : σ → Option α
  /-- The value that is read for a written one. -/
  decoded : α → α
  /-- A decoded value loses nothing more. -/
  decoded_decoded : ∀ value, decoded (decoded value) = decoded value
  /-- The forgotten distinction is not written. -/
  write_decoded : ∀ value, write (decoded value) = write value
  /-- What is read is the decoded value. -/
  read_of_write : ∀ {value written}, write value = .ok written →
    ∀ result ∈ read written, result = decoded value
  /-- What is written determines the decoded value. -/
  decoded_of_write : ∀ {first second written}, write first = .ok written →
    write second = .ok written → decoded first = decoded second

namespace Format

variable {ε σ τ α β : Type}

/-- Everything that is written can be read. -/
def Complete (format : Format ε σ α) : Prop :=
  ∀ value written, format.write value = .ok written →
    format.read written = some (format.decoded value)

/-- Nothing is forgotten. -/
def Exact (format : Format ε σ α) : Prop :=
  ∀ value, format.decoded value = value

/-- A format given by a reader that undoes the writer. -/
def exact (write : α → Except ε σ) (read : σ → Option α)
    (read_write : ∀ value written, write value = .ok written →
      read written = some value) : Format ε σ α where
  write := write
  read := read
  decoded := id
  decoded_decoded := fun _ => rfl
  write_decoded := fun _ => rfl
  read_of_write := by
    intro value written wrote result inRead
    rw [read_write _ _ wrote] at inRead
    exact (Option.some.inj inRead).symm
  decoded_of_write := by
    intro first second written wroteFirst wroteSecond
    have readSecond := read_write _ _ wroteSecond
    rw [read_write _ _ wroteFirst] at readSecond
    exact Option.some.inj readSecond

theorem exact_complete (write : α → Except ε σ) (read : σ → Option α)
    (read_write : ∀ value written, write value = .ok written →
      read written = some value) : (exact write read read_write).Complete :=
  read_write

/-- Write a value through another type. `back` may forget what `view` does not
show. -/
def via (format : Format ε σ β) (view : α → β) (back : β → α)
    (view_back : ∀ shown, view (back shown) = shown) : Format ε σ α where
  write := fun value => format.write (view value)
  read := fun written => (format.read written).map back
  decoded := fun value => back (format.decoded (view value))
  decoded_decoded := by
    intro value
    rw [view_back, format.decoded_decoded]
  write_decoded := by
    intro value
    rw [view_back, format.write_decoded]
  read_of_write := by
    intro value written wrote result inRead
    obtain ⟨shown, inShown, rfl⟩ := Option.map_eq_some_iff.mp inRead
    rw [format.read_of_write wrote shown inShown]
  decoded_of_write := by
    intro first second written wroteFirst wroteSecond
    rw [format.decoded_of_write wroteFirst wroteSecond]

variable {format : Format ε σ β} {view : α → β} {back : β → α}

theorem Complete.via (complete : format.Complete) (view_back : ∀ shown, view (back shown) = shown) :
    (format.via view back view_back).Complete := by
  intro value written wrote
  exact congrArg (Option.map back) (complete _ _ wrote)

/-- A reader that refuses some of what is written. -/
def guarded (format : Format ε σ α) (accepts : σ → Bool) : Format ε σ α where
  write := format.write
  read := fun written => if accepts written then format.read written else none
  decoded := format.decoded
  decoded_decoded := format.decoded_decoded
  write_decoded := format.write_decoded
  read_of_write := by
    intro value written wrote result inRead
    rcases Option.ite_none_right_eq_some.mp inRead with ⟨_, inRead⟩
    exact format.read_of_write wrote result inRead
  decoded_of_write := format.decoded_of_write

/-- Write the result of one format with another that forgets nothing. -/
def andThen (inner : Format ε τ α) (outer : Format ε σ τ)
    (outerExact : outer.Exact) : Format ε σ α where
  write := fun value => inner.write value >>= outer.write
  read := fun written => (outer.read written).bind inner.read
  decoded := inner.decoded
  decoded_decoded := inner.decoded_decoded
  write_decoded := fun value => by rw [inner.write_decoded]
  read_of_write := by
    intro value written wrote result inRead
    obtain ⟨between, wroteInner, wroteOuter⟩ := bind_eq_ok.mp wrote
    obtain ⟨parsed, inParsed, inRead⟩ := Option.bind_eq_some_iff.mp inRead
    have same := outer.read_of_write wroteOuter parsed inParsed
    rw [outerExact] at same
    subst same
    exact inner.read_of_write wroteInner result inRead
  decoded_of_write := by
    intro first second written wroteFirst wroteSecond
    obtain ⟨between, innerFirst, outerFirst⟩ := bind_eq_ok.mp wroteFirst
    obtain ⟨other, innerSecond, outerSecond⟩ := bind_eq_ok.mp wroteSecond
    have same := outer.decoded_of_write outerFirst outerSecond
    rw [outerExact, outerExact] at same
    subst same
    exact inner.decoded_of_write innerFirst innerSecond

variable {inner : Format ε τ α} {outer : Format ε σ τ}

theorem Complete.andThen (innerComplete : inner.Complete) (outerComplete : outer.Complete)
    (outerExact : outer.Exact) : (inner.andThen outer outerExact).Complete := by
  intro value written wrote
  obtain ⟨between, wroteInner, wroteOuter⟩ := bind_eq_ok.mp wrote
  change (outer.read written).bind inner.read = _
  rw [outerComplete _ _ wroteOuter, outerExact]
  exact innerComplete _ _ wroteInner

/-- A list of values, each written in one format. -/
def listOf (format : Format ε σ α) : Format ε (List σ) (List α) where
  write := fun values => values.mapM format.write
  read := fun written => written.mapM format.read
  decoded := fun values => values.map format.decoded
  decoded_decoded := by
    intro values
    simp [Function.comp_def, format.decoded_decoded]
  write_decoded := by
    intro values
    induction values with
    | nil => rfl
    | cons value values ih =>
      simp only [List.map_cons, List.mapM_cons, format.write_decoded, ih]
  read_of_write := by
    intro values written wrote results inRead
    induction mapM_eq_ok_iff.mp wrote generalizing results with
    | nil => simpa using inRead.symm
    | cons wroteFirst wroteOthers ih =>
      simp only [List.mapM_cons, Option.mem_def, Option.bind_eq_bind, Option.bind_eq_some_iff,
        Option.pure_def, Option.some.injEq] at inRead
      obtain ⟨result, readFirst, others, readOthers, rfl⟩ := inRead
      rw [List.map_cons, ← format.read_of_write wroteFirst result readFirst,
        ← ih (mapM_eq_ok_iff.mpr wroteOthers) others readOthers]
  decoded_of_write := by
    intro first second written wroteFirst wroteSecond
    induction mapM_eq_ok_iff.mp wroteFirst generalizing second with
    | nil =>
      cases mapM_eq_ok_iff.mp wroteSecond
      rfl
    | cons wrote wroteOthers ih =>
      cases mapM_eq_ok_iff.mp wroteSecond with
      | cons wroteToo wroteOthersToo =>
        rw [List.map_cons, List.map_cons, format.decoded_of_write wrote wroteToo,
          ih (mapM_eq_ok_iff.mpr wroteOthers) (mapM_eq_ok_iff.mpr wroteOthersToo)]

/-- No fields at all. -/
def noFields : Format ε (List σ) Unit :=
  exact (fun _ => .ok []) (fun written => if written.isEmpty then some () else none) (by
    intro value written wrote
    obtain rfl := Except.ok.inj wrote
    rfl)

/-- One field in front of others. -/
def field (first : Format ε σ α) (others : Format ε (List σ) β) :
    Format ε (List σ) (α × β) where
  write := fun (value, rest) => do
    let written ← first.write value
    let writtenRest ← others.write rest
    return written :: writtenRest
  read := fun written =>
    match written with
    | [] => none
    | head :: tail => do
      let value ← first.read head
      let rest ← others.read tail
      return (value, rest)
  decoded := fun (value, rest) => (first.decoded value, others.decoded rest)
  decoded_decoded := fun (value, rest) => by
    simp only [first.decoded_decoded, others.decoded_decoded]
  write_decoded := fun (value, rest) => by
    simp only [first.write_decoded, others.write_decoded]
  read_of_write := by
    rintro ⟨value, rest⟩ written wrote ⟨result, resultRest⟩ inRead
    simp only [bind_eq_ok, pure_eq_ok] at wrote
    obtain ⟨head, wroteHead, tail, wroteTail, rfl⟩ := wrote
    simp only [Option.mem_def, Option.bind_eq_bind, Option.bind_eq_some_iff, Option.pure_def,
      Option.some.injEq, Prod.mk.injEq] at inRead
    obtain ⟨_, readHead, _, readTail, rfl, rfl⟩ := inRead
    rw [first.read_of_write wroteHead _ readHead, others.read_of_write wroteTail _ readTail]
  decoded_of_write := by
    rintro ⟨value, rest⟩ ⟨other, otherRest⟩ written wrote wroteOther
    simp only [bind_eq_ok, pure_eq_ok] at wrote wroteOther
    obtain ⟨head, wroteHead, tail, wroteTail, rfl⟩ := wrote
    obtain ⟨_, wroteHeadToo, _, wroteTailToo, same⟩ := wroteOther
    obtain ⟨rfl, rfl⟩ := List.cons.inj same
    exact Prod.ext (first.decoded_of_write wroteHead wroteHeadToo)
      (others.decoded_of_write wroteTail wroteTailToo)

/-- Whatever is read consists of a fixed number of parts. -/
def Arity (format : Format ε (List σ) α) (count : Nat) : Prop :=
  ∀ written value, format.read written = some value → written.length = count

theorem noFields_arity : (noFields : Format ε (List σ) Unit).Arity 0 := by
  intro written value inRead
  simpa using (Option.ite_none_right_eq_some.mp inRead).1

variable {first : Format ε σ α} {others : Format ε (List σ) β}

theorem Arity.field {count : Nat}
    (arity : others.Arity count) : (first.field others).Arity (count + 1) := by
  intro written value inRead
  cases written with
  | nil => cases inRead
  | cons head tail =>
    simp only [Format.field, Option.bind_eq_bind, Option.bind_eq_some_iff] at inRead
    obtain ⟨_, _, rest, inRest, _⟩ := inRead
    rw [List.length_cons, arity tail rest inRest]

theorem Complete.field (firstComplete : first.Complete)
    (othersComplete : others.Complete) : (first.field others).Complete := by
  rintro ⟨value, rest⟩ written wrote
  simp only [Format.field, bind_eq_ok, pure_eq_ok] at wrote
  obtain ⟨head, wroteHead, tail, wroteTail, rfl⟩ := wrote
  simp [Format.field, firstComplete _ _ wroteHead, othersComplete _ _ wroteTail]

theorem Complete.listOf {format : Format ε σ α} (complete : format.Complete) :
    format.listOf.Complete := by
  intro values
  induction values with
  | nil =>
    intro written wrote
    obtain rfl := pure_eq_ok.mp wrote
    rfl
  | cons value values ih =>
    intro written wrote
    simp only [Format.listOf, List.mapM_cons, bind_eq_ok, pure_eq_ok] at wrote
    obtain ⟨head, wroteHead, tail, wroteTail, rfl⟩ := wrote
    have readTail : tail.mapM format.read = some (values.map format.decoded) := ih tail wroteTail
    simp [Format.listOf, complete _ _ wroteHead, readTail]

/-- A value that cannot be written always gives the same error. -/
def FailsOnly (format : Format ε σ α) (error : ε) : Prop :=
  ∀ value, Lib.FailsOnly error (format.write value)

variable {error : ε}

theorem FailsOnly.via (failsOnly : format.FailsOnly error)
    (view_back : ∀ shown, view (back shown) = shown) :
    (format.via view back view_back).FailsOnly error :=
  fun value => failsOnly (view value)

theorem FailsOnly.andThen (innerFails : inner.FailsOnly error) (outerFails : outer.FailsOnly error)
    (outerExact : outer.Exact) : (inner.andThen outer outerExact).FailsOnly error :=
  fun value => (innerFails value).bind fun between _ => outerFails between

theorem FailsOnly.listOf {format : Format ε σ α}
    (failsOnly : format.FailsOnly error) : format.listOf.FailsOnly error :=
  fun _ => Lib.FailsOnly.mapM fun value _ => failsOnly value

theorem noFields_failsOnly (error : ε) : (noFields : Format ε (List σ) Unit).FailsOnly error :=
  fun _ => failsOnly_ok error []

theorem FailsOnly.field (firstFails : first.FailsOnly error)
    (othersFail : others.FailsOnly error) : (first.field others).FailsOnly error :=
  fun (value, rest) => (firstFails value).bind fun _ _ =>
    (othersFail rest).bind fun _ _ => failsOnly_ok error _

/-- If all other fields can be read, a record can be read exactly when its first field
can. -/
theorem isSome_read_field_iff (othersComplete : others.Complete) {value : α} {rest : β}
    {written : List σ} (wrote : (first.field others).write (value, rest) = .ok written) :
    ((first.field others).read written).isSome ↔
      ∃ head, first.write value = .ok head ∧ (first.read head).isSome := by
  simp only [Format.field, bind_eq_ok, pure_eq_ok] at wrote
  obtain ⟨head, wroteHead, tail, wroteTail, rfl⟩ := wrote
  simp only [Format.field, othersComplete _ _ wroteTail, wroteHead, Except.ok.injEq,
    exists_eq_left']
  cases first.read head <;> simp

end Format

namespace Rlp

variable {ε α : Type}

/-- A byte string. -/
def byteString : Format ε Item (List UInt8) :=
  .exact (fun bytes => .ok (.str bytes)) (fun item => match item with
      | .str bytes => some bytes
      | .list _ => none)
    (by
      intro bytes item wrote
      obtain rfl := Except.ok.inj wrote
      rfl)

theorem byteString_complete : (byteString : Format ε Item (List UInt8)).Complete :=
  Format.exact_complete _ _ _

/-- A byte string of a fixed length. -/
def fixedBytes (length : Nat) : Format ε Item (Subtype fun bytes : List UInt8 => bytes.length = length) :=
  .exact (fun bytes => .ok (.str bytes)) (fun item => match item with
      | .str bytes => if fixed : bytes.length = length then some ⟨bytes, fixed⟩ else none
      | .list _ => none)
    (by
      intro bytes item wrote
      obtain rfl := Except.ok.inj wrote
      simp [bytes.property])

/-- A natural number of at most `width` bytes. -/
def unsigned (width : Nat) : Format ε Item (Fin (256 ^ width)) :=
  .exact (fun number => .ok (.str (bigEndian number))) (fun item => match item with
      | .str bytes =>
        if fits : ofBigEndian bytes < 256 ^ width then
          if bytes.length ≤ width ∧ Minimal bytes then some ⟨ofBigEndian bytes, fits⟩ else none
        else none
      | .list _ => none)
    (by
      intro number item wrote
      obtain rfl := Except.ok.inj wrote
      simp [bigEndian_minimal, (length_bigEndian_le_iff number width).mpr number.isLt])

/-- A truth value: the empty string, or the byte one. -/
def flag : Format ε Item Bool :=
  .exact (fun value => .ok (.str (if value then [1] else []))) (fun item => match item with
      | .str [] => some false
      | .str [byte] => if byte = 1 then some true else none
      | _ => none)
    (by
      intro value item wrote
      obtain rfl := Except.ok.inj wrote
      cases value <;> rfl)

/-- A list of items as one item. -/
def items : Format ε Item (List Item) :=
  .exact (fun items => .ok (.list items)) (fun item => match item with
      | .str _ => none
      | .list items => some items)
    (by
      intro items item wrote
      obtain rfl := Except.ok.inj wrote
      rfl)

theorem items_exact : (items : Format ε Item (List Item)).Exact := fun _ => rfl

/-- The bytes of an item, if they are not too many. -/
def encoded (tooLong : ε) : Format ε (List UInt8) Item :=
  .exact
    (fun item => if item.encode.length < 2 ^ 63 then .ok item.encode else .error tooLong)
    Item.decode
    (by
      intro item bytes wrote
      split at wrote
      · next short =>
        obtain rfl := Except.ok.inj wrote
        exact item.decode_encode (by omega)
      · cases wrote)

theorem encoded_exact (tooLong : ε) : (encoded tooLong).Exact := fun _ => rfl

/-- A record: its fields in order, as one list. -/
def record (fields : Format ε (List Item) α) : Format ε Item α :=
  fields.andThen items items_exact

/-- A list of values as one item. -/
def sequence (format : Format ε Item α) : Format ε Item (List α) :=
  record format.listOf

/-- The byte-level format of a value. -/
def bytesOf (tooLong : ε) (format : Format ε Item α) : Format ε (List UInt8) α :=
  format.andThen (encoded tooLong) (encoded_exact tooLong)

variable {format : Format ε Item α}

theorem bytesOf_complete (tooLong : ε)
    (complete : format.Complete) : (bytesOf tooLong format).Complete :=
  complete.andThen (Format.exact_complete _ _ _) (encoded_exact tooLong)

variable {fields : Format ε (List Item) α}

theorem record_complete (complete : fields.Complete) : (record fields).Complete :=
  complete.andThen (Format.exact_complete _ _ _) items_exact

/-- A record is read from a list with one item for each field. -/
theorem length_of_read_record {count : Nat} (arity : fields.Arity count) {item : Item} {value : α}
    (inRead : (record fields).read item = some value) :
    ∃ items, item = .list items ∧ items.length = count := by
  obtain ⟨items, inItems, inRead⟩ := Option.bind_eq_some_iff.mp inRead
  cases item with
  | str bytes => cases inItems
  | list inner =>
    obtain rfl := Option.some.inj inItems
    exact ⟨inner, rfl, arity inner value inRead⟩

variable {error : ε}

theorem record_failsOnly (failsOnly : fields.FailsOnly error) : (record fields).FailsOnly error :=
  failsOnly.andThen (fun _ => failsOnly_ok error _) items_exact

theorem bytesOf_failsOnly
    (failsOnly : format.FailsOnly error) : (bytesOf error format).FailsOnly error := by
  refine failsOnly.andThen (fun item => ?_) (encoded_exact error)
  rintro other failed
  simp only [encoded, Format.exact] at failed
  split at failed
  · cases failed
  · exact (Except.error.inj failed).symm

end Rlp

end MultiVac.Lib
