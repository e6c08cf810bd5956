import MultiVac.Base.Bytes

/-!
# Go slices, strings and map order

The codec writes a `nil` slice and an empty slice as the same bytes, while
`reflect.DeepEqual` tells them apart. Fields that the source compares deeply
are therefore slices that remember whether they are `nil`. Loops over a map
take the order of the visit as a parameter.
-/

namespace MultiVac

/-- A Go slice: `nil`, or an allocated slice with the listed elements. -/
inductive Slice (α : Type) where
  | nil
  | of (elems : List α)
deriving DecidableEq

/-- A Go `[]byte` that is compared deeply somewhere. -/
abbrev GoBytes := Slice UInt8

/-- A Go string, as its bytes. -/
abbrev GoString := Bytes

/-- The bytes of an ASCII literal. -/
def ascii (chars : List Char) : Bytes :=
  chars.map fun char => UInt8.ofNat char.toNat

namespace Slice

variable {α : Type}

instance : Inhabited (Slice α) := ⟨nil⟩

/-- The elements a loop over the slice sees. -/
def elems : Slice α → List α
  | nil => []
  | of elements => elements

@[simp]
theorem elems_of (elements : List α) : (of elements).elems = elements := rfl

/-- The slice a decoder builds for the encoding of a slice: never `nil`. -/
def decoded (slice : Slice α) : Slice α := of slice.elems

/-- Go's `len`. -/
def length (slice : Slice α) : Nat := slice.elems.length

end Slice

/-- The order in which Go visits the entries of a map: some permutation of
them, which the program cannot predict. -/
structure MapOrder where
  visit : ∀ {α : Type}, List α → List α
  visit_perm : ∀ {α : Type} (entries : List α), (visit entries).Perm entries

/-- The order in which entries are listed. -/
def MapOrder.listed : MapOrder where
  visit := fun entries => entries
  visit_perm := fun entries => List.Perm.refl entries

@[simp]
theorem MapOrder.mem_visit {α : Type} (order : MapOrder) (entries : List α) (entry : α) :
    entry ∈ order.visit entries ↔ entry ∈ entries :=
  (order.visit_perm entries).mem_iff

end MultiVac
