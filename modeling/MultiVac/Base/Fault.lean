import MultiVac.Lib.Outcome

/-!
# Errors and panics

A Go call ends with a result, with an `error`, or in a panic. Callers handle
errors, while a panic ends the whole computation, so the two are kept apart.
-/

namespace MultiVac

/-- How a Go call ends without a result. -/
inductive Fault where
  | error (text : String)
  | panic
deriving DecidableEq

/-- The outcome of a Go call. -/
abbrev Go (α : Type) := Except Fault α

namespace Go

variable {α : Type}

/-- `return fmt.Errorf(text)`. -/
def fail (text : String) : Go α := .error (.error text)

/-- A run-time panic. -/
def panic : Go α := .error .panic

/-- `if !condition { return fmt.Errorf(text) }`. -/
def require (condition : Bool) (text : String) : Go Unit :=
  if condition then pure () else fail text

/-- A run-time check of Go: the call panics unless the condition holds. -/
def assert (condition : Bool) : Go Unit :=
  if condition then pure () else panic

/-- `if err != nil { panic(err) }`. -/
def orPanic (call : Go α) : Go α :=
  match call with
  | .error (.error _) => panic
  | outcome => outcome

/-- A call whose error the caller looks at and goes on. -/
def attempt (call : Go α) : Go (Option α) :=
  match call with
  | .ok value => .ok (some value)
  | .error (.error _) => .ok none
  | .error .panic => panic

@[simp]
theorem fail_ne_ok (text : String) (value : α) : (fail text : Go α) ≠ .ok value := by
  simp [fail]

@[simp]
theorem panic_ne_ok (value : α) : (panic : Go α) ≠ .ok value := by
  simp [panic]

@[simp]
theorem require_eq_ok (condition : Bool) (text : String)
    (result : Unit) : require condition text = .ok result ↔ condition = true := by
  cases condition <;> simp [require]

@[simp]
theorem assert_eq_ok (condition : Bool) (result : Unit) :
    assert condition = .ok result ↔ condition = true := by
  cases condition <;> simp [assert]

@[simp]
theorem orPanic_eq_ok (call : Go α) (value : α) : orPanic call = .ok value ↔ call = .ok value := by
  rcases call with (_ | _) | _ <;> simp [orPanic]

@[simp]
theorem attempt_eq_ok_some (call : Go α) (value : α) :
    attempt call = .ok (some value) ↔ call = .ok value := by
  rcases call with (_ | _) | _ <;> simp [attempt]

@[simp]
theorem attempt_eq_ok_none (call : Go α) :
    attempt call = .ok none ↔ ∃ text, call = .error (.error text) := by
  rcases call with (_ | _) | _ <;> simp [attempt, panic]

/-! ### Calls that panic -/

section Panics

variable {β : Type} {call : Go α}

theorem bind_eq_panic {rest : α → Go β} :
    call >>= rest = panic ↔ call = panic ∨ ∃ value, call = .ok value ∧ rest value = panic := by
  cases call with
  | error fault => simp [Bind.bind, Except.bind, panic]
  | ok value => simp [Bind.bind, Except.bind, panic]

theorem fail_ne_panic (text : String) : (fail text : Go α) ≠ panic := nofun

theorem ok_ne_panic (value : α) : (.ok value : Go α) ≠ panic := nofun

theorem pure_ne_panic (value : α) : (pure value : Go α) ≠ panic := ok_ne_panic value

theorem require_ne_panic (condition : Bool) (text : String) : require condition text ≠ panic := by
  cases condition
  · exact fail_ne_panic text
  · exact ok_ne_panic ()

theorem assert_eq_panic {condition : Bool} : assert condition = panic ↔ condition = false := by
  cases condition
  · exact iff_of_true rfl rfl
  · exact iff_of_false (ok_ne_panic ()) Bool.noConfusion

theorem attempt_eq_panic : attempt call = panic ↔ call = panic := by
  rcases call with (_ | _) | _ <;> simp [attempt, panic]

/-- A loop panics at the first value that is not passed. -/
theorem forM_eq_panic {values : List α} {call : α → Go Unit} :
    values.forM call = panic ↔ ∃ before value after, values = before ++ value :: after ∧
      (∀ earlier ∈ before, call earlier = .ok ()) ∧ call value = panic := by
  induction values with
  | nil => exact iff_of_false (ok_ne_panic ()) (by simp)
  | cons first values ih =>
    rw [List.forM_eq_forM] at ih ⊢
    rw [List.forM_cons, bind_eq_panic, ih]
    constructor
    · rintro (panics | ⟨_, passed, before, value, after, rfl, earlier, panics⟩)
      · exact ⟨[], first, values, rfl, by simp, panics⟩
      · exact ⟨first :: before, value, after, rfl, List.forall_mem_cons.mpr ⟨passed, earlier⟩,
          panics⟩
    · rintro ⟨before, value, after, split, earlier, panics⟩
      cases before with
      | nil =>
        obtain ⟨rfl, -⟩ := List.cons.inj split
        exact .inl panics
      | cons head before =>
        obtain ⟨rfl, rfl⟩ := List.cons.inj split
        obtain ⟨passed, earlier⟩ := List.forall_mem_cons.mp earlier
        exact .inr ⟨(), passed, before, value, after, rfl, earlier, panics⟩

end Panics

end Go

end MultiVac
