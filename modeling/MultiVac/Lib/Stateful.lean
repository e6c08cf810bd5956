import MultiVac.Lib.Outcome

/-!
# Computations that fail halfway

A computation over a state that may end with an error. What it has changed before the
error stays changed, so the final state is part of the outcome in both cases.
-/

namespace MultiVac.Lib

/-- A computation over a state `σ` with a result or an error. -/
def Stateful (ε σ α : Type) := σ → Except ε α × σ

namespace Stateful

variable {ε σ α β : Type}

instance : Monad (Stateful ε σ) where
  pure value := fun state => (.ok value, state)
  bind first next := fun state =>
    match first state with
    | (.ok value, between) => next value between
    | (.error error, between) => (.error error, between)

/-- A step that does not touch the state. -/
def lift (outcome : Except ε α) : Stateful ε σ α := fun state => (outcome, state)

/-- Read the state. -/
def inspect (view : σ → α) : Stateful ε σ α := fun state => (.ok (view state), state)

/-- Change the state. -/
def change (step : σ → σ) : Stateful ε σ Unit := fun state => (.ok (), step state)

/-- Visit the elements of a list until an error occurs. -/
def each (items : List α) (body : α → Stateful ε σ Unit) : Stateful ε σ Unit :=
  match items with
  | [] => pure ()
  | item :: rest => do
    body item
    each rest body

@[simp]
theorem pure_apply (value : α) (state : σ) :
    (pure value : Stateful ε σ α) state = (.ok value, state) := rfl

@[simp]
theorem lift_apply (outcome : Except ε α) (state : σ) : lift outcome state = (outcome, state) := rfl

@[simp]
theorem inspect_apply (view : σ → α) (state : σ) :
    (inspect view : Stateful ε σ α) state = (.ok (view state), state) := rfl

@[simp]
theorem change_apply (step : σ → σ) (state : σ) :
    (change step : Stateful ε σ Unit) state = (.ok (), step state) := rfl

theorem bind_apply (first : Stateful ε σ α) (next : α → Stateful ε σ β) (state : σ) :
    (first >>= next) state =
      match first state with
      | (.ok value, between) => next value between
      | (.error error, between) => (.error error, between) := rfl

variable {first : Stateful ε σ α} {next : α → Stateful ε σ β}

@[simp]
theorem bind_eq_ok {state after : σ} {result : β} :
    (first >>= next) state = (.ok result, after) ↔
      ∃ value between, first state = (.ok value, between) ∧ next value between = (.ok result, after) := by
  rw [bind_apply]
  constructor
  · intro succeeded
    split at succeeded
    · next value between ran => exact ⟨value, between, ran, succeeded⟩
    · cases succeeded
  · rintro ⟨value, between, ran, succeeded⟩
    rw [ran]
    exact succeeded

theorem bind_of_ok {state between : σ} {value : α} (ran : first state = (.ok value, between))
    (next : α → Stateful ε σ β) : (first >>= next) state = next value between := by
  rw [bind_apply, ran]

variable {body : α → Stateful ε σ Unit}

/-- A loop that succeeds is a chain of successful steps. -/
theorem each_cons_eq_ok {item : α} {rest : List α} {state after : σ} :
    each (item :: rest) body state = (.ok (), after) ↔
      ∃ between, body item state = (.ok (), between) ∧ each rest body between = (.ok (), after) := by
  rw [each, bind_eq_ok]
  constructor
  · rintro ⟨⟨⟩, between, ran, succeeded⟩
    exact ⟨between, ran, succeeded⟩
  · rintro ⟨between, ran, succeeded⟩
    exact ⟨(), between, ran, succeeded⟩

/-! ### The errors of a computation -/

variable {state : σ} {items : List α} {error : ε}

theorem bind_failsOnly (failsOnly : FailsOnly error (first state).1)
    (rest : ∀ value between, first state = (.ok value, between) →
      FailsOnly error (next value between).1) :
    FailsOnly error ((first >>= next) state).1 := by
  rw [bind_apply]
  split
  · next value between ran => exact rest value between ran
  · next fault between ran =>
    rw [ran] at failsOnly
    rintro _ ⟨⟩
    exact failsOnly fault rfl

theorem each_failsOnly (step : ∀ item ∈ items, ∀ state, FailsOnly error (body item state).1)
    (state : σ) : FailsOnly error (each items body state).1 := by
  induction items generalizing state with
  | nil => exact failsOnly_ok error ()
  | cons item rest ih =>
    refine bind_failsOnly (step item List.mem_cons_self state) fun _ between _ => ?_
    exact ih (fun other isMember => step other (List.mem_cons_of_mem _ isMember)) between

end Stateful
end MultiVac.Lib
