import Mathlib.Tactic

/-!
# Computations that may fail

Inversion lemmas for `Except`: what is known when a sequence of fallible steps,
or a loop of them over a list, ends with a result.
-/

namespace MultiVac.Lib

variable {ε α β γ : Type} {first : Except ε α} {next : α → Except ε β}

/-- A sequence succeeds exactly when both of its parts do. -/
@[simp]
theorem bind_eq_ok {result : β} :
    (first >>= next) = .ok result ↔ ∃ between, first = .ok between ∧ next between = .ok result := by
  cases first with
  | error fault => simp [Bind.bind, Except.bind]
  | ok between => simp [Bind.bind, Except.bind]

@[simp]
theorem map_eq_ok {change : α → β} {result : β} :
    (change <$> first) = .ok result ↔ ∃ between, first = .ok between ∧ change between = result := by
  cases first with
  | error fault => simp [Functor.map, Except.map]
  | ok between => simp [Functor.map, Except.map]

@[simp]
theorem pure_eq_ok {value result : α} :
    (pure value : Except ε α) = .ok result ↔ value = result := by
  simp [pure, Except.pure]

variable {step : α → Except ε β} {inputs : List α}

/-- A loop that collects results succeeds exactly when every step does. -/
theorem mapM_eq_ok_iff {results : List β} :
    inputs.mapM step = .ok results ↔
      List.Forall₂ (fun input result => step input = .ok result) inputs results := by
  induction inputs generalizing results with
  | nil =>
    rw [List.mapM_nil, pure_eq_ok]
    constructor
    · rintro rfl
      exact .nil
    · intro related
      cases related
      rfl
  | cons input inputs ih =>
    rw [List.mapM_cons, bind_eq_ok]
    constructor
    · rintro ⟨result, stepped, rest⟩
      obtain ⟨others, stepsOthers, joined⟩ := bind_eq_ok.mp rest
      obtain rfl := pure_eq_ok.mp joined
      exact .cons stepped (ih.mp stepsOthers)
    · intro related
      cases related with
      | cons stepped others =>
        refine ⟨_, stepped, bind_eq_ok.mpr ⟨_, ih.mpr others, rfl⟩⟩

variable {results : List β}

/-- A function that every step computes gives the collected results. -/
theorem eq_map_of_mapM {value : α → β}
    (computes : ∀ input result, step input = .ok result → result = value input)
    (collected : inputs.mapM step = .ok results) : results = inputs.map value := by
  have related := mapM_eq_ok_iff.mp collected
  clear collected
  induction related with
  | nil => rfl
  | cons stepped _ ih =>
    rw [List.map_cons, computes _ _ stepped, ih]

variable {related : α → β → Prop}

/-- In lists that are related element by element, every element on the right has one on
the left. -/
theorem exists_of_mem_forall₂ (pairwise : List.Forall₂ related inputs results) {result : β}
    (inResults : result ∈ results) : ∃ input ∈ inputs, related input result := by
  induction pairwise with
  | nil => cases inResults
  | cons isRelated _ ih =>
    rcases List.mem_cons.mp inResults with rfl | inOthers
    · exact ⟨_, List.mem_cons_self, isRelated⟩
    · obtain ⟨input, inInputs, isRelated⟩ := ih inOthers
      exact ⟨input, List.mem_cons_of_mem _ inInputs, isRelated⟩

/-- Every collected result comes from some step. -/
theorem exists_of_mem_mapM (collected : inputs.mapM step = .ok results) {result : β}
    (inResults : result ∈ results) : ∃ input ∈ inputs, step input = .ok result :=
  exists_of_mem_forall₂ (mapM_eq_ok_iff.mp collected) inResults

/-- If every step succeeds, so does their collection. -/
theorem exists_mapM (steps : ∀ input ∈ inputs, ∃ result, step input = .ok result) :
    ∃ results, inputs.mapM step = .ok results := by
  induction inputs with
  | nil => exact ⟨[], rfl⟩
  | cons input inputs ih =>
    obtain ⟨result, isResult⟩ := steps input List.mem_cons_self
    obtain ⟨results, areResults⟩ := ih fun other isMember =>
      steps other (List.mem_cons_of_mem _ isMember)
    refine ⟨result :: results, ?_⟩
    rw [List.mapM_cons, isResult, areResults]
    rfl

/-- Lists that are related element by element are so in parts. -/
theorem exists_append_of_forall₂ {first second : List α} {values : List β}
    (pairwise : List.Forall₂ related (first ++ second) values) :
    ∃ lower upper, values = lower ++ upper ∧ List.Forall₂ related first lower ∧
      List.Forall₂ related second upper :=
  ⟨values.take first.length, values.drop first.length, (List.take_append_drop _ _).symm,
    (List.forall₂_take_append _ _ _ pairwise.flip).flip,
    (List.forall₂_drop_append _ _ _ pairwise.flip).flip⟩

/-- A loop of checks succeeds exactly when every check does. -/
theorem forM_eq_ok_iff {check : α → Except ε Unit} {result : Unit} :
    inputs.forM check = .ok result ↔ ∀ input ∈ inputs, check input = .ok () := by
  induction inputs with
  | nil => exact iff_of_true rfl (by simp)
  | cons input inputs ih =>
    rw [List.forM_eq_forM] at ih ⊢
    rw [List.forM_cons, bind_eq_ok, List.forall_mem_cons, ih]
    constructor
    · rintro ⟨_, checked, rest⟩
      exact ⟨checked, rest⟩
    · rintro ⟨checked, rest⟩
      exact ⟨(), checked, rest⟩

/-- A test of all elements is passed exactly when every element passes. -/
theorem allM_eq_ok_true_iff {test : α → Except ε Bool} {inputs : List α} :
    inputs.allM test = .ok true ↔ ∀ input ∈ inputs, test input = .ok true := by
  induction inputs with
  | nil => exact iff_of_true rfl (by simp)
  | cons input inputs ih =>
    rw [List.allM, bind_eq_ok, List.forall_mem_cons]
    constructor
    · rintro ⟨_ | _, tested, rest⟩
      · cases rest
      · exact ⟨tested, ih.mp rest⟩
    · rintro ⟨tested, rest⟩
      exact ⟨true, tested, ih.mpr rest⟩

/-- What every step of a loop preserves, the loop preserves. -/
theorem foldlM_invariant {step : β → α → Except ε β} {invariant : β → Prop} {inputs : List α}
    (preserved : ∀ state, ∀ input ∈ inputs, ∀ next, step state input = .ok next →
      invariant state → invariant next)
    {start final : β} (looped : inputs.foldlM step start = .ok final)
    (holds : invariant start) : invariant final := by
  induction inputs generalizing start with
  | nil =>
    obtain rfl := pure_eq_ok.mp looped
    exact holds
  | cons input inputs ih =>
    rw [List.foldlM_cons, bind_eq_ok] at looped
    obtain ⟨next, stepped, rest⟩ := looped
    exact ih
      (fun state other inInputs => preserved state other (List.mem_cons_of_mem _ inInputs)) rest
      (preserved start input List.mem_cons_self next stepped holds)

/-- An outcome that is a result or one particular error. -/
def FailsOnly (error : ε) (outcome : Except ε α) : Prop :=
  ∀ other, outcome = .error other → other = error

theorem failsOnly_ok (error : ε) (value : α) : FailsOnly error (.ok value : Except ε α) := nofun

theorem FailsOnly.bind {error : ε} (failsOnly : FailsOnly error first)
    (others : ∀ value, first = .ok value → FailsOnly error (next value)) :
    FailsOnly error (first >>= next) := by
  cases first with
  | error fault =>
    rintro _ ⟨⟩
    exact failsOnly fault rfl
  | ok value => exact others value rfl

theorem FailsOnly.mapM {error : ε} {values : List α}
    (steps : ∀ value ∈ values, FailsOnly error (step value)) :
    FailsOnly error (values.mapM step) := by
  induction values with
  | nil => exact failsOnly_ok error []
  | cons value values ih =>
    rw [List.mapM_cons]
    refine (steps value List.mem_cons_self).bind fun result _ => ?_
    refine FailsOnly.bind ?_ fun results _ => failsOnly_ok error _
    exact ih fun other isMember => steps other (List.mem_cons_of_mem _ isMember)

end MultiVac.Lib
