import MultiVac.Consensus.View
import MultiVac.Consensus.VoteCounting

/-!
# The value after a failed gradecast

When the last step of the gradecast times out, the executor asks its voter for a value
with half the threshold. The voter answers from the votes of step 4. Gradecast
messages carry step 3, so their votes are filed under step 3.
-/

namespace MultiVac.Consensus

open BinaryBAVoter

/-! ### Gradecast messages of a round -/

/-- A call made for a message of a round. Executors build gradecast messages with step 3,
and `onGCMessage` adds the bit zero. -/
def VoterCall.AsBuilt (round : Int) : VoterCall → Prop
  | addVoteWithBBAMsg msgRound _ _ _ _ => msgRound = round
  | addGCVote msgRound step b _ _ => msgRound = round ∧ step = 3 ∧ b = 0

/-- The signer of a gradecast message for a value. -/
def VoterCall.gradecaster (value : ByzAgreementValue) : VoterCall → Option PkKey
  | addVoteWithBBAMsg .. => none
  | addGCVote _ _ _ v pk => if v = value then some pk else none

/-- The number of different signers of gradecast messages for a value. -/
def gradecastVotes (calls : List VoterCall) (value : ByzAgreementValue) : Nat :=
  (calls.filterMap (VoterCall.gradecaster value)).toFinset.card

/-- The number of votes for a value and the bit zero at step 4 of a round. -/
def firstBallots (round : Int) (calls : List VoterCall) (value : ByzAgreementValue) : Nat :=
  (VoterCall.castVotes calls).countP fun vote =>
    decide (vote.key = ⟨round, 4, 0⟩) && VoteValue.matchesValue (some value) vote.value

/-- Half of the threshold, as the voter computes it. -/
def halfThreshold (threshold : Int) : Int := (threshold + 1).tdiv 2

/-- A voter that has entered a round and has no vote of it yet. -/
structure BinaryBAVoter.EntersRound (bv : BinaryBAVoter) (round : Int) : Prop where
  round_eq : bv.round = round
  resRound_le : bv.resRound ≤ round
  result : ∀ key, key.round = round → bv.result key = none
  bbaHistory : ∀ key pk, key.round = round → bv.bbaHistory key pk = none
  gcHistory : ∀ pk, bv.gcHistory pk = false

/-- An executor in a step of a round in which the given calls were made on its voter. -/
structure InStep (ce : Executor) (round step : Int) (calls : List VoterCall) : Prop where
  round_eq : ce.state.round = round
  step_eq : ce.state.step = step
  voter : ∃ entered : BinaryBAVoter, entered.EntersRound round ∧ ce.bbaVoter = entered.run calls
  built : ∀ call ∈ calls, call.AsBuilt round

/-- After the timeout of the last gradecast step the executor has a value as its result, and
the vote it sends, if any, is for this value. -/
def GoesOnWith (a : Answers) (ce : Executor) (round step : Int) (value : ByzAgreementValue) :
    Prop :=
  (ce.onGCLastStepTimeout a round step).bbaVoter.getResultValue round = some value ∧
    ∃ sent : Option MsgBinaryBA,
      (ce.onGCLastStepTimeout a round step).ballots = ce.ballots ++ sent.toList ∧
        ∀ message, sent = some message → message.v = value

/-- The executor goes on with one value that half of the threshold gradecast, whatever the
order of the map, and with the empty value if there is none. -/
def FollowsGradecast (ce : Executor) (round step : Int) (calls : List VoterCall) : Prop :=
  ((∃ value, halfThreshold ce.bbaVoter.threshold ≤ gradecastVotes calls value) →
    ∃ value, halfThreshold ce.bbaVoter.threshold ≤ gradecastVotes calls value ∧
      ∀ a, GoesOnWith a ce round step value) ∧
  ((∀ value, (gradecastVotes calls value : Int) < halfThreshold ce.bbaVoter.threshold) →
    ∀ a, GoesOnWith a ce round step .empty)

/-! ### What the voter has stored -/

namespace BinaryBAVoter

variable {bv : BinaryBAVoter}

theorem EntersRound.records {round : Int} (enters : bv.EntersRound round) :
    Records (· = round) bv [] where
  bbaHistory := by
    intro key pk isRound
    rw [enters.bbaHistory key pk isRound]
    rfl
  gcHistory := enters.gcHistory
  count := by
    intro key wanted isRound
    rw [count, enters.result key isRound]
    rfl

/-- Every value in the map of a key has a vote. -/
def Positive (bv : BinaryBAVoter) (key : VoteKey) : Prop :=
  ∀ value, bv.result key = some value → ∀ entry ∈ value.cntMap.entries, 0 < (entry.2 : Nat)

variable {key : VoteKey}

theorem Positive.countVote (positive : bv.Positive key) (other : VoteKey)
    (vote : ByzAgreementValue) : (bv.countVote other vote).Positive key := by
  intro value found entry isEntry
  by_cases same : key = other
  · subst same
    simp only [BinaryBAVoter.countVote, Function.update_self, Option.some.injEq] at found
    subst found
    cases before : bv.result key with
    | none =>
      simp only [before, VoteValue.first, AList.singleton_entries, List.mem_singleton] at isEntry
      subst isEntry
      exact Nat.one_pos
    | some old =>
      simp only [before, VoteValue.add, AList.entries_insert, List.mem_cons] at isEntry
      rcases isEntry with rfl | kept
      · exact Nat.succ_pos _
      · exact positive old before entry ((List.kerase_sublist _ _).subset kept)
  · simp only [BinaryBAVoter.countVote, Function.update_of_ne same] at found
    exact positive value found entry isEntry

theorem Positive.call (positive : bv.Positive key) (call : VoterCall) :
    (bv.call call).1.Positive key := by
  cases call with
  | addVoteWithBBAMsg round step b value msgbba =>
    simp only [BinaryBAVoter.call, addVoteWithBBAMsg]
    split
    · exact positive
    · exact positive.countVote ⟨round, step, b⟩ value
  | addGCVote round step b value pk =>
    simp only [BinaryBAVoter.call, addGCVote]
    split
    · exact positive
    · exact positive.countVote ⟨round, step, b⟩ value

section Run

variable {entered : BinaryBAVoter} {round : Int} (enters : entered.EntersRound round)
  {calls : List VoterCall}

include enters

theorem EntersRound.records_run (built : ∀ call ∈ calls, call.AsBuilt round) :
    Records (· = round) (entered.run calls) calls := by
  induction calls using List.reverseRecOn with
  | nil => exact enters.records
  | append_singleton calls call ih =>
    have sameRound : call.vote.key.round = round := by
      have isBuilt := built call (by simp)
      cases call with
      | addVoteWithBBAMsg => exact isBuilt
      | addGCVote => exact isBuilt.1
    rw [run_append_singleton]
    exact (ih fun other isMember =>
      built other (List.mem_append_left _ isMember)).call call sameRound

theorem EntersRound.positive_run {key : VoteKey} (isRound : key.round = round) :
    (entered.run calls).Positive key := by
  induction calls using List.reverseRecOn with
  | nil =>
    intro value found
    rw [show entered.run [] = entered from rfl, enters.result key isRound] at found
    exact absurd found (by simp)
  | append_singleton calls call ih =>
    rw [run_append_singleton]
    exact ih.call call

theorem EntersRound.round_run :
    (entered.run calls).round = round ∧ (entered.run calls).resRound ≤ round := by
  induction calls using List.reverseRecOn with
  | nil => exact ⟨enters.round_eq, enters.resRound_le⟩
  | append_singleton calls call ih =>
    have sameResult := (extends_call (entered.run calls) call).resRound_eq
    rw [run_append_singleton, sameResult]
    refine ⟨?_, ih.2⟩
    rw [← ih.1]
    cases call with
    | addVoteWithBBAMsg =>
      simp only [BinaryBAVoter.call, addVoteWithBBAMsg]
      split <;> rfl
    | addGCVote =>
      simp only [BinaryBAVoter.call, addGCVote]
      split <;> rfl

end Run

end BinaryBAVoter

/-! ### The values with half the threshold -/

/-- A value with half of the threshold among the votes of step 4. -/
def HalfVoted (threshold round : Int) (calls : List VoterCall) (value : ByzAgreementValue) : Prop :=
  0 < firstBallots round calls value ∧ halfThreshold threshold ≤ firstBallots round calls value

/-- The order that starts at a given position. -/
def MapOrder.startingAt (position : Nat) : MapOrder where
  visit := fun entries => entries.rotate position
  visit_perm := fun entries => List.rotate_perm entries position

section Half

variable {ce : Executor} {round step : Int} {calls : List VoterCall}
  (inStep : InStep ce round step calls)

include inStep

/-- The entries that the loop looks for are the values with half of the threshold. -/
theorem InStep.halfVoted_iff (value : ByzAgreementValue) :
    HalfVoted ce.bbaVoter.threshold round calls value ↔
      ∃ stored count, ce.bbaVoter.result ⟨round, 4, 0⟩ = some stored ∧
        (⟨value, count⟩ : Sigma fun _ => Nat) ∈ stored.cntMap.entries ∧
        halfThreshold ce.bbaVoter.threshold ≤ count := by
  obtain ⟨entered, enters, isRun⟩ := inStep.voter
  have counted := (enters.records_run inStep.built).count ⟨round, 4, 0⟩ (some value) rfl
  have positive := @EntersRound.positive_run entered round enters calls ⟨round, 4, 0⟩ rfl
  rw [← isRun] at counted positive
  rw [HalfVoted, firstBallots, ← counted, BinaryBAVoter.count]
  cases found : ce.bbaVoter.result ⟨round, 4, 0⟩ with
  | none => simp
  | some stored =>
    simp only [VoteValue.count, Option.some.injEq]
    constructor
    · rintro ⟨isPositive, enough⟩
      cases isKept : stored.cntMap.lookup value with
      | none =>
        rw [isKept] at isPositive
        exact absurd isPositive (by simp)
      | some count =>
        rw [isKept] at enough
        exact ⟨stored, count, rfl, AList.mem_lookup_iff.mp isKept, enough⟩
    · rintro ⟨_, count, rfl, isEntry, enough⟩
      have isKept : stored.cntMap.lookup value = some count := AList.mem_lookup_iff.mpr isEntry
      rw [isKept]
      exact ⟨positive stored found _ isEntry, enough⟩

theorem InStep.getVoteKeyWithHalfThreshold_eq (order : MapOrder) :
    ce.bbaVoter.getVoteKeyWithHalfThreshold order =
      (ce.bbaVoter.result ⟨round, 4, 0⟩).bind fun stored =>
        ((order.visit stored.cntMap.entries).find? fun entry =>
          decide (halfThreshold ce.bbaVoter.threshold ≤ entry.2)).map Sigma.fst := by
  obtain ⟨entered, enters, isRun⟩ := inStep.voter
  have sameRound : ce.bbaVoter.round = round := by
    rw [isRun]
    exact enters.round_run.1
  rw [getVoteKeyWithHalfThreshold, sameRound]
  cases ce.bbaVoter.result ⟨round, 4, 0⟩ <;> rfl

variable {order : MapOrder} {value : ByzAgreementValue}

theorem InStep.halfVoted_of_chosen
    (chosen : ce.bbaVoter.getVoteKeyWithHalfThreshold order = some value) :
    HalfVoted ce.bbaVoter.threshold round calls value := by
  rw [inStep.getVoteKeyWithHalfThreshold_eq, Option.bind_eq_some_iff] at chosen
  obtain ⟨stored, found, isFirst⟩ := chosen
  obtain ⟨⟨_, count⟩, isFound, rfl⟩ := Option.map_eq_some_iff.mp isFirst
  refine (inStep.halfVoted_iff _).mpr ⟨stored, count, found, ?_, ?_⟩
  · exact (order.mem_visit _ _).mp (List.mem_of_find?_eq_some isFound)
  · have isEnough := List.find?_some isFound
    exact of_decide_eq_true isEnough

theorem InStep.not_halfVoted_of_none (chosen : ce.bbaVoter.getVoteKeyWithHalfThreshold order = none)
    (value : ByzAgreementValue) : ¬ HalfVoted ce.bbaVoter.threshold round calls value := by
  intro half
  obtain ⟨stored, count, found, isEntry, enough⟩ := (inStep.halfVoted_iff value).mp half
  rw [inStep.getVoteKeyWithHalfThreshold_eq, found, Option.bind_some, Option.map_eq_none_iff,
    List.find?_eq_none] at chosen
  exact chosen _ ((order.mem_visit _ _).mpr isEntry) (decide_eq_true enough)

/-- Each of several values is the answer for some order. -/
theorem InStep.exists_order (half : HalfVoted ce.bbaVoter.threshold round calls value) :
    ∃ order, ce.bbaVoter.getVoteKeyWithHalfThreshold order = some value := by
  obtain ⟨stored, count, found, isEntry, enough⟩ := (inStep.halfVoted_iff value).mp half
  obtain ⟨position, isBelow, isAt⟩ := List.getElem_of_mem isEntry
  refine ⟨MapOrder.startingAt position, ?_⟩
  have visited : (MapOrder.startingAt position).visit stored.cntMap.entries =
      ⟨value, count⟩ :: (stored.cntMap.entries.drop (position + 1) ++
        stored.cntMap.entries.take position) := by
    rw [← List.cons_append, ← isAt, ← List.drop_eq_getElem_cons isBelow]
    exact List.rotate_eq_drop_append_take isBelow.le
  rw [inStep.getVoteKeyWithHalfThreshold_eq, found, Option.bind_some, visited]
  simp [enough]

/-- The executor goes on with the answer of its voter, or with the empty value. -/
theorem InStep.goesOnWith_iff (a : Answers) (value : ByzAgreementValue) :
    GoesOnWith a ce round step value ↔
      (ce.bbaVoter.getVoteKeyWithHalfThreshold a.order).getD .empty = value := by
  obtain ⟨entered, enters, isRun⟩ := inStep.voter
  have notLater : ce.bbaVoter.resRound ≤ round := by
    rw [isRun]
    exact enters.round_run.2
  generalize chosenEq : (ce.bbaVoter.getVoteKeyWithHalfThreshold a.order).getD .empty = chosen
  obtain ⟨ballot, signs, viewEqual⟩ :=
    Executor.view_broadcastVote_setNextStepInRound a (ce.setResultValue round chosen) 1 chosen round
      step (step + 1)
  have timesOut : (ce.onGCLastStepTimeout a round step).view =
      ((ce.setResultValue round chosen).view).vote round (step + 1) ballot := by
    rw [Executor.onGCLastStepTimeout, if_pos ⟨inStep.round_eq, inStep.step_eq⟩, chosenEq]
    exact viewEqual
  have result : (ce.onGCLastStepTimeout a round step).bbaVoter.getResultValue round = some chosen := by
    have sameVoter := congrArg View.voter timesOut
    change (ce.onGCLastStepTimeout a round step).bbaVoter =
      ce.bbaVoter.setResultValue round chosen at sameVoter
    rw [sameVoter, setResultValue, if_pos notLater, getResultValue, if_neg (not_not.mpr rfl)]
  constructor
  · rintro ⟨isResult, -⟩
    rw [result] at isResult
    exact Option.some.inj isResult
  · rintro rfl
    refine ⟨result, ballot, congrArg View.ballots timesOut, ?_⟩
    rintro msg rfl
    exact (signs msg rfl).2.2.2.2

end Half

/-! ### When the gradecast is followed -/

/-- A value to go on with: half of the threshold gradecast it, or it is the empty value and
half of the threshold gradecast none. -/
def Gradecast (threshold : Int) (calls : List VoterCall) (value : ByzAgreementValue) : Prop :=
  halfThreshold threshold ≤ gradecastVotes calls value ∨
    value = .empty ∧ ∀ other, (gradecastVotes calls other : Int) < halfThreshold threshold

/-- What the votes of step 4 have to be: at most one value has half of the threshold there,
this value agrees with the gradecast, and if there is none the empty value does. -/
structure BallotsAgree (threshold round : Int) (calls : List VoterCall) : Prop where
  unique : ∀ value other, HalfVoted threshold round calls value →
    HalfVoted threshold round calls other → value = other
  voted : ∀ value, HalfVoted threshold round calls value → Gradecast threshold calls value
  empty : (∀ value, ¬ HalfVoted threshold round calls value) → Gradecast threshold calls .empty

/-- The executor follows the gradecast exactly if the votes of step 4, which it reads in
place of the gradecast votes, agree with them. -/
theorem followsGradecast_iff (ce : Executor) (round step : Int) (calls : List VoterCall)
    (inStep : InStep ce round step calls) :
    FollowsGradecast ce round step calls ↔ BallotsAgree ce.bbaVoter.threshold round calls := by
  have chosen_of_halfVoted : ∀ {value}, (∀ a, GoesOnWith a ce round step value) →
      ∀ other, HalfVoted ce.bbaVoter.threshold round calls other → other = value := by
    intro value goesOn other half
    obtain ⟨order, chosen⟩ := inStep.exists_order half
    have isValue := (inStep.goesOnWith_iff { Example.answers 0 with order } value).mp (goesOn _)
    rw [chosen] at isValue
    exact isValue
  have chosen_of_none : ∀ {value}, (∀ a, GoesOnWith a ce round step value) →
      (∀ other, ¬ HalfVoted ce.bbaVoter.threshold round calls other) → .empty = value := by
    intro value goesOn none
    have isValue := (inStep.goesOnWith_iff (Example.answers 0) value).mp (goesOn _)
    cases chosen : ce.bbaVoter.getVoteKeyWithHalfThreshold (Example.answers 0).order with
    | none => rwa [chosen] at isValue
    | some other => exact absurd (inStep.halfVoted_of_chosen chosen) (none other)
  constructor
  · rintro ⟨some, none⟩
    -- In both cases every order leads to one value, and that one agrees with the gradecast.
    obtain ⟨value, agrees, goesOn⟩ : ∃ value, Gradecast ce.bbaVoter.threshold calls value ∧
        ∀ a, GoesOnWith a ce round step value := by
      by_cases isGradecast :
          ∃ value, halfThreshold ce.bbaVoter.threshold ≤ gradecastVotes calls value
      · obtain ⟨value, enough, goesOn⟩ := some isGradecast
        exact ⟨value, Or.inl enough, goesOn⟩
      · have fewer : ∀ value,
            (gradecastVotes calls value : Int) < halfThreshold ce.bbaVoter.threshold :=
          fun value => not_le.mp fun enough => isGradecast ⟨value, enough⟩
        exact ⟨.empty, Or.inr ⟨rfl, fewer⟩, none fewer⟩
    refine ⟨?_, ?_, ?_⟩
    · intro first second firstHalf secondHalf
      rw [chosen_of_halfVoted goesOn first firstHalf, chosen_of_halfVoted goesOn second secondHalf]
    · intro other half
      rwa [chosen_of_halfVoted goesOn other half]
    · intro noHalf
      rwa [chosen_of_none goesOn noHalf]
  · intro agree
    -- Every order leads to the one value of step 4, or to the empty value.
    obtain ⟨value, agrees, goesOn⟩ : ∃ value, Gradecast ce.bbaVoter.threshold calls value ∧
        ∀ a, GoesOnWith a ce round step value := by
      by_cases noHalf : ∀ value, ¬ HalfVoted ce.bbaVoter.threshold round calls value
      · refine ⟨.empty, agree.empty noHalf, fun a => (inStep.goesOnWith_iff a _).mpr ?_⟩
        cases chosen : ce.bbaVoter.getVoteKeyWithHalfThreshold a.order with
        | none => rfl
        | some other => exact absurd (inStep.halfVoted_of_chosen chosen) (noHalf other)
      · obtain ⟨value, half⟩ := not_forall_not.mp noHalf
        refine ⟨value, agree.voted value half, fun a => (inStep.goesOnWith_iff a _).mpr ?_⟩
        cases chosen : ce.bbaVoter.getVoteKeyWithHalfThreshold a.order with
        | none => exact absurd half (inStep.not_halfVoted_of_none chosen value)
        | some other => exact agree.unique other value (inStep.halfVoted_of_chosen chosen) half
    refine ⟨fun isGradecast => ?_, fun fewer => ?_⟩
    · rcases agrees with enough | ⟨-, fewer⟩
      · exact ⟨value, enough, goesOn⟩
      · obtain ⟨other, enough⟩ := isGradecast
        exact absurd enough (not_le.mpr (fewer other))
    · rcases agrees with enough | ⟨rfl, -⟩
      · exact absurd enough (not_le.mpr (fewer value))
      · exact goesOn

/-- The value of a proposed block. -/
def proposedValue : ByzAgreementValue := ⟨Bytes32.fill 7, []⟩

/-- A gradecast message of round 1 for the proposed value, as an executor builds it. -/
def gradecastBy (signer : UInt8) : GCMessage :=
  ⟨0, [], ⟨Bytes32.fill signer, [], proposedValue⟩, ⟨Bytes32.fill signer, [], ⟨1, 3⟩⟩⟩

/-- An executor in step 4 of round 1, with a threshold of three votes. -/
def inStepFour : Executor :=
  ((Executor.new 0 (Bytes32.fill 1) 3).setCurrentRound (Example.answers 3) 1).setStepInRound 1 4

/-- It receives two gradecast messages. -/
def afterGradecast : Executor :=
  (inStepFour.onGCMessage (Example.answers 3) 1 (gradecastBy 1)).onGCMessage (Example.answers 3) 1
    (gradecastBy 2)

/-- The calls that the two messages make on the voter. -/
def gradecastCalls : List VoterCall :=
  [.addGCVote 1 3 0 proposedValue (Bytes32.fill 1), .addGCVote 1 3 0 proposedValue (Bytes32.fill 2)]

theorem entersRound_inStepFour : inStepFour.bbaVoter.EntersRound 1 where
  round_eq := rfl
  resRound_le := by decide
  result := fun key _ => by
    change (if key.round < 1 - 1 then none else none) = none
    split <;> rfl
  bbaHistory := fun key pk _ => by
    change (if key.round < 1 - 1 then fun _ => none else fun _ => none) pk = none
    split <;> rfl
  gcHistory := fun _ => rfl

theorem inStep_afterGradecast : InStep afterGradecast 1 4 gradecastCalls where
  round_eq := rfl
  step_eq := rfl
  voter := ⟨inStepFour.bbaVoter, entersRound_inStepFour, rfl⟩
  built := by
    intro call isCall
    simp only [gradecastCalls, List.mem_cons, List.not_mem_nil, or_false] at isCall
    rcases isCall with rfl | rfl <;> exact ⟨rfl, rfl, rfl⟩

/-- Two votes of step 4 for the proposed value. -/
def ballotCalls : List VoterCall :=
  [1, 2].map fun signer => .addVoteWithBBAMsg 1 4 0 proposedValue
    ⟨[], ⟨Bytes32.fill signer, [], ⟨0, 1, 4, 0, proposedValue⟩⟩⟩

/-- Gradecast votes and ballots. -/
theorem followsGradecast_with_ballots :
    InStep { afterGradecast with bbaVoter := inStepFour.bbaVoter.run (gradecastCalls ++ ballotCalls) }
        1 4 (gradecastCalls ++ ballotCalls) ∧
      FollowsGradecast
        { afterGradecast with bbaVoter := inStepFour.bbaVoter.run (gradecastCalls ++ ballotCalls) }
        1 4 (gradecastCalls ++ ballotCalls) := by
  have inStep : InStep
      { afterGradecast with bbaVoter := inStepFour.bbaVoter.run (gradecastCalls ++ ballotCalls) }
      1 4 (gradecastCalls ++ ballotCalls) := by
    refine ⟨rfl, rfl, ⟨_, entersRound_inStepFour, rfl⟩, ?_⟩
    intro call isCall
    rcases List.mem_append.mp isCall with isGradecast | isBallot
    · exact inStep_afterGradecast.built call isGradecast
    · obtain ⟨signer, -, rfl⟩ := List.mem_map.mp isBallot
      rfl
  have onlyProposed : ∀ value,
      HalfVoted 3 1 (gradecastCalls ++ ballotCalls) value → value = proposedValue := by
    rintro value ⟨isPositive, -⟩
    obtain ⟨vote, isCast, isFor⟩ := List.countP_pos_iff.mp isPositive
    obtain ⟨call, isCall, rfl⟩ := VoterCall.exists_call_of_mem_castVotes _ _ isCast
    have isProposed : call.vote.value = proposedValue := by
      simp only [gradecastCalls, ballotCalls, List.mem_append, List.mem_cons, List.map_cons,
        List.map_nil, List.not_mem_nil, or_false] at isCall
      rcases isCall with (rfl | rfl) | (rfl | rfl) <;> rfl
    simp only [VoteValue.matchesValue_some, Bool.and_eq_true, decide_eq_true_eq] at isFor
    rw [← isFor.2, isProposed]
  have enough : halfThreshold 3 ≤ gradecastVotes (gradecastCalls ++ ballotCalls) proposedValue := by
    decide
  refine ⟨inStep, (followsGradecast_iff _ 1 4 _ inStep).mpr ⟨?_, ?_, ?_⟩⟩
  · intro value other half halfToo
    rw [onlyProposed value half, onlyProposed other halfToo]
  · intro value half
    rw [onlyProposed value half]
    exact Or.inl enough
  · intro none
    exact absurd ⟨by decide, by decide⟩ (none proposedValue)

/-- Two gradecast votes are half of a threshold of three, but the executor goes on with the
empty value. -/
theorem gradecast_not_followed :
    InStep afterGradecast 1 4 gradecastCalls ∧ halfThreshold afterGradecast.bbaVoter.threshold ≤
        gradecastVotes gradecastCalls proposedValue ∧
      (∀ a, GoesOnWith a afterGradecast 1 4 .empty) ∧
      ¬ FollowsGradecast afterGradecast 1 4 gradecastCalls := by
  have enough : halfThreshold afterGradecast.bbaVoter.threshold ≤
      gradecastVotes gradecastCalls proposedValue := by
    decide
  have goesOn : ∀ a, GoesOnWith a afterGradecast 1 4 .empty :=
    fun a => (inStep_afterGradecast.goesOnWith_iff a _).mpr rfl
  refine ⟨inStep_afterGradecast, enough, goesOn, ?_⟩
  rintro ⟨follows, -⟩
  obtain ⟨value, isGradecast, goesOnToo⟩ := follows ⟨proposedValue, enough⟩
  have isEmpty := (inStep_afterGradecast.goesOnWith_iff (Example.answers 3) value).mp (goesOnToo _)
  have : value = .empty := isEmpty.symm
  subst this
  exact absurd isGradecast (by decide)

end MultiVac.Consensus
