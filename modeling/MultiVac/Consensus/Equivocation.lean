import MultiVac.Consensus.View
import MultiVac.Consensus.VoteCounting

/-!
# One vote for each step

An executor signs votes in four places: on a gradecast result, on the timeout
that replaces it, on an agreement of other votes, and on the timeout of a step.
If these are reached in step, an executor never signs two different votes for
one step of a round.
-/

namespace MultiVac.Consensus

namespace BinaryBAVoter

/-- The votes under a key have reached the threshold. -/
def Agreed (bv : BinaryBAVoter) (key : VoteKey) : Prop :=
  bv.threshold ≤ bv.tally key none

instance (bv : BinaryBAVoter) (key : VoteKey) : Decidable (bv.Agreed key) :=
  inferInstanceAs (Decidable (_ ≤ _))

variable {after before : BinaryBAVoter} {key : VoteKey}

theorem Extends.agreed (extended : after.Extends before)
    (agreed : before.Agreed key) : after.Agreed key := by
  have := extended.tally_le key none
  have := extended.threshold_eq
  unfold Agreed at *
  omega

theorem Extends.getResultValue_eq (extended : after.Extends before) (round : Int) :
    after.getResultValue round = before.getResultValue round := by
  simp only [getResultValue, extended.resRound_eq, extended.resultValue_eq]

/-- A vote that is acted on has brought its key to the threshold. -/
theorem agreed_of_addVoteWithBBAMsg {bv voter : BinaryBAVoter} {round step : Int} {b : UInt8}
    {value : ByzAgreementValue} {msgbba : MsgBinaryBA} {report : VoteReport}
    (counted : bv.addVoteWithBBAMsg round step b value msgbba = (voter, report))
    (reported : report.key = some key) :
    key = ⟨round, step, b⟩ ∧ voter.Agreed key ∧ (report.agreeType = .agreeOnOne ↔ b ≠ 0) := by
  unfold addVoteWithBBAMsg at counted
  dsimp only at counted
  split at counted
  · obtain ⟨rfl, rfl⟩ := Prod.mk.inj counted
    exact absurd reported (by simp [VoteReport.nothing])
  · obtain ⟨rfl, rfl⟩ := Prod.mk.inj counted
    obtain ⟨rfl, -⟩ := threshold_le_tally_of_report _ _ _ _ reported
    exact ⟨rfl, threshold_le_tally_none_of_report _ _ _ _ reported,
      agreeType_eq_agreeOnOne_iff _ _ _ _ reported⟩

end BinaryBAVoter

namespace View

/-- A vote for the current step that an agreement on the step before has asked
for: it has the agreement's bit and the round's result. -/
def Backed (view : View) (message : MsgBinaryBA) : Prop :=
  (∃ b : UInt8, view.voter.Agreed ⟨view.round, view.step - 1, b⟩ ∧
    message.b = if b = 0 then 0 else 1) ∧
  view.voter.getResultValue view.round = some message.v

/-- The executor has voted at most once for each step, and has not voted ahead
of its step except where an agreement asked for it. -/
structure VotesOnce (view : View) : Prop where
  past : ∀ message ∈ view.ballots, 4 ≤ message.step → message.round ≤ view.round
  current : ∀ message ∈ view.ballots, 4 ≤ message.step → message.round = view.round →
    message.step < view.step ∨ message.step = view.step ∧ 5 ≤ view.step ∧ view.Backed message
  unique : ∀ first ∈ view.ballots, ∀ second ∈ view.ballots,
    4 ≤ first.step → first.round = second.round → first.step = second.step →
    first.b = second.b ∧ first.v = second.v
  gcLastStep : ∀ round step, .gcLastStep round step ∈ view.timers → step = 4

variable {view : View}
  {pk : PkKey} {b : UInt8} {v : ByzAgreementValue} {ballot : Option MsgBinaryBA}

section

variable (votesOnce : view.VotesOnce)
include votesOnce

/-- The invariant only reads these parts of a view. -/
theorem VotesOnce.congr {other : View}
    (roundEqual : other.round = view.round) (stepEqual : other.step = view.step)
    (voterExtends : other.voter.Extends view.voter) (ballotsEqual : other.ballots = view.ballots)
    (timers : ∀ round step, .gcLastStep round step ∈ other.timers → step = 4) :
    other.VotesOnce where
  past := by
    rw [ballotsEqual, roundEqual]
    exact votesOnce.past
  current := by
    rw [ballotsEqual, roundEqual, stepEqual]
    intro msg member voting sameRound
    rcases votesOnce.current msg member voting sameRound with
      behind | ⟨sameStep, late, ⟨b, agreed, bit⟩, result⟩
    · exact Or.inl behind
    · refine Or.inr ⟨sameStep, late, ⟨b, ?_, bit⟩, ?_⟩
      · rw [roundEqual, stepEqual]
        exact voterExtends.agreed agreed
      · rw [roundEqual, voterExtends.getResultValue_eq, result]
  unique := by
    rw [ballotsEqual]
    exact votesOnce.unique
  gcLastStep := timers

theorem VotesOnce.withVoter {voter : BinaryBAVoter} (voterExtends : voter.Extends view.voter) :
    (view.withVoter voter).VotesOnce :=
  votesOnce.congr rfl rfl voterExtends rfl votesOnce.gcLastStep

/-- Before step 5 the voter may change in any way. -/
theorem VotesOnce.withVoter_of_early (early : view.step ≤ 4) (voter : BinaryBAVoter) :
    (view.withVoter voter).VotesOnce where
  past := votesOnce.past
  current := by
    intro msg member voting sameRound
    rcases votesOnce.current msg member voting sameRound with
      behind | ⟨-, late, -⟩
    · exact Or.inl behind
    · omega
  unique := votesOnce.unique
  gcLastStep := votesOnce.gcLastStep

/-- Going to step 4 from an earlier step. -/
theorem VotesOnce.setStepInRound (round : Int) :
    (view.setStepInRound round 4).VotesOnce where
  past := votesOnce.past
  current := by
    intro msg member voting sameRound
    simp only [View.setStepInRound]
    rcases votesOnce.current msg member voting sameRound with
      behind | ⟨sameStep, late, backed⟩
    · left
      split_ifs <;> omega
    · rw [if_neg (by omega)]
      refine Or.inr ⟨sameStep, late, ?_⟩
      simpa [Backed, View.setStepInRound, show ¬ view.step < 4 by omega]
        using backed
  unique := votesOnce.unique
  gcLastStep := votesOnce.gcLastStep

/-- Before step 5 of a round no vote has been cast in it. -/
theorem VotesOnce.no_ballot (early : view.step ≤ 4) :
    ∀ msg ∈ view.ballots, 4 ≤ msg.step → msg.round ≠ view.round := by
  intro msg member voting sameRound
  rcases votesOnce.current msg member voting sameRound with
    behind | ⟨-, late, -⟩ <;> omega

/-- A vote for the current step, with which the votes for it agree. -/
theorem VotesOnce.vote {next : Int} (signs : SignsVote pk view.round view.step b v ballot)
    (agrees : ∀ msg ∈ view.ballots, 4 ≤ msg.step → msg.round = view.round →
      msg.step = view.step → msg.b = b ∧ msg.v = v)
    (current : ∀ msg ∈ (view.vote view.round next ballot).ballots, 4 ≤ msg.step →
      msg.round = view.round → msg.step < (view.vote view.round next ballot).step ∨
        msg.step = (view.vote view.round next ballot).step ∧
          5 ≤ (view.vote view.round next ballot).step ∧
            (view.vote view.round next ballot).Backed msg) :
    (view.vote view.round next ballot).VotesOnce := by
  refine ⟨?_, current, ?_, ?_⟩
  · intro msg member voting
    rcases List.mem_append.mp member with old | new
    · exact votesOnce.past msg old voting
    · exact (signs msg (Option.mem_toList.mp new)).2.1.le
  · have content : ∀ msg ∈ (view.vote view.round next ballot).ballots, 4 ≤ msg.step →
        msg ∈ view.ballots ∧ ¬ (msg.round = view.round ∧ msg.step = view.step) ∨
          (msg.round = view.round ∧ msg.step = view.step) ∧ msg.b = b ∧ msg.v = v := by
      intro msg member voting
      by_cases here : msg.round = view.round ∧ msg.step = view.step
      · rcases List.mem_append.mp member with old | new
        · exact .inr ⟨here, agrees msg old voting here.1 here.2⟩
        · exact .inr ⟨here, (signs msg (Option.mem_toList.mp new)).2.2.2⟩
      · refine .inl ⟨(List.mem_append.mp member).resolve_right fun new => here ?_, here⟩
        exact ((signs msg (Option.mem_toList.mp new)).2).imp_right And.left
    intro first firstIn second secondIn voting sameRound sameStep
    rcases content first firstIn voting with ⟨firstOld, elsewhere⟩ | ⟨here, firstBit, firstValue⟩ <;>
      rcases content second secondIn (sameStep ▸ voting) with
        ⟨secondOld, elsewhereToo⟩ | ⟨hereToo, secondBit, secondValue⟩
    · exact votesOnce.unique first firstOld second secondOld voting sameRound sameStep
    · exact absurd (by rwa [sameRound, sameStep]) elsewhere
    · exact absurd (by rwa [← sameRound, ← sameStep]) elsewhereToo
    · exact ⟨firstBit.trans secondBit.symm, firstValue.trans secondValue.symm⟩
  · intro round step member
    rcases List.mem_append.mp member with old | new
    · exact votesOnce.gcLastStep round step old
    · simp at new

/-- A first vote for the current step, with which the step is left. -/
theorem VotesOnce.vote_fresh
        (signs : SignsVote pk view.round view.step b v ballot)
    (fresh : ∀ msg ∈ view.ballots, 4 ≤ msg.step →
      msg.round = view.round → msg.step ≠ view.step) :
    (view.vote view.round (view.step + 1) ballot).VotesOnce := by
  have stepAfter : (view.vote view.round (view.step + 1) ballot).step = view.step + 1 := by
    simp [View.vote, setNextStepInRound]
  refine votesOnce.vote signs (fun msg old voting sameRound sameStep =>
    absurd sameStep (fresh msg old voting sameRound)) fun msg member voting sameRound => ?_
  rw [stepAfter]
  left
  rcases List.mem_append.mp member with old | new
  · rcases votesOnce.current msg old voting sameRound with
      behind | ⟨sameStep, -⟩
    · omega
    · exact absurd sameStep (fresh msg old voting sameRound)
  · rw [(signs msg (Option.mem_toList.mp new)).2.2.1]
    omega

/-- The first vote of a round, for step 4. -/
theorem VotesOnce.vote_four (stepFour : view.step = 4)
        (signs : SignsVote pk view.round 4 b v ballot) :
    (view.vote view.round 5 ballot).VotesOnce := by
  rw [← stepFour] at signs
  have votes := votesOnce.vote_fresh signs fun msg member voting sameRound =>
    absurd sameRound (votesOnce.no_ballot stepFour.le msg member voting)
  rwa [stepFour] at votes

/-- A vote for the current step that an agreement asks for, and with which all
earlier votes for the step agree. -/
theorem VotesOnce.vote_backed (late : 5 ≤ view.step)
        (signs : SignsVote pk view.round view.step b v ballot)
    (backed : ∀ msg : MsgBinaryBA, msg.b = b → msg.v = v → view.Backed msg)
    (agrees : ∀ msg ∈ view.ballots, 4 ≤ msg.step →
      msg.round = view.round → msg.step = view.step →
      msg.b = b ∧ msg.v = v) :
    (view.vote view.round view.step ballot).VotesOnce := by
  have stepAfter : (view.vote view.round view.step ballot).step = view.step := by
    simp [View.vote, setNextStepInRound, show view.step ≠ view.step - 1 by omega]
  have backedAfter : ∀ msg, (view.vote view.round view.step ballot).Backed msg ↔
        view.Backed msg := by
    intro msg
    simp only [Backed, stepAfter]
    rfl
  refine votesOnce.vote signs agrees fun msg member voting sameRound => ?_
  rw [stepAfter, backedAfter]
  rcases List.mem_append.mp member with old | new
  · exact votesOnce.current msg old voting sameRound
  · obtain ⟨-, -, sameStep, bit, value⟩ := signs msg (Option.mem_toList.mp new)
    exact Or.inr ⟨sameStep, late, backed msg bit value⟩

end

/-- A round may be entered if it is a later one, or the current one before any
vote could have been cast in it. -/
def MayEnter (view : View) (round : Int) : Prop :=
  view.round < round ∨ round = view.round ∧ view.step ≤ 4

variable {round : Int} {after : View}

/-- Entering a round, with the votes cast so far. -/
theorem VotesOnce.enter (votesOnce : view.VotesOnce)
    (mayEnter : view.MayEnter round) (roundAfter : after.round = round)
    (ballots : ∀ msg ∈ after.ballots, 4 ≤ msg.step → msg ∈ view.ballots)
    (timers : ∀ timer ∈ after.timers, timer ∈ view.timers ∨ timer = .gcStep round 1) :
    after.VotesOnce := by
  have earlier : ∀ msg ∈ view.ballots, 4 ≤ msg.step → msg.round < round := by
    intro msg member voting
    have past := votesOnce.past msg member voting
    rcases mayEnter with later | ⟨rfl, early⟩
    · omega
    · have := votesOnce.no_ballot early msg member voting
      omega
  refine ⟨?_, ?_, ?_, ?_⟩
  · rw [roundAfter]
    exact fun msg member voting => (earlier msg (ballots msg member voting) voting).le
  · rw [roundAfter]
    intro msg member voting sameRound
    have := earlier msg (ballots msg member voting) voting
    omega
  · intro first firstMember second secondMember voting sameRound sameStep
    exact votesOnce.unique first (ballots first firstMember voting) second
      (ballots second secondMember (sameStep ▸ voting)) voting sameRound sameStep
  · intro gcRound step member
    rcases timers _ member with old | new
    · exact votesOnce.gcLastStep gcRound step old
    · simp at new

theorem VotesOnce.entered (votesOnce : view.VotesOnce)
    {hashing : Hashing} {a : Answers} {before : View}
    (entered : Entered hashing a before round after) (mayEnter : view.MayEnter round)
    (ballots : ∀ msg ∈ before.ballots, 4 ≤ msg.step → msg ∈ view.ballots)
    (timersEqual : before.timers = view.timers) : after.VotesOnce := by
  refine votesOnce.enter mayEnter entered.round_eq ?_ ?_
  · rw [entered.ballots_eq]
    exact ballots
  · rw [← timersEqual]
    exact entered.mem_timers

/-- The vote with which a round ends counts for no step of the agreement if the round ends
after step `-4`. -/
theorem mem_of_mem_cast {step : Int} (signs : SignsEnd round step ballot) (late : -4 < step)
    {msg : MsgBinaryBA} (member : msg ∈ (view.cast ballot).ballots) (voting : 4 ≤ msg.step) :
    msg ∈ view.ballots := by
  rcases List.mem_append.mp member with old | new
  · exact old
  · have := signs.step_eq msg (Option.mem_toList.mp new)
    omega

end View

namespace Executor

/-- The conditions under which an executor votes in step: a result of other
votes reaches it while it is in the step to vote for, and gives one ground for
that vote only; no round ends by votes of a step `-4` or below, which the executor would
answer with a plain vote for the negated step; a timeout votes only where no agreement has
asked for a vote; and no round is entered again after votes have been cast in it. -/
def InStep (ce : Executor) : Event → Prop
  | .receive (.gc message) =>
    ce.isStateValid (.gc message) = .handleMsg →
    let report := (ce.bbaVoter.addGCVote message.signedCredential.message.round
      message.signedCredential.message.step 0 message.signedVal.message
      message.signedCredential.pk).2
    report.agreeType = .totalAgreeOnZero → report.haveBroadcast = false → 4 ≤ ce.state.step
  | .receive (.binaryBA message) =>
    ce.isStateValid (.binaryBA message) = .handleMsg →
    let report := (ce.bbaVoter.addVoteWithBBAMsg message.round message.step
      message.b (countedValue message) message).2
    ∀ key, report.ActsOn key → (¬ EndsWithBlock key report.agreeType →
        ¬ EndsWithEmptyBlock ce.state.step key report.agreeType →
        0 ≤ key.step →
        4 ≤ key.step ∧ ce.state.step = key.step + 1 ∧
          ∀ b, ce.bbaVoter.Agreed ⟨key.round, key.step, b⟩ → (b = 0 ↔ key.b = 0)) ∧
      (EndsWithBlock key report.agreeType ∨
        EndsWithEmptyBlock ce.state.step key report.agreeType → -4 < key.step) ∧
      ∀ block, ce.recvData.receivedBlock ce.state.round
          (countedValue message).blockHash = some block →
        ce.view.MayEnter (block.header.height - 1)
  | .receive (.blockConfirmation message) =>
    ce.isStateValid (.blockConfirmation message) = .handleOtherStateMsg →
      ce.view.MayEnter (message.header.height - 2)
  | .initFinished shardHeight =>
    ce.state.shardStatus = .shardDisabled → ce.state.round ≤ shardHeight - 1 →
      ce.view.MayEnter (shardHeight - 1)
  | .timeout (.bbaNextStep round step) =>
    ce.state.round = round → ce.state.step = step → ∀ b, ¬ ce.bbaVoter.Agreed ⟨round, step - 1, b⟩
  | _ => True

variable (hashing : Hashing) (a : Answers) (ce : Executor)

theorem votesOnce_onGCMessage (votesOnce : ce.view.VotesOnce) (msg : GCMessage)
    (valid : ce.isStateValid (.gc msg) = .handleMsg) (inStep : ce.InStep (.receive (.gc msg))) :
    (ce.onGCMessage a ce.view.round msg).view.VotesOnce := by
  have extended := ce.view.voter.extends_call (.addGCVote msg.signedCredential.message.round
    msg.signedCredential.message.step 0 msg.signedVal.message
    msg.signedCredential.pk)
  rw [BinaryBAVoter.call] at extended
  have resultInStep := inStep valid
  dsimp only at resultInStep
  rw [show ce.bbaVoter = ce.view.voter from rfl] at resultInStep
  rcases counted : ce.view.voter.addGCVote msg.signedCredential.message.round
      msg.signedCredential.message.step 0 msg.signedVal.message
      msg.signedCredential.pk with ⟨voter, report⟩
  rw [counted] at extended resultInStep
  rcases ce.view_onGCMessage a ce.view.round msg counted with
    viewEqual | ⟨early, viewEqual | ⟨agreed, first, ballot, signs, viewEqual⟩⟩
  · rwa [viewEqual]
  · rw [viewEqual]
    exact votesOnce.withVoter extended
  · have stepFour : ce.view.step = 4 := le_antisymm early (resultInStep agreed first)
    rw [viewEqual, stepFour]
    refine View.VotesOnce.vote_four
      ((votesOnce.withVoter_of_early early _).setStepInRound _) ?_ signs
    simp [View.setStepInRound, View.withVoter, stepFour]

theorem votesOnce_onBinaryBA (votesOnce : ce.view.VotesOnce) (msg : MsgBinaryBA)
    (valid : ce.isStateValid (.binaryBA msg) = .handleMsg) (sameRound : msg.round = ce.view.round)
    (inStep : ce.InStep (.receive (.binaryBA msg))) :
    (ce.onBinaryBA hashing a ce.view.round msg).view.VotesOnce := by
  have extended := ce.view.voter.extends_call (.addVoteWithBBAMsg msg.round
    msg.step msg.b (countedValue msg) msg)
  rw [BinaryBAVoter.call] at extended
  have acts := inStep valid
  dsimp only at acts
  rw [show ce.bbaVoter = ce.view.voter from rfl] at acts
  rcases counted : ce.view.voter.addVoteWithBBAMsg msg.round msg.step
      msg.b (countedValue msg) msg with ⟨voter, report⟩
  rw [counted] at extended acts
  have votesOnceCounted := votesOnce.withVoter extended
  rcases ce.view_onBinaryBA hashing a ce.view.round msg counted with
    viewEqual | ⟨key, actsOn, ⟨ends, block, ended, isStored, signs, entered⟩ |
      ⟨-, ends, header, ended, signs, entered⟩ |
      ⟨notBlock, notEmpty, notFinal, v, ballot, resultValue, signs, viewEqual⟩⟩
  · rwa [viewEqual]
  · have late := (acts key actsOn).2.1 (Or.inl ends)
    rw [(BinaryBAVoter.agreed_of_addVoteWithBBAMsg counted actsOn.1).1] at late
    exact votesOnce.entered entered ((acts key actsOn).2.2 block isStored)
      (fun other => View.mem_of_mem_cast signs late) rfl
  · have late := (acts key actsOn).2.1 (Or.inr ends)
    rw [(BinaryBAVoter.agreed_of_addVoteWithBBAMsg counted actsOn.1).1] at late
    exact votesOnce.entered entered (Or.inl (by omega))
      (fun other => View.mem_of_mem_cast signs late) rfl
  · obtain ⟨keyEqual, agreed, bit⟩ := BinaryBAVoter.agreed_of_addVoteWithBBAMsg counted actsOn.1
    obtain ⟨late, stepNext, oneGround⟩ := (acts key actsOn).1 notBlock notEmpty notFinal
    have stepHere : msg.step + 1 = ce.view.step := by
      rw [show ce.view.step = ce.state.step from rfl, stepNext, keyEqual]
    have keyHere : key = ⟨ce.view.round, ce.view.step - 1, msg.b⟩ := by
      rw [keyEqual, sameRound, ← stepHere, Int.add_sub_cancel]
    have nextBitEqual : nextBit report.agreeType = if msg.b = 0 then 0 else 1 := by
      unfold nextBit
      by_cases isZero : msg.b = 0 <;> simp [bit, isZero]
    rw [viewEqual, stepHere]
    rw [stepHere, nextBitEqual] at signs
    refine votesOnceCounted.vote_backed ?_ signs ?_ ?_
    · have : ce.view.step = key.step + 1 := stepNext
      simp only [View.withVoter]
      omega
    · intro other otherBit otherValue
      refine ⟨⟨msg.b, ?_, otherBit⟩, ?_⟩
      · rw [keyHere] at agreed
        exact agreed
      · rw [otherValue]
        exact resultValue
    · intro other member voting otherRound otherStep
      rcases votesOnce.current other member voting otherRound with
        behind | ⟨-, -, ⟨b, agreedBefore, otherBit⟩, otherValue⟩
      · exact absurd otherStep behind.ne
      · have sameBit : b = 0 ↔ msg.b = 0 := by
          simpa [keyHere] using oneGround b (by rwa [keyHere])
        refine ⟨?_, ?_⟩
        · simp only [otherBit, sameBit]
        · rw [extended.getResultValue_eq, otherValue] at resultValue
          exact Option.some.inj resultValue

theorem votesOnce_gradecast {view : View} (votesOnce : view.VotesOnce)
    (round : Int) (gradecast : Option GCMessage) : (view.gradecast round gradecast).VotesOnce := by
  refine (votesOnce.setStepInRound round).congr rfl rfl (BinaryBAVoter.Extends.refl _) rfl ?_
  intro gcRound step member
  rcases List.mem_append.mp member with old | new
  · exact votesOnce.gcLastStep gcRound step old
  · simp only [List.mem_singleton, Timer.gcLastStep.injEq] at new
    exact new.2

theorem votesOnce_handleNewMessage (votesOnce : ce.view.VotesOnce) (msg : Message)
    (valid : ce.isStateValid msg = .handleMsg) (inStep : ce.InStep (.receive msg)) :
    (ce.handleNewMessage hashing a ce.state.round msg).view.VotesOnce := by
  cases msg with
  | leaderProposal proposal =>
    rcases ce.view_onReceiveLeaderProposal hashing a ce.state.round
        proposal with viewEqual | viewEqual
    · rwa [handleNewMessage, viewEqual]
    · rw [handleNewMessage, viewEqual]
      exact { votesOnce with }
  | leaderVote vote =>
    rcases ce.view_onReceiveLeaderVote a ce.state.round vote with
      viewEqual | ⟨-, val, gradecast, -, viewEqual⟩
    · rwa [handleNewMessage, viewEqual]
    · rw [handleNewMessage, viewEqual]
      exact votesOnce_gradecast votesOnce _ gradecast
  | gc gradecast => exact ce.votesOnce_onGCMessage a votesOnce gradecast valid inStep
  | binaryBA vote =>
    exact ce.votesOnce_onBinaryBA hashing a votesOnce vote valid
      (ce.round_eq_of_handleMsg valid) inStep
  | seed seed =>
    rw [handleNewMessage, view_onSeed]
    exact votesOnce
  | blockConfirmation => exact votesOnce

theorem votesOnce_handleOtherStateMessage (votesOnce : ce.view.VotesOnce) (msg : Message)
    (valid : ce.isStateValid msg = .handleOtherStateMsg) (inStep : ce.InStep (.receive msg)) :
    (ce.handleOtherStateMessage hashing a ce.state.round msg).view.VotesOnce := by
  cases msg with
  | leaderProposal proposal =>
    rw [handleOtherStateMessage, view_cacheLeaderProposal]
    exact { votesOnce with }
  | leaderVote | gc | binaryBA => exact votesOnce
  | seed => exact votesOnce
  | blockConfirmation confirmation =>
    rw [handleOtherStateMessage]
    rcases ce.view_onMsgBlockConfirmationInShardPreparation hashing a
        ce.state.round confirmation with
      viewEqual | ⟨blocks, viewEqual | entered⟩
    · rwa [viewEqual]
    · rw [viewEqual]
      exact votesOnce.enter (inStep valid) rfl (fun _ member _ => member)
        fun _ member => Or.inl member
    · have votesBetween : ((ce.view.setCurrentRound a
            (confirmation.header.height - 2)).acceptAll blocks).VotesOnce :=
        votesOnce.enter (inStep valid) rfl (fun _ member _ => member)
          fun _ member => Or.inl member
      refine votesBetween.entered entered (Or.inl ?_) (fun _ member _ => member) rfl
      simp only [View.acceptAll, View.setCurrentRound]
      omega

theorem votesOnce_fire (votesOnce : ce.view.VotesOnce) (timer : Timer)
    (isFour : ∀ round step, timer = .gcLastStep round step → step = 4)
    (inStep : ce.InStep (.timeout timer)) : (ce.fire a timer).view.VotesOnce := by
  cases timer with
  | gcStep round step =>
    have votesAfter : (ce.onTimeout a round step).view.VotesOnce := by
      rcases ce.view_onTimeout a round step with
        viewEqual | ⟨-, -, gradecast, -, viewEqual⟩
      · rwa [viewEqual]
      · rw [viewEqual]
        exact votesOnce_gradecast votesOnce round gradecast
    rw [fire]
    split
    · refine votesAfter.congr rfl rfl (BinaryBAVoter.Extends.refl _) rfl ?_
      intro gcRound gcStep member
      rcases List.mem_append.mp member with old | new
      · exact votesAfter.gcLastStep gcRound gcStep old
      · simp at new
    · exact votesAfter
  | gcLastStep round step =>
    rw [fire]
    rcases ce.view_onGCLastStepTimeout a round step with
      viewEqual | ⟨rfl, rfl, v, ballot, signs, viewEqual⟩
    · rwa [viewEqual]
    · have stepFour : ce.view.step = 4 := isFour _ _ rfl
      rw [viewEqual, stepFour]
      rw [stepFour] at signs
      exact (votesOnce.withVoter_of_early stepFour.le
        (ce.view.voter.setResultValue ce.view.round v)).vote_four stepFour signs
  | bbaNextStep round step =>
    rw [fire]
    rcases ce.view_onBBATimeoutForNextStep a round step with
      viewEqual | ⟨rfl, rfl, v, ballot, -, signs, viewEqual⟩
    · rwa [viewEqual]
    · rw [viewEqual]
      refine votesOnce.vote_fresh signs ?_
      intro msg member voting sameRound sameStep
      rcases votesOnce.current msg member voting sameRound with
        behind | ⟨-, -, ⟨b, agreed, -⟩, -⟩
      · omega
      · exact inStep rfl rfl b agreed

/-- Handling one event in step keeps the votes unique. -/
theorem votesOnce_handle (votesOnce : ce.view.VotesOnce) (event : Event)
    (enabled : ce.Enabled event) (inStep : ce.InStep event) :
    (ce.handle hashing a event).view.VotesOnce := by
  cases event with
  | start =>
    rw [handle, start]
    split
    · rename_i notStarted
      have entered := entered_startAtRound hashing a
        (ce.updateShardStatus .shardEnabled) ConsensusState.startRound
      refine votesOnce.entered entered (Or.inl ?_) ?_ ?_
      · simp only [updateShardStatus, ConsensusState.updateShardStatus_round,
          ConsensusState.initialRound] at notStarted
        simp only [view, ConsensusState.startRound]
        omega
      · rw [view_updateShardStatus]
        exact fun _ member _ => member
      · rw [view_updateShardStatus]
    · rwa [view_updateShardStatus]
  | updateInShardProof | startConsensusAtRound | stopConsensusAtRound =>
    exact votesOnce
  | initFinished shardHeight =>
    rw [handle, onInitFinished]
    split
    · rename_i disabled
      split
      · rwa [view_updateShardStatus]
      · split
        · exact votesOnce
        · rename_i notOutdated
          rw [view_setCurrentRound, view_updateShardStatus]
          exact votesOnce.enter (inStep disabled (not_lt.mp notOutdated)) rfl
            (fun _ member _ => member) fun _ member => Or.inl member
    · exact votesOnce
  | receive msg =>
    rw [handle, dispatchHandleMessage, msgFilter]
    split
    · exact votesOnce
    · rename_i handled
      split at handled
      · exact ce.votesOnce_handleNewMessage hashing a votesOnce msg handled inStep
      · exact absurd handled (by simp)
    · rename_i handled
      split at handled
      · exact ce.votesOnce_handleOtherStateMessage hashing a votesOnce msg handled inStep
      · exact absurd handled (by simp)
  | timeout timer =>
    refine votesOnce_fire a { ce with timers := ce.timers.erase timer } ?_ timer ?_ ?_
    · exact votesOnce.congr rfl rfl (BinaryBAVoter.Extends.refl _) rfl fun round step member =>
          votesOnce.gcLastStep round step (List.mem_of_mem_erase member)
    · rintro round step rfl
      exact votesOnce.gcLastStep round step enabled
    · cases timer <;> exact inStep

/-- A step in which the executor votes in step. -/
def MovesInStep (before after : Executor) : Prop :=
  ∃ a event, before.Enabled event ∧ before.InStep event ∧ after = before.handle hashing a event

/-- In a run that votes in step the votes are unique throughout. -/
theorem votesOnce_of_run (first last : Executor) (votesOnce : first.view.VotesOnce)
    (run : Relation.ReflTransGen (MovesInStep hashing) first last) : last.view.VotesOnce := by
  induction run with
  | refl => exact votesOnce
  | tail _ move ih =>
    obtain ⟨a, event, enabled, inStep, rfl⟩ := move
    exact votesOnce_handle hashing a _ ih event enabled inStep

theorem votesOnce_new (shardIndex : Wire.ShardIndex) (pk : PkKey) (voteThreshold : Int) :
    (Executor.new shardIndex pk voteThreshold).view.VotesOnce where
  past := by simp [view, ballots, new]
  current := by simp [view, ballots, new]
  unique := by simp [view, ballots, new]
  gcLastStep := by simp [view, new]

end Executor

/-- An executor that votes in step never signs two different votes for one step
of a round. -/
theorem votes_for_step_unique (hashing : Hashing) (shardIndex : Wire.ShardIndex) (pk : PkKey)
    (voteThreshold : Int) (ce : Executor)
    (run : Relation.ReflTransGen (Executor.MovesInStep hashing)
      (Executor.new shardIndex pk voteThreshold) ce) :
    ∀ first ∈ ce.ballots, ∀ second ∈ ce.ballots, 4 ≤ first.step → first.round = second.round →
      first.step = second.step →
      first.b = second.b ∧ first.v = second.v :=
  (Executor.votesOnce_of_run hashing _ ce
    (Executor.votesOnce_new shardIndex pk voteThreshold) run).unique

/-- The events of a round in which the gradecast times out. -/
def Example.gradecastTimeouts : List (Answers × Executor.Event) :=
  [(answers 2, .start), (answers 2, .timeout (.gcStep 0 1)),
    (answers 2, .timeout (.gcStep 0 2)), (answers 2, .timeout (.gcLastStep 0 4))]

/-- A run with one vote. -/
theorem votes_for_step_unique_gradecastTimeouts :
    let ce := (Executor.new 0 (Bytes32.fill 1) 2).handleAll Example.hashing
      Example.gradecastTimeouts
    Relation.ReflTransGen (Executor.MovesInStep Example.hashing)
        (Executor.new 0 (Bytes32.fill 1) 2) ce ∧
      ce.ballots.length = 1 ∧
      ∀ first ∈ ce.ballots, ∀ second ∈ ce.ballots, 4 ≤ first.step → first.round = second.round →
        first.step = second.step →
        first.b = second.b ∧ first.v = second.v := by
  intro ce
  have run : Relation.ReflTransGen (Executor.MovesInStep Example.hashing)
      (Executor.new 0 (Bytes32.fill 1) 2) ce := by
    refine .head ⟨Example.answers 2, .start, trivial, trivial, rfl⟩ ?_
    refine .head ⟨Example.answers 2, .timeout (.gcStep 0 1), ?_, trivial, rfl⟩ ?_
    · decide
    refine .head ⟨Example.answers 2, .timeout (.gcStep 0 2), ?_, trivial, rfl⟩ ?_
    · decide
    exact .single ⟨Example.answers 2, .timeout (.gcLastStep 0 4), by decide,
      trivial, rfl⟩
  exact ⟨run, by decide,
    votes_for_step_unique Example.hashing 0 (Bytes32.fill 1) 2 ce run⟩

/-- The timeout of step 5 votes for one, and a late agreement on zero in step 4
then makes the executor vote for zero in step 5. -/
theorem votes_for_step_differ :
    let ce := (Executor.new 0 (Bytes32.fill 1) 2).handleAll Example.hashing
      (Example.gradecastTimeouts ++ [(Example.answers 2, .timeout (.bbaNextStep 0 5)),
          (Example.answers 2, .receive (Example.vote 2 0 4 0 ⟨Bytes32.fill 7, []⟩)),
          (Example.answers 2, .receive (Example.vote 3 0 4 0 ⟨Bytes32.fill 8, []⟩))])
    Relation.ReflTransGen (Executor.Moves Example.hashing) (Executor.new 0 (Bytes32.fill 1) 2) ce ∧
      ∃ first ∈ ce.ballots, ∃ second ∈ ce.ballots, 4 ≤ first.step ∧ first.round = second.round ∧
        first.step = second.step ∧ first.b ≠ second.b :=
  ⟨Executor.reflTransGen_handleAll _ _ _ (by decide), by decide⟩

end MultiVac.Consensus
