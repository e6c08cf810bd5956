import MultiVac.Consensus.Executor

/-!
# What a handler can do

The view of an executor is what its votes depend on. One lemma for each
handler says how it changes the view; the invariants are proved from these
lemmas and never unfold a handler.
-/

namespace MultiVac.Consensus

/-- The part of an executor that its votes depend on, with the votes, the
gradecast messages and the proposals it has broadcast. -/
structure View where
  pk : PkKey
  round : Int
  step : Int
  voter : BinaryBAVoter
  ballots : List MsgBinaryBA
  gradecasts : List GCMessage
  proposals : List LeaderProposalMessage
  confirmations : List MsgBlockConfirmation
  timers : List Timer
  accepted : List (Int × AcceptedBlock)
  stored : Int → Hash → Option Wire.MsgBlock

namespace Effect

/-- A broadcast vote for a step that is not final. -/
@[simp]
def ballot? : Effect → Option MsgBinaryBA
  | broadcast (.message (.binaryBA message)) => some message
  | _ => none

/-- A broadcast gradecast message. -/
@[simp]
def gradecast? : Effect → Option GCMessage
  | broadcast (.message (.gc message)) => some message
  | _ => none

/-- A broadcast proposal. -/
@[simp]
def proposal? : Effect → Option LeaderProposalMessage
  | broadcast (.message (.leaderProposal message)) => some message
  | _ => none

/-- A broadcast block confirmation. -/
@[simp]
def confirmation? : Effect → Option MsgBlockConfirmation
  | broadcast (.message (.blockConfirmation message)) => some message
  | _ => none

end Effect

namespace Executor

/-- The votes an executor has broadcast, final ones left out. -/
def ballots (ce : Executor) : List MsgBinaryBA :=
  ce.effects.filterMap Effect.ballot?

/-- The view of an executor. -/
def view (ce : Executor) : View where
  pk := ce.pk
  round := ce.state.round
  step := ce.state.step
  voter := ce.bbaVoter
  ballots := ce.ballots
  gradecasts := ce.effects.filterMap Effect.gradecast?
  proposals := ce.effects.filterMap Effect.proposal?
  confirmations := ce.effects.filterMap Effect.confirmation?
  timers := ce.timers
  accepted := ce.accepted
  stored := ce.recvData.receivedBlock

end Executor

namespace View

variable (view : View)

/-- `setNextStepInRound` on the view. -/
def setNextStepInRound (round step : Int) : View :=
  { view with
    step :=
      if view.step = step - 1 ∧ view.round = round then view.step + 1
      else view.step }

/-- `setStepInRound` on the view. -/
def setStepInRound (round newStep : Int) : View :=
  { view with
    step :=
      if view.step < newStep ∧ view.round = round then newStep else view.step }

/-- Broadcast a gradecast message, go to step 4 and wait there. -/
def gradecast (round : Int) (message : Option GCMessage) : View :=
  { view.setStepInRound round 4 with
    gradecasts := view.gradecasts ++ message.toList
    timers := view.timers ++ [.gcLastStep round 4] }

/-- Broadcast a vote, try to move on to step `next` and wait there. -/
def vote (round next : Int) (ballot : Option MsgBinaryBA) : View :=
  { view.setNextStepInRound round next with
    ballots := view.ballots ++ ballot.toList
    timers := view.timers ++ [.bbaNextStep round next] }

/-- Broadcast a vote. -/
def cast (ballot : Option MsgBinaryBA) : View :=
  { view with ballots := view.ballots ++ ballot.toList }

theorem cast_none : view.cast none = view := by simp [cast]

/-- Replace the voter. -/
def withVoter (voter : BinaryBAVoter) : View :=
  { view with voter := voter }

/-- Record accepted blocks. -/
def acceptAll (blocks : List (Int × AcceptedBlock)) : View :=
  { view with accepted := view.accepted ++ blocks }

/-- Record an accepted block. -/
def accept (round : Int) (block : AcceptedBlock) : View :=
  view.acceptAll [(round, block)]

/-- Store a proposed block. -/
def store (round : Int) (hash : Hash) (block : Wire.MsgBlock) : View :=
  { view with
    stored := Function.update view.stored round
      (Function.update (view.stored round) hash (some block)) }

/-- `setCurrentRound` on the view. -/
def setCurrentRound (a : Answers) (view : View) (round : Int) : View :=
  { view with
    round := round
    step := 1
    voter := (view.voter.setCurrentRound round).setThreshold a.threshold }

/-- The views after entering a round: votes stay as they are, and a proposal
may be made for a block of the round's height. -/
structure Entered (hashing : Hashing) (a : Answers)
    (before : View) (round : Int) (after : View) : Prop where
  pk_eq : after.pk = before.pk
  round_eq : after.round = round
  step_eq : after.step = 1 ∨ after.step = 2
  voter_eq : after.voter = (before.voter.setCurrentRound round).setThreshold a.threshold
  ballots_eq : after.ballots = before.ballots
  gradecasts_eq : after.gradecasts = before.gradecasts
  confirmations_eq : after.confirmations = before.confirmations
  accepted_eq : after.accepted = before.accepted
  mem_timers : ∀ timer ∈ after.timers, timer ∈ before.timers ∨ timer = .gcStep round 1
  mem_proposals : ∀ proposal ∈ after.proposals, proposal ∈ before.proposals ∨
      proposal.signedCredential.message.round = round ∧
      proposal.block.header.height = round + 2 ∧
      proposal.blockHash = hashing.blockHeaderHash proposal.block.header
  stored_imp : ∀ storedRound hash block, after.stored storedRound hash = some block →
      before.stored storedRound hash = some block

end View

/-- A vote that, if it is signed at all, has this signer and content. -/
def SignsVote (pk : PkKey) (round step : Int) (b : UInt8)
    (v : ByzAgreementValue) (ballot : Option MsgBinaryBA) : Prop :=
  ∀ message ∈ ballot, message.pk = pk ∧ message.round = round ∧
    message.step = step ∧ message.b = b ∧ message.v = v

/-- The vote with which a round ends is for the negated step, and a plain vote only if this
is not negative. -/
structure SignsEnd (round step : Int) (ballot : Option MsgBinaryBA) : Prop where
  final : 0 < step → ballot = none
  round_eq : ∀ message ∈ ballot, message.round = round
  step_eq : ∀ message ∈ ballot, message.step = -step

/-- A gradecast message that, if it is signed at all, has this signer and
content. -/
def SignsGradecast (pk : PkKey) (round : Int) (v : ByzAgreementValue)
    (gradecast : Option GCMessage) : Prop :=
  ∀ message ∈ gradecast, message.signedCredential.pk = pk ∧
    message.signedCredential.message = ⟨round, 3⟩ ∧
    message.signedVal.message = v

namespace Executor

variable (hashing : Hashing) (a : Answers) (ce : Executor)

@[simp]
theorem view_onTimeOut (timer : Timer) :
    (ce.onTimeOut timer).view = { ce.view with timers := ce.view.timers ++ [timer] } := rfl

@[simp]
theorem view_setStepInRound (round step : Int) :
    (ce.setStepInRound round step).view = ce.view.setStepInRound round step := by
  simp only [view, setStepInRound, View.setStepInRound,
    ConsensusState.setStepInRound_round, ConsensusState.setStepInRound_step]
  rfl

@[simp]
theorem view_setNextStepInRound (round step : Int) :
    (ce.setNextStepInRound round step).view = ce.view.setNextStepInRound round step := by
  simp only [view, setNextStepInRound, View.setNextStepInRound,
    ConsensusState.setNextStepInRound_round,
    ConsensusState.setNextStepInRound_step]
  rfl

@[simp]
theorem view_setResultValue (round : Int) (value : ByzAgreementValue) :
    (ce.setResultValue round value).view =
      ce.view.withVoter (ce.view.voter.setResultValue round value) := rfl

@[simp]
theorem view_updateShardStatus (status : ShardStatus) :
    (ce.updateShardStatus status).view = ce.view := by
  simp [view, updateShardStatus, ballots]

@[simp]
theorem view_maybeBehind : ce.maybeBehind.view = ce.view := by
  unfold maybeBehind
  split
  · simp [view, ballots]
  · rfl

@[simp]
theorem view_broadcastLeaderVote (val : ByzAgreementValue) (round : Int) :
    (ce.broadcastLeaderVote a val round).view = ce.view := by
  unfold broadcastLeaderVote broadcastMessage
  split
  · rename_i msg built
    obtain ⟨credential, -, value, -, rfl⟩ : ∃ credential,
        ce.signed a SignedContent.credential ⟨round, 2⟩ = some credential ∧
        ∃ value, ce.signed a SignedContent.value val = some value ∧
        Outgoing.message (.leaderVote ⟨ce.shardIndex, ce.state.inShardProof,
          value, credential⟩) = msg := by
      simpa [Option.bind_eq_some_iff] using built
    simp [view, ballots]
  · rfl

/-- Broadcasting a gradecast message adds at most one, with the given content. -/
theorem view_broadcastGC (val : ByzAgreementValue) (round : Int) :
    ∃ msg, SignsGradecast ce.pk round val msg ∧ (ce.broadcastGC a val round).view =
        { ce.view with gradecasts := ce.view.gradecasts ++ msg.toList } := by
  unfold broadcastGC signed
  cases a.sign (.credential ⟨round, 3⟩) with
  | none => exact ⟨none, by simp [SignsGradecast], by simp [broadcastMessage]⟩
  | some credentialSignature =>
    cases a.sign (.value val) with
    | none => exact ⟨none, by simp [SignsGradecast], by simp [broadcastMessage]⟩
    | some valueSignature =>
      refine ⟨some ⟨ce.shardIndex, ce.state.inShardProof, ⟨ce.pk, valueSignature, val⟩,
        ⟨ce.pk, credentialSignature, ⟨round, 3⟩⟩⟩, ?_, ?_⟩
      · simp [SignsGradecast]
      · simp [broadcastMessage, view, ballots]

/-- Broadcasting a signed vote adds at most one, with the given content. A vote for a
negative step is a final one and not counted. -/
theorem view_broadcastMessage_signed (sender : Executor) (b : UInt8) (v : ByzAgreementValue)
    (round step : Int) :
    ∃ ballot, SignsVote ce.pk round step b v ballot ∧ (step < 0 → ballot = none) ∧
      (sender.broadcastMessage (ce.checkVerifierAndGenerateSignedMessage a b v round step)).view =
        sender.view.cast ballot := by
  have noVote : SignsVote ce.pk round step b v none := fun _ built => nomatch built
  unfold checkVerifierAndGenerateSignedMessage
  dsimp only
  split
  · cases a.sign (.credentialWithBA ⟨ce.shardIndex, round, step, b, v⟩) with
    | none => exact ⟨none, noVote, fun _ => rfl, by simp [broadcastMessage, View.cast]⟩
    | some signature =>
      by_cases final : step < 0
      · refine ⟨none, noVote, fun _ => rfl, ?_⟩
        simp [final, broadcastMessage, view, ballots, View.cast]
      · refine ⟨some ⟨ce.state.inShardProof, ⟨ce.pk, signature,
          ⟨ce.shardIndex, round, step, b, v⟩⟩⟩, ?_, fun negative => absurd negative final, ?_⟩
        · rintro msg ⟨⟩
          exact ⟨rfl, rfl, rfl, rfl, rfl⟩
        · simp [final, broadcastMessage, view, ballots, View.cast]
  · exact ⟨none, noVote, fun _ => rfl, by simp [broadcastMessage, View.cast]⟩

/-- Broadcasting a vote adds at most one, with the given content. -/
theorem view_broadcastVote (b : UInt8) (v : ByzAgreementValue) (round step : Int) :
    ∃ ballot, SignsVote ce.pk round step b v ballot ∧
      (ce.broadcastVote a b v round step).view = ce.view.cast ballot := by
  obtain ⟨ballot, signs, -, viewEqual⟩ := ce.view_broadcastMessage_signed a ce b v round step
  exact ⟨ballot, signs, viewEqual⟩

@[simp]
theorem view_setCurrentRound (round : Int) :
    (ce.setCurrentRound a round).view = ce.view.setCurrentRound a round := rfl

/-- Broadcasting a proposal adds at most one, for the given block. -/
theorem view_broadcastProposal (round : Int) (lastSeedSig : Bytes) (seed : Hash)
    (block : Wire.MsgBlock) (signedHash : Bytes) :
    ∃ proposal : Option LeaderProposalMessage, (∀ msg ∈ proposal,
        msg.signedCredential.message.round = round ∧
        msg.block = block ∧
        msg.blockHash = hashing.blockHeaderHash block.header) ∧
      (ce.broadcastProposal hashing a round lastSeedSig seed block signedHash).view =
        { ce.view with proposals := ce.view.proposals ++ proposal.toList } := by
  unfold broadcastProposal
  split
  · exact ⟨none, by simp, by simp⟩
  · unfold signed
    cases a.sign (.credential ⟨round, 1⟩) with
    | none => exact ⟨none, by simp, by simp [broadcastMessage, view, ballots]⟩
    | some signature =>
      refine ⟨some ⟨ce.shardIndex, ce.state.inShardProof, block,
        hashing.blockHeaderHash block.header, signedHash, lastSeedSig,
        ⟨ce.pk, signature, ⟨round, 1⟩⟩⟩, by simp, ?_⟩
      unfold ConsensusState.setSmallestCredInRound
      split <;>
        simp [broadcastMessage, view, ballots, List.filterMap_cons]

/-- Setting the round enters it. -/
theorem entered_setCurrentRound (view : View) (round : Int) :
    View.Entered hashing a view round (view.setCurrentRound a round) where
  pk_eq := rfl
  round_eq := rfl
  step_eq := Or.inl rfl
  voter_eq := rfl
  ballots_eq := rfl
  gradecasts_eq := rfl
  confirmations_eq := rfl
  accepted_eq := rfl
  mem_timers := fun _ member => Or.inl member
  mem_proposals := fun _ member => Or.inl member
  stored_imp := fun _ _ _ isStored => isStored

end Executor

namespace View

variable {hashing : Hashing} {a : Answers} {before after : View} {round : Int}

/-- Starting the round's ticker. -/
theorem Entered.tick (entered : Entered hashing a before round after) :
    Entered hashing a before round { after with timers := after.timers ++ [.gcStep round 1] } :=
  { entered with
    mem_timers := by
      intro timer member
      rcases List.mem_append.mp member with old | new
      · exact entered.mem_timers timer old
      · exact Or.inr (List.mem_singleton.mp new) }

/-- The first step of a round is over. -/
theorem Entered.setNextStepInRound (entered : Entered hashing a before round after) :
    Entered hashing a before round (after.setNextStepInRound round 2) :=
  { entered with
    step_eq := by
      simp only [View.setNextStepInRound]
      have := entered.step_eq
      split_ifs <;> omega }

/-- A proposal for the round is made. -/
theorem Entered.propose (entered : Entered hashing a before round after)
    (proposal : Option LeaderProposalMessage)
    (wellFormed : ∀ msg ∈ proposal, msg.signedCredential.message.round = round ∧
      msg.block.header.height = round + 2 ∧
      msg.blockHash = hashing.blockHeaderHash msg.block.header) :
    Entered hashing a before round { after with proposals := after.proposals ++ proposal.toList } :=
  { entered with
    mem_proposals := by
      intro msg member
      rcases List.mem_append.mp member with old | new
      · exact entered.mem_proposals msg old
      · exact Or.inr (wellFormed msg (Option.mem_toList.mp new)) }

end View

namespace Executor

variable (hashing : Hashing) (a : Answers) (ce : Executor)

/-- A potential leader proposes at most one block, of the round's height. -/
theorem entered_propose {before : View} {round : Int}
    (entered : View.Entered hashing a before round ce.view) (lastSeedSig : Bytes) (seed : Hash) :
    View.Entered hashing a before round (ce.propose hashing a round lastSeedSig seed).view := by
  unfold propose
  split
  · rw [view_setNextStepInRound]
    exact entered.setNextStepInRound
  · dsimp only
    split
    · rw [view_setNextStepInRound]
      exact entered.setNextStepInRound
    · rename_i rightHeight
      split
      · exact entered
      · rename_i signedHash _
        rw [view_setNextStepInRound]
        obtain ⟨proposal, wellFormed, viewEqual⟩ :=
          ce.view_broadcastProposal hashing a round lastSeedSig seed _ signedHash
        rw [viewEqual]
        refine (entered.propose proposal ?_).setNextStepInRound
        intro msg isProposal
        obtain ⟨roundEqual, blockEqual, hashEqual⟩ := wellFormed msg isProposal
        rw [blockEqual]
        exact ⟨roundEqual, not_not.mp rightHeight, hashEqual⟩

/-- `startAtRound` enters the round. -/
theorem entered_startAtRound (round : Int) :
    View.Entered hashing a ce.view round (ce.startAtRound hashing a round).view := by
  suffices entered : View.Entered hashing a ce.view round (ce.enterRound hashing a round).view by
    refine { entered with stored_imp := ?_ }
    intro storedRound hash block isStored
    simp only [startAtRound, replayAndClean, view, ReceivedData.cleanUnusedData] at isStored
    split at isStored
    · exact absurd isStored (by simp)
    · exact entered.stored_imp storedRound hash block isStored
  unfold enterRound
  split
  · convert entered_setCurrentRound hashing a ce.view round using 1
    simp [view, ballots, setCurrentRound, View.setCurrentRound, ConsensusState.setRound,
      ConsensusState.startingStepForRound]
  · split
    · exact entered_setCurrentRound hashing a ce.view round
    · have entered : View.Entered hashing a ce.view round
            ((ce.onTimeOut (.gcStep round 1)).setCurrentRound a round).view :=
        (entered_setCurrentRound hashing a ce.view round).tick
      dsimp only
      split
      · exact entered
      · split
        · exact entered_propose hashing a _ entered _ _
        · rw [view_setNextStepInRound]
          exact entered.setNextStepInRound

@[simp]
theorem view_setRoundSeed (round : Int) (seed : Hash) :
    (ce.setRoundSeed round seed).view = ce.view := by
  unfold setRoundSeed
  split
  · next stored =>
    obtain ⟨-, -, same⟩ := Lib.bind_eq_ok.mp stored
    obtain rfl := Lib.pure_eq_ok.mp same
    simp [view, ballots]
  · rfl

/-- `startNewRound` enters the round after the one of the header. -/
theorem entered_startNewRound (header : Wire.BlockHeader) :
    View.Entered hashing a ce.view (header.height - 1)
      (ce.startNewRound hashing a header).view := by
  have entered := entered_startAtRound hashing a
    (ce.setRoundSeed (header.height - 2) header.seed) (header.height - 2 + 1)
  rw [view_setRoundSeed, show header.height - 2 + 1 = header.height - 1 by omega] at entered
  rwa [startNewRound, show header.height - 2 + 1 = header.height - 1 by omega]

theorem view_onReceiveLeaderProposal (curRound : Int) (msg : LeaderProposalMessage) :
    (ce.onReceiveLeaderProposal hashing a curRound msg).view = ce.view ∨
    (ce.onReceiveLeaderProposal hashing a curRound msg).view =
      ce.view.store msg.signedCredential.message.round msg.blockHash msg.block := by
  unfold onReceiveLeaderProposal
  split
  · exact Or.inl rfl
  · split
    · exact Or.inl rfl
    · refine Or.inr ?_
      dsimp only
      split_ifs <;>
        simp [view, ballots, View.store, ReceivedData.saveBlock]

theorem view_cacheLeaderProposal (msg : LeaderProposalMessage) :
    (ce.cacheLeaderProposal msg).view =
      ce.view.store msg.signedCredential.message.round msg.blockHash msg.block := rfl

@[simp]
theorem view_onSeed (curRound : Int) (msg : MsgSeed) :
    (ce.onSeed hashing curRound msg).view = ce.view := by
  unfold onSeed
  dsimp only
  split
  · rfl
  · simp [view, ballots, cacheSeed, ReceivedData.saveSeed]

theorem view_onReceiveLeaderVote (curRound : Int) (msg : LeaderVoteMessage) :
    (ce.onReceiveLeaderVote a curRound msg).view = ce.view ∨
    ce.view.step ≤ 3 ∧ ∃ val gradecast, SignsGradecast ce.pk curRound val gradecast ∧
      (ce.onReceiveLeaderVote a curRound msg).view = ce.view.gradecast curRound gradecast := by
  unfold onReceiveLeaderVote
  split
  · exact Or.inl rfl
  · rename_i early
    split
    · dsimp only
      split
      · exact Or.inl rfl
      · split
        · rename_i val _
          obtain ⟨gradecast, signs, viewEqual⟩ := view_broadcastGC a
            { ce with gcCommitVoter := ce.gcCommitVoter.addPreCommit _ }
            val curRound
          refine Or.inr ⟨not_lt.mp early, val, gradecast, signs, ?_⟩
          rw [view_onTimeOut, view_setStepInRound, viewEqual]
          rfl
        · exact Or.inl rfl
    · exact Or.inl rfl

theorem view_onTimeout (round step : Int) :
    (ce.onTimeout a round step).view = ce.view ∨
    ce.view.step ≤ 3 ∧ ce.view.round = round ∧ ∃ gradecast,
      SignsGradecast ce.pk round .empty gradecast ∧
      (ce.onTimeout a round step).view = ce.view.gradecast round gradecast := by
  unfold onTimeout
  split
  · exact Or.inl rfl
  · rename_i sameRound
    split
    · exact Or.inl (view_broadcastLeaderVote a ce _ round)
    · split
      · split
        · exact Or.inl rfl
        · rename_i early
          obtain ⟨gradecast, signs, viewEqual⟩ := view_broadcastGC a ce .empty round
          refine Or.inr ⟨not_lt.mp early, (not_not.mp sameRound).symm, gradecast, signs, ?_⟩
          rw [view_onTimeOut, view_setStepInRound, viewEqual]
          rfl
      · exact Or.inl rfl

/-- Voting on the view, for an executor that moves on and then votes. -/
theorem view_broadcastVote_setNextStepInRound
    (b : UInt8) (v : ByzAgreementValue) (round step next : Int) :
    ∃ ballot, SignsVote ce.pk round step b v ballot ∧
      (((ce.setNextStepInRound round next).broadcastVote a b v round
          step).onTimeOut (.bbaNextStep round next)).view =
        ce.view.vote round next ballot := by
  obtain ⟨ballot, signs, viewEqual⟩ := view_broadcastVote a
    (ce.setNextStepInRound round next) b v round step
  refine ⟨ballot, signs, ?_⟩
  rw [view_onTimeOut, viewEqual, view_setNextStepInRound]
  rfl

/-- The bit that a gradecast result starts the binary agreement with. -/
def gradedBit (v : ByzAgreementValue) : UInt8 :=
  if v.blockHash ≠ Bytes32.zero then 0 else 1

theorem view_onGCMessage (curRound : Int) (msg : GCMessage)
    {voter : BinaryBAVoter} {report : VoteReport}
    (counted : ce.view.voter.addGCVote msg.signedCredential.message.round
        msg.signedCredential.message.step 0 msg.signedVal.message
        msg.signedCredential.pk = (voter, report)) :
    (ce.onGCMessage a curRound msg).view = ce.view ∨
    ce.view.step ≤ 4 ∧ ((ce.onGCMessage a curRound msg).view = ce.view.withVoter voter ∨
      report.agreeType = .totalAgreeOnZero ∧ report.haveBroadcast = false ∧
        ∃ ballot, SignsVote ce.pk curRound 4
            (gradedBit msg.signedVal.message) msg.signedVal.message
            ballot ∧
          (ce.onGCMessage a curRound msg).view = ((ce.view.withVoter (voter.setResultValue
              msg.signedCredential.message.round
              msg.signedVal.message)).setStepInRound curRound 4).vote
                curRound (ce.view.step + 1) ballot) := by
  have countedHere : ce.bbaVoter.addGCVote msg.signedCredential.message.round
        msg.signedCredential.message.step 0 msg.signedVal.message
        msg.signedCredential.pk = (voter, report) := counted
  unfold onGCMessage
  dsimp only
  split
  · exact Or.inl rfl
  · rename_i early
    refine Or.inr ⟨not_lt.mp early, ?_⟩
    rw [countedHere]
    dsimp only
    split
    · rename_i agreed
      refine Or.inr ⟨agreed.1, agreed.2, ?_⟩
      obtain ⟨ballot, signs, viewEqual⟩ := view_broadcastVote_setNextStepInRound a
          (({ ce with bbaVoter := voter }.setResultValue msg.signedCredential.message.round
            msg.signedVal.message).setStepInRound curRound 4)
          (gradedBit msg.signedVal.message) msg.signedVal.message
          curRound 4 (ce.state.step + 1)
      refine ⟨ballot, signs, ?_⟩
      rw [gradedBit] at viewEqual
      rw [viewEqual, view_setStepInRound, view_setResultValue]
      rfl
    · exact Or.inl rfl

theorem view_onGCLastStepTimeout (round step : Int) :
    (ce.onGCLastStepTimeout a round step).view = ce.view ∨
    ce.view.round = round ∧ ce.view.step = step ∧ ∃ v ballot,
      SignsVote ce.pk round step 1 v ballot ∧
      (ce.onGCLastStepTimeout a round step).view =
        (ce.view.withVoter (ce.view.voter.setResultValue round v)).vote
          round (step + 1) ballot := by
  unfold onGCLastStepTimeout
  split
  · rename_i inStep
    obtain ⟨ballot, signs, viewEqual⟩ := view_broadcastVote_setNextStepInRound a
        (ce.setResultValue round ((ce.bbaVoter.getVoteKeyWithHalfThreshold a.order).getD .empty))
        1 ((ce.bbaVoter.getVoteKeyWithHalfThreshold a.order).getD .empty)
        round step (step + 1)
    refine Or.inr ⟨inStep.1, inStep.2, _, ballot, signs, ?_⟩
    rw [viewEqual, view_setResultValue]
  · exact Or.inl rfl

theorem view_onBBATimeoutForNextStep (round step : Int) :
    (ce.onBBATimeoutForNextStep a round step).view = ce.view ∨
    ce.view.round = round ∧ ce.view.step = step ∧ ∃ v ballot,
      ce.view.voter.getResultValue round = some v ∧
      SignsVote ce.pk round step (fixValue a step) v ballot ∧
      (ce.onBBATimeoutForNextStep a round step).view = ce.view.vote round (step + 1) ballot := by
  unfold onBBATimeoutForNextStep
  split
  · rename_i inStep
    split
    · exact Or.inl rfl
    · rename_i v resultValue
      obtain ⟨ballot, signs, viewEqual⟩ :=
        view_broadcastVote_setNextStepInRound a ce (fixValue a step) v round step (step + 1)
      exact Or.inr ⟨inStep.1, inStep.2, v, ballot, resultValue, signs, viewEqual⟩
  · exact Or.inl rfl

theorem view_broadcastBBAFinMsg (round step : Int) (b : UInt8) (header : Wire.BlockHeader) :
    (ce.broadcastBBAFinMsg a round step b header).view = ce.view ∨
    ∃ ballot, SignsEnd round step ballot ∧ (ce.broadcastBBAFinMsg a round step b header).view =
      (ce.view.setNextStepInRound round (step + 1)).cast ballot := by
  unfold broadcastBBAFinMsg
  dsimp only
  split
  · exact Or.inl rfl
  · rename_i v _
    obtain ⟨ballot, signs, final, viewEqual⟩ := ce.view_broadcastMessage_signed a
      ((ce.setNextStepInRound round (step + 1)).broadcastMessage (some (.blockHeader header)))
      b v round (-step)
    refine Or.inr ⟨ballot, ⟨fun positive => final (by omega), fun msg member =>
      (signs msg member).2.1, fun msg member => (signs msg member).2.2.1⟩, ?_⟩
    rw [viewEqual, ← view_setNextStepInRound]
    simp [broadcastMessage, view, ballots, List.filterMap_cons]

/-- After the final vote of a round the next one is entered. -/
theorem entered_startNewRound_broadcastBBAFinMsg
    (round step : Int) (b : UInt8) (header : Wire.BlockHeader) :
    ∃ ballot, SignsEnd round step ballot ∧
      View.Entered hashing a (ce.view.cast ballot) (header.height - 1)
        ((ce.broadcastBBAFinMsg a round step b header).startNewRound hashing a header).view := by
  have entered := entered_startNewRound hashing a
    (ce.broadcastBBAFinMsg a round step b header) header
  rcases ce.view_broadcastBBAFinMsg a round step b header with
    viewEqual | ⟨ballot, signs, viewEqual⟩
  · refine ⟨none, ⟨fun _ => rfl, by simp, by simp⟩, ?_⟩
    rwa [viewEqual, ← ce.view.cast_none] at entered
  · rw [viewEqual] at entered
    -- entering a round forgets the step it is entered from
    exact ⟨ballot, signs, { entered with }⟩

theorem view_endWithBlock (curRound step : Int) (v : ByzAgreementValue) :
    (ce.endWithBlock hashing a curRound step v).view = ce.view ∨
    ∃ block ballot, ce.view.stored curRound v.blockHash = some block ∧
      SignsEnd curRound step ballot ∧
      View.Entered hashing a ((ce.view.accept curRound (.leader block)).cast ballot)
        (block.header.height - 1) (ce.endWithBlock hashing a curRound step v).view := by
  unfold endWithBlock
  split
  · split
    · rename_i block isStored
      split
      · obtain ⟨ballot, signs, entered⟩ := entered_startNewRound_broadcastBBAFinMsg hashing a
          (ce.accept curRound (.leader block)) curRound step 0 block.header
        exact Or.inr ⟨block, ballot, isStored, signs, entered⟩
      · exact Or.inl rfl
      · exact Or.inl ce.view_maybeBehind
    · exact Or.inl ce.view_maybeBehind
  · exact Or.inl ce.view_maybeBehind

theorem view_endWithEmptyBlock (curRound step : Int) :
    (ce.endWithEmptyBlock hashing a curRound step).view = ce.view ∨
    ∃ header ballot, SignsEnd curRound step ballot ∧
      View.Entered hashing a ((ce.view.accept curRound (.empty header)).cast ballot)
        (curRound + 1) (ce.endWithEmptyBlock hashing a curRound step).view := by
  unfold endWithEmptyBlock
  split
  · exact Or.inl rfl
  · rename_i header height _
    obtain ⟨ballot, signs, entered⟩ := entered_startNewRound_broadcastBBAFinMsg hashing a
      (ce.accept curRound (.empty header)) curRound step 1 header
    rw [height, show curRound + 2 - 1 = curRound + 1 by omega] at entered
    exact Or.inr ⟨header, ballot, signs, entered⟩

/-- The bit that an agreement makes the executor vote for next. -/
def nextBit (agreeType : ResultType) : UInt8 :=
  if agreeType = .agreeOnOne then 1 else 0

theorem view_voteForNextStep (curRound step : Int) (agreeType : ResultType) :
    (ce.voteForNextStep a curRound step agreeType).view = ce.view ∨
    ∃ v ballot, ce.view.voter.getResultValue curRound = some v ∧
      SignsVote ce.pk curRound (step + 1) (nextBit agreeType) v ballot ∧
      (ce.voteForNextStep a curRound step agreeType).view =
        ce.view.vote curRound (step + 1) ballot := by
  unfold voteForNextStep
  dsimp only
  split
  · exact Or.inl rfl
  · rename_i v resultValue
    obtain ⟨ballot, signs, viewEqual⟩ :=
      view_broadcastVote_setNextStepInRound a ce (nextBit agreeType) v
        curRound (step + 1) (step + 1)
    exact Or.inr ⟨v, ballot, resultValue, signs, viewEqual⟩

end Executor

/-- The report of a vote is acted on: it names a key for the first time. -/
def VoteReport.ActsOn (report : VoteReport) (key : VoteKey) : Prop :=
  report.key = some key ∧ report.haveBroadcast = false

/-- Ending condition 0. -/
def EndsWithBlock (key : VoteKey) (agreeType : ResultType) : Prop :=
  (key.step - 1).tmod 3 = 0 ∧ agreeType = .totalAgreeOnZero

/-- Ending condition 1, or too many steps. -/
def EndsWithEmptyBlock (step : Int) (key : VoteKey)
    (agreeType : ResultType) : Prop :=
  bbaMaxStep < step ∨ (key.step - 1).tmod 3 = 1 ∧ agreeType = .agreeOnOne

namespace Executor

variable (hashing : Hashing) (a : Answers) (ce : Executor)

theorem view_onBinaryBA (curRound : Int) (msg : MsgBinaryBA)
    {voter : BinaryBAVoter} {report : VoteReport}
    (counted : ce.view.voter.addVoteWithBBAMsg msg.round msg.step msg.b
        (countedValue msg) msg = (voter, report)) :
    (ce.onBinaryBA hashing a curRound msg).view = ce.view.withVoter voter ∨
    ∃ key, report.ActsOn key ∧ ((EndsWithBlock key report.agreeType ∧ ∃ block ballot,
          ce.view.stored curRound (countedValue msg).blockHash = some block ∧
          SignsEnd curRound msg.step ballot ∧
          View.Entered hashing a
            (((ce.view.withVoter voter).accept curRound (.leader block)).cast ballot)
            (block.header.height - 1) (ce.onBinaryBA hashing a curRound msg).view) ∨
        (¬ EndsWithBlock key report.agreeType ∧
          EndsWithEmptyBlock ce.view.step key report.agreeType ∧ ∃ header ballot,
          SignsEnd curRound msg.step ballot ∧
          View.Entered hashing a
            (((ce.view.withVoter voter).accept curRound (.empty header)).cast ballot)
            (curRound + 1) (ce.onBinaryBA hashing a curRound msg).view) ∨
        (¬ EndsWithBlock key report.agreeType ∧
          ¬ EndsWithEmptyBlock ce.view.step key report.agreeType ∧
          0 ≤ key.step ∧ ∃ v ballot, voter.getResultValue curRound = some v ∧
            SignsVote ce.pk curRound (msg.step + 1) (nextBit report.agreeType) v ballot ∧
            (ce.onBinaryBA hashing a curRound msg).view =
              (ce.view.withVoter voter).vote curRound (msg.step + 1) ballot)) := by
  have countedHere : ce.bbaVoter.addVoteWithBBAMsg msg.round msg.step msg.b
        (countedValue msg) msg = (voter, report) := counted
  unfold onBinaryBA
  dsimp only
  rw [countedHere]
  dsimp only
  split
  · exact Or.inl rfl
  · rename_i key reported
    split
    · exact Or.inl rfl
    · rename_i firstReport
      have actsOn : report.ActsOn key := ⟨reported, by simpa using firstReport⟩
      split
      · rename_i ends
        rcases view_endWithBlock hashing a { ce with bbaVoter := voter }
            curRound msg.step (countedValue msg) with
          viewEqual | ⟨block, ended⟩
        · exact Or.inl viewEqual
        · exact Or.inr ⟨key, actsOn, Or.inl ⟨ends, block, ended⟩⟩
      · rename_i notBlock
        split
        · rename_i ends
          rcases view_endWithEmptyBlock hashing a
              { ce with bbaVoter := voter } curRound msg.step with
            viewEqual | ⟨header, ended⟩
          · exact Or.inl viewEqual
          · exact Or.inr ⟨key, actsOn, Or.inr (Or.inl ⟨notBlock, ends, header, ended⟩)⟩
        · rename_i notEmpty
          split
          · exact Or.inl rfl
          · rename_i notFinal
            rcases view_voteForNextStep a { ce with bbaVoter := voter }
                curRound msg.step report.agreeType with
              viewEqual | ⟨v, ballot, resultValue, signs, viewEqual⟩
            · exact Or.inl viewEqual
            · exact Or.inr ⟨key, actsOn, Or.inr (Or.inr ⟨notBlock, notEmpty,
                not_lt.mp notFinal, v, ballot, resultValue, signs, viewEqual⟩)⟩

/-- A message is handled at once only in its own round. -/
theorem round_eq_of_handleMsg {msg : Message} (valid : ce.isStateValid msg = .handleMsg) :
    msg.round = ce.state.round := by
  unfold isStateValid at valid
  split_ifs at valid with outdated early
  have notOutdated := fun isOutdated => outdated (Or.inl isOutdated)
  have notEarly := fun isEarly => early (Or.inl isEarly)
  omega

/-- A confirmation sets the round to that of its header; if the block could be
accepted, the next round may be entered. -/
theorem view_onMsgBlockConfirmationInShardPreparation
    (curRound : Int) (msg : MsgBlockConfirmation) :
    (ce.onMsgBlockConfirmationInShardPreparation hashing a curRound msg).view = ce.view ∨
    ∃ blocks, (ce.onMsgBlockConfirmationInShardPreparation hashing a curRound msg).view =
        (ce.view.setCurrentRound a (msg.header.height - 2)).acceptAll blocks ∨
      View.Entered hashing a ((ce.view.setCurrentRound a (msg.header.height - 2)).acceptAll
          blocks)
        (msg.header.height - 1)
        (ce.onMsgBlockConfirmationInShardPreparation hashing a curRound msg).view := by
  unfold onMsgBlockConfirmationInShardPreparation
  dsimp only
  rw [show msg.header.height - 1 - 1 = msg.header.height - 2 by omega]
  split
  · exact Or.inl rfl
  · refine Or.inr ?_
    split
    · exact ⟨[], Or.inl (by simp [View.acceptAll])⟩
    · rename_i block _
      refine ⟨[(msg.header.height - 2, block)], ?_⟩
      split
      · refine Or.inr ?_
        convert entered_startNewRound hashing a _ msg.header using 1
        exact (view_updateShardStatus ((ce.setCurrentRound a (msg.header.height - 2)).accept
            (msg.header.height - 2) block) .shardEnabled).symm
      · exact Or.inl rfl

end Executor
end MultiVac.Consensus
