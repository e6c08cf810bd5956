import MultiVac.Consensus.Confirmation

/-!
# Rounds and steps go forward

The round of an executor and its step in the round, over whole runs. A handler stays in
the round, where the step can only grow, or enters a round. Which round it enters is
taken from the header of an accepted block or from that of a confirmation, so the round
goes forward if these headers are not from the past.
-/

namespace MultiVac.Consensus

/-- The round a timeout was registered in. -/
def Timer.round : Timer → Int
  | gcStep round _ | gcLastStep round _ | bbaNextStep round _ => round

namespace Executor

/-- The executor stays in its round and its step does not fall. -/
structure Stays (before after : Executor) : Prop where
  round_eq : after.state.round = before.state.round
  step_le : before.state.step ≤ after.state.step
  status_eq : after.state.shardStatus = before.state.shardStatus
  timers : ∀ timer ∈ after.timers, timer ∈ before.timers ∨ timer.round = before.state.round

/-- The executor enters a round, where it waits in the first step unless its shard is
enabled. -/
structure Enters (before : Executor) (round : Int) (after : Executor) : Prop where
  round_eq : after.state.round = round
  step_pos : 1 ≤ after.state.step
  timers : ∀ timer ∈ after.timers, timer ∈ before.timers ∨ timer.round = round
  waits : after.state.shardStatus ≠ .shardEnabled →
    after.state.step = 1 ∧ ∀ timer ∈ after.timers, timer ∈ before.timers

section Steps

variable {first second third : Executor} {round : Int}

theorem Stays.refl (ce : Executor) : Stays ce ce :=
  ⟨rfl, le_rfl, rfl, fun _ inTimers => Or.inl inTimers⟩

theorem Stays.trans (stays : Stays first second) (staysToo : Stays second third) :
    Stays first third where
  round_eq := staysToo.round_eq.trans stays.round_eq
  step_le := stays.step_le.trans staysToo.step_le
  status_eq := staysToo.status_eq.trans stays.status_eq
  timers := by
    intro timer inTimers
    rcases staysToo.timers timer inTimers with inSecond | sameRound
    · exact stays.timers timer inSecond
    · exact Or.inr (sameRound.trans stays.round_eq)

/-- A change of other data. -/
theorem Stays.of_eq (stateEqual : second.state = first.state)
    (timersEqual : second.timers = first.timers) : Stays first second where
  round_eq := by rw [stateEqual]
  step_le := by rw [stateEqual]
  status_eq := by rw [stateEqual]
  timers := by
    intro timer inTimers
    rw [timersEqual] at inTimers
    exact Or.inl inTimers

/-- A step after a change of other data. -/
theorem Stays.after_eq (stays : Stays second third) (stateEqual : second.state = first.state)
    (timersEqual : second.timers = first.timers) : Stays first third :=
  (Stays.of_eq stateEqual timersEqual).trans stays

/-- What happens after a round has been entered with the shard enabled. -/
theorem Enters.stays (enters : Enters first round second)
    (enabled : second.state.shardStatus = .shardEnabled)
    (stays : Stays second third) : Enters first round third where
  round_eq := stays.round_eq.trans enters.round_eq
  step_pos := enters.step_pos.trans stays.step_le
  timers := by
    intro timer inTimers
    rcases stays.timers timer inTimers with inSecond | sameRound
    · exact enters.timers timer inSecond
    · exact Or.inr (sameRound.trans enters.round_eq)
  waits := by
    intro notEnabled
    exact absurd (stays.status_eq.trans enabled) notEnabled

/-- A round can be entered after a change in the old one that registers no timeout. -/
theorem Enters.of_timers_eq (enters : Enters second round third)
    (timersEqual : second.timers = first.timers) : Enters first round third where
  round_eq := enters.round_eq
  step_pos := enters.step_pos
  timers := by
    rw [← timersEqual]
    exact enters.timers
  waits := by
    rw [← timersEqual]
    exact enters.waits

end Steps

section Handlers

variable (hashing : Hashing) (a : Answers) (ce : Executor)

theorem stays_broadcastMessage (msg : Option Outgoing) :
    Stays ce (ce.broadcastMessage msg) := by
  unfold broadcastMessage
  split <;> exact .of_eq rfl rfl

theorem stays_maybeBehind : Stays ce ce.maybeBehind := by
  unfold maybeBehind
  split <;> exact .of_eq rfl rfl

theorem stays_onTimeOut {timer : Timer} (current : timer.round = ce.state.round) :
    Stays ce (ce.onTimeOut timer) where
  round_eq := rfl
  step_le := le_rfl
  status_eq := rfl
  timers := by
    intro other inTimers
    rcases List.mem_append.mp inTimers with old | new
    · exact Or.inl old
    · rw [List.mem_singleton.mp new]
      exact Or.inr current

theorem stays_setStepInRound (round step : Int) : Stays ce (ce.setStepInRound round step) where
  round_eq := ce.state.setStepInRound_round round step
  step_le := by
    rw [setStepInRound, ConsensusState.setStepInRound_step]
    split <;> omega
  status_eq := by
    rw [setStepInRound, ConsensusState.setStepInRound]
    split <;> rfl
  timers := fun _ inTimers => Or.inl inTimers

theorem stays_setNextStepInRound (round step : Int) :
    Stays ce (ce.setNextStepInRound round step) where
  round_eq := ce.state.setNextStepInRound_round round step
  step_le := by
    rw [setNextStepInRound, ConsensusState.setNextStepInRound_step]
    split <;> omega
  status_eq := by
    rw [setNextStepInRound, ConsensusState.setNextStepInRound]
    split <;> rfl
  timers := fun _ inTimers => Or.inl inTimers

theorem stays_setSmallestCredInRound (round : Int) (cred : Hash) :
    Stays ce { ce with state := ce.state.setSmallestCredInRound round cred } where
  round_eq := ce.state.setSmallestCredInRound_round round cred
  step_le := (ce.state.setSmallestCredInRound_step round cred).ge
  status_eq := by
    rw [ConsensusState.setSmallestCredInRound]
    split <;> rfl
  timers := fun _ inTimers => Or.inl inTimers

/-- Gradecast a value, go to step four and wait there. -/
theorem stays_gradecast (val : ByzAgreementValue) {round : Int} (current : round = ce.state.round) :
    Stays ce (((ce.broadcastGC a val round).setStepInRound round 4).onTimeOut
      (.gcLastStep round 4)) := by
  have moved : Stays ce ((ce.broadcastGC a val round).setStepInRound round 4) :=
    (stays_broadcastMessage ce _).trans (stays_setStepInRound _ round 4)
  exact moved.trans (stays_onTimeOut _ (current.trans moved.round_eq.symm))

/-- Move on to the next step, vote and wait there. -/
theorem stays_vote (b : UInt8) (v : ByzAgreementValue) {round : Int} (step next : Int)
    (current : round = ce.state.round) :
    Stays ce (((ce.setNextStepInRound round next).broadcastVote a b v round step).onTimeOut
      (.bbaNextStep round next)) := by
  have moved : Stays ce ((ce.setNextStepInRound round next).broadcastVote a b v round step) :=
    (stays_setNextStepInRound ce round next).trans (stays_broadcastMessage _ _)
  exact moved.trans (stays_onTimeOut _ (current.trans moved.round_eq.symm))

theorem stays_broadcastProposal (round : Int) (lastSeedSig : Bytes) (seed : Hash)
    (block : Wire.MsgBlock) (signedHash : Bytes) :
    Stays ce (ce.broadcastProposal hashing a round lastSeedSig seed block signedHash) := by
  unfold broadcastProposal
  split
  · exact .refl ce
  · exact ((stays_setSmallestCredInRound ce round seed).trans (stays_broadcastMessage _ _)).trans
      (stays_broadcastMessage _ _)

theorem stays_propose (round : Int) (lastSeedSig : Bytes) (seed : Hash) :
    Stays ce (ce.propose hashing a round lastSeedSig seed) := by
  unfold propose
  split
  · exact stays_setNextStepInRound ce round 2
  · dsimp only
    split
    · exact stays_setNextStepInRound ce round 2
    · split
      · exact .refl ce
      · exact (stays_broadcastProposal hashing a ce round lastSeedSig seed _ _).trans
          (stays_setNextStepInRound _ round 2)

theorem enters_setCurrentRound (round : Int) : Enters ce round (ce.setCurrentRound a round) where
  round_eq := rfl
  step_pos := le_rfl
  timers := fun _ inTimers => Or.inl inTimers
  waits := fun _ => ⟨rfl, fun _ inTimers => inTimers⟩

theorem enters_enterRound (round : Int) : Enters ce round (ce.enterRound hashing a round) := by
  unfold enterRound
  split
  · exact ⟨rfl, le_rfl, fun _ inTimers => Or.inl inTimers,
      fun _ => ⟨rfl, fun _ inTimers => inTimers⟩⟩
  · split
    · exact enters_setCurrentRound a ce round
    · rename_i enabled
      have isEnabled :
          ((ce.onTimeOut (.gcStep round 1)).setCurrentRound a round).state.shardStatus =
            .shardEnabled := not_not.mp enabled
      have entered : Enters ce round
          ((ce.onTimeOut (.gcStep round 1)).setCurrentRound a round) := by
        refine ⟨rfl, le_rfl, ?_, fun notEnabled => absurd isEnabled notEnabled⟩
        intro timer inTimers
        rcases List.mem_append.mp inTimers with old | new
        · exact Or.inl old
        · rw [List.mem_singleton.mp new]
          exact Or.inr rfl
      dsimp only
      split
      · exact entered
      · split
        · exact entered.stays isEnabled (stays_propose hashing a _ round _ _)
        · exact entered.stays isEnabled (stays_setNextStepInRound _ round 2)

theorem enters_startAtRound (round : Int) : Enters ce round (ce.startAtRound hashing a round) :=
  { enters_enterRound hashing a ce round with }

theorem enters_startNewRound (header : Wire.BlockHeader) :
    Enters ce (header.height - 1) (ce.startNewRound hashing a header) := by
  have entered := enters_startAtRound hashing a
    (ce.setRoundSeed (header.height - 2) header.seed) (header.height - 2 + 1)
  have sameTimers : (ce.setRoundSeed (header.height - 2) header.seed).timers = ce.timers := by
    unfold setRoundSeed
    split <;> rfl
  unfold startNewRound
  dsimp only
  rw [show header.height - 2 + 1 = header.height - 1 by omega] at entered ⊢
  exact entered.of_timers_eq sameTimers

/-! ### Messages of the current round -/

theorem stays_onReceiveLeaderProposal (curRound : Int) (msg : LeaderProposalMessage) :
    Stays ce (ce.onReceiveLeaderProposal hashing a curRound msg) := by
  unfold onReceiveLeaderProposal
  split
  · exact .refl ce
  · split
    · exact .refl ce
    · dsimp only
      split
      · exact .of_eq rfl rfl
      · split
        · exact (stays_setSmallestCredInRound ce curRound _).trans (.of_eq rfl rfl)
        · exact (stays_setSmallestCredInRound ce curRound _).trans (.of_eq rfl rfl)

theorem stays_onReceiveLeaderVote (msg : LeaderVoteMessage) :
    Stays ce (ce.onReceiveLeaderVote a ce.state.round msg) := by
  unfold onReceiveLeaderVote
  split
  · exact .refl ce
  · split
    · dsimp only
      split
      · exact .of_eq rfl rfl
      · split
        · exact Stays.after_eq (stays_gradecast a _ _ rfl) rfl rfl
        · exact .of_eq rfl rfl
    · exact .refl ce

theorem stays_onGCMessage (msg : GCMessage) :
    Stays ce (ce.onGCMessage a ce.state.round msg) := by
  unfold onGCMessage
  dsimp only
  split
  · exact .refl ce
  · split
    · refine Stays.after_eq ((stays_setStepInRound _ ce.state.round 4).trans
        (stays_vote a _ _ _ 4 (ce.state.step + 1) ?_)) rfl rfl
      exact (ConsensusState.setStepInRound_round _ _ _).symm
    · exact .of_eq rfl rfl

theorem stays_onSeed (curRound : Int) (msg : MsgSeed) :
    Stays ce (ce.onSeed hashing curRound msg) := by
  unfold onSeed
  dsimp only
  split
  · exact .of_eq rfl rfl
  · exact Stays.after_eq (stays_setSmallestCredInRound _ curRound _) rfl rfl

theorem stays_voteForNextStep (step : Int) (agreeType : ResultType) :
    Stays ce (ce.voteForNextStep a ce.state.round step agreeType) := by
  unfold voteForNextStep
  dsimp only
  split
  · exact .refl ce
  · exact stays_vote a ce _ _ (step + 1) (step + 1) rfl

theorem timers_broadcastMessage (msg : Option Outgoing) :
    (ce.broadcastMessage msg).timers = ce.timers := by
  unfold broadcastMessage
  split <;> rfl

theorem timers_broadcastBBAFinMsg (round step : Int) (b : UInt8) (header : Wire.BlockHeader) :
    (ce.broadcastBBAFinMsg a round step b header).timers = ce.timers := by
  unfold broadcastBBAFinMsg
  dsimp only
  split
  · rfl
  · rw [timers_broadcastMessage, timers_broadcastMessage]
    rfl

/-- The leader's block ends the round only if the block chain accepts it. -/
theorem endWithBlock_cases (curRound step : Int) (v : ByzAgreementValue) :
    Stays ce (ce.endWithBlock hashing a curRound step v) ∨ a.acceptBlock = .accepted ∧ ∃ block,
        ce.recvData.receivedBlock curRound v.blockHash = some block ∧
          Enters ce (block.header.height - 1) (ce.endWithBlock hashing a curRound step v) := by
  unfold endWithBlock
  split
  · split
    · rename_i block isStored
      split
      · rename_i accepted
        refine Or.inr ⟨accepted, block, isStored, ?_⟩
        exact (enters_startNewRound hashing a _ block.header).of_timers_eq
          (timers_broadcastBBAFinMsg a _ _ _ _ _)
      · exact Or.inl (.refl ce)
      · exact Or.inl (stays_maybeBehind ce)
    · exact Or.inl (stays_maybeBehind ce)
  · exact Or.inl (stays_maybeBehind ce)

theorem endWithEmptyBlock_cases (curRound step : Int) :
    Stays ce (ce.endWithEmptyBlock hashing a curRound step) ∨
      Enters ce (curRound + 1) (ce.endWithEmptyBlock hashing a curRound step) := by
  unfold endWithEmptyBlock
  split
  · exact Or.inl (.refl ce)
  · rename_i header height _
    have entered := (enters_startNewRound hashing a _ header).of_timers_eq
      (timers_broadcastBBAFinMsg a (ce.accept curRound (.empty header)) curRound step 1 header)
    rw [height, show curRound + 2 - 1 = curRound + 1 by omega] at entered
    exact Or.inr (entered.of_timers_eq rfl)

theorem stays_onTimeout (round step : Int) : Stays ce (ce.onTimeout a round step) := by
  unfold onTimeout
  split
  · exact .refl ce
  · rename_i current
    split
    · exact stays_broadcastMessage ce _
    · split
      · split
        · exact .refl ce
        · exact stays_gradecast a ce _ (not_not.mp current)
      · exact .refl ce

theorem stays_onGCLastStepTimeout (round step : Int) :
    Stays ce (ce.onGCLastStepTimeout a round step) := by
  unfold onGCLastStepTimeout
  split
  · rename_i current
    exact Stays.after_eq (stays_vote a _ 1 _ step (step + 1) current.1.symm) rfl rfl
  · exact .refl ce

theorem stays_onBBATimeoutForNextStep (round step : Int) :
    Stays ce (ce.onBBATimeoutForNextStep a round step) := by
  unfold onBBATimeoutForNextStep
  split
  · rename_i current
    split
    · exact .refl ce
    · exact stays_vote a ce _ _ step (step + 1) current.1.symm
  · exact .refl ce

theorem onBinaryBA_cases (curRound : Int) (msg : MsgBinaryBA)
    (current : curRound = ce.state.round) :
    Stays ce (ce.onBinaryBA hashing a curRound msg) ∨ (a.acceptBlock = .accepted ∧ ∃ block,
        ce.recvData.receivedBlock curRound (countedValue msg).blockHash = some block ∧
          Enters ce (block.header.height - 1) (ce.onBinaryBA hashing a curRound msg)) ∨
      Enters ce (curRound + 1) (ce.onBinaryBA hashing a curRound msg) := by
  subst current
  unfold onBinaryBA
  dsimp only
  split
  · exact Or.inl (.of_eq rfl rfl)
  · split
    · exact Or.inl (.of_eq rfl rfl)
    · split
      · rcases endWithBlock_cases hashing a { ce with bbaVoter := _ } ce.state.round msg.step
          (countedValue msg) with stays | ⟨accepted, block, isStored, enters⟩
        · exact Or.inl (stays.after_eq rfl rfl)
        · exact Or.inr (Or.inl ⟨accepted, block, isStored, enters.of_timers_eq rfl⟩)
      · split
        · rcases endWithEmptyBlock_cases hashing a { ce with bbaVoter := _ } ce.state.round
            msg.step with stays | enters
          · exact Or.inl (stays.after_eq rfl rfl)
          · exact Or.inr (Or.inr (enters.of_timers_eq rfl))
        · split
          · exact Or.inl (.of_eq rfl rfl)
          · exact Or.inl (Stays.after_eq (stays_voteForNextStep a _ msg.step _) rfl rfl)

/-- A confirmation makes the executor enter the round of its header, whether or not the
block is accepted, or the round after it. -/
theorem onMsgBlockConfirmationInShardPreparation_cases
    (curRound : Int) (msg : MsgBlockConfirmation) :
    ce.onMsgBlockConfirmationInShardPreparation hashing a curRound msg = ce ∨
      Enters ce (msg.header.height - 2)
        (ce.onMsgBlockConfirmationInShardPreparation hashing a curRound msg) ∨
      Enters ce (msg.header.height - 1)
        (ce.onMsgBlockConfirmationInShardPreparation hashing a curRound msg) := by
  unfold onMsgBlockConfirmationInShardPreparation
  dsimp only
  rw [show msg.header.height - 1 - 1 = msg.header.height - 2 by omega]
  split
  · exact Or.inl rfl
  · refine Or.inr ?_
    have entered := enters_setCurrentRound a ce (msg.header.height - 2)
    split
    · exact Or.inl entered
    · split
      · exact Or.inr ((enters_startNewRound hashing a _ msg.header).of_timers_eq rfl)
      · exact Or.inl { entered with }

end Handlers

/-! ### Runs -/

/-- The second executor is in a later round, or in the same one and not in an earlier
step. -/
def Later (before after : Executor) : Prop :=
  before.state.round < after.state.round ∨
    before.state.round = after.state.round ∧ before.state.step ≤ after.state.step

/-- No timeout is from a later round, and while the shard is not enabled the executor
waits in the first step for a timeout of no kind. -/
structure Standing (ce : Executor) : Prop where
  timers_le : ∀ timer ∈ ce.timers, timer.round ≤ ce.state.round
  waits : ce.state.shardStatus ≠ .shardEnabled →
    ce.state.step ≤ 1 ∧ ∀ timer ∈ ce.timers, timer.round < ce.state.round

/-- The executor may enter a round. -/
def MayEnter (ce : Executor) (round : Int) : Prop :=
  ce.state.round < round ∨ ce.state.round = round ∧ ce.state.shardStatus ≠ .shardEnabled

section Runs

variable {first second third : Executor} {round : Int}

theorem Later.refl (ce : Executor) : Later ce ce := Or.inr ⟨rfl, le_rfl⟩

theorem Later.trans (later : Later first second) (laterToo : Later second third) :
    Later first third := by
  unfold Later at *
  omega

theorem Stays.later (stays : Stays first second) : Later first second :=
  Or.inr ⟨stays.round_eq.symm, stays.step_le⟩

theorem Standing.enters (standing : first.Standing) (mayEnter : first.MayEnter round)
    (enters : Enters first round second) : second.Standing ∧ Later first second := by
  have notLater : first.state.round ≤ round := by
    rcases mayEnter with forward | ⟨same, _⟩ <;> omega
  have oldTimers : ∀ timer ∈ first.timers, timer.round ≤ round := fun timer inTimers =>
    (standing.timers_le timer inTimers).trans notLater
  refine ⟨⟨?_, ?_⟩, ?_⟩
  · intro timer inTimers
    rw [enters.round_eq]
    rcases enters.timers timer inTimers with old | new
    · exact oldTimers timer old
    · exact new.le
  · intro notEnabled
    obtain ⟨firstStep, sameTimers⟩ := enters.waits notEnabled
    refine ⟨firstStep.le, fun timer inTimers => ?_⟩
    rw [enters.round_eq]
    have old := sameTimers timer inTimers
    rcases mayEnter with forward | ⟨same, waiting⟩
    · exact (standing.timers_le timer old).trans_lt forward
    · rw [← same]
      exact (standing.waits waiting).2 timer old
  · rcases mayEnter with forward | ⟨same, waiting⟩
    · exact Or.inl (forward.trans_eq enters.round_eq.symm)
    · refine Or.inr ⟨same.trans enters.round_eq.symm, ?_⟩
      exact (standing.waits waiting).1.trans enters.step_pos

/-- While the shard is enabled everything may happen in the round. -/
theorem Standing.stays (standing : first.Standing)
    (enabled : first.state.shardStatus = .shardEnabled)
    (stays : Stays first second) : second.Standing ∧ Later first second := by
  refine ⟨⟨?_, ?_⟩, stays.later⟩
  · intro timer inTimers
    rw [stays.round_eq]
    rcases stays.timers timer inTimers with old | new
    · exact standing.timers_le timer old
    · exact new.le
  · intro notEnabled
    exact absurd (stays.status_eq.trans enabled) notEnabled

/-- A change that may enable the shard. -/
theorem Standing.of_eq (standing : first.Standing)
    (roundEqual : second.state.round = first.state.round)
    (stepEqual : second.state.step = first.state.step) (timersEqual : second.timers = first.timers)
    (status : second.state.shardStatus = first.state.shardStatus ∨
      second.state.shardStatus = .shardEnabled) : second.Standing ∧ Later first second := by
  refine ⟨⟨?_, ?_⟩, Or.inr ⟨roundEqual.symm, stepEqual.ge⟩⟩
  · rw [timersEqual, roundEqual]
    exact standing.timers_le
  · intro notEnabled
    rw [timersEqual, roundEqual, stepEqual]
    rcases status with same | enabled
    · exact standing.waits (same ▸ notEnabled)
    · exact absurd enabled notEnabled

/-- A timeout is registered again. -/
theorem Standing.onTimeOut (standing : first.Standing) {timer : Timer}
    (notLater : timer.round ≤ first.state.round)
    (past : first.state.shardStatus ≠ .shardEnabled → timer.round < first.state.round) :
    (first.onTimeOut timer).Standing where
  timers_le := by
    intro other inTimers
    rcases List.mem_append.mp inTimers with old | new
    · exact standing.timers_le other old
    · rw [List.mem_singleton.mp new]
      exact notLater
  waits := by
    intro notEnabled
    refine ⟨(standing.waits notEnabled).1, fun other inTimers => ?_⟩
    rcases List.mem_append.mp inTimers with old | new
    · exact (standing.waits notEnabled).2 other old
    · rw [List.mem_singleton.mp new]
      exact past notEnabled

end Runs

/-- The headers that an event makes the executor follow are not from the past: a block
that is accepted for the round has at least the height of the round, and a confirmation
is for a round not after that of its header. -/
def Forward (a : Answers) (ce : Executor) : Event → Prop
  | .receive (.binaryBA message) =>
    a.acceptBlock = .accepted → ∀ block,
      ce.recvData.receivedBlock ce.state.round (countedValue message).blockHash = some block →
        ce.state.round + 2 ≤ block.header.height
  | .receive (.blockConfirmation message) => message.round ≤ message.header.height - 2
  | _ => True

section Events

variable (hashing : Hashing) (a : Answers) (ce : Executor)

theorem status_of_handleMsg {msg : Message}
    (valid : ce.isStateValid msg = .handleMsg) : ce.state.shardStatus = .shardEnabled := by
  unfold isStateValid at valid
  split_ifs at valid with outdated early
  cases status : ce.state.shardStatus with
  | shardEnabled => rfl
  | shardDisabled => exact absurd (Or.inr status) outdated
  | shardPreparation => exact absurd (Or.inr status) early

/-- A message that is not handled at once is for a later round, or for this one while the
shard is in preparation. -/
theorem mayEnter_of_handleOtherStateMsg {msg : Message}
    (valid : ce.isStateValid msg = .handleOtherStateMsg) : ce.MayEnter msg.round := by
  unfold isStateValid at valid
  split_ifs at valid with outdated early
  have notOutdated : ce.state.round ≤ msg.round :=
    not_lt.mp fun isOutdated => outdated (Or.inl isOutdated)
  rcases notOutdated.lt_or_eq with later | same
  · exact Or.inl later
  · refine Or.inr ⟨same, fun enabled => ?_⟩
    rcases early with later | preparation
    · omega
    · rw [enabled] at preparation
      cases preparation

theorem standing_handleNewMessage (standing : ce.Standing) (msg : Message)
    (valid : ce.isStateValid msg = .handleMsg) (forward : ce.Forward a (.receive msg)) :
    (ce.handleNewMessage hashing a ce.state.round msg).Standing ∧
      Later ce (ce.handleNewMessage hashing a ce.state.round msg) := by
  have enabled := ce.status_of_handleMsg valid
  cases msg with
  | leaderProposal proposal =>
    exact standing.stays enabled (stays_onReceiveLeaderProposal hashing a ce _ proposal)
  | leaderVote vote => exact standing.stays enabled (stays_onReceiveLeaderVote a ce vote)
  | gc gradecast => exact standing.stays enabled (stays_onGCMessage a ce gradecast)
  | binaryBA vote =>
    rcases onBinaryBA_cases hashing a ce ce.state.round vote rfl with
      stays | ⟨accepted, block, isStored, enters⟩ | enters
    · exact standing.stays enabled stays
    · have height := forward accepted block isStored
      exact standing.enters (Or.inl (by omega)) enters
    · exact standing.enters (Or.inl (Int.lt_succ _)) enters
  | seed seed => exact standing.stays enabled (stays_onSeed hashing ce _ seed)
  | blockConfirmation => exact ⟨standing, .refl ce⟩

theorem standing_handleOtherStateMessage (standing : ce.Standing) (msg : Message)
    (valid : ce.isStateValid msg = .handleOtherStateMsg) (forward : ce.Forward a (.receive msg)) :
    (ce.handleOtherStateMessage hashing a ce.state.round msg).Standing ∧
      Later ce (ce.handleOtherStateMessage hashing a ce.state.round msg) := by
  cases msg with
  | leaderProposal | leaderVote | gc | binaryBA | seed =>
    exact standing.of_eq rfl rfl rfl (Or.inl rfl)
  | blockConfirmation confirmation =>
    have mayEnter : ce.MayEnter confirmation.round := ce.mayEnter_of_handleOtherStateMsg valid
    have notPast : confirmation.round ≤ confirmation.header.height - 2 := forward
    rcases onMsgBlockConfirmationInShardPreparation_cases hashing a ce ce.state.round
        confirmation with unchanged | enters | enters
    · rw [handleOtherStateMessage, unchanged]
      exact ⟨standing, .refl ce⟩
    · refine standing.enters ?_ enters
      rcases notPast.lt_or_eq with later | same
      · rcases mayEnter with forward | ⟨sameRound, _⟩
        · exact Or.inl (by omega)
        · exact Or.inl (by omega)
      · rwa [← same]
    · refine standing.enters (Or.inl ?_) enters
      rcases mayEnter with forward | ⟨sameRound, _⟩ <;> omega

theorem onTimeout_of_ne {round : Int} (step : Int) (notCurrent : round ≠ ce.state.round) :
    ce.onTimeout a round step = ce := if_pos notCurrent

/-- A timeout of an earlier round does nothing but wait for the next tick. -/
theorem standing_fire (standing : ce.Standing) {timer : Timer}
    (notLater : timer.round ≤ ce.state.round)
    (past : ce.state.shardStatus ≠ .shardEnabled → timer.round < ce.state.round) :
    (ce.fire a timer).Standing ∧ Later ce (ce.fire a timer) := by
  by_cases enabled : ce.state.shardStatus = .shardEnabled
  · cases timer with
    | gcStep round step =>
      have stays := stays_onTimeout a ce round step
      obtain ⟨standingAfter, later⟩ := standing.stays enabled stays
      rw [fire]
      split
      · refine ⟨standingAfter.onTimeOut ?_ ?_, later⟩
        · rw [stays.round_eq]
          exact notLater
        · intro notEnabled
          exact absurd (stays.status_eq.trans enabled) notEnabled
      · exact ⟨standingAfter, later⟩
    | gcLastStep round step =>
      exact standing.stays enabled (stays_onGCLastStepTimeout a ce round step)
    | bbaNextStep round step =>
      exact standing.stays enabled (stays_onBBATimeoutForNextStep a ce round step)
  · have old := past enabled
    cases timer with
    | gcStep round step =>
      have unchanged : ce.onTimeout a round step = ce := onTimeout_of_ne a ce step old.ne
      rw [fire, unchanged]
      split
      · exact ⟨standing.onTimeOut notLater past, .refl ce⟩
      · exact ⟨standing, .refl ce⟩
    | gcLastStep round step =>
      have unchanged : ce.fire a (.gcLastStep round step) = ce :=
        if_neg fun current => old.ne current.1.symm
      rw [unchanged]
      exact ⟨standing, .refl ce⟩
    | bbaNextStep round step =>
      have unchanged : ce.fire a (.bbaNextStep round step) = ce :=
        if_neg fun current => old.ne current.1.symm
      rw [unchanged]
      exact ⟨standing, .refl ce⟩

theorem standing_updateShardStatus_enabled (standing : ce.Standing) :
    (ce.updateShardStatus .shardEnabled).Standing ∧ Later ce (ce.updateShardStatus .shardEnabled) :=
  standing.of_eq (ConsensusState.updateShardStatus_round _ _)
    (ConsensusState.updateShardStatus_step _ _) rfl (Or.inr rfl)

/-- One event goes forward. -/
theorem standing_handle (standing : ce.Standing) {event : Event} (enabled : ce.Enabled event)
    (forward : ce.Forward a event) :
    (ce.handle hashing a event).Standing ∧ Later ce (ce.handle hashing a event) := by
  cases event with
  | start =>
    rw [handle, start]
    split
    · rename_i notStarted
      refine standing.enters (Or.inl ?_)
        ((enters_startAtRound hashing a _ ConsensusState.startRound).of_timers_eq rfl)
      have initial : ce.state.round = -1 := notStarted
      rw [initial]
      decide
    · exact standing_updateShardStatus_enabled ce standing
  | updateInShardProof | startConsensusAtRound | stopConsensusAtRound =>
    exact standing.of_eq rfl rfl rfl (Or.inl rfl)
  | initFinished shardHeight =>
    rw [handle, onInitFinished]
    split
    · rename_i disabled
      split
      · exact standing_updateShardStatus_enabled ce standing
      · split
        · exact ⟨standing, .refl ce⟩
        · rename_i notOutdated
          refine standing.enters ?_ ((enters_setCurrentRound a
            (ce.updateShardStatus .shardPreparation) (shardHeight - 1)).of_timers_eq rfl)
          rcases (not_lt.mp notOutdated).lt_or_eq with later | same
          · exact Or.inl later
          · refine Or.inr ⟨same, ?_⟩
            rw [disabled]
            decide
    · exact ⟨standing, .refl ce⟩
  | receive msg =>
    rw [handle, dispatchHandleMessage, msgFilter]
    split
    · exact ⟨standing, .refl ce⟩
    · rename_i handled
      split at handled
      · exact standing_handleNewMessage hashing a ce standing msg handled forward
      · cases handled
    · rename_i handled
      split at handled
      · exact standing_handleOtherStateMessage hashing a ce standing msg handled forward
      · cases handled
  | timeout timer =>
    have standingBefore : ({ ce with timers := ce.timers.erase timer } : Executor).Standing := by
      refine ⟨fun other inTimers => ?_, fun notEnabled => ?_⟩
      · exact standing.timers_le other (List.mem_of_mem_erase inTimers)
      · refine ⟨(standing.waits notEnabled).1, fun other inTimers => ?_⟩
        exact (standing.waits notEnabled).2 other (List.mem_of_mem_erase inTimers)
    obtain ⟨standingAfter, later⟩ := standing_fire a _ standingBefore
      (standing.timers_le timer enabled) fun notEnabled =>
        (standing.waits notEnabled).2 timer enabled
    exact ⟨standingAfter, later⟩

/-- A step in which no header is from the past. -/
def MovesForward (before after : Executor) : Prop :=
  ∃ a event, before.Enabled event ∧ before.Forward a event ∧ after = before.handle hashing a event

theorem standing_of_run {first last : Executor}
    (standing : first.Standing) (run : Relation.ReflTransGen (MovesForward hashing) first last) :
    last.Standing ∧ Later first last := by
  induction run with
  | refl => exact ⟨standing, .refl first⟩
  | tail _ move ih =>
    obtain ⟨standingBetween, laterBetween⟩ := ih
    obtain ⟨a, event, enabled, forward, rfl⟩ := move
    obtain ⟨standingLast, laterLast⟩ := standing_handle hashing a _ standingBetween enabled forward
    exact ⟨standingLast, laterBetween.trans laterLast⟩

theorem standing_new (shardIndex : Wire.ShardIndex) (pk : PkKey) (voteThreshold : Int) :
    (Executor.new shardIndex pk voteThreshold).Standing where
  timers_le := nofun
  waits := fun _ => ⟨Int.zero_le_ofNat 1, nofun⟩

end Events

end Executor

/-- In a run of an executor in which no header is from the past, the round never falls,
and the step never falls within a round. -/
theorem round_and_step_go_forward (hashing : Hashing) (shardIndex : Wire.ShardIndex) (pk : PkKey)
    (voteThreshold : Int) {between last : Executor}
    (reached : Relation.ReflTransGen (Executor.MovesForward hashing)
      (Executor.new shardIndex pk voteThreshold) between)
    (run : Relation.ReflTransGen (Executor.MovesForward hashing) between last) :
    between.state.round ≤ last.state.round ∧
      (between.state.round = last.state.round → between.state.step ≤ last.state.step) := by
  have standing := (Executor.standing_of_run hashing
    (Executor.standing_new shardIndex pk voteThreshold) reached).1
  rcases (Executor.standing_of_run hashing standing run).2 with later | ⟨same, step⟩
  · exact ⟨later.le, fun same => absurd same later.ne⟩
  · exact ⟨same.le, fun _ => step⟩

/-- The vote as it is read from the wire. -/
def MsgBinaryBA.read (message : MsgBinaryBA) : ReadBinaryBAFin where
  inShardProof := message.inShardProof
  signedCredentialWithBA := some ⟨message.pk.bytes, message.signedCredentialWithBA.signature,
      ⟨none, some message.signedCredentialWithBA.message, none⟩⟩

/-- The confirmation as it is read from the wire. -/
def MsgBlockConfirmation.read (message : MsgBlockConfirmation) : ReadBlockConfirmation where
  shardIndex := message.shardIndex
  round := message.round
  step := message.step
  v := message.v
  header := some message.header
  confirms := message.confirms.map MsgBinaryBA.read

namespace Example

/-- Answers of a block chain that accepts no empty block. -/
def refusing : Answers :=
  { answers 2 with proposeAndAcceptEmptyBlock := fun _ => none }

/-- A confirmation of an empty block, with one vote. -/
def emptyConfirmation (round height : Int) : MsgBlockConfirmation where
  shardIndex := 0
  round := round
  step := 4
  v := .empty
  header := { (default : Wire.BlockHeader) with height := height, isEmptyBlock := true }
  confirms := [⟨[], ⟨Bytes32.fill 2, [], ⟨0, round, 4, 1, .empty⟩⟩⟩]

/-- An executor in preparation, in round five. -/
def inPreparation : Executor :=
  (Executor.new 0 (Bytes32.fill 1) 2).handleAll hashing [(refusing, .initFinished 6)]

end Example

open Example in
/-- A confirmation that starts a round. -/
theorem round_and_step_go_forward_inPreparation :
    let last := inPreparation.handle hashing refusing
      (.receive (.blockConfirmation (emptyConfirmation 6 8)))
    inPreparation.state.round = 5 ∧ last.state.round = 6 ∧
      inPreparation.state.round ≤ last.state.round := by
  have reached : Relation.ReflTransGen (Executor.MovesForward hashing)
      (Executor.new 0 (Bytes32.fill 1) 2) inPreparation :=
    .single ⟨refusing, .initFinished 6, trivial, trivial, rfl⟩
  have run : Relation.ReflTransGen (Executor.MovesForward hashing) inPreparation
      (inPreparation.handle hashing refusing
        (.receive (.blockConfirmation (emptyConfirmation 6 8)))) :=
    .single ⟨refusing, .receive (.blockConfirmation (emptyConfirmation 6 8)), trivial,
      (by decide : (6 : Int) ≤ 8 - 2), rfl⟩
  exact ⟨by decide, by decide, (round_and_step_go_forward hashing 0 _ 2 reached run).1⟩

open Example in
/-- A confirmation for round nine under the header of an empty block of height two is
valid, and makes an executor in preparation fall from round five to round zero. -/
theorem round_falls_on_confirmation :
    (∀ curve, (emptyConfirmation 9 2).read.isValidated curve = .ok ()) ∧
      Relation.ReflTransGen (Executor.Moves hashing) (Executor.new 0 (Bytes32.fill 1) 2)
        inPreparation ∧
      inPreparation.state.round = 5 ∧
      (inPreparation.handle hashing refusing
        (.receive (.blockConfirmation (emptyConfirmation 9 2)))).state.round = 0 := by
  refine ⟨fun curve => ?_, ?_, by decide, by decide⟩
  · have hashed : (fun _ => ()) <$>
        Ledger.HeaderStore.blockHeaderHash (emptyConfirmation 9 2).header = .ok () := by
      decide +kernel
    obtain ⟨hash, isHash, _⟩ := Lib.map_eq_ok.mp hashed
    exact ReadBlockConfirmation.isValidated_eq_ok_iff.mpr ⟨_, hash, rfl, isHash, .inl rfl⟩
  · exact Executor.reflTransGen_handleAll hashing _ [(refusing, .initFinished 6)] ⟨trivial, trivial⟩

end MultiVac.Consensus
