import MultiVac.Consensus.Progress
import MultiVac.Lib.Buckets

/-!
# Early messages

What becomes of a vote that arrives before its round. Handlers do not read the pending
messages, so two runs that differ only in these do the same; and when the round starts,
its pending votes are put on the queue in the order of their steps. Early seeds and
proposals are not put on the queue.
-/

namespace MultiVac.Consensus
namespace Executor

/-- The executor with other pending and queued messages. -/
def withPending (ce : Executor) (pendData : PendingData) (msgQueue : List Message) : Executor :=
  { ce with pendData := pendData, msgQueue := msgQueue }

/-! ### Handlers that leave the pending messages alone -/

/-- A handler neither reads nor changes the pending messages and the queue. -/
def Keeps (handler : Executor → Executor) : Prop :=
  ∀ ce pendData msgQueue, handler (ce.withPending pendData msgQueue) =
    (handler ce).withPending pendData msgQueue

section Frames

variable (hashing : Hashing) (a : Answers) (ce : Executor)
  (pendData : PendingData) (msgQueue : List Message)

@[simp]
theorem withPending_state : (ce.withPending pendData msgQueue).state = ce.state := rfl

@[simp]
theorem withPending_bbaVoter : (ce.withPending pendData msgQueue).bbaVoter = ce.bbaVoter := rfl

@[simp]
theorem withPending_recvData : (ce.withPending pendData msgQueue).recvData = ce.recvData := rfl

theorem keeps_broadcastMessage (msg : Option Outgoing) : Keeps (·.broadcastMessage msg) := by
  intro ce pendData msgQueue
  cases msg <;> rfl

theorem keeps_setRoundSeed (round : Int) (seed : Hash) : Keeps (·.setRoundSeed round seed) := by
  intro ce pendData msgQueue
  simp only [setRoundSeed, withPending_state]
  split <;> rfl

theorem keeps_broadcastVote (b : UInt8) (v : ByzAgreementValue) (curRound finStep : Int) :
    Keeps (·.broadcastVote a b v curRound finStep) :=
  fun ce pendData msgQueue => keeps_broadcastMessage _ ce pendData msgQueue

theorem keeps_broadcastGC (val : ByzAgreementValue) (round : Int) :
    Keeps (·.broadcastGC a val round) :=
  fun ce pendData msgQueue => keeps_broadcastMessage _ ce pendData msgQueue

theorem keeps_broadcastProposal (round : Int) (lastSeedSig : Bytes) (seed : Hash)
    (block : Wire.MsgBlock) (signedHash : Bytes) :
    Keeps (·.broadcastProposal hashing a round lastSeedSig seed block signedHash) := by
  intro ce pendData msgQueue
  beta_reduce
  have skips : (ce.withPending pendData msgQueue).shouldSkipProposal seed =
      ce.shouldSkipProposal seed := rfl
  unfold broadcastProposal signed
  rw [skips]
  split
  · rfl
  · cases a.sign (.credential ⟨round, 1⟩) <;> rfl

theorem keeps_propose (round : Int) (lastSeedSig : Bytes) (seed : Hash) :
    Keeps (·.propose hashing a round lastSeedSig seed) := by
  intro ce pendData msgQueue
  beta_reduce
  unfold propose
  split
  · rfl
  · dsimp only
    rw [show ∀ block, (ce.withPending pendData msgQueue).signBlock hashing a block =
      ce.signBlock hashing a block from fun _ => rfl]
    split
    · rfl
    · split
      · rfl
      · exact congrArg (setNextStepInRound · round 2)
          (keeps_broadcastProposal hashing a round lastSeedSig seed _ _ ce pendData msgQueue)

theorem keeps_enterRound (round : Int) : Keeps (·.enterRound hashing a round) := by
  intro ce pendData msgQueue
  beta_reduce
  unfold enterRound
  rw [withPending_state]
  split
  · rfl
  · split
    · rfl
    · have started : ((ce.withPending pendData msgQueue).onTimeOut (.gcStep round 1)).setCurrentRound
          a round = ((ce.onTimeOut (.gcStep round 1)).setCurrentRound a round).withPending pendData
            msgQueue := rfl
      dsimp only
      rw [started, withPending_state]
      split
      · rfl
      · split
        · exact keeps_propose hashing a round _ _ _ pendData msgQueue
        · rfl

theorem startAtRound_withPending (round : Int) :
    (ce.withPending pendData msgQueue).startAtRound hashing a round =
      (ce.startAtRound hashing a round).withPending (pendData.deletePendingMsg round)
        (msgQueue ++ pendData.replay round) := by
  rw [startAtRound]
  exact congrArg (replayAndClean · round) (keeps_enterRound hashing a round ce pendData msgQueue)

theorem keeps_onReceiveLeaderProposal (curRound : Int) (msg : LeaderProposalMessage) :
    Keeps (·.onReceiveLeaderProposal hashing a curRound msg) := by
  intro ce pendData msgQueue
  unfold onReceiveLeaderProposal shouldSkipProposal withPending
  dsimp only
  split_ifs <;> rfl

theorem keeps_onSeed (curRound : Int) (msg : MsgSeed) :
    Keeps (·.onSeed hashing curRound msg) := by
  intro ce pendData msgQueue
  unfold onSeed cacheSeed shouldSkipProposal withPending
  dsimp only
  split_ifs <;> rfl

theorem keeps_onReceiveLeaderVote (curRound : Int) (msg : LeaderVoteMessage) :
    Keeps (·.onReceiveLeaderVote a curRound msg) := by
  intro ce pendData msgQueue
  have gradecasts := fun voter val => keeps_broadcastGC a val curRound
    { ce with gcCommitVoter := voter } pendData msgQueue
  unfold onReceiveLeaderVote withPending at *
  dsimp only at *
  split_ifs
  · rfl
  · rfl
  · split
    · rw [gradecasts]
      rfl
    · rfl
  · rfl

/-- Voting in a step and waiting for the next one. -/
theorem keeps_vote (b : UInt8) (v : ByzAgreementValue) (round step next : Int) (timer : Timer) :
    Keeps fun ce => ((ce.setNextStepInRound round next).broadcastVote a b v round step).onTimeOut
      timer :=
  fun ce pendData msgQueue => congrArg (onTimeOut · timer)
    (keeps_broadcastVote a b v round step (ce.setNextStepInRound round next) pendData msgQueue)

theorem keeps_onGCMessage (curRound : Int) (msg : GCMessage) :
    Keeps (·.onGCMessage a curRound msg) := by
  intro ce pendData msgQueue
  unfold onGCMessage
  dsimp only
  rw [withPending_state, withPending_bbaVoter]
  split
  · rfl
  · split
    · exact keeps_vote a _ _ curRound 4 (ce.state.step + 1) _
        (({ ce with bbaVoter := _ }.setResultValue _ _).setStepInRound curRound 4) pendData msgQueue
    · rfl

theorem keeps_onTimeout (round step : Int) : Keeps (·.onTimeout a round step) := by
  intro ce pendData msgQueue
  beta_reduce
  unfold onTimeout
  rw [withPending_state]
  split
  · rfl
  · split
    · exact keeps_broadcastMessage _ ce pendData msgQueue
    · split
      · split
        · rfl
        · exact congrArg (fun ce => (setStepInRound ce round 4).onTimeOut (.gcLastStep round 4))
            (keeps_broadcastGC a .empty round ce pendData msgQueue)
      · rfl

theorem keeps_onGCLastStepTimeout (round step : Int) :
    Keeps (·.onGCLastStepTimeout a round step) := by
  intro ce pendData msgQueue
  beta_reduce
  unfold onGCLastStepTimeout
  rw [withPending_state, withPending_bbaVoter]
  split
  · exact keeps_vote a 1 _ round step (step + 1) _ (ce.setResultValue round _) pendData msgQueue
  · rfl

theorem keeps_onBBATimeoutForNextStep (round step : Int) :
    Keeps (·.onBBATimeoutForNextStep a round step) := by
  intro ce pendData msgQueue
  beta_reduce
  unfold onBBATimeoutForNextStep
  rw [withPending_state, withPending_bbaVoter]
  split
  · split
    · rfl
    · exact keeps_vote a _ _ round step (step + 1) _ ce pendData msgQueue
  · rfl

theorem keeps_fire (timer : Timer) : Keeps (·.fire a timer) := by
  intro ce pendData msgQueue
  beta_reduce
  cases timer with
  | gcStep round step =>
    have ticks := keeps_onTimeout a round step ce pendData msgQueue
    beta_reduce at ticks
    rw [fire, fire, ticks]
    split <;> rfl
  | gcLastStep round step => exact keeps_onGCLastStepTimeout a round step ce pendData msgQueue
  | bbaNextStep round step => exact keeps_onBBATimeoutForNextStep a round step ce pendData msgQueue

theorem keeps_broadcastBBAFinMsg (round step : Int) (b : UInt8) (header : Wire.BlockHeader) :
    Keeps (·.broadcastBBAFinMsg a round step b header) := by
  intro ce pendData msgQueue
  beta_reduce
  unfold broadcastBBAFinMsg
  rw [withPending_bbaVoter]
  dsimp only
  split
  · rfl
  · exact keeps_broadcastMessage _ ((ce.setNextStepInRound round (step + 1)).broadcastMessage
      (some (.blockHeader header))) pendData msgQueue

theorem keeps_voteForNextStep (curRound step : Int) (agreeType : ResultType) :
    Keeps (·.voteForNextStep a curRound step agreeType) := by
  intro ce pendData msgQueue
  beta_reduce
  unfold voteForNextStep
  rw [withPending_bbaVoter]
  dsimp only
  split
  · rfl
  · exact keeps_vote a _ _ curRound (step + 1) (step + 1) _ ce pendData msgQueue

theorem keeps_onInitFinished (shardHeight : Int) : Keeps (·.onInitFinished a shardHeight) := by
  intro ce pendData msgQueue
  beta_reduce
  unfold onInitFinished
  rw [withPending_state]
  split
  · split
    · rfl
    · split <;> rfl
  · rfl

theorem keeps_maybeBehind : Keeps maybeBehind := by
  intro ce pendData msgQueue
  unfold maybeBehind
  rw [withPending_state]
  split <;> rfl

end Frames

/-! ### What an event does to the pending messages -/

/-- What a handler does to the pending messages and to the queue. -/
inductive Touch where
  | keep
  /-- `saveMsg` of a message that is not for the current round. -/
  | save (message : Message)
  /-- `replayPendingMessage` and `deletePendingMsg` at the start of a round. -/
  | start (round : Int)

/-- The pending messages after a handler. -/
def Touch.pendData : Touch → PendingData → PendingData
  | keep, pendData => pendData
  | save message, pendData => pendData.saveMsg message.round message.step message
  | start round, pendData => pendData.deletePendingMsg round

/-- The queue after a handler. -/
def Touch.msgQueue : Touch → PendingData → List Message → List Message
  | start round, pendData, msgQueue => msgQueue ++ pendData.replay round
  | _, _, msgQueue => msgQueue

/-- A handler reads neither the pending messages nor the queue, and changes them in one
way. -/
def Touches (touch : Touch) (handler : Executor → Executor) (ce : Executor) : Prop :=
  ∀ pendData msgQueue, handler (ce.withPending pendData msgQueue) =
    (handler ce).withPending (touch.pendData pendData) (touch.msgQueue pendData msgQueue)

/-- A handler saves no message, and puts messages on the queue only for the round it
starts. -/
def Replays (handler : Executor → Executor) (ce : Executor) : Prop :=
  Touches .keep handler ce ∨
    ∃ round, Touches (.start round) handler ce ∧ (handler ce).state.round = round

section Touches

variable (hashing : Hashing) (a : Answers) (ce : Executor)

theorem replays_startAtRound (round : Int) :
    Replays (fun ce => ce.startAtRound hashing a round) ce :=
  Or.inr ⟨round, fun pendData msgQueue => startAtRound_withPending hashing a ce pendData msgQueue
    round, (enters_startAtRound hashing a ce round).round_eq⟩

variable {handler : Executor → Executor}

/-- A step that leaves the pending messages alone, and then a handler. -/
theorem Replays.after {step : Executor → Executor} (kept : Touches .keep step ce)
    (replays : Replays handler (step ce)) : Replays (fun ce => handler (step ce)) ce := by
  have through (touch : Touch) (touches : Touches touch handler (step ce)) :
      Touches touch (fun ce => handler (step ce)) ce := by
    intro pendData msgQueue
    dsimp only
    rw [kept pendData msgQueue]
    exact touches pendData msgQueue
  rcases replays with touches | ⟨round, touches, roundEqual⟩
  · exact Or.inl (through .keep touches)
  · exact Or.inr ⟨round, through (.start round) touches, roundEqual⟩

/-- A handler that does the same as another one, whatever is pending. -/
theorem Replays.congr {other : Executor → Executor} (same : ∀ pendData msgQueue,
      handler (ce.withPending pendData msgQueue) = other (ce.withPending pendData msgQueue))
    (replays : Replays other ce) : Replays handler ce := by
  have sameHere : handler ce = other ce := same ce.pendData ce.msgQueue
  rcases replays with touches | ⟨round, touches, roundEqual⟩
  · refine Or.inl fun pendData msgQueue => ?_
    rw [same, sameHere]
    exact touches pendData msgQueue
  · refine Or.inr ⟨round, fun pendData msgQueue => ?_, ?_⟩
    · rw [same, sameHere]
      exact touches pendData msgQueue
    · rw [sameHere]
      exact roundEqual

theorem Keeps.replays (keeps : Keeps handler) : Replays handler ce := Or.inl (keeps ce)

theorem replays_startNewRound (header : Wire.BlockHeader) :
    Replays (·.startNewRound hashing a header) ce :=
  @Replays.after ce _
    (·.setRoundSeed (header.height - 2) header.seed)
    (fun _ _ => keeps_setRoundSeed _ _ _ _ _) (replays_startAtRound hashing a _ (header.height - 2 + 1))

/-- The block chain accepts a block, and the next round starts. -/
theorem replays_accept (curRound step : Int) (b : UInt8) (block : AcceptedBlock)
    (header : Wire.BlockHeader) :
    Replays (fun ce => ((ce.accept curRound block).broadcastBBAFinMsg a curRound step b
      header).startNewRound hashing a header) ce :=
  @Replays.after ce _ (fun ce => (ce.accept curRound block).broadcastBBAFinMsg a curRound step b header)
    (fun pendData msgQueue => keeps_broadcastBBAFinMsg a curRound step b header
      (ce.accept curRound block) pendData msgQueue)
    (replays_startNewRound hashing a _ header)

theorem replays_id : Replays id ce := Or.inl fun _ _ => rfl

theorem replays_endWithBlock (curRound step : Int) (v : ByzAgreementValue) :
    Replays (·.endWithBlock hashing a curRound step v) ce := by
  have behind := keeps_maybeBehind.replays ce
  simp only [Replays, Touches, endWithBlock, withPending_recvData]
  by_cases ready : (ce.recvData.receivedSeed curRound v.leader).isSome ∨ v.blockHash = Bytes32.zero
  · simp only [ready, if_true]
    cases ce.recvData.receivedBlock curRound v.blockHash with
    | none => exact behind
    | some block =>
      cases a.acceptBlock with
      | accepted => exact replays_accept hashing a ce curRound step 0 (.leader block) block.header
      | mayHaveBeenAccepted => exact replays_id ce
      | failed => exact behind
  · simp only [ready, if_false]
    exact behind

theorem replays_endWithEmptyBlock (curRound step : Int) :
    Replays (·.endWithEmptyBlock hashing a curRound step) ce := by
  simp only [Replays, Touches, endWithEmptyBlock]
  cases a.proposeAndAcceptEmptyBlock (curRound + 2) with
  | none => exact replays_id ce
  | some header => exact replays_accept hashing a ce curRound step 1 (.empty header.1) header.1

theorem replays_onBinaryBA (curRound : Int) (msg : MsgBinaryBA) :
    Replays (·.onBinaryBA hashing a curRound msg) ce := by
  cases counted : ce.bbaVoter.addVoteWithBBAMsg msg.round msg.step msg.b
      (countedValue msg) msg with
  | mk voter report =>
  have withVoter : Touches .keep (fun ce => { ce with bbaVoter := voter }) ce := fun _ _ => rfl
  simp only [Replays, Touches, onBinaryBA, withPending_bbaVoter, withPending_state, counted]
  cases report.key with
  | none => exact Or.inl withVoter
  | some key =>
    by_cases broadcast : report.haveBroadcast = true
    · simp only [if_pos broadcast]
      exact Or.inl withVoter
    by_cases ends : (key.step - 1).tmod 3 = 0 ∧ report.agreeType = .totalAgreeOnZero
    · simp only [if_neg broadcast, if_pos ends]
      exact Replays.after ce withVoter
        (replays_endWithBlock hashing a _ curRound msg.step (countedValue msg))
    by_cases endsEmpty : bbaMaxStep < ce.state.step ∨
        (key.step - 1).tmod 3 = 1 ∧ report.agreeType = .agreeOnOne
    · simp only [if_neg broadcast, if_neg ends, if_pos endsEmpty]
      exact Replays.after ce withVoter (replays_endWithEmptyBlock hashing a _ curRound msg.step)
    simp only [if_neg broadcast, if_neg ends, if_neg endsEmpty]
    by_cases final : key.step < 0
    · simp only [if_pos final]
      exact Or.inl withVoter
    · simp only [if_neg final]
      exact Replays.after ce withVoter
        ((keeps_voteForNextStep a curRound msg.step report.agreeType).replays _)

/-- The block that a confirmation makes the block chain accept. -/
def confirmedBlock (message : MsgBlockConfirmation) : Option AcceptedBlock :=
  if message.header.isEmptyBlock then
    (a.proposeAndAcceptEmptyBlock message.header.height).map fun header => .empty header.1
  else
    match ce.recvData.cacheBlockForPrep (hashing.blockHeaderHash message.header) with
    | some block => if a.acceptBlock = .accepted then some (.leader block) else none
    | none => none

/-- What an executor does after the block of a confirmation has been accepted. -/
def followConfirmation (header : Wire.BlockHeader) (block : AcceptedBlock) : Executor :=
  let ce := (ce.setCurrentRound a (header.height - 1 - 1)).accept (header.height - 1 - 1) block
  if ce.state.shardStartRound ≤ header.height - 1 then
    let ce := ce.updateShardStatus .shardEnabled
    { ce with recvData := ce.recvData.cleanCacheBlock }.startNewRound hashing a header
  else ce

theorem onMsgBlockConfirmationInShardPreparation_eq (curRound : Int) (msg : MsgBlockConfirmation) :
    ce.onMsgBlockConfirmationInShardPreparation hashing a curRound msg =
      if curRound = msg.header.height - 1 then ce
      else
        match ce.confirmedBlock hashing a msg with
        | none => ce.setCurrentRound a (msg.header.height - 1 - 1)
        | some block => ce.followConfirmation hashing a msg.header block := rfl

theorem replays_followConfirmation (header : Wire.BlockHeader) (block : AcceptedBlock) :
    Replays (·.followConfirmation hashing a header block) ce := by
  by_cases starts : ce.state.shardStartRound ≤ header.height - 1
  · have enabled : Touches .keep (fun ce =>
        let ce := ((ce.setCurrentRound a (header.height - 1 - 1)).accept (header.height - 1 - 1)
          block).updateShardStatus .shardEnabled
        { ce with recvData := ce.recvData.cleanCacheBlock }) ce := fun _ _ => rfl
    refine Replays.congr ce (fun pendData msgQueue => ?_)
      (.after ce enabled (replays_startNewRound hashing a _ header))
    exact if_pos starts
  · have kept : Touches .keep (fun ce => (ce.setCurrentRound a (header.height - 1 - 1)).accept
        (header.height - 1 - 1) block) ce := fun _ _ => rfl
    refine Replays.congr ce (fun pendData msgQueue => ?_) (Or.inl kept)
    exact if_neg starts

theorem replays_onMsgBlockConfirmationInShardPreparation
    (curRound : Int) (msg : MsgBlockConfirmation) :
    Replays (·.onMsgBlockConfirmationInShardPreparation hashing a curRound msg) ce := by
  have confirmed : ∀ pendData msgQueue,
      (ce.withPending pendData msgQueue).confirmedBlock hashing a msg =
        ce.confirmedBlock hashing a msg := fun _ _ => rfl
  simp only [Replays, Touches, onMsgBlockConfirmationInShardPreparation_eq, confirmed]
  by_cases known : curRound = msg.header.height - 1
  · simp only [if_pos known]
    exact replays_id ce
  · simp only [if_neg known]
    cases ce.confirmedBlock hashing a msg with
    | none => exact Or.inl fun _ _ => rfl
    | some block => exact replays_followConfirmation hashing a ce msg.header block

theorem replays_handleNewMessage (curRound : Int) (msg : Message) :
    Replays (·.handleNewMessage hashing a curRound msg) ce := by
  cases msg with
  | leaderProposal proposal =>
    exact (keeps_onReceiveLeaderProposal hashing a curRound proposal).replays ce
  | leaderVote vote => exact (keeps_onReceiveLeaderVote a curRound vote).replays ce
  | gc gradecast => exact (keeps_onGCMessage a curRound gradecast).replays ce
  | binaryBA vote => exact replays_onBinaryBA hashing a ce curRound vote
  | seed seed => exact (keeps_onSeed hashing curRound seed).replays ce
  | blockConfirmation => exact replays_id ce

end Touches

end Executor

/-- Leader votes, gradecast messages and votes of the agreement. -/
def Message.isVote : Message → Bool
  | leaderVote _ | gc _ | binaryBA _ => true
  | leaderProposal _ | seed _ | blockConfirmation _ => false

namespace Executor

section Events

variable (hashing : Hashing) (a : Answers) (ce : Executor)

theorem touches_handleOtherStateMessage (curRound : Int) (msg : Message) :
    Replays (fun ce => ce.handleOtherStateMessage hashing a curRound msg) ce ∨
      msg.isVote = true ∧
        Touches (.save msg) (fun ce => ce.handleOtherStateMessage hashing a curRound msg)
          ce := by
  cases msg with
  | blockConfirmation confirmation =>
    exact Or.inl (replays_onMsgBlockConfirmationInShardPreparation hashing a ce curRound
      confirmation)
  | seed => exact Or.inl (Or.inl fun _ _ => rfl)
  | leaderProposal => exact Or.inl (Or.inl fun _ _ => rfl)
  | leaderVote | gc | binaryBA => exact Or.inr ⟨rfl, fun _ _ => rfl⟩

/-- An event that saves a message receives a valid vote. -/
theorem touches_handle (event : Event) :
    Replays (·.handle hashing a event) ce ∨
      ∃ msg, event = .receive msg ∧ a.passesFilter = true ∧ msg.isVote = true ∧
        Touches (.save msg) (·.handle hashing a event) ce := by
  have enabled : Touches .keep (·.updateShardStatus .shardEnabled) ce := fun _ _ => rfl
  cases event with
  | start =>
    refine Or.inl ?_
    by_cases initial : ce.state.round = ConsensusState.initialRound
    · refine Replays.congr ce (fun pendData msgQueue => ?_)
        (.after ce enabled (replays_startAtRound hashing a _ ConsensusState.startRound))
      exact if_pos initial
    · refine Replays.congr ce (fun pendData msgQueue => ?_) (Or.inl enabled)
      exact if_neg initial
  | updateInShardProof | startConsensusAtRound | stopConsensusAtRound =>
    exact Or.inl (Or.inl fun _ _ => rfl)
  | initFinished shardHeight => exact Or.inl ((keeps_onInitFinished a shardHeight).replays ce)
  | receive msg =>
    have filtered : ∀ pendData msgQueue,
        (ce.withPending pendData msgQueue).msgFilter a msg = ce.msgFilter a msg :=
      fun _ _ => rfl
    simp only [Replays, Touches, handle, dispatchHandleMessage, filtered, withPending_state]
    cases filter : ce.msgFilter a msg with
    | ignore => exact Or.inl (replays_id ce)
    | handleMsg => exact Or.inl (replays_handleNewMessage hashing a ce ce.state.round msg)
    | handleOtherStateMsg =>
      refine (touches_handleOtherStateMessage hashing a ce ce.state.round msg).imp_right
        fun saved => ⟨msg, rfl, ?_, saved.1, saved.2⟩
      by_contra refused
      rw [msgFilter, if_neg refused] at filter
      cases filter
  | timeout timer =>
    have erased : Touches .keep (fun ce => { ce with timers := ce.timers.erase timer }) ce :=
      fun _ _ => rfl
    exact Or.inl (.after ce erased ((keeps_fire a timer).replays _))

end Events

/-! ### Runs with and without the early votes -/

/-- The valid vote for a round that an event receives. -/
def earlyVote (round : Int) (event : Answers × Event) : Option Message :=
  match event.2 with
  | .receive message =>
    if event.1.passesFilter ∧ message.isVote ∧ message.round = round then some message else none
  | _ => none

/-- The first executor has early votes for a round pending, and the second has none; they
do not differ otherwise. -/
structure HasEarly (round : Int) (early : List Message) (first second : Executor) : Prop where
  same : first = second.withPending first.pendData first.msgQueue
  msgQueue_eq : first.msgQueue = second.msgQueue
  pendingMsg_eq : ∀ other, other ≠ round →
    first.pendData.pendingMsg other = second.pendData.pendingMsg other
  maxStep_eq : ∀ other, other ≠ round →
    first.pendData.pendingMsgMaxStep other = second.pendData.pendingMsgMaxStep other
  early_eq : ∀ step,
    first.pendData.pendingMsg round step = early.filter fun message => message.step = step
  step_le : ∀ message ∈ early, message.step ≤ first.pendData.pendingMsgMaxStep round
  none_pending : ∀ step, second.pendData.pendingMsg round step = []

section HasEarly

variable {hashing : Hashing} {a : Answers} {first second : Executor} {round : Int}
  {early : List Message}

variable {pendData : PendingData}

theorem replay_congr {other : PendingData}
    (messages : pendData.pendingMsg round = other.pendingMsg round)
    (maxStep : pendData.pendingMsgMaxStep round = other.pendingMsgMaxStep round) :
    pendData.replay round = other.replay round := by
  unfold PendingData.replay
  rw [messages, maxStep]

theorem replay_eq_nil
    (nonePending : ∀ step, pendData.pendingMsg round step = []) : pendData.replay round = [] := by
  unfold PendingData.replay
  simp [nonePending]

/-- The votes of a round are replayed in the order of their steps. -/
theorem HasEarly.replay_eq (hasEarly : HasEarly round early first second)
    (inOrder : early.Pairwise fun first second => first.step ≤ second.step)
    (positive : ∀ msg ∈ early, 1 ≤ msg.step) : first.pendData.replay round = early := by
  have buckets : first.pendData.replay round =
      Lib.byKey Message.step (first.pendData.pendingMsgMaxStep round).toNat early := by
    unfold PendingData.replay Lib.byKey
    simp only [hasEarly.early_eq]
  rw [buckets]
  apply Lib.byKey_eq_self inOrder positive
  intro msg inEarly
  have := hasEarly.step_le msg inEarly
  omega

variable {event : Event}

/-- An early vote is saved. -/
theorem handle_of_earlyVote (hashing : Hashing) {msg : Message}
    (isEarly : earlyVote round (a, event) = some msg) (before : first.state.round < round)
    (running : first.state.shardStatus ≠ .shardDisabled) :
    first.handle hashing a event =
      first.withPending (first.pendData.saveMsg round msg.step msg) first.msgQueue := by
  cases event with
  | receive received =>
    obtain ⟨⟨passes, isVote, isRound⟩, isMessage⟩ := Option.ite_none_right_eq_some.mp isEarly
    obtain rfl := Option.some.inj isMessage
    have filter : first.msgFilter a received = .handleOtherStateMsg := by
      rw [msgFilter, if_pos passes, isStateValid, isRound]
      rw [if_neg (not_or.mpr ⟨not_lt.mpr before.le, running⟩), if_pos (Or.inl before)]
    rw [handle, dispatchHandleMessage, filter]
    cases received with
    | leaderVote | gc | binaryBA =>
      subst isRound
      rfl
    | leaderProposal | seed | blockConfirmation => cases isVote
  | start | updateInShardProof | startConsensusAtRound | stopConsensusAtRound | initFinished
  | timeout => cases isEarly

theorem HasEarly.save (hasEarly : HasEarly round early first second) (msg : Message) :
    HasEarly round (early ++ [msg])
      (first.withPending (first.pendData.saveMsg round msg.step msg) first.msgQueue)
      second where
  same := by
    rw [hasEarly.same]
    rfl
  msgQueue_eq := hasEarly.msgQueue_eq
  pendingMsg_eq := by
    intro other different
    rw [← hasEarly.pendingMsg_eq other different]
    exact Function.update_of_ne different _ _
  maxStep_eq := by
    intro other different
    rw [← hasEarly.maxStep_eq other different]
    exact Function.update_of_ne different _ _
  early_eq := by
    intro step
    change Function.update first.pendData.pendingMsg round _ round step = _
    rw [Function.update_self, List.filter_append, ← hasEarly.early_eq]
    by_cases isStep : step = msg.step
    · subst isStep
      simp
    · simp [Function.update_of_ne isStep, Ne.symm isStep]
  step_le := by
    intro other inEarly
    change _ ≤ Function.update first.pendData.pendingMsgMaxStep round _ round
    rw [Function.update_self]
    rcases List.mem_append.mp inEarly with old | new
    · exact (hasEarly.step_le other old).trans (le_max_right _ _)
    · rw [List.mem_singleton.mp new]
      exact le_max_left _ _
  none_pending := hasEarly.none_pending

variable {touch : Touch}

/-- Both executors handle an event in the same way. -/
theorem HasEarly.handle_eq (hasEarly : HasEarly round early first second)
    (touches : Touches touch (fun ce => ce.handle hashing a event) second) :
    first.handle hashing a event =
        (second.handle hashing a event).withPending (touch.pendData first.pendData)
          (touch.msgQueue first.pendData first.msgQueue) ∧
      (second.handle hashing a event).pendData = touch.pendData second.pendData ∧
      (second.handle hashing a event).msgQueue =
        touch.msgQueue second.pendData second.msgQueue := by
  have own : second.handle hashing a event =
      (second.handle hashing a event).withPending (touch.pendData second.pendData)
        (touch.msgQueue second.pendData second.msgQueue) :=
    touches second.pendData second.msgQueue
  refine ⟨?_, congrArg Executor.pendData own, congrArg Executor.msgQueue own⟩
  exact (congrArg (fun ce => ce.handle hashing a event) hasEarly.same).trans
    (touches first.pendData first.msgQueue)

/-- A handler treats the pending messages of a round without regard to others. -/
theorem Touch.pendData_congr (touch : Touch) {other : PendingData}
    (messages : pendData.pendingMsg round = other.pendingMsg round)
    (maxStep : pendData.pendingMsgMaxStep round = other.pendingMsgMaxStep round) :
    (touch.pendData pendData).pendingMsg round = (touch.pendData other).pendingMsg round ∧
      (touch.pendData pendData).pendingMsgMaxStep round =
        (touch.pendData other).pendingMsgMaxStep round := by
  cases touch with
  | keep => exact ⟨messages, maxStep⟩
  | save msg =>
    by_cases isRound : round = msg.round
    · subst isRound
      simp [Touch.pendData, PendingData.saveMsg, messages, maxStep]
    · simp [Touch.pendData, PendingData.saveMsg, messages, maxStep, isRound]
  | start started => simp [Touch.pendData, PendingData.deletePendingMsg, messages, maxStep]

/-- A handler that neither starts a round nor saves a message of it. -/
theorem Touch.pendData_of_others (others : ∀ msg, touch = .save msg → msg.round ≠ round)
    (before : ∀ other, touch = .start other → other < round) :
    (touch.pendData pendData).pendingMsg round = pendData.pendingMsg round ∧
      (touch.pendData pendData).pendingMsgMaxStep round = pendData.pendingMsgMaxStep round := by
  cases touch with
  | keep => exact ⟨rfl, rfl⟩
  | save msg =>
    have different : round ≠ msg.round := (others msg rfl).symm
    exact ⟨Function.update_of_ne different _ _, Function.update_of_ne different _ _⟩
  | start other =>
    have kept : ¬round < other := not_lt.mpr (before other rfl).le
    exact ⟨if_neg kept, if_neg kept⟩

/-- An event that does not start the round changes the pending messages of other rounds
only. -/
theorem HasEarly.of_touches (hasEarly : HasEarly round early first second)
    (touches : Touches touch (fun ce => ce.handle hashing a event) second)
    (others : ∀ msg, touch = .save msg → msg.round ≠ round)
    (before : ∀ other, touch = .start other → other < round) :
    HasEarly round early (first.handle hashing a event) (second.handle hashing a event) := by
  obtain ⟨firstEqual, secondPend, secondQueue⟩ := hasEarly.handle_eq touches
  have same := fun other notRound => touch.pendData_congr (hasEarly.pendingMsg_eq other notRound)
    (hasEarly.maxStep_eq other notRound)
  have kept := fun pendData => @Touch.pendData_of_others round pendData touch others before
  rw [firstEqual]
  exact {
    same := rfl
    msgQueue_eq := by
      rw [secondQueue]
      cases touch with
      | keep | save => exact hasEarly.msgQueue_eq
      | start other =>
        have notRound := (before other rfl).ne
        exact congrArg₂ _ hasEarly.msgQueue_eq (replay_congr
          (hasEarly.pendingMsg_eq other notRound) (hasEarly.maxStep_eq other notRound))
    pendingMsg_eq := by
      rw [secondPend]
      exact fun other notRound => (same other notRound).1
    maxStep_eq := by
      rw [secondPend]
      exact fun other notRound => (same other notRound).2
    early_eq := fun step => (congrFun (kept _).1 step).trans (hasEarly.early_eq step)
    step_le := fun msg inEarly => (hasEarly.step_le msg inEarly).trans_eq (kept _).2.symm
    none_pending := by
      rw [secondPend]
      exact fun step => (congrFun (kept _).1 step).trans (hasEarly.none_pending step) }

theorem HasEarly.handle (hasEarly : HasEarly round early first second)
    (notEarly : earlyVote round (a, event) = none)
    (before : (first.handle hashing a event).state.round < round) :
    HasEarly round early (first.handle hashing a event) (second.handle hashing a event) := by
  rcases touches_handle hashing a second event with
    (touches | ⟨other, touches, roundEqual⟩) | ⟨msg, rfl, passes, isVote, touches⟩
  · exact hasEarly.of_touches touches nofun nofun
  · refine hasEarly.of_touches touches nofun ?_
    rintro _ ⟨rfl⟩
    rw [(hasEarly.handle_eq touches).1, withPending_state] at before
    exact roundEqual ▸ before
  · refine hasEarly.of_touches touches ?_ nofun
    rintro _ ⟨rfl⟩ isRound
    have isEarly : earlyVote round (a, .receive msg) = some msg :=
      if_pos ⟨passes, isVote, isRound⟩
    rw [isEarly] at notEarly
    cases notEarly

theorem hasEarly_new (shardIndex : Wire.ShardIndex) (pk : PkKey) (voteThreshold : Int) :
    HasEarly round [] (Executor.new shardIndex pk voteThreshold)
      (Executor.new shardIndex pk voteThreshold) where
  same := rfl
  msgQueue_eq := rfl
  pendingMsg_eq := fun _ _ => rfl
  maxStep_eq := fun _ _ => rfl
  early_eq := fun _ => rfl
  step_le := nofun
  none_pending := fun _ => rfl

end HasEarly

/-- Throughout a list of events the executor is before a round, and its shard is enabled
when it receives a vote for that round. -/
def Before (hashing : Hashing) (round : Int) (ce : Executor) : List (Answers × Event) → Prop
  | [] => ce.state.round < round
  | event :: rest =>
    ce.state.round < round ∧
      ((earlyVote round event).isSome → ce.state.shardStatus = .shardEnabled) ∧
      Before hashing round (ce.handle hashing event.1 event.2) rest

/-- The events without the early votes for a round. -/
def withoutEarly (round : Int) (events : List (Answers × Event)) : List (Answers × Event) :=
  events.filter fun event => (earlyVote round event).isNone

/-- Handling the event ends with `startAtRound`. -/
def Starts (hashing : Hashing) (a : Answers) (ce : Executor) (event : Event) (round : Int) :
    Prop :=
  ∃ before : Executor, before.pendData = ce.pendData ∧ before.msgQueue = ce.msgQueue ∧
    ce.handle hashing a event = before.startAtRound hashing a round

/-- The executors differ in pending and queued messages only. -/
def SameButPending (first second : Executor) : Prop :=
  ∃ pendData msgQueue, first = second.withPending pendData msgQueue

section Runs

variable {hashing : Hashing} {round : Int} {first second : Executor}
  {events : List (Answers × Event)}

theorem Before.round_lt
    (before : first.Before hashing round events) : first.state.round < round := by
  cases events with
  | nil => exact before
  | cons => exact before.1

variable {early : List Message}

theorem HasEarly.handleAll (hasEarly : HasEarly round early first second)
    (before : first.Before hashing round events) :
    HasEarly round (early ++ events.filterMap (earlyVote round)) (first.handleAll hashing events)
      (second.handleAll hashing (withoutEarly round events)) := by
  induction events generalizing early first second with
  | nil =>
    rw [List.filterMap_nil, List.append_nil]
    exact hasEarly
  | cons event events ih =>
    obtain ⟨roundBefore, enabled, beforeRest⟩ := before
    cases isEarly : earlyVote round event with
    | some msg =>
      have running : first.state.shardStatus ≠ .shardDisabled := by
        rw [enabled (by rw [isEarly]; rfl)]
        decide
      have handled := handle_of_earlyVote hashing isEarly roundBefore running
      have skipped : withoutEarly round (event :: events) = withoutEarly round events :=
        List.filter_cons_of_neg (by simp [isEarly])
      have saved := hasEarly.save msg
      rw [← handled] at saved
      have rest := ih saved beforeRest
      rw [List.append_assoc, List.singleton_append] at rest
      rw [skipped, List.filterMap_cons_some isEarly]
      exact rest
    | none =>
      have kept : withoutEarly round (event :: events) = event :: withoutEarly round events :=
        List.filter_cons_of_pos (by simp [isEarly])
      rw [kept, List.filterMap_cons_none isEarly]
      exact ih (hasEarly.handle isEarly beforeRest.round_lt) beforeRest

theorem SameButPending.handle (a : Answers) (event : Event) (same : SameButPending first second) :
    SameButPending (first.handle hashing a event) (second.handle hashing a event) := by
  obtain ⟨pendData, msgQueue, rfl⟩ := same
  rcases touches_handle hashing a second event with
    (touches | ⟨other, touches, _⟩) | ⟨msg, _, _, _, touches⟩
  · exact ⟨_, _, touches pendData msgQueue⟩
  · exact ⟨_, _, touches pendData msgQueue⟩
  · exact ⟨_, _, touches pendData msgQueue⟩

theorem SameButPending.handleAll (same : SameButPending first second)
    (events : List (Answers × Event)) :
    SameButPending (first.handleAll hashing events) (second.handleAll hashing events) := by
  induction events generalizing first second with
  | nil => exact same
  | cons event events ih =>
    exact ih (same.handle event.1 event.2)

/-- When the round starts, the early votes are put on the queue. -/
theorem HasEarly.msgQueue_of_starts (hasEarly : HasEarly round early first second)
    (inOrder : early.Pairwise fun first second => first.step ≤ second.step)
    (positive : ∀ msg ∈ early, 1 ≤ msg.step) {a : Answers} {event : Event}
    (starts : Starts hashing a first event round) :
    (first.handle hashing a event).msgQueue =
      (second.handle hashing a event).msgQueue ++ early := by
  obtain ⟨before, samePend, sameQueue, handled⟩ := starts
  have started := startAtRound_withPending hashing a before before.pendData before.msgQueue round
  have queued : (first.handle hashing a event).msgQueue = second.msgQueue ++ early := by
    rw [handled, ← hasEarly.msgQueue_eq, ← hasEarly.replay_eq inOrder positive, ← samePend,
      ← sameQueue]
    exact congrArg Executor.msgQueue started
  rw [queued]
  congr 1
  rcases touches_handle hashing a second event with
    (touches | ⟨other, touches, roundEqual⟩) | ⟨msg, _, _, _, touches⟩
  · exact (hasEarly.handle_eq touches).2.2.symm
  · obtain ⟨firstEqual, _, secondQueue⟩ := hasEarly.handle_eq touches
    have isRound : other = round := by
      rw [← roundEqual]
      change (second.handle hashing a event).state.round = round
      have firstState := congrArg (fun ce => ce.state.round) firstEqual
      dsimp only [withPending_state] at firstState
      rw [← firstState, handled]
      exact (enters_startAtRound hashing a before round).round_eq
    rw [secondQueue, Touch.msgQueue, isRound, replay_eq_nil hasEarly.none_pending, List.append_nil]
  · exact (hasEarly.handle_eq touches).2.2.symm

end Runs

end Executor

/-- Votes that arrive before their round, in the order of their steps, are not lost: when
the round starts they are on the queue, after the messages that are there without them,
and from then on the executor does what it does if it receives them only now. -/
theorem early_votes_replayed (hashing : Hashing) (shardIndex : Wire.ShardIndex) (pk : PkKey)
    (voteThreshold : Int) (round : Int) (events : List (Answers × Executor.Event)) (a : Answers)
    (event : Executor.Event)
    (before : (Executor.new shardIndex pk voteThreshold).Before hashing round events)
    (starts : ((Executor.new shardIndex pk voteThreshold).handleAll hashing events).Starts hashing a
      event round)
    (inOrder : (events.filterMap (Executor.earlyVote round)).Pairwise fun first second =>
      first.step ≤ second.step)
    (positive : ∀ message ∈ events.filterMap (Executor.earlyVote round), 1 ≤ message.step) :
    let early := (Executor.new shardIndex pk voteThreshold).handleAll hashing (events ++ [(a, event)])
    let late := (Executor.new shardIndex pk voteThreshold).handleAll hashing
      (Executor.withoutEarly round events ++ [(a, event)])
    early.msgQueue = late.msgQueue ++ events.filterMap (Executor.earlyVote round) ∧
      ∀ later, (early.handleAll hashing later).SameButPending (late.handleAll hashing later) := by
  have hasEarly := (Executor.hasEarly_new shardIndex pk voteThreshold).handleAll before
  rw [List.nil_append] at hasEarly
  intro early late
  have isEarly : early =
      ((Executor.new shardIndex pk voteThreshold).handleAll hashing events).handle hashing a event :=
    List.foldl_concat _ _ _ _
  have isLate : late = ((Executor.new shardIndex pk voteThreshold).handleAll hashing
        (Executor.withoutEarly round events)).handle hashing a event :=
    List.foldl_concat _ _ _ _
  rw [isEarly, isLate]
  refine ⟨hasEarly.msgQueue_of_starts inOrder positive starts, fun later => ?_⟩
  have same : Executor.SameButPending _ _ := ⟨_, _, hasEarly.same⟩
  exact (same.handle a event).handleAll later

namespace Example

/-- An early leader vote. -/
def earlyLeaderVote : Message :=
  .leaderVote ⟨0, [], ⟨Bytes32.fill 2, [], .empty⟩, ⟨Bytes32.fill 2, [], ⟨1, 2⟩⟩⟩

/-- An early seed. -/
def earlySeed : Message := .seed ⟨0, ⟨Bytes32.fill 2, [], ⟨1, 1⟩⟩, [], []⟩

/-- An early proposal. -/
def earlyProposal : Message :=
  .leaderProposal ⟨0, [], { (default : Wire.MsgBlock) with header := { (default : Wire.BlockHeader) with
    height := 3 } }, Bytes32.fill 9, [], [], ⟨Bytes32.fill 2, [], ⟨1, 1⟩⟩⟩

/-- The events of round zero, in which a message is received, up to the vote that ends
the round. -/
def roundZero (message : Message) : List (Answers × Executor.Event) :=
  [(answers 2, .start), (answers 2, .receive message), (answers 2, .receive (vote 2 0 5 1 .empty))]

/-- The vote that ends round zero. -/
def lastVote : Executor.Event := .receive (vote 3 0 5 1 .empty)

/-- A new executor. -/
def newExecutor : Executor := Executor.new 0 (Bytes32.fill 1) 2

end Example

open Example in
/-- A leader vote comes one round early. -/
theorem early_votes_replayed_leaderVote :
    let early := newExecutor.handleAll hashing (roundZero earlyLeaderVote ++ [(answers 2, lastVote)])
    early.state.round = 1 ∧ early.msgQueue = [earlyLeaderVote] := by
  have before : newExecutor.Before hashing 1 (roundZero earlyLeaderVote) := by
    refine ⟨by decide, by decide, by decide, by decide, by decide, by decide, ?_⟩
    change _ < _
    decide
  have starts : (newExecutor.handleAll hashing (roundZero earlyLeaderVote)).Starts hashing (answers 2)
      lastVote 1 := by
    let ending := newExecutor.handleAll hashing (roundZero earlyLeaderVote)
    let message : MsgBinaryBA := ⟨[], ⟨Bytes32.fill 3, [], ⟨0, 0, 5, 1, .empty⟩⟩⟩
    let header : Wire.BlockHeader := { (default : Wire.BlockHeader) with height := 2 }
    let voted : Executor :=
      { ending with bbaVoter := (ending.bbaVoter.addVoteWithBBAMsg 0 5 1 .empty message).1 }
    let ended := (voted.accept 0 (.empty header)).broadcastBBAFinMsg (answers 2) 0 5 1 header
    exact ⟨ended.setRoundSeed 0 header.seed, rfl, rfl, rfl⟩
  have replayed := (early_votes_replayed hashing 0 (Bytes32.fill 1) 2 1 (roundZero earlyLeaderVote)
    (answers 2) lastVote before starts (by decide) (by decide)).1
  exact ⟨by decide, replayed.trans (by decide)⟩

open Example in
/-- An early seed and an early proposal are not replayed: the smallest credential and the
votes for a leader are those of a round in which they have not arrived. -/
theorem early_seed_and_proposal_lost :
    let early (message : Message) :=
      newExecutor.handleAll hashing (roundZero message ++ [(answers 2, lastVote)])
    let late (message : Message) := newExecutor.handleAll hashing
        ((roundZero message).eraseIdx 1 ++ [(answers 2, lastVote), (answers 2, .receive message)])
    ((early earlySeed).state.round = 1 ∧ (early earlySeed).msgQueue = [] ∧
      (late earlySeed).state.round = 1 ∧
      (early earlySeed).state.smallestCred ≠ (late earlySeed).state.smallestCred) ∧
    (early earlyProposal).state.round = 1 ∧ (early earlyProposal).msgQueue = [] ∧
      (late earlyProposal).state.round = 1 ∧
      (early earlyProposal).state.smallestCred ≠ (late earlyProposal).state.smallestCred ∧
      (early earlyProposal).gcPreVoter.minSeed.isNone ∧
      (late earlyProposal).gcPreVoter.minSeed.isSome := by
  decide

end MultiVac.Consensus
