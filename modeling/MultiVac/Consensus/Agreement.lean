import MultiVac.Consensus.RoundInvariant

/-!
# Agreement on the block of a round

Two executors of a shard accept the same block for a round, in every run in
which no timeout makes an executor vote against its own vote of the step
before.
-/

namespace MultiVac.Consensus

namespace Executor

section Upholds

variable {hashing : Hashing} {threshold round : Int} {members : Finset PkKey}
  {board : Board} {earlier : View} (a : Answers) (ce : Executor)

theorem upholds_onGCMessage (sound : board.Sound threshold round members)
    (upholds : ce.view.Upholds hashing threshold round board earlier)
    {msg : GCMessage} (posted : msg ∈ board.gradecasts)
    (sameRound : msg.signedCredential.message.round = ce.view.round) :
    (ce.onGCMessage a ce.view.round msg).view.Upholds hashing threshold
      round board earlier := by
  rcases counted : ce.view.voter.addGCVote msg.signedCredential.message.round
      msg.signedCredential.message.step 0 msg.signedVal.message
      msg.signedCredential.pk with ⟨voter, report⟩
  have countedInRound : ce.view.round = round →
      (ce.view.withVoter voter).InRound threshold round board := by
    intro here
    have after := (upholds.inRound here).call (.gradecast msg posted (sameRound.trans here))
    rwa [BinaryBAVoter.call, counted] at after
  rcases ce.view_onGCMessage a ce.view.round msg counted with
    viewEqual | ⟨early, viewEqual | ⟨total, first, ballot, signs, viewEqual⟩⟩
  · rwa [viewEqual]
  · rw [viewEqual]
    exact upholds.withVoter countedInRound
  · have votedFirst : ce.view.round = round → ∀ other ∈ ce.view.ballots,
        other.round = round → other.step ≠ 4 := by
      intro here other member otherRound otherFirst
      have inRound := upholds.inRound here
      rcases lt_or_eq_of_le early with before | atFour
      · exact (inRound.early (by omega)).2.2 other member otherRound otherFirst
      · -- the executor waits in step 4 only after an earlier agreement
        obtain ⟨-, v, enough⟩ := inRound.waiting atFour ⟨other, member, otherRound, otherFirst⟩
        have := (inRound.gradecast_agreed sound posted (sameRound.trans here)
          counted total first).2.2 v
        omega
    have resultInRound : ce.view.round = round → (ce.view.withVoter (voter.setResultValue
          msg.signedCredential.message.round
          msg.signedVal.message)).InRound threshold round board :=
      fun here => (countedInRound here).setResultValue _ _
    rw [viewEqual]
    refine (upholds.withVoter resultInRound).setStepInRound.vote signs ?_
      (fun here _ => votedFirst here) ?_
    · intro here vote isVote
      obtain ⟨-, -, atFour, bit, value⟩ := signs vote isVote
      by_cases notEmpty : msg.signedVal.message.blockHash = Bytes32.zero
      · simp only [gradedBit, notEmpty, ne_eq, not_true, if_false] at bit
        exact Or.inr ⟨bit, atFour.ge, Or.inl atFour⟩
      · simp only [gradedBit, ne_eq, notEmpty, not_false_eq_true, if_true] at bit
        refine Or.inl ⟨bit, atFour, ?_, ?_⟩
        · rwa [value]
        · rw [value]
          exact ((upholds.inRound here).gradecast_agreed sound posted
            (sameRound.trans here) counted total first).1
    · intro here
      change ce.view.round = round at here
      subst here
      have inRound := resultInRound rfl
      have enough := ((upholds.inRound rfl).gradecast_agreed sound posted
        sameRound counted total first).2.1
      rcases lt_or_eq_of_le early with before | atFour
      · exact inRound.vote_waiting rfl (Int.le_of_lt_add_one before)
          (v := msg.signedVal.message) (by simpa [View.withVoter]) ballot
      · have stays := inRound.vote_first rfl atFour ballot
        simpa [View.setStepInRound, View.withVoter, atFour] using stays

theorem upholds_onBinaryBA (sound : board.Sound threshold round members)
    (upholds : ce.view.Upholds hashing threshold round board earlier)
    {msg : MsgBinaryBA} (posted : msg ∈ board.ballots) (sameRound : msg.round = ce.view.round) :
    (ce.onBinaryBA hashing a ce.view.round msg).view.Upholds hashing
      threshold round board earlier := by
  rcases counted : ce.view.voter.addVoteWithBBAMsg msg.round msg.step
      msg.b (countedValue msg) msg with ⟨voter, report⟩
  have countedInRound : ce.view.round = round →
      (ce.view.withVoter voter).InRound threshold round board := by
    intro here
    have after := (upholds.inRound here).call (.vote msg posted (sameRound.trans here))
    rwa [BinaryBAVoter.call, counted] at after
  have agreed := fun (here : ce.view.round = round) (key : VoteKey)
      (reported : report.key = some key) =>
    (upholds.inRound here).vote_agreed sound posted (sameRound.trans here)
      counted reported
  have oneAgreed : ∀ key, report.ActsOn key →
      ¬ EndsWithBlock key report.agreeType → ce.view.round = round →
      report.agreeType = .agreeOnOne ∧ 4 ≤ msg.step ∧ board.OneQuorum threshold round := by
    intro key actsOn notBlock here
    obtain ⟨rfl, ⟨-, total, atFour, -⟩ | ⟨-, one, late, quorum⟩⟩ := agreed here key actsOn.1
    · exact absurd ⟨by rw [atFour]; rfl, total⟩ notBlock
    · exact ⟨one, late, quorum⟩
  have late : ce.view.round = round → 0 < msg.step := by
    intro here
    rcases sound.justified msg posted (sameRound.trans here) with ⟨-, first, -⟩ | ⟨-, later, -⟩ <;>
      omega
  rcases ce.view_onBinaryBA hashing a ce.view.round msg counted with
    viewEqual | ⟨key, actsOn, ⟨ends, block, ended, isStored, signs, entered⟩ |
      ⟨notBlock, -, header, ended, signs, entered⟩ |
      ⟨notBlock, -, -, v, ballot, -, signs, viewEqual⟩⟩
  · rw [viewEqual]
    exact upholds.withVoter countedInRound
  · obtain ⟨height, hashEqual⟩ := upholds.stored _ _ _ isStored
    rw [height, show ce.view.round + 2 - 1 = ce.view.round + 1 by omega] at entered
    refine upholds.enter (fun here => ?_) signs late entered
    obtain ⟨-, ⟨zero, -, -, quorum⟩ | ⟨-, one, -⟩⟩ := agreed here key actsOn.1
    · refine ⟨msg.v, quorum, ?_⟩
      simpa [countedValue, zero] using hashEqual
    · exact absurd (ends.2.symm.trans one) (by decide)
  · refine upholds.enter (fun here => ?_) signs late entered
    exact (oneAgreed key actsOn notBlock here).2.2
  · rw [viewEqual]
    refine (upholds.withVoter countedInRound).vote signs ?_ ?_ ?_
    · intro here vote isVote
      obtain ⟨one, late, quorum⟩ := oneAgreed key actsOn notBlock here
      obtain ⟨-, -, stepEqual, bit, -⟩ := signs vote isVote
      rw [one] at bit
      exact Or.inr ⟨bit, by omega, Or.inr (Or.inr quorum)⟩
    · intro here stepEqual
      have := (oneAgreed key actsOn notBlock here).2.1
      omega
    · intro here
      have := (oneAgreed key actsOn notBlock here).2.1
      change ce.view.round = round at here
      subst here
      exact (countedInRound rfl).vote_later signs (by omega) (by omega)

/-- A timeout of the binary agreement votes for a bit that the executor itself
has voted for in the step before. -/
def KeepsVote (round : Int) (a : Answers) (ce : Executor) : Event → Prop
  | .timeout (.bbaNextStep timerRound step) =>
    timerRound = round → ce.state.round = timerRound → ce.state.step = step →
      ∃ message ∈ ce.ballots, message.round = round ∧
        message.step = step - 1 ∧ message.b = fixValue a step
  | _ => True

instance (round : Int) (a : Answers) (ce : Executor) (event : Event) :
    Decidable (ce.KeepsVote round a event) :=
  match event with
  | .timeout (.bbaNextStep _ _) => inferInstanceAs (Decidable (_ → _ → _ → _))
  | .timeout (.gcStep _ _) | .timeout (.gcLastStep _ _) | .start
  | .updateInShardProof _ | .startConsensusAtRound _ | .stopConsensusAtRound _
  | .initFinished _ | .receive _ => inferInstanceAs (Decidable True)

section

variable (upholds : ce.view.Upholds hashing threshold round board earlier)
include upholds

theorem upholds_onTimeout (timerRound step : Int) :
    (ce.onTimeout a timerRound step).view.Upholds hashing threshold round board
      earlier := by
  rcases ce.view_onTimeout a timerRound step with
    viewEqual | ⟨early, rfl, gradecast, signs, viewEqual⟩
  · rwa [viewEqual]
  · rw [viewEqual]
    exact upholds.gradecast early signs

theorem upholds_onGCLastStepTimeout (timerRound step : Int)
    (firstVote : ce.view.round = round → timerRound = round → ce.view.step = step → step = 4 ∧
        ∀ msg ∈ ce.view.ballots, msg.round = round → msg.step ≠ 4) :
    (ce.onGCLastStepTimeout a timerRound step).view.Upholds hashing threshold
      round board earlier := by
  rcases ce.view_onGCLastStepTimeout a timerRound step with
    viewEqual | ⟨rfl, rfl, v, ballot, signs, viewEqual⟩
  · rwa [viewEqual]
  · have resultInRound : ce.view.round = round → (ce.view.withVoter
          (ce.view.voter.setResultValue ce.view.round v)).InRound threshold round
            board :=
      fun here => (upholds.inRound here).setResultValue _ _
    rw [viewEqual]
    refine (upholds.withVoter resultInRound).vote signs ?_ ?_ ?_
    · intro here vote isVote
      obtain ⟨atFour, -⟩ := firstVote here here rfl
      obtain ⟨-, -, stepEqual, bit, -⟩ := signs vote isVote
      exact Or.inr ⟨bit, by omega, Or.inl (stepEqual.trans atFour)⟩
    · exact fun here _ => (firstVote here here rfl).2
    · intro here
      change ce.view.round = round at here
      subst here
      obtain ⟨atFour, -⟩ := firstVote rfl rfl rfl
      have voted := (resultInRound rfl).vote_first rfl atFour ballot
      rwa [atFour]

theorem upholds_onBBATimeoutForNextStep
    (posted : ∀ msg ∈ ce.view.ballots, msg ∈ board.ballots) (timerRound step : Int)
    (keepsVote : ce.KeepsVote round a (.timeout (.bbaNextStep timerRound step))) :
    (ce.onBBATimeoutForNextStep a timerRound step).view.Upholds hashing
      threshold round board earlier := by
  rcases ce.view_onBBATimeoutForNextStep a timerRound step with
    viewEqual | ⟨rfl, rfl, v, ballot, -, signs, viewEqual⟩
  · rwa [viewEqual]
  · have keepsOne : ce.view.round = round → fixValue a ce.view.step = 1 ∧ 5 ≤ ce.view.step ∧
        ((∃ w, board.FirstVotes round 1 w ce.view.pk) ∨ board.OneQuorum threshold round) := by
      intro here
      obtain ⟨msg, member, sameRound, stepBefore, bit⟩ := keepsVote here rfl rfl
      obtain ⟨pkEqual, ⟨zero, first, -⟩ | ⟨one, late, grounds⟩⟩ :=
        upholds.ballots msg member sameRound
      · -- the timeout of step 5 votes for one
        have atFive : ce.view.step = 5 := by omega
        rw [bit, atFive] at zero
        exact absurd zero (by simp [fixValue])
      · refine ⟨bit.symm.trans one, by omega, ?_⟩
        rw [← pkEqual]
        rcases grounds with first | voted | quorum
        · exact Or.inl ⟨msg.v, msg, posted msg member, rfl, sameRound, first, one, rfl⟩
        · exact Or.inl voted
        · exact Or.inr quorum
    rw [viewEqual]
    refine upholds.vote signs ?_ ?_ ?_
    · intro here vote isVote
      obtain ⟨fixedOne, late, grounds⟩ := keepsOne here
      obtain ⟨pkEqual, -, stepEqual, bit, -⟩ := signs vote isVote
      refine Or.inr ⟨bit.trans fixedOne, by omega, Or.inr ?_⟩
      rwa [pkEqual]
    · intro here atFour
      have := (keepsOne here).2.1
      omega
    · intro here
      have := (keepsOne here).2.1
      subst here
      exact (upholds.inRound rfl).vote_later signs (by omega) (by omega)

end

theorem upholds_dispatchHandleMessage (sound : board.Sound threshold round members)
    (upholds : ce.view.Upholds hashing threshold round board earlier)
    {msg : Message} (delivered : board.Delivers hashing msg) :
    (ce.dispatchHandleMessage hashing a msg).view.Upholds hashing threshold
      round board earlier := by
  rw [dispatchHandleMessage, msgFilter]
  split
  · exact upholds
  · rename_i handled
    split at handled
    · have sameRound := ce.round_eq_of_handleMsg handled
      cases msg with
      | leaderProposal proposal =>
        rcases ce.view_onReceiveLeaderProposal hashing a ce.state.round
            proposal with viewEqual | viewEqual
        · rwa [handleNewMessage, viewEqual]
        · rw [handleNewMessage, viewEqual]
          exact upholds.store delivered.1 delivered.2
      | leaderVote vote =>
        rcases ce.view_onReceiveLeaderVote a ce.state.round vote with
          viewEqual | ⟨early, val, gradecast, signs, viewEqual⟩
        · rwa [handleNewMessage, viewEqual]
        · rw [handleNewMessage, viewEqual]
          exact upholds.gradecast early signs
      | gc gradecast =>
        exact ce.upholds_onGCMessage a sound upholds delivered sameRound
      | binaryBA vote =>
        exact ce.upholds_onBinaryBA a sound upholds delivered sameRound
      | seed seed =>
        rw [handleNewMessage, view_onSeed]
        exact upholds
      | blockConfirmation => exact upholds
    · exact absurd handled (by simp)
  · cases msg with
    | leaderProposal proposal =>
      rw [handleOtherStateMessage, view_cacheLeaderProposal]
      exact upholds.store delivered.1 delivered.2
    | leaderVote | gc | binaryBA => exact upholds
    | seed => exact upholds
    | blockConfirmation => exact absurd delivered id

theorem upholds_fire (upholds : ce.view.Upholds hashing threshold round board earlier)
    (posted : ∀ msg ∈ ce.view.ballots, msg ∈ board.ballots)
    {timer : Timer} (registered : timer ∈ ce.timers)
    (keepsVote : ce.KeepsVote round a (.timeout timer)) :
    (({ ce with timers := ce.timers.erase timer }).fire a timer).view.Upholds
      hashing threshold round board earlier := by
  have erased := upholds.erase timer
  cases timer with
  | gcStep timerRound step =>
    have afterTimeout := upholds_onTimeout a { ce with
      timers := ce.timers.erase (.gcStep timerRound step) } erased timerRound step
    rw [fire]
    split
    · exact afterTimeout.tick timerRound (step + 1)
    · exact afterTimeout
  | gcLastStep timerRound step =>
    refine upholds_onGCLastStepTimeout a { ce with
      timers := ce.timers.erase (.gcLastStep timerRound step) } erased timerRound step ?_
    rintro here rfl stepEqual
    have inRound := upholds.inRound here
    have atFour := inRound.gcLastStep step registered
    refine ⟨atFour, fun msg member sameRound first => ?_⟩
    exact (inRound.waiting (stepEqual.trans atFour)
      ⟨msg, member, sameRound, first⟩).1 step registered
  | bbaNextStep timerRound step =>
    exact upholds_onBBATimeoutForNextStep a { ce with
      timers := ce.timers.erase (.bbaNextStep timerRound step) } erased posted
        timerRound step keepsVote

end Upholds
end Executor

namespace Shard

variable {n : ℕ} {hashing : Hashing} {threshold round : Int} {shard : Shard n}

/-- What the executors of a shard have broadcast. -/
def board (shard : Shard n) : Board where
  ballots := {message | ∃ index, message ∈ (shard index).view.ballots}
  gradecasts := {message | ∃ index, message ∈ (shard index).view.gradecasts}

/-- What holds of the whole shard from the start of the round on. -/
structure Upholds (hashing : Hashing) (threshold round : Int)
    (shard : Shard n) : Prop where
  keys : Function.Injective fun index => (shard index).pk
  fewMembers : (n : Int) < 2 * threshold
  each : ∀ index, (shard index).view.Upholds hashing threshold round shard.board (shard index).view

/-- The public keys of a shard. -/
def members (shard : Shard n) : Finset PkKey :=
  Finset.univ.image fun index => (shard index).pk

theorem pk_mem_members (shard : Shard n) (index : Fin n) :
    (shard index).pk ∈ shard.members :=
  Finset.mem_image_of_mem _ (Finset.mem_univ index)

section

variable (upholds : shard.Upholds hashing threshold round)
include upholds

/-- A gradecast message of the round comes from the executor with its key. -/
theorem Upholds.exists_gradecast {v : ByzAgreementValue} {pk : PkKey}
    (gradecast : shard.board.Gradecasts round v pk) :
    ∃ index, (shard index).pk = pk ∧ ∃ msg ∈ (shard index).view.gradecasts,
      msg.signedCredential.message.round = round ∧ msg.signedVal.message = v := by
  obtain ⟨msg, ⟨index, member⟩, rfl, sameRound, value⟩ := gradecast
  have own := ((upholds.each index).gradecasts msg member sameRound).1
  exact ⟨index, own.symm, msg, member, sameRound, value⟩

/-- A first vote of the round comes from the executor with its key. -/
theorem Upholds.exists_firstVote {b : UInt8} {v : ByzAgreementValue} {pk : PkKey}
    (voted : shard.board.FirstVotes round b v pk) :
    ∃ index, (shard index).pk = pk ∧ ∃ msg ∈ (shard index).view.ballots,
      msg.round = round ∧ msg.step = 4 ∧ msg.b = b ∧ msg.v = v := by
  obtain ⟨msg, ⟨index, member⟩, rfl, sameRound, content⟩ := voted
  have own := ((upholds.each index).ballots msg member sameRound).1
  exact ⟨index, own.symm, msg, member, sameRound, content⟩

theorem Upholds.sound :
    shard.board.Sound threshold round shard.members where
  fewMembers := by
    have bound : shard.members.card ≤ n := Finset.card_image_le.trans_eq (Finset.card_fin n)
    have := upholds.fewMembers
    omega
  gradecaster := by
    intro v pk gradecast
    obtain ⟨index, rfl, -⟩ := upholds.exists_gradecast gradecast
    exact shard.pk_mem_members index
  signer := by
    intro b v pk voted
    obtain ⟨index, rfl, -⟩ := upholds.exists_firstVote voted
    exact shard.pk_mem_members index
  gradecastStep := by
    rintro msg ⟨index, member⟩ sameRound
    exact ((upholds.each index).gradecasts msg member sameRound).2
  gradecastUnique := by
    intro pk v w firstGradecast secondGradecast
    obtain ⟨index, indexKey, first, firstMember, firstRound, rfl⟩ :=
      upholds.exists_gradecast firstGradecast
    obtain ⟨other, otherKey, second, secondMember, secondRound, rfl⟩ :=
      upholds.exists_gradecast secondGradecast
    obtain rfl := upholds.keys (indexKey.trans otherKey.symm)
    exact (upholds.each index).gradecastUnique first firstMember second
      secondMember firstRound secondRound
  firstVoteUnique := by
    intro pk b v c w firstVoted secondVoted
    obtain ⟨index, indexKey, first, firstMember, firstRound, firstStep, rfl,
      rfl⟩ := upholds.exists_firstVote firstVoted
    obtain ⟨other, otherKey, second, secondMember, secondRound, secondStep, rfl,
      rfl⟩ := upholds.exists_firstVote secondVoted
    obtain rfl := upholds.keys (indexKey.trans otherKey.symm)
    exact (upholds.each index).firstVoteUnique first firstMember second
      secondMember firstRound secondRound firstStep secondStep
  justified := by
    rintro msg ⟨index, member⟩ sameRound
    exact ((upholds.each index).ballots msg member sameRound).2

/-- A posted message is delivered as the board has it. -/
theorem Upholds.delivers {msg : Message} (posted : shard.Posted msg) :
    shard.board.Delivers hashing msg := by
  obtain ⟨index, sent⟩ := posted
  cases msg with
  | leaderProposal proposal =>
    exact (upholds.each index).proposals proposal (List.mem_filterMap.mpr ⟨_, sent, rfl⟩)
  | leaderVote => trivial
  | gc => exact ⟨index, List.mem_filterMap.mpr ⟨_, sent, rfl⟩⟩
  | binaryBA => exact ⟨index, List.mem_filterMap.mpr ⟨_, sent, rfl⟩⟩
  | seed => trivial
  | blockConfirmation confirmation =>
    have sentConfirmation : confirmation ∈ (shard index).view.confirmations :=
      List.mem_filterMap.mpr ⟨_, sent, rfl⟩
    rw [(upholds.each index).confirmations_eq] at sentConfirmation
    exact absurd sentConfirmation (by simp)

/-- One step keeps what holds of the executor that takes it. -/
theorem Upholds.handle_self {index : Fin n} {a : Answers} {event : Executor.Event}
    (enabled : shard.Enabled index event) (keepsVote : (shard index).KeepsVote round a event) :
    ((shard index).handle hashing a event).view.Upholds hashing threshold round
      shard.board (shard index).view := by
  cases event with
  | receive msg =>
    exact (shard index).upholds_dispatchHandleMessage a upholds.sound
      (upholds.each index) (upholds.delivers enabled)
  | timeout timer =>
    exact (shard index).upholds_fire a (upholds.each index)
      (fun msg member => ⟨index, member⟩) enabled keepsVote
  | start | updateInShardProof | startConsensusAtRound | stopConsensusAtRound
  | initFinished => exact absurd enabled id

/-- One step keeps what holds of the shard. -/
theorem Upholds.moves {after : Shard n}
    (move : Moves hashing threshold (Executor.KeepsVote round) shard after) :
    after.Upholds hashing threshold round := by
  obtain ⟨index, a, event, -, enabled, keepsVote, rfl⟩ := move
  have handled := upholds.handle_self enabled keepsVote
  have same : (shard.handle hashing index a event) index =
      (shard index).handle hashing a event := Function.update_self ..
  have others : ∀ other, other ≠ index → (shard.handle hashing index a event) other = shard other :=
    fun other different => Function.update_of_ne different ..
  have grows : shard.board.Grows (shard.handle hashing index a event).board := by
    refine ⟨?_, ?_⟩
    · rintro msg ⟨other, member⟩
      refine ⟨other, ?_⟩
      by_cases isIndex : other = index
      · subst isIndex
        rw [same]
        exact handled.ballots_subset member
      · rwa [others other isIndex]
    · rintro msg ⟨other, member⟩
      refine ⟨other, ?_⟩
      by_cases isIndex : other = index
      · subst isIndex
        rw [same]
        exact handled.gradecasts_subset member
      · rwa [others other isIndex]
  have keysEqual : (fun other => (shard.handle hashing index a event other).pk) =
      fun other => (shard other).pk := by
    funext other
    by_cases isIndex : other = index
    · subst isIndex
      rw [same]
      exact handled.pk_eq
    · rw [others other isIndex]
  refine ⟨keysEqual ▸ upholds.keys, upholds.fewMembers, fun other => ?_⟩
  by_cases isIndex : other = index
  · subst isIndex
    rw [same]
    exact (handled.mono grows).rebase
  · rw [others other isIndex]
    exact (upholds.each other).mono grows

end

/-- The invariant at the start of a round. -/
theorem upholds_of_atRoundStart (keys : Function.Injective fun index => (shard index).pk)
    (fewMembers : (n : Int) < 2 * threshold)
    (atStart : ∀ index, (shard index).AtRoundStart hashing threshold round) :
    shard.Upholds hashing threshold round := by
  refine ⟨keys, fewMembers, fun index => ?_⟩
  have start := atStart index
  refine
    { pk_eq := rfl
      ballots_subset := List.Subset.refl _
      gradecasts_subset := List.Subset.refl _
      round_le := start.round_eq.ge
      ballots := fun msg member sameRound =>
        absurd sameRound (start.ballots_ne msg member)
      firstVoteUnique := fun first member _ _ sameRound =>
        absurd sameRound (start.ballots_ne first member)
      gradecasts := fun msg member sameRound =>
        absurd sameRound (start.gradecasts_ne msg member)
      gradecastUnique := fun first member _ _ sameRound =>
        absurd sameRound (start.gradecasts_ne first member)
      confirmations_eq := start.confirmations_eq
      proposals := start.proposals
      stored := start.stored
      accepted := fun block member => absurd rfl (start.accepted_ne _ member)
      inRound := fun _ => ?_ }
  refine
    { threshold_eq := start.threshold_eq
      counted := ⟨[], by simp, ?_⟩
      early := fun _ => ⟨start.gradecasts_ne, fun step => (start.timers_ne step).1,
        fun msg member sameRound =>
          absurd sameRound (start.ballots_ne msg member)⟩
      waiting := ?_
      gcLastStep := fun step member => absurd member (start.timers_ne step).1 }
  · exact
      { bbaHistory := fun key pk sameRound =>
          congrArg Option.isSome (start.bbaHistory_eq key pk sameRound)
        gcHistory := start.gcHistory_eq
        count := fun key wanted sameRound =>
          start.count_eq key wanted sameRound }
  · rintro - ⟨msg, member, sameRound, -⟩
    exact absurd sameRound (start.ballots_ne msg member)

/-- The invariant holds throughout a run that keeps votes. -/
theorem Upholds.of_run {last : Shard n} (upholds : shard.Upholds hashing threshold round)
    (run : Relation.ReflTransGen (Moves hashing threshold (Executor.KeepsVote round)) shard last) :
    last.Upholds hashing threshold round := by
  induction run with
  | refl => exact upholds
  | tail _ move ih => exact ih.moves move

end Shard

/-- The executors of a shard agree on the block of a round, if no timeout makes
one of them vote against its own vote of the step before. -/
theorem agreesOn_of_run {n : ℕ} (hashing : Hashing) (threshold round : Int) (shard last : Shard n)
    (keys : Function.Injective fun index => (shard index).pk)
    (twoThirds : 2 * (n : Int) ≤ 3 * threshold)
    (atStart : ∀ index, (shard index).AtRoundStart hashing threshold round)
    (run : Relation.ReflTransGen
      (Shard.Moves hashing threshold (Executor.KeepsVote round)) shard last) :
    last.AgreesOn hashing round := by
  intro first second firstBlock secondBlock firstAccepted secondAccepted
  have nonempty : 0 < n := first.pos
  have upholds := (Shard.upholds_of_atRoundStart keys (by omega) atStart).of_run run
  exact upholds.sound.same_of_decides
    ((upholds.each first).accepted firstBlock firstAccepted)
    ((upholds.each second).accepted secondBlock secondAccepted)

namespace Example

/-- The block that the leader proposes. -/
def leaderBlock : Wire.MsgBlock :=
  { (default : Wire.MsgBlock) with
    header := { (default : Wire.BlockHeader) with height := 2 } }

/-- Two executors at the start of the first round; the first one leads. -/
def twoExecutors : Shard 2 :=
  ![(Executor.new 0 (Bytes32.fill 1) 2).handle hashing
      { answers 2 with
        isPotentialLeader := true, proposeBlock := some leaderBlock } .start,
    (Executor.new 0 (Bytes32.fill 2) 2).handle hashing (answers 2) .start]

theorem keys_twoExecutors : Function.Injective fun index => (twoExecutors index).pk := by
  decide

theorem atRoundStart_twoExecutors (index : Fin 2) :
    (twoExecutors index).AtRoundStart hashing 2 0 := by
  have sent : ∀ index, ((twoExecutors index).state.round = 0 ∧
        (twoExecutors index).state.step = 2) ∧
      (twoExecutors index).view.ballots = [] ∧
      (twoExecutors index).view.gradecasts = [] ∧
      (twoExecutors index).accepted = [] ∧
      (twoExecutors index).view.confirmations = [] ∧
      ∀ proposal ∈ (twoExecutors index).view.proposals, proposal.block.header.height =
            proposal.signedCredential.message.round + 2 ∧
          proposal.blockHash = hashing.blockHeaderHash proposal.block.header := by
    decide
  have voter : (twoExecutors index).bbaVoter =
      ((BinaryBAVoter.new 1 2).setCurrentRound 0).setThreshold 2 := by
    fin_cases index <;> rfl
  have timers : (twoExecutors index).timers = [.gcStep 0 1] := by
    fin_cases index <;> rfl
  have stored : (twoExecutors index).view.stored =
      (ReceivedData.new.cleanUnusedData 0).receivedBlock := by
    fin_cases index <;> rfl
  obtain ⟨⟨round, step⟩, ballots, gradecasts, accepted, confirmations, proposals⟩ := sent index
  exact
    { round_eq := round
      step_eq := Or.inr step
      threshold_eq := by rw [voter]; rfl
      count_eq := by
        simp [voter, BinaryBAVoter.count, BinaryBAVoter.setThreshold,
          BinaryBAVoter.setCurrentRound, BinaryBAVoter.new]
      bbaHistory_eq := by
        simp [voter, BinaryBAVoter.setThreshold, BinaryBAVoter.setCurrentRound, BinaryBAVoter.new]
      gcHistory_eq := by rw [voter]; exact fun _ => rfl
      ballots_ne := by simp [ballots]
      gradecasts_ne := by simp [gradecasts]
      timers_ne := by simp [timers]
      accepted_ne := by simp [accepted]
      confirmations_eq := confirmations
      proposals := proposals
      stored := by simp [stored, ReceivedData.cleanUnusedData, ReceivedData.new] }

/-- Both executors handle an event in turn. -/
def both (event : Executor.Event) :
    List (Fin 2 × Answers × Executor.Event) :=
  [(0, answers 2, event), (1, answers 2, event)]

/-- Both executors get a message from each of them. -/
def exchange (message : UInt8 → Message) :
    List (Fin 2 × Answers × Executor.Event) :=
  both (.receive (message 1)) ++ both (.receive (message 2))

/-- The round ends with the empty block: nothing is gradecast in time, and the
timeouts vote for one in the steps 4 and 5. -/
def emptyRound : List (Fin 2 × Answers × Executor.Event) :=
  both (.timeout (.gcStep 0 1)) ++ both (.timeout (.gcStep 0 2)) ++
    both (.timeout (.gcLastStep 0 4)) ++ both (.timeout (.bbaNextStep 0 5)) ++
    exchange fun signer => .binaryBA ⟨List.replicate 32 0,
      ⟨Bytes32.fill signer, [], ⟨0, 0, 5, 1, .empty⟩⟩⟩

/-- The credential of a signer in a step of the first round. -/
def credential (signer : UInt8) (step : Int) : SignedMsg Credential :=
  ⟨Bytes32.fill signer, [], ⟨0, step⟩⟩

/-- The value of the leader's block. -/
def leaderValue : ByzAgreementValue :=
  ⟨Bytes32.fill 9, hexEncode (Bytes32.fill 1).bytes⟩

/-- The vote of a signer for the leader's value in a step. -/
def leaderBallot (signer : UInt8) (step : Int) (b : UInt8) : Message :=
  .binaryBA ⟨List.replicate 32 0, ⟨Bytes32.fill signer, [], ⟨0, 0, step, b, leaderValue⟩⟩⟩

/-- Both executors vote for zero in step 4 and, after the timeout, for one in
step 5. The first one gets the votes of step 4, the second one those of
step 5. -/
def splitRound : List (Fin 2 × Answers × Executor.Event) :=
  both (.receive (.seed ⟨0, credential 1 1, [], List.replicate 32 0⟩)) ++
    both (.receive (.leaderProposal ⟨0, List.replicate 32 0,
      { leaderBlock with
        header := { leaderBlock.header with pk := (Bytes32.fill 1).bytes } },
      Bytes32.fill 9, [], [], credential 1 1⟩)) ++
    both (.timeout (.gcStep 0 1)) ++
    exchange (fun signer => .leaderVote ⟨0, List.replicate 32 0,
      ⟨Bytes32.fill signer, [], leaderValue⟩, credential signer 2⟩) ++
    exchange (fun signer => .gc ⟨0, List.replicate 32 0,
      ⟨Bytes32.fill signer, [], leaderValue⟩, credential signer 3⟩) ++
    both (.timeout (.bbaNextStep 0 5)) ++
    [(0, answers 2, .receive (leaderBallot 1 4 0)), (0, answers 2, .receive (leaderBallot 2 4 0)),
      (1, answers 2, .receive (leaderBallot 1 5 1)),
      (1, answers 2, .receive (leaderBallot 2 5 1))]

end Example

/-- A round that ends empty. -/
theorem agreesOn_of_run_emptyRound :
    let last := Example.twoExecutors.handleAll Example.hashing Example.emptyRound
    (∀ index, (Example.twoExecutors index).AtRoundStart Example.hashing 2 0) ∧ Relation.ReflTransGen
        (Shard.Moves Example.hashing 2 (Executor.KeepsVote 0))
        Example.twoExecutors last ∧
      (∀ index, (last index).accepted.length = 1) ∧
      last.AgreesOn Example.hashing 0 := by
  intro last
  have run : Relation.ReflTransGen (Shard.Moves Example.hashing 2 (Executor.KeepsVote 0))
      Example.twoExecutors last :=
    Shard.reflTransGen_handleAll _ _ _ _ _ (by decide +kernel)
  exact ⟨Example.atRoundStart_twoExecutors, run, by decide +kernel,
    agreesOn_of_run Example.hashing 2 0 _ last Example.keys_twoExecutors
      (by norm_num) Example.atRoundStart_twoExecutors run⟩

/-- With two executors and threshold two, one accepts the leader's block and the
other one the empty block. -/
theorem agreesOn_fails_splitRound :
    let last := Example.twoExecutors.handleAll Example.hashing Example.splitRound
    (Function.Injective fun index => (Example.twoExecutors index).pk) ∧
      (∀ index, (Example.twoExecutors index).AtRoundStart Example.hashing 2 0) ∧
      Relation.ReflTransGen (Shard.Moves Example.hashing 2 fun _ _ _ => True)
        Example.twoExecutors last ∧
      ¬ last.AgreesOn Example.hashing 0 := by
  refine ⟨Example.keys_twoExecutors, Example.atRoundStart_twoExecutors,
    Shard.reflTransGen_handleAll _ _ _ _ _ (by decide +kernel), ?_⟩
  intro agrees
  exact agrees 0 1
    (.leader { Example.leaderBlock with
      header := { Example.leaderBlock.header with pk := (Bytes32.fill 1).bytes } })
    (.empty { (default : Wire.BlockHeader) with height := 2 })
    (by decide +kernel) (by decide +kernel)

end MultiVac.Consensus
