import MultiVac.Consensus.Board

/-!
# What an executor upholds during a round

Given the board of a round, an invariant of the view of one executor: its votes
are justified, its first vote and its gradecast are unique, and an accepted
block is decided by a quorum. Each change that a handler makes to the view
keeps it.
-/

namespace MultiVac.Consensus

namespace BinaryBAVoter

variable {bv : BinaryBAVoter} {calls : List VoterCall}

@[simp]
theorem setResultValue_threshold (round : Int) (value : ByzAgreementValue) :
    (bv.setResultValue round value).threshold = bv.threshold := by
  unfold setResultValue
  split <;> rfl

@[simp]
theorem tally_setResultValue (round : Int) (value : ByzAgreementValue)
    (key : VoteKey) (wanted : Option ByzAgreementValue) :
    (bv.setResultValue round value).tally key wanted = bv.tally key wanted := by
  unfold setResultValue
  split <;> rfl

theorem Records.setResultValue {rounds : Int → Prop}
    (records : bv.Records rounds calls) (round : Int) (value : ByzAgreementValue) :
    (bv.setResultValue round value).Records rounds calls := by
  unfold BinaryBAVoter.setResultValue
  split
  · exact ⟨records.bbaHistory, records.gcHistory, records.count⟩
  · exact records

end BinaryBAVoter

/-- What backs an accepted block: a quorum of first votes. -/
def Board.Decides (hashing : Hashing) (threshold round : Int) (board : Board) :
    AcceptedBlock → Prop
  | .leader block => ∃ v, board.ZeroQuorum threshold round v ∧
      hashing.blockHeaderHash block.header = v.blockHash
  | .empty _ => board.OneQuorum threshold round

theorem Board.Grows.decides {hashing : Hashing} {threshold round : Int}
    {before after : Board} (grows : before.Grows after) {block : AcceptedBlock}
    (decides : before.Decides hashing threshold round block) :
    after.Decides hashing threshold round block := by
  cases block with
  | leader block =>
    obtain ⟨v, quorum, hashEqual⟩ := decides
    exact ⟨v, grows.zeroQuorum quorum, hashEqual⟩
  | empty => exact grows.oneQuorum decides

/-- A message as executors that follow the handlers send it. -/
def Board.Delivers (hashing : Hashing) (board : Board) : Message → Prop
  | .binaryBA message => message ∈ board.ballots
  | .gc message => message ∈ board.gradecasts
  | .leaderProposal proposal =>
    proposal.block.header.height = proposal.signedCredential.message.round + 2 ∧
      proposal.blockHash = hashing.blockHeaderHash proposal.block.header
  | .blockConfirmation _ => False
  | .leaderVote _ | .seed _ => True

/-- Quorums decide on one block only. -/
theorem Board.Sound.same_of_decides {hashing : Hashing}
    {threshold round : Int} {members : Finset PkKey} {board : Board}
    (sound : board.Sound threshold round members) {first second : AcceptedBlock}
    (firstDecided : board.Decides hashing threshold round first)
    (secondDecided : board.Decides hashing threshold round second) : first.Same hashing second := by
  cases first with
  | leader firstBlock =>
    obtain ⟨v, firstQuorum, firstHash⟩ := firstDecided
    cases second with
    | leader secondBlock =>
      obtain ⟨w, secondQuorum, secondHash⟩ := secondDecided
      have sameValue := sound.zeroQuorum_unique firstQuorum secondQuorum
      exact firstHash.trans (sameValue ▸ secondHash.symm)
    | empty => exact sound.not_zeroQuorum_of_oneQuorum secondDecided firstQuorum
  | empty =>
    cases second with
    | leader secondBlock =>
      obtain ⟨w, secondQuorum, -⟩ := secondDecided
      exact sound.not_zeroQuorum_of_oneQuorum firstDecided secondQuorum
    | empty => trivial

namespace View

/-- What holds of an executor while it is in the round. -/
structure InRound (threshold round : Int) (board : Board) (view : View) :
    Prop where
  threshold_eq : view.voter.threshold = threshold
  counted : ∃ calls : List VoterCall, (∀ call ∈ calls, call.Authentic board round) ∧
      view.voter.Records (· = round) calls
  /-- Before step 4 nothing has been gradecast or voted for first. -/
  early : view.step ≤ 3 → (∀ message ∈ view.gradecasts,
      message.signedCredential.message.round ≠ round) ∧
    (∀ step, .gcLastStep round step ∉ view.timers) ∧
    ∀ message ∈ view.ballots, message.round = round → message.step ≠ 4
  /-- A first vote leaves the executor in step 4 only if it has not gradecast
  itself. -/
  waiting : view.step = 4 → (∃ message ∈ view.ballots, message.round = round ∧ message.step = 4) →
    (∀ step, .gcLastStep round step ∉ view.timers) ∧
      ∃ v, threshold ≤ view.voter.tally ⟨round, 3, 0⟩ (some v)
  gcLastStep : ∀ step, .gcLastStep round step ∈ view.timers → step = 4

/-- What holds of an executor from the start of the round on. What it had sent
at some earlier time is still sent. -/
structure Upholds (hashing : Hashing) (threshold round : Int) (board : Board)
    (view earlier : View) : Prop where
  pk_eq : view.pk = earlier.pk
  ballots_subset : earlier.ballots ⊆ view.ballots
  gradecasts_subset : earlier.gradecasts ⊆ view.gradecasts
  round_le : round ≤ view.round
  ballots : ∀ message ∈ view.ballots, message.round = round →
    message.pk = view.pk ∧ board.Justified threshold round message
  firstVoteUnique : ∀ first ∈ view.ballots, ∀ second ∈ view.ballots,
    first.round = round → second.round = round →
    first.step = 4 → second.step = 4 →
    first.b = second.b ∧ first.v = second.v
  gradecasts : ∀ message ∈ view.gradecasts, message.signedCredential.message.round = round →
    message.signedCredential.pk = view.pk ∧ message.signedCredential.message.step = 3
  gradecastUnique : ∀ first ∈ view.gradecasts, ∀ second ∈ view.gradecasts,
    first.signedCredential.message.round = round →
    second.signedCredential.message.round = round →
    first.signedVal.message = second.signedVal.message
  confirmations_eq : view.confirmations = []
  proposals : ∀ proposal ∈ view.proposals, proposal.block.header.height =
        proposal.signedCredential.message.round + 2 ∧
      proposal.blockHash = hashing.blockHeaderHash proposal.block.header
  stored : ∀ storedRound hash block, view.stored storedRound hash = some block →
      block.header.height = storedRound + 2 ∧ hashing.blockHeaderHash block.header = hash
  accepted : ∀ block, (round, block) ∈ view.accepted → board.Decides hashing threshold round block
  inRound : view.round = round → view.InRound threshold round board

section Upholds

variable {hashing : Hashing} {threshold round : Int} {board : Board}
  {view earlier : View}

variable {after : Board}

theorem InRound.mono (grows : board.Grows after) (inRound : view.InRound threshold round board) :
    view.InRound threshold round after where
  threshold_eq := inRound.threshold_eq
  counted := by
    obtain ⟨calls, authentic, records⟩ := inRound.counted
    exact ⟨calls, fun call member => (authentic call member).mono grows, records⟩
  early := inRound.early
  waiting := inRound.waiting
  gcLastStep := inRound.gcLastStep

theorem Upholds.mono (grows : board.Grows after)
    (upholds : view.Upholds hashing threshold round board earlier) :
    view.Upholds hashing threshold round after earlier :=
  { upholds with
    ballots := fun msg member sameRound =>
      (upholds.ballots msg member sameRound).imp_right grows.justified
    accepted := fun block member => grows.decides (upholds.accepted block member)
    inRound := fun here => (upholds.inRound here).mono grows }

/-- Every view sends what it has sent. -/
theorem Upholds.rebase (upholds : view.Upholds hashing threshold round board earlier) :
    view.Upholds hashing threshold round board view :=
  { upholds with
    pk_eq := rfl
    ballots_subset := List.Subset.refl _
    gradecasts_subset := List.Subset.refl _ }

/-- Counting a message of the board. -/
theorem InRound.call (inRound : view.InRound threshold round board)
    {call : VoterCall} (authentic : call.Authentic board round) :
    (view.withVoter (view.voter.call call).1).InRound threshold round board where
  threshold_eq := by
    simp only [withVoter, BinaryBAVoter.call_threshold, inRound.threshold_eq]
  counted := by
    obtain ⟨calls, allAuthentic, records⟩ := inRound.counted
    refine ⟨calls ++ [call], ?_, records.call call authentic.round_eq⟩
    intro other member
    rcases List.mem_append.mp member with old | new
    · exact allAuthentic other old
    · rwa [List.mem_singleton.mp new]
  early := inRound.early
  waiting := by
    intro atFour voted
    obtain ⟨noTimer, v, enough⟩ := inRound.waiting atFour voted
    have := (view.voter.extends_call call).tally_le ⟨round, 3, 0⟩ (some v)
    exact ⟨noTimer, v, by simp only [withVoter]; omega⟩
  gcLastStep := inRound.gcLastStep

/-- Setting the result of the round changes no count. -/
theorem InRound.setResultValue (inRound : view.InRound threshold round board)
    (resultRound : Int) (value : ByzAgreementValue) :
    (view.withVoter (view.voter.setResultValue resultRound value)).InRound
      threshold round board where
  threshold_eq := by simp [withVoter, inRound.threshold_eq]
  counted := by
    obtain ⟨calls, authentic, records⟩ := inRound.counted
    exact ⟨calls, authentic, records.setResultValue resultRound value⟩
  early := inRound.early
  waiting := by simpa [withVoter] using inRound.waiting
  gcLastStep := inRound.gcLastStep

variable {voter : BinaryBAVoter}
  {step next : Int} {b : UInt8} {v : ByzAgreementValue} {ballot : Option MsgBinaryBA}

section

variable (upholds : view.Upholds hashing threshold round board earlier)
include upholds

theorem Upholds.withVoter
    (inRound : view.round = round → (view.withVoter voter).InRound threshold round board) :
    (view.withVoter voter).Upholds hashing threshold round board earlier :=
  { upholds with inRound := inRound }

/-- A timer may be dropped. -/
theorem Upholds.erase (timer : Timer) :
    { view with timers := view.timers.erase timer }.Upholds hashing threshold round board earlier :=
  { upholds with
    inRound := fun here =>
      have inRound := upholds.inRound here
      have erased : ∀ {other}, other ∉ view.timers → other ∉ view.timers.erase timer :=
        fun absent member => absent (List.mem_of_mem_erase member)
      { inRound with
        early := fun early =>
          have ⟨noGradecast, noTimer, noVote⟩ := inRound.early early
          ⟨noGradecast, fun step => erased (noTimer step), noVote⟩
        waiting := fun atFour voted =>
          have ⟨noTimer, counted⟩ := inRound.waiting atFour voted
          ⟨fun step => erased (noTimer step), counted⟩
        gcLastStep := fun step member =>
          inRound.gcLastStep step (List.mem_of_mem_erase member) } }

/-- Another tick of the round's ticker. -/
theorem Upholds.tick (tickRound step : Int) :
    { view with timers := view.timers ++ [Timer.gcStep tickRound step] }.Upholds
      hashing threshold round board earlier :=
  { upholds with
    inRound := fun here =>
      have inRound := upholds.inRound here
      { inRound with
        early := by simpa using inRound.early
        waiting := by simpa using inRound.waiting
        gcLastStep := by simpa using inRound.gcLastStep } }

/-- Storing the block of a proposal. -/
theorem Upholds.store {storeRound : Int} {hash : Hash} {block : Wire.MsgBlock}
    (height : block.header.height = storeRound + 2)
    (hashEqual : hash = hashing.blockHeaderHash block.header) :
    (view.store storeRound hash block).Upholds hashing threshold round board
      earlier :=
  { upholds with
    stored := by
      intro storedRound other storedBlock isStored
      simp only [View.store] at isStored
      by_cases sameRound : storedRound = storeRound
      · subst sameRound
        rw [Function.update_self] at isStored
        by_cases sameHash : other = hash
        · subst sameHash
          rw [Function.update_self] at isStored
          obtain rfl := Option.some.inj isStored
          exact ⟨height, hashEqual.symm⟩
        · rw [Function.update_of_ne sameHash] at isStored
          exact upholds.stored storedRound other storedBlock isStored
      · rw [Function.update_of_ne sameRound] at isStored
        exact upholds.stored storedRound other storedBlock isStored
    inRound := fun here => { upholds.inRound here with } }

/-- The executor's gradecast, before step 4. -/
theorem Upholds.gradecast (early : view.step ≤ 3) {val : ByzAgreementValue}
    {gradecast : Option GCMessage} (signs : SignsGradecast view.pk view.round val gradecast) :
    (view.gradecast view.round gradecast).Upholds hashing threshold round board
      earlier := by
  have stepAfter : (view.gradecast view.round gradecast).step = 4 := by
    simp [View.gradecast, setStepInRound, show view.step < 4 by omega]
  -- in the round itself, the msg is the first of this executor
  have content : ∀ msg ∈ (view.gradecast view.round gradecast).gradecasts,
      msg.signedCredential.message.round = round →
      msg ∈ view.gradecasts ∧ view.round ≠ round ∨ msg.signedCredential.pk = view.pk ∧
        msg.signedCredential.message.step = 3 ∧
        msg.signedVal.message = val ∧ view.round = round := by
    intro msg member sameRound
    rcases List.mem_append.mp member with old | new
    · refine Or.inl ⟨old, fun here => ?_⟩
      exact ((upholds.inRound here).early early).1 msg old sameRound
    · obtain ⟨pkEqual, credential, value⟩ := signs msg (Option.mem_toList.mp new)
      rw [credential] at sameRound
      exact Or.inr ⟨pkEqual, by rw [credential], value, sameRound⟩
  refine { upholds with
    gradecasts_subset := List.subset_append_of_subset_left _ upholds.gradecasts_subset
    gradecasts := ?_, gradecastUnique := ?_, inRound := ?_ }
  · intro msg member sameRound
    rcases content msg member sameRound with
      ⟨old, -⟩ | ⟨pkEqual, stepEqual, -⟩
    · exact upholds.gradecasts msg old sameRound
    · exact ⟨pkEqual, stepEqual⟩
  · intro first firstMember second secondMember firstRound secondRound
    rcases content first firstMember firstRound with
        ⟨firstOld, notHere⟩ | ⟨-, -, firstValue, here⟩ <;>
      rcases content second secondMember secondRound with
        ⟨secondOld, notHere'⟩ | ⟨-, -, secondValue, here'⟩
    · exact upholds.gradecastUnique first firstOld second secondOld firstRound secondRound
    · exact absurd here' notHere
    · exact absurd here notHere'
    · exact firstValue.trans secondValue.symm
  · intro here
    have inRound := upholds.inRound here
    refine { inRound with early := ?_, waiting := ?_, gcLastStep := ?_ }
    · intro stillEarly
      omega
    · rintro - ⟨msg, member, sameRound, first⟩
      exact absurd first ((inRound.early early).2.2 msg member sameRound)
    · intro step member
      rcases List.mem_append.mp member with old | new
      · exact absurd old ((inRound.early early).2.1 step)
      · simp only [List.mem_singleton, Timer.gcLastStep.injEq] at new
        exact new.2

/-- A vote of the executor. -/
theorem Upholds.vote
        (signs : SignsVote view.pk view.round step b v ballot)
    (justified : view.round = round → ∀ msg ∈ ballot, board.Justified threshold round msg)
    (fresh : view.round = round → step = 4 → ∀ msg ∈ view.ballots,
      msg.round = round → msg.step ≠ 4) (inRound : view.round = round →
      (view.vote view.round next ballot).InRound threshold round board) :
    (view.vote view.round next ballot).Upholds hashing threshold round board
      earlier := by
  refine { upholds with
    ballots_subset := List.subset_append_of_subset_left _ upholds.ballots_subset
    ballots := ?_, firstVoteUnique := ?_, inRound := inRound }
  · intro msg member sameRound
    rcases List.mem_append.mp member with old | new
    · exact upholds.ballots msg old sameRound
    · have signed := signs msg (Option.mem_toList.mp new)
      exact ⟨signed.1, justified (signed.2.1.symm.trans sameRound) msg
          (Option.mem_toList.mp new)⟩
  · intro first firstMember second secondMember firstRound secondRound firstStep secondStep
    rcases List.mem_append.mp firstMember with firstOld | firstNew <;>
      rcases List.mem_append.mp secondMember with secondOld | secondNew
    · exact upholds.firstVoteUnique first firstOld second secondOld firstRound
        secondRound firstStep secondStep
    · have signed := signs second (Option.mem_toList.mp secondNew)
      exact absurd firstStep (fresh (signed.2.1.symm.trans secondRound)
        (signed.2.2.1.symm.trans secondStep) first firstOld firstRound)
    · have signed := signs first (Option.mem_toList.mp firstNew)
      exact absurd secondStep (fresh (signed.2.1.symm.trans firstRound)
        (signed.2.2.1.symm.trans firstStep) second secondOld secondRound)
    · have firstSigned := signs first (Option.mem_toList.mp firstNew)
      have secondSigned := signs second (Option.mem_toList.mp secondNew)
      exact ⟨firstSigned.2.2.2.1.trans secondSigned.2.2.2.1.symm,
        firstSigned.2.2.2.2.trans secondSigned.2.2.2.2.symm⟩

/-- A block is accepted for the current round and the next one entered. -/
theorem Upholds.enter {a : Answers} {block : AcceptedBlock} {after : View} {step : Int}
    {ballot : Option MsgBinaryBA}
    (decides : view.round = round → board.Decides hashing threshold round block)
    (signs : SignsEnd view.round step ballot) (late : view.round = round → 0 < step)
    (entered : Entered hashing a
      (((view.withVoter voter).accept view.round block).cast ballot) (view.round + 1) after) :
    after.Upholds hashing threshold round board earlier := by
  have roundLe := upholds.round_le
  have roundAfter := entered.round_eq
  -- In the round itself the vote that ends it is a final one.
  have own : ∀ msg ∈ after.ballots, msg.round = round → msg ∈ view.ballots := by
    intro msg member sameRound
    rw [entered.ballots_eq] at member
    rcases List.mem_append.mp member with old | new
    · exact old
    · have isBallot := Option.mem_toList.mp new
      rw [signs.final (late ((signs.round_eq msg isBallot).symm.trans sameRound))] at isBallot
      cases isBallot
  refine ⟨entered.pk_eq.trans upholds.pk_eq, ?_, ?_, by omega, ?_, ?_, ?_, ?_,
    ?_, ?_, ?_, ?_, by omega⟩
  · rw [entered.ballots_eq]
    exact List.subset_append_of_subset_left _ upholds.ballots_subset
  · rw [entered.gradecasts_eq]
    exact upholds.gradecasts_subset
  · rw [entered.pk_eq]
    exact fun msg member sameRound => upholds.ballots msg (own msg member sameRound) sameRound
  · exact fun first firstMember second secondMember firstRound secondRound =>
      upholds.firstVoteUnique first (own first firstMember firstRound) second
        (own second secondMember secondRound) firstRound secondRound
  · rw [entered.gradecasts_eq, entered.pk_eq]
    exact upholds.gradecasts
  · rw [entered.gradecasts_eq]
    exact upholds.gradecastUnique
  · rw [entered.confirmations_eq]
    exact upholds.confirmations_eq
  · intro proposal member
    rcases entered.mem_proposals proposal member with
      old | ⟨roundEqual, height, hashEqual⟩
    · exact upholds.proposals proposal old
    · rw [roundEqual]
      exact ⟨height, hashEqual⟩
  · intro storedRound hash storedBlock isStored
    exact upholds.stored storedRound hash storedBlock
      (entered.stored_imp storedRound hash storedBlock isStored)
  · rw [entered.accepted_eq]
    intro other member
    rcases List.mem_append.mp member with old | new
    · exact upholds.accepted other old
    · simp only [List.mem_singleton, Prod.mk.injEq] at new
      rw [new.2]
      exact decides new.1.symm

end

/-- Going to step 4. -/
theorem InRound.setStepInRound (inRound : view.InRound threshold round board)
    (here : view.round = round) : (view.setStepInRound round 4).InRound threshold round board := by
  by_cases early : view.step < 4
  · have stepAfter : (view.setStepInRound round 4).step = 4 := by
      simp [View.setStepInRound, early, here]
    refine { inRound with early := by omega, waiting := ?_ }
    rintro - ⟨msg, member, sameRound, first⟩
    exact absurd first ((inRound.early (by omega)).2.2 msg member sameRound)
  · simpa [View.setStepInRound, early] using inRound

theorem Upholds.setStepInRound (upholds : view.Upholds hashing threshold round board earlier) :
    (view.setStepInRound view.round 4).Upholds hashing threshold round board
      earlier :=
  { upholds with
    inRound := fun (here : view.round = round) => by
      rw [here]
      exact (upholds.inRound here).setStepInRound here }

variable (inRound : view.InRound threshold round board)
include inRound

/-- A first vote with which step 4 is left. -/
theorem InRound.vote_first (here : view.round = round) (atFour : view.step = 4) (ballot : Option MsgBinaryBA) :
    (view.vote round 5 ballot).InRound threshold round board := by
  have stepAfter : (view.vote round 5 ballot).step = 5 := by
    simp [View.vote, View.setNextStepInRound, atFour, here]
  refine { inRound with
    early := by omega, waiting := by omega, gcLastStep := ?_ }
  intro step member
  rcases List.mem_append.mp member with old | new
  · exact inRound.gcLastStep step old
  · simp at new

/-- A first vote before the executor has gradecast; it goes to step 4 and waits
there. -/
theorem InRound.vote_waiting (here : view.round = round) (early : view.step ≤ 3)
    (enough : threshold ≤ view.voter.tally ⟨round, 3, 0⟩ (some v)) (ballot : Option MsgBinaryBA) :
    ((view.setStepInRound round 4).vote round (view.step + 1) ballot).InRound
      threshold round board := by
  obtain ⟨noGradecast, noTimer, noVote⟩ := inRound.early early
  have stepAfter : ((view.setStepInRound round 4).vote round (view.step + 1) ballot).step = 4 := by
    simp [View.vote, View.setNextStepInRound, View.setStepInRound, here,
      show view.step < 4 by omega, show ¬ 4 = view.step by omega]
  have noTimerAfter : ∀ step, .gcLastStep round step ∉
      ((view.setStepInRound round 4).vote round (view.step + 1) ballot).timers := by
    intro step member
    exact noTimer step (by simpa [View.vote, View.setStepInRound] using member)
  exact { inRound with
    early := by omega
    waiting := fun _ _ => ⟨noTimerAfter, v, enough⟩
    gcLastStep := fun step member => absurd member (noTimerAfter step) }

/-- A vote for a later step. -/
theorem InRound.vote_later {pk : PkKey} (signs : SignsVote pk round step b v ballot)
    (late : 5 ≤ step) (nextLate : 5 ≤ next) :
    (view.vote round next ballot).InRound threshold round board := by
  have firstVotes : ∀ msg ∈ (view.vote round next ballot).ballots,
      msg.step = 4 → msg ∈ view.ballots := by
    intro msg member first
    rcases List.mem_append.mp member with old | new
    · exact old
    · have := (signs msg (Option.mem_toList.mp new)).2.2.1
      omega
  have stepAfter : (view.vote round next ballot).step = view.step ∨
      5 ≤ (view.vote round next ballot).step := by
    simp only [View.vote, View.setNextStepInRound]
    split_ifs <;> omega
  have timers : ∀ timerStep, .gcLastStep round timerStep ∈ (view.vote round next ballot).timers →
      .gcLastStep round timerStep ∈ view.timers := by
    intro timerStep member
    simpa [View.vote] using member
  refine { inRound with early := ?_, waiting := ?_, gcLastStep := ?_ }
  · intro early
    obtain ⟨noGradecast, noTimer, noVote⟩ := inRound.early (by omega)
    refine ⟨noGradecast, fun timerStep member => noTimer _ (timers _ member), ?_⟩
    intro msg member sameRound first
    exact noVote msg (firstVotes msg member first) sameRound first
  · rintro atFour ⟨msg, member, sameRound, first⟩
    obtain ⟨noTimer, counted⟩ := inRound.waiting (by omega)
      ⟨msg, firstVotes msg member first, sameRound, first⟩
    exact ⟨fun timerStep member => noTimer _ (timers _ member), counted⟩
  · exact fun timerStep member => inRound.gcLastStep _ (timers _ member)

variable {members : Finset PkKey} {report : VoteReport}

/-- A first total agreement on a gradecast value: a quorum has gradecast it, and
no value has been agreed on before. -/
theorem InRound.gradecast_agreed (sound : board.Sound threshold round members)
    {msg : GCMessage} (posted : msg ∈ board.gradecasts)
    (sameRound : msg.signedCredential.message.round = round)
        (counted :
      view.voter.addGCVote msg.signedCredential.message.round
        msg.signedCredential.message.step 0 msg.signedVal.message
        msg.signedCredential.pk = (voter, report))
    (total : report.agreeType = .totalAgreeOnZero) (first : report.haveBroadcast = false) :
    board.GradecastQuorum threshold round msg.signedVal.message ∧
      threshold ≤ voter.tally ⟨round, 3, 0⟩ (some msg.signedVal.message) ∧
      ∀ v, (view.voter.tally ⟨round, 3, 0⟩ (some v) : Int) < threshold := by
  have authentic : VoterCall.Authentic board round _ := .gradecast msg posted sameRound
  have sameStep := sound.gradecastStep msg posted sameRound
  have after := inRound.call authentic
  have raised := view.voter.tally_of_call_totalAgreeOnZero
    (.addGCVote msg.signedCredential.message.round
      msg.signedCredential.message.step 0 msg.signedVal.message
      msg.signedCredential.pk)
  simp only [BinaryBAVoter.call, counted, VoterCall.vote] at after raised
  obtain ⟨less, reached⟩ := raised total first
  rw [sameRound, sameStep] at less reached
  have sameThreshold : voter.threshold = threshold := after.threshold_eq
  obtain ⟨calls, allAuthentic, records⟩ := inRound.counted
  obtain ⟨callsAfter, authenticAfter, recordsAfter⟩ := after.counted
  have quorum : board.GradecastQuorum threshold round msg.signedVal.message :=
    gradecastQuorum_of_hasQuorum sound authenticAfter
      (hasQuorum_of_authentic sound authenticAfter recordsAfter
        (by simp only [View.withVoter]; omega))
  refine ⟨quorum, by omega, ?_⟩
  intro v
  by_contra enough
  have otherQuorum : board.GradecastQuorum threshold round v :=
    gradecastQuorum_of_hasQuorum sound allAuthentic
      (hasQuorum_of_authentic sound allAuthentic records (not_lt.mp enough))
  rw [sound.gradecastQuorum_unique otherQuorum quorum] at enough
  omega

/-- An agreement of votes is total on zero in step 4, or on one, and a quorum of
first votes stands behind it. -/
theorem InRound.vote_agreed (sound : board.Sound threshold round members)
    {msg : MsgBinaryBA} (posted : msg ∈ board.ballots) (sameRound : msg.round = round)
        (counted :
      view.voter.addVoteWithBBAMsg msg.round msg.step msg.b
        (Executor.countedValue msg) msg = (voter, report))
    {key : VoteKey} (reported : report.key = some key) :
    key = ⟨round, msg.step, msg.b⟩ ∧
    (msg.b = 0 ∧ report.agreeType = .totalAgreeOnZero ∧
        msg.step = 4 ∧ board.ZeroQuorum threshold round msg.v ∨
      msg.b = 1 ∧ report.agreeType = .agreeOnOne ∧
        4 ≤ msg.step ∧ board.OneQuorum threshold round) := by
  have authentic : VoterCall.Authentic board round _ := .vote msg posted sameRound
  have after := inRound.call authentic
  have compared := view.voter.call_report (.addVoteWithBBAMsg msg.round msg.step msg.b
      (Executor.countedValue msg) msg) key
  simp only [BinaryBAVoter.call, counted, VoterCall.vote] at after compared
  rw [sameRound] at compared
  have reportEqual := compared reported
  rw [reportEqual] at reported
  obtain ⟨keyEqual, enough⟩ := voter.threshold_le_tally_of_report _ _ _ reported
  rw [← reportEqual, show voter.threshold = threshold from after.threshold_eq] at enough
  obtain ⟨calls, allAuthentic, records⟩ := after.counted
  refine ⟨keyEqual, ?_⟩
  rcases sound.justified msg posted sameRound with
    ⟨zero, first, -⟩ | ⟨one, late, -⟩
  · have value : Executor.countedValue msg = msg.v := by
      simp [Executor.countedValue, zero]
    have total : report.agreeType = .totalAgreeOnZero := by
      rw [reportEqual]
      refine voter.agreeType_eq_totalAgreeOnZero _ key _ zero ?_ reported
      rw [value, zero]
      exact tally_zero_eq sound allAuthentic records posted sameRound zero
    simp only [VoteReport.agreedValue, total, value, zero] at enough
    exact Or.inl ⟨zero, total, first, zeroQuorum_of_hasQuorum sound allAuthentic first.ge
        (hasQuorum_of_authentic sound allAuthentic records enough)⟩
  · rw [one] at enough
    refine Or.inr ⟨one, ?_, late, oneQuorum_of_hasQuorum sound allAuthentic
        (hasQuorum_of_authentic sound allAuthentic records enough)⟩
    rw [reportEqual]
    refine (voter.agreeType_eq_agreeOnOne_iff _ key _ reported).mpr ?_
    simp [keyEqual, one]

end Upholds
end View

end MultiVac.Consensus
