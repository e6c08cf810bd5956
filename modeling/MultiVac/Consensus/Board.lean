import MultiVac.Consensus.VoteCounting
import MultiVac.Consensus.Network

/-!
# The posted votes of one round

The votes and gradecast messages that the executors of a shard have broadcast
form a board. On the board of executors that follow the handlers at most one
value is gradecast by a quorum, and the first votes of the binary agreement
cannot have a quorum for zero and one for one.
-/

namespace MultiVac.Consensus

open Lib

/-- The votes and the gradecast messages that have been broadcast. -/
structure Board where
  ballots : Set MsgBinaryBA
  gradecasts : Set GCMessage

namespace Board

variable (threshold round : Int) (board : Board)

/-- The signer has gradecast the value in the round. -/
def Gradecasts (round : Int) (v : ByzAgreementValue) (pk : PkKey) : Prop :=
  ∃ message ∈ board.gradecasts, message.signedCredential.pk = pk ∧
    message.signedCredential.message.round = round ∧
    message.signedVal.message = v

/-- The signer has cast the vote in step 4, the first of the binary
agreement. -/
def FirstVotes (round : Int) (b : UInt8) (v : ByzAgreementValue) (pk : PkKey) : Prop :=
  ∃ message ∈ board.ballots, message.pk = pk ∧ message.round = round ∧
    message.step = 4 ∧ message.b = b ∧ message.v = v

/-- A quorum has gradecast the value. -/
def GradecastQuorum (v : ByzAgreementValue) : Prop :=
  Quorum threshold (board.Gradecasts round v)

/-- A quorum has first voted for zero with the value. -/
def ZeroQuorum (v : ByzAgreementValue) : Prop :=
  Quorum threshold (board.FirstVotes round 0 v)

/-- A quorum has first voted for one. -/
def OneQuorum : Prop :=
  Quorum threshold fun pk => ∃ v, board.FirstVotes round 1 v pk

/-- A vote for zero is a first vote, for a gradecast value; a later vote for
one follows a first vote for one of the same signer or of a quorum. -/
def Justified (message : MsgBinaryBA) : Prop :=
  (message.b = 0 ∧ message.step = 4 ∧ message.v.blockHash ≠ Bytes32.zero ∧
    board.GradecastQuorum threshold round message.v) ∨
  (message.b = 1 ∧ 4 ≤ message.step ∧
    (message.step = 4 ∨ (∃ v, board.FirstVotes round 1 v message.pk) ∨
      board.OneQuorum threshold round))

/-- The board grows. -/
structure Grows (before after : Board) : Prop where
  ballots : before.ballots ⊆ after.ballots
  gradecasts : before.gradecasts ⊆ after.gradecasts

section Grows

variable {threshold round : Int} {before after : Board}
  {v : ByzAgreementValue} {b : UInt8} {pk : PkKey}

section

variable (grows : Grows before after)
include grows

theorem Grows.gradecastsBy (gradecast : before.Gradecasts round v pk) :
    after.Gradecasts round v pk := by
  obtain ⟨msg, posted, content⟩ := gradecast
  exact ⟨msg, grows.gradecasts posted, content⟩

theorem Grows.firstVotes (voted : before.FirstVotes round b v pk) :
    after.FirstVotes round b v pk := by
  obtain ⟨msg, posted, content⟩ := voted
  exact ⟨msg, grows.ballots posted, content⟩

theorem Grows.gradecastQuorum (quorum : before.GradecastQuorum threshold round v) :
    after.GradecastQuorum threshold round v :=
  quorum.mono fun _ => grows.gradecastsBy

theorem Grows.zeroQuorum (quorum : before.ZeroQuorum threshold round v) :
    after.ZeroQuorum threshold round v :=
  quorum.mono fun _ => grows.firstVotes

theorem Grows.oneQuorum (quorum : before.OneQuorum threshold round) :
    after.OneQuorum threshold round :=
  quorum.mono fun _ ⟨v, voted⟩ => ⟨v, grows.firstVotes voted⟩

theorem Grows.justified {msg : MsgBinaryBA} (justified : before.Justified threshold round msg) :
    after.Justified threshold round msg := by
  rcases justified with ⟨zero, first, notEmpty, quorum⟩ |
    ⟨one, late, first | ⟨v, voted⟩ | quorum⟩
  · exact Or.inl ⟨zero, first, notEmpty, grows.gradecastQuorum quorum⟩
  · exact Or.inr ⟨one, late, Or.inl first⟩
  · exact Or.inr ⟨one, late, Or.inr (Or.inl ⟨v, grows.firstVotes voted⟩)⟩
  · exact Or.inr ⟨one, late, Or.inr (Or.inr (grows.oneQuorum quorum))⟩

end

end Grows

/-- The board of executors that follow the handlers: few enough signers for two
quorums to meet, one gradecast and one first vote of each, and justified
votes. -/
structure Sound (threshold round : Int) (members : Finset PkKey)
    (board : Board) : Prop where
  fewMembers : (members.card : Int) < 2 * threshold
  gradecaster : ∀ v pk, board.Gradecasts round v pk → pk ∈ members
  signer : ∀ b v pk, board.FirstVotes round b v pk → pk ∈ members
  gradecastStep : ∀ message ∈ board.gradecasts, message.signedCredential.message.round = round →
    message.signedCredential.message.step = 3
  gradecastUnique : ∀ pk first second, board.Gradecasts round first pk →
    board.Gradecasts round second pk → first = second
  firstVoteUnique : ∀ pk b first c second, board.FirstVotes round b first pk →
    board.FirstVotes round c second pk → b = c ∧ first = second
  justified : ∀ message ∈ board.ballots, message.round = round →
    board.Justified threshold round message

section Sound

variable {threshold round : Int} {members : Finset PkKey} {board : Board} {v w : ByzAgreementValue}

section

variable (sound : board.Sound threshold round members)
include sound

theorem Sound.gradecastQuorum_unique (first : board.GradecastQuorum threshold round v)
    (second : board.GradecastQuorum threshold round w) : v = w := by
  obtain ⟨pk, gradecastFirst, gradecastSecond⟩ :=
    Quorum.exists_common members sound.fewMembers first second
      (sound.gradecaster v) (sound.gradecaster w)
  exact sound.gradecastUnique pk v w gradecastFirst gradecastSecond

theorem Sound.zeroQuorum_unique (first : board.ZeroQuorum threshold round v)
    (second : board.ZeroQuorum threshold round w) : v = w := by
  obtain ⟨pk, votedFirst, votedSecond⟩ := Quorum.exists_common members sound.fewMembers first second
      (sound.signer 0 v) (sound.signer 0 w)
  exact (sound.firstVoteUnique pk 0 v 0 w votedFirst votedSecond).2

theorem Sound.not_zeroQuorum_of_oneQuorum (one : board.OneQuorum threshold round) :
    ¬ board.ZeroQuorum threshold round v := by
  intro zero
  obtain ⟨pk, ⟨w, votedOne⟩, votedZero⟩ := Quorum.exists_common members sound.fewMembers one zero
      (fun pk ⟨w, voted⟩ => sound.signer 1 w pk voted) (sound.signer 0 v)
  exact absurd (sound.firstVoteUnique pk 1 w 0 v votedOne votedZero).1
    (by decide)

/-- All votes for zero are for one value. -/
theorem Sound.zero_value_unique {first second : MsgBinaryBA} (firstPosted : first ∈ board.ballots)
    (secondPosted : second ∈ board.ballots)
    (firstRound : first.round = round) (secondRound : second.round = round)
    (firstZero : first.b = 0) (secondZero : second.b = 0) : first.v = second.v := by
  rcases sound.justified first firstPosted firstRound with
    ⟨-, -, -, firstQuorum⟩ | ⟨one, -⟩
  · rcases sound.justified second secondPosted secondRound with
      ⟨-, -, -, secondQuorum⟩ | ⟨one, -⟩
    · exact sound.gradecastQuorum_unique firstQuorum secondQuorum
    · exact absurd (secondZero.symm.trans one) (by decide)
  · exact absurd (firstZero.symm.trans one) (by decide)

end

end Sound
end Board

/-- A call that counts a message of the round from the board. -/
inductive VoterCall.Authentic (board : Board) (round : Int) : VoterCall → Prop
  | vote (message : MsgBinaryBA) (posted : message ∈ board.ballots)
      (sameRound : message.round = round) :
      Authentic board round (.addVoteWithBBAMsg message.round message.step
        message.b (Executor.countedValue message) message)
  | gradecast (message : GCMessage) (posted : message ∈ board.gradecasts)
      (sameRound : message.signedCredential.message.round = round) :
      Authentic board round (.addGCVote message.signedCredential.message.round
        message.signedCredential.message.step 0 message.signedVal.message
        message.signedCredential.pk)

section Authentic

variable {threshold round : Int} {members : Finset PkKey} {board : Board}
  {calls : List VoterCall}

variable {call : VoterCall}

theorem VoterCall.Authentic.mono {after : Board} (grows : board.Grows after)
    (authentic : call.Authentic board round) : call.Authentic after round := by
  cases authentic with
  | vote msg posted sameRound =>
    exact .vote msg (grows.ballots posted) sameRound
  | gradecast msg posted sameRound =>
    exact .gradecast msg (grows.gradecasts posted) sameRound

theorem VoterCall.Authentic.round_eq (authentic : call.Authentic board round) :
    call.vote.key.round = round := by
  cases authentic with
  | vote msg posted sameRound => exact sameRound
  | gradecast msg posted sameRound => exact sameRound

theorem VoterCall.Authentic.plain (authentic : call.Authentic board round)
    (sound : board.Sound threshold round members) : call.Plain := by
  cases authentic with
  | vote msg posted sameRound =>
    rcases sound.justified msg posted sameRound with
      ⟨-, first, -⟩ | ⟨-, late, -⟩
    · exact first.ge
    · exact late
  | gradecast msg posted sameRound =>
    exact sound.gradecastStep msg posted sameRound

variable {bv : BinaryBAVoter} {step : Int} {wanted : Option ByzAgreementValue}
  {v : ByzAgreementValue}

section

variable (sound : board.Sound threshold round members)
  (authentic : ∀ call ∈ calls, call.Authentic board round)
include sound authentic

/-- What a voter counts of a round is backed by the board. -/
theorem hasQuorum_of_authentic (records : bv.Records (· = round) calls) {b : UInt8}
    (enough : threshold ≤ bv.tally ⟨round, step, b⟩ wanted) :
    HasQuorum threshold calls ⟨round, step, b⟩ wanted :=
  records.hasQuorum (countedOnce_of_plain calls fun call member =>
      (authentic call member).plain sound)
    rfl enough

/-- A quorum of gradecast votes that have been counted. -/
theorem gradecastQuorum_of_hasQuorum
    (quorum : HasQuorum threshold calls ⟨round, 3, 0⟩ (some v)) :
    board.GradecastQuorum threshold round v := by
  refine quorum.mono ?_
  rintro pk ⟨call, member, rfl, supports⟩
  have plain := (authentic call member).plain sound
  simp only [Vote.supports, VoteValue.matchesValue_some, Bool.and_eq_true,
    decide_eq_true_eq] at supports
  obtain ⟨⟨-, -, summed⟩, value⟩ := supports
  have sameStep := SummedAt.eq summed plain.three_le
  cases authentic call member with
  | vote msg posted sameRound =>
    simp only [VoterCall.Plain, VoterCall.vote] at plain sameStep
    omega
  | gradecast msg posted sameRound =>
    exact ⟨msg, posted, rfl, sameRound, value⟩

/-- A quorum for zero with one value that has been counted. -/
theorem zeroQuorum_of_hasQuorum (late : 4 ≤ step)
    (quorum : HasQuorum threshold calls ⟨round, step, 0⟩ (some v)) :
    board.ZeroQuorum threshold round v := by
  refine quorum.mono ?_
  rintro pk ⟨call, member, rfl, supports⟩
  have plain := (authentic call member).plain sound
  simp only [Vote.supports, VoteValue.matchesValue_some, Bool.and_eq_true,
    decide_eq_true_eq] at supports
  obtain ⟨⟨-, zero, summed⟩, value⟩ := supports
  have sameStep := SummedAt.eq summed plain.three_le
  cases authentic call member with
  | gradecast msg posted sameRound =>
    simp only [VoterCall.Plain, VoterCall.vote] at plain sameStep
    omega
  | vote msg posted sameRound =>
    simp only [VoterCall.vote] at zero value
    rcases sound.justified msg posted sameRound with
      ⟨-, first, -⟩ | ⟨one, -⟩
    · refine ⟨msg, posted, rfl, sameRound, first, zero, ?_⟩
      simpa [Executor.countedValue, zero] using value
    · exact absurd (zero.symm.trans one) (by decide)

/-- A quorum for one that has been counted, in any step. -/
theorem oneQuorum_of_hasQuorum (quorum : HasQuorum threshold calls ⟨round, step, 1⟩ wanted) :
    board.OneQuorum threshold round := by
  by_contra noQuorum
  refine noQuorum (quorum.mono ?_)
  rintro pk ⟨call, member, rfl, supports⟩
  simp only [Vote.supports, Bool.and_eq_true, decide_eq_true_eq] at supports
  obtain ⟨⟨-, one, -⟩, -⟩ := supports
  cases authentic call member with
  | gradecast msg posted sameRound =>
    exact absurd one (by simp [VoterCall.vote])
  | vote msg posted sameRound =>
    simp only [VoterCall.vote] at one
    rcases sound.justified msg posted sameRound with
      ⟨zero, -⟩ | ⟨-, -, first | voted | hasQuorum⟩
    · exact absurd (one.symm.trans zero) (by decide)
    · exact ⟨msg.v, msg, posted, rfl, sameRound, first, one, rfl⟩
    · exact voted
    · exact absurd hasQuorum noQuorum

/-- Votes for zero are never split between values. -/
theorem tally_zero_eq (records : bv.Records (· = round) calls) {msg : MsgBinaryBA}
    (posted : msg ∈ board.ballots) (sameRound : msg.round = round) (zero : msg.b = 0) :
    bv.tally ⟨round, msg.step, 0⟩ (some msg.v) =
      bv.tally ⟨round, msg.step, 0⟩ none := by
  rw [records.tally_eq ⟨round, msg.step, 0⟩ _ rfl,
    records.tally_eq ⟨round, msg.step, 0⟩ _ rfl]
  have late : 4 ≤ msg.step := (VoterCall.Authentic.vote msg posted sameRound).plain sound
  apply List.countP_congr
  intro vote voteCast
  obtain ⟨call, member, rfl⟩ := VoterCall.exists_call_of_mem_castVotes _ _ voteCast
  have plain := (authentic call member).plain sound
  simp only [Vote.supports, VoteValue.matchesValue_none,
    VoteValue.matchesValue_some, Bool.and_eq_true, decide_eq_true_eq, and_true]
  refine ⟨fun supports => supports.1, fun supports => ⟨supports, ?_⟩⟩
  obtain ⟨-, otherZero, summed⟩ := supports
  have sameStep := SummedAt.eq summed plain.three_le
  cases authentic call member with
  | gradecast other otherPosted otherRound =>
    simp only [VoterCall.Plain, VoterCall.vote] at plain sameStep
    omega
  | vote other otherPosted otherRound =>
    simp only [VoterCall.vote] at otherZero
    have sameValue := sound.zero_value_unique otherPosted posted otherRound sameRound otherZero zero
    simpa [VoterCall.vote, Executor.countedValue, otherZero] using sameValue

end

end Authentic

end MultiVac.Consensus
