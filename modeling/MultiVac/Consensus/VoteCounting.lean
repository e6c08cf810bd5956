import MultiVac.Lib.Counting
import MultiVac.Consensus.Voter

/-!
# Who stands behind a reported agreement

The voter adds up the votes of one step and the final votes of all earlier
steps. The counts are exact, so the distinct signers behind an agreement are
as many as the threshold asks for whenever no signer is counted twice.
-/

namespace MultiVac.Consensus

open Lib

/-- A call that adds a vote to the voter. -/
inductive VoterCall where
  | addVoteWithBBAMsg (round step : Int) (b : UInt8)
      (value : ByzAgreementValue) (msgbba : MsgBinaryBA)
  | addGCVote (round step : Int) (b : UInt8) (value : ByzAgreementValue) (pk : PkKey)

/-- A vote with its signer. -/
structure Vote where
  pk : PkKey
  key : VoteKey
  value : ByzAgreementValue

/-- The vote that a call casts. -/
def VoterCall.vote : VoterCall → Vote
  | addVoteWithBBAMsg round step b value msgbba =>
    ⟨msgbba.pk, ⟨round, step, b⟩, value⟩
  | addGCVote round step b value pk => ⟨pk, ⟨round, step, b⟩, value⟩

/-- One call on a voter. -/
def BinaryBAVoter.call (bv : BinaryBAVoter) :
    VoterCall → BinaryBAVoter × VoteReport
  | .addVoteWithBBAMsg round step b value msgbba =>
    bv.addVoteWithBBAMsg round step b value msgbba
  | .addGCVote round step b value pk => bv.addGCVote round step b value pk

namespace BinaryBAVoter

/-- A voter that has counted more, with the same threshold and result. -/
structure Extends (after before : BinaryBAVoter) : Prop where
  threshold_eq : after.threshold = before.threshold
  resultValue_eq : after.resultValue = before.resultValue
  resRound_eq : after.resRound = before.resRound
  count_le : ∀ key wanted, before.count key wanted ≤ after.count key wanted

variable (bv : BinaryBAVoter) (call : VoterCall)

theorem Extends.refl : bv.Extends bv where
  threshold_eq := rfl
  resultValue_eq := rfl
  resRound_eq := rfl
  count_le := fun _ _ => le_rfl

theorem Extends.tally_le {after before : BinaryBAVoter}
    (extended : after.Extends before) (key : VoteKey) (wanted : Option ByzAgreementValue) :
    before.tally key wanted ≤ after.tally key wanted :=
  Nat.add_le_add (extended.count_le key wanted)
    (List.sum_le_sum fun _ _ => extended.count_le _ wanted)

theorem extends_countVote (key : VoteKey) (value : ByzAgreementValue) :
    (bv.countVote key value).Extends bv where
  threshold_eq := rfl
  resultValue_eq := rfl
  resRound_eq := rfl
  count_le := by
    intro other wanted
    rw [count_countVote]
    exact Nat.le_add_right _ _

theorem extends_call : (bv.call call).1.Extends bv := by
  cases call with
  | addVoteWithBBAMsg round step b value msgbba =>
    simp only [BinaryBAVoter.call, addVoteWithBBAMsg]
    split
    · exact Extends.refl bv
    · exact { extends_countVote bv ⟨round, step, b⟩ value with }
  | addGCVote round step b value pk =>
    simp only [BinaryBAVoter.call, addGCVote]
    split
    · exact Extends.refl bv
    · exact { extends_countVote bv ⟨round, step, b⟩ value with }

end BinaryBAVoter

/-- A sequence of calls, from left to right. -/
def BinaryBAVoter.run (bv : BinaryBAVoter) (calls : List VoterCall) :
    BinaryBAVoter :=
  calls.foldl (fun voter call => (voter.call call).1) bv

@[simp]
theorem BinaryBAVoter.run_append_singleton
    (bv : BinaryBAVoter) (calls : List VoterCall) (call : VoterCall) :
    bv.run (calls ++ [call]) = ((bv.run calls).call call).1 := by
  simp [run]

namespace VoterCall

/-- A counted vote of one signer under one key. -/
def votesUnder (key : VoteKey) (pk : PkKey) : VoterCall → Bool
  | addVoteWithBBAMsg round step b _ msgbba =>
    decide ((⟨round, step, b⟩ : VoteKey) = key ∧ msgbba.pk = pk)
  | addGCVote .. => false

/-- A gradecast vote of one signer. -/
def gradecastBy (pk : PkKey) : VoterCall → Bool
  | addVoteWithBBAMsg .. => false
  | addGCVote _ _ _ _ signer => decide (signer = pk)

/-- A call that the voter drops because the same signer was heard before:
under the same key for a vote, in any gradecast vote for a gradecast vote. -/
def repeats (earlier : List VoterCall) : VoterCall → Bool
  | addVoteWithBBAMsg round step b _ msgbba =>
    earlier.any (votesUnder ⟨round, step, b⟩ msgbba.pk)
  | addGCVote _ _ _ _ pk => earlier.any (gradecastBy pk)

/-- The votes of the calls that are not repeats, after some earlier calls. -/
def castAfter (earlier : List VoterCall) : List VoterCall → List Vote
  | [] => []
  | call :: rest =>
    if call.repeats earlier then castAfter (earlier ++ [call]) rest
    else call.vote :: castAfter (earlier ++ [call]) rest

/-- The votes that a sequence of calls has cast. -/
def castVotes (calls : List VoterCall) : List Vote :=
  castAfter [] calls

theorem castAfter_append (earlier calls more : List VoterCall) :
    castAfter earlier (calls ++ more) =
      castAfter earlier calls ++ castAfter (earlier ++ calls) more := by
  induction calls generalizing earlier with
  | nil => simp [castAfter]
  | cons call rest ih =>
    by_cases isRepeat : call.repeats earlier = true <;>
      simp [castAfter, isRepeat, ih]

theorem castVotes_append_singleton (calls : List VoterCall) (call : VoterCall) :
    castVotes (calls ++ [call]) =
      castVotes calls ++ if call.repeats calls then [] else [call.vote] := by
  rw [castVotes, castAfter_append]
  by_cases isRepeat : call.repeats calls = true <;>
    simp [castVotes, castAfter, isRepeat]

/-- Every cast vote comes from a call. -/
theorem exists_call_of_mem_castVotes (calls : List VoterCall) (vote : Vote)
    (voteCast : vote ∈ castVotes calls) : ∃ call ∈ calls, call.vote = vote := by
  induction calls using List.reverseRecOn with
  | nil => simp [castVotes, castAfter] at voteCast
  | append_singleton calls call ih =>
    rw [castVotes_append_singleton, List.mem_append] at voteCast
    rcases voteCast with earlierVote | lastVote
    · obtain ⟨witness, witnessMember, voteEqual⟩ := ih earlierVote
      exact ⟨witness, List.mem_append_left _ witnessMember, voteEqual⟩
    · split at lastVote
      · simp at lastVote
      · exact ⟨call, by simp, (List.mem_singleton.mp lastVote).symm⟩

end VoterCall

namespace BinaryBAVoter

/-- What a voter remembers of the calls made on it, for the rounds asked for. -/
structure Records (rounds : Int → Prop) (bv : BinaryBAVoter)
    (calls : List VoterCall) : Prop where
  bbaHistory : ∀ key pk, rounds key.round →
    (bv.bbaHistory key pk).isSome = calls.any (VoterCall.votesUnder key pk)
  gcHistory : ∀ pk, bv.gcHistory pk = calls.any (VoterCall.gradecastBy pk)
  count : ∀ key wanted, rounds key.round → bv.count key wanted =
      (VoterCall.castVotes calls).countP fun vote =>
        decide (vote.key = key) && VoteValue.matchesValue wanted vote.value

section Records

variable {rounds : Int → Prop} {bv : BinaryBAVoter} {calls : List VoterCall}

theorem records_new (round threshold : Int) :
    Records rounds (new round threshold) [] where
  bbaHistory := fun _ _ _ => rfl
  gcHistory := fun _ => rfl
  count := fun _ _ _ => rfl

/-- Dropping a repeated call keeps the records. -/
theorem Records.of_repeats (records : Records rounds bv calls) {call : VoterCall}
    (isRepeat : call.repeats calls = true) :
    Records rounds bv (calls ++ [call]) where
  bbaHistory key pk inRounds := by
    rw [records.bbaHistory key pk inRounds, List.any_append]
    cases call with
    | addGCVote => simp [VoterCall.votesUnder]
    | addVoteWithBBAMsg round step b value msgbba =>
      by_cases sameVote : (⟨round, step, b⟩ : VoteKey) = key ∧ msgbba.pk = pk
      · obtain ⟨rfl, rfl⟩ := sameVote
        rw [VoterCall.repeats] at isRepeat
        rw [isRepeat, Bool.true_or]
      · simp [VoterCall.votesUnder, sameVote]
  gcHistory pk := by
    rw [records.gcHistory, List.any_append]
    cases call with
    | addVoteWithBBAMsg => simp [VoterCall.gradecastBy]
    | addGCVote round step b value signer =>
      by_cases sameSigner : signer = pk
      · subst sameSigner
        rw [VoterCall.repeats] at isRepeat
        rw [isRepeat, Bool.true_or]
      · simp [VoterCall.gradecastBy, sameSigner]
  count key wanted inRounds := by
    rw [records.count key wanted inRounds,
      VoterCall.castVotes_append_singleton, if_pos isRepeat, List.append_nil]

/-- Counting the vote of a call that is not a repeat keeps the count exact. -/
theorem Records.count_countVote (records : Records rounds bv calls) (call : VoterCall)
    (notRepeat : call.repeats calls = false) (key : VoteKey) (wanted : Option ByzAgreementValue)
    (inRounds : rounds key.round) :
    (bv.countVote call.vote.key call.vote.value).count key wanted =
      (VoterCall.castVotes (calls ++ [call])).countP fun vote =>
        decide (vote.key = key) && VoteValue.matchesValue wanted vote.value := by
  rw [BinaryBAVoter.count_countVote, records.count key wanted inRounds,
    VoterCall.castVotes_append_singleton, notRepeat, if_neg Bool.false_ne_true,
    List.countP_append, List.countP_singleton]

/-- Every call of the rounds asked for extends the records by itself. -/
theorem Records.call (records : Records rounds bv calls) (call : VoterCall)
    (callInRounds : rounds call.vote.key.round) :
    Records rounds (bv.call call).1 (calls ++ [call]) := by
  cases call with
  | addVoteWithBBAMsg round step b value msgbba =>
    have heard := records.bbaHistory ⟨round, step, b⟩ msgbba.pk callInRounds
    cases history : bv.bbaHistory ⟨round, step, b⟩ msgbba.pk with
    | some message =>
      rw [history] at heard
      simp only [BinaryBAVoter.call, addVoteWithBBAMsg, history]
      exact records.of_repeats heard.symm
    | none =>
      rw [history] at heard
      simp only [BinaryBAVoter.call, addVoteWithBBAMsg, history, addVote_fst]
      refine ⟨?_, ?_, records.count_countVote
        (.addVoteWithBBAMsg round step b value msgbba) heard.symm⟩
      · intro key pk inRounds
        rw [List.any_append, ← records.bbaHistory key pk inRounds]
        by_cases sameKey : (⟨round, step, b⟩ : VoteKey) = key
        · subst sameKey
          by_cases samePk : msgbba.pk = pk
          · subst samePk
            simp [countVote, VoterCall.votesUnder]
          · simp [countVote, VoterCall.votesUnder, samePk, Ne.symm samePk]
        · simp [countVote, VoterCall.votesUnder, sameKey, Ne.symm sameKey]
      · intro pk
        rw [List.any_append, ← records.gcHistory pk]
        simp [countVote, VoterCall.gradecastBy]
  | addGCVote round step b value pk =>
    have heard := records.gcHistory pk
    cases history : bv.gcHistory pk with
    | true =>
      rw [history] at heard
      simp only [BinaryBAVoter.call, addGCVote, history, if_true]
      exact records.of_repeats heard.symm
    | false =>
      rw [history] at heard
      simp only [BinaryBAVoter.call, addGCVote, history, Bool.false_eq_true, if_false, addVote_fst]
      refine ⟨?_, ?_, records.count_countVote (.addGCVote round step b value pk) heard.symm⟩
      · intro key other inRounds
        rw [List.any_append, ← records.bbaHistory key other inRounds]
        simp [countVote, VoterCall.votesUnder]
      · intro other
        rw [List.any_append, ← records.gcHistory other]
        by_cases samePk : pk = other
        · subst samePk
          simp [countVote, VoterCall.gradecastBy]
        · simp [countVote, VoterCall.gradecastBy, samePk, Ne.symm samePk]

/-- The records of a whole run. -/
theorem records_run (round threshold : Int) (calls : List VoterCall) :
    Records (fun _ => True) ((new round threshold).run calls) calls := by
  induction calls using List.reverseRecOn with
  | nil => exact records_new round threshold
  | append_singleton calls call ih =>
    rw [run_append_singleton]
    exact ih.call call trivial

end Records

variable (bv : BinaryBAVoter) (call : VoterCall)

/-- A call is dropped, or its vote is counted and the counts are compared. -/
theorem call_dropped_or_counted : bv.call call = (bv, VoteReport.nothing) ∨
    (bv.call call).2 = (bv.call call).1.report call.vote.key call.vote.value ∧
      ∀ key wanted, (bv.call call).1.count key wanted =
        (bv.countVote call.vote.key call.vote.value).count key wanted := by
  cases call with
  | addVoteWithBBAMsg round step b value msgbba =>
    simp only [BinaryBAVoter.call, addVoteWithBBAMsg]
    split
    · exact Or.inl rfl
    · exact Or.inr ⟨rfl, fun _ _ => rfl⟩
  | addGCVote round step b value pk =>
    simp only [BinaryBAVoter.call, addGCVote]
    split
    · exact Or.inl rfl
    · exact Or.inr ⟨rfl, fun _ _ => rfl⟩

/-- A call that names a key reports the comparison made after its vote. -/
theorem call_report (key : VoteKey) (reported : (bv.call call).2.key = some key) :
    (bv.call call).2 = (bv.call call).1.report call.vote.key call.vote.value := by
  rcases bv.call_dropped_or_counted call with dropped | ⟨compared, -⟩
  · rw [dropped] at reported
    exact absurd reported (by simp [VoteReport.nothing])
  · exact compared

/-- A first total agreement: the vote has raised the tally to the threshold. -/
theorem tally_of_call_totalAgreeOnZero (total : (bv.call call).2.agreeType = .totalAgreeOnZero)
    (first : (bv.call call).2.haveBroadcast = false) :
    bv.tally call.vote.key (some call.vote.value) <
        (bv.call call).1.tally call.vote.key (some call.vote.value) ∧
      (bv.call call).1.tally call.vote.key (some call.vote.value) = (bv.call call).1.threshold := by
  have extended := bv.extends_call call
  rcases bv.call_dropped_or_counted call with dropped | ⟨compared, counted⟩
  · rw [dropped] at total
    exact absurd total (by simp [VoteReport.nothing])
  · rw [compared, report] at total first
    refine ⟨?_, ?_⟩
    · refine Nat.add_lt_add_of_lt_of_le ?_ (List.sum_le_sum fun _ _ => extended.count_le _ _)
      rw [counted, count_countVote]
      simp
    · split_ifs at total first <;> simp_all [VoteReport.nothing]

@[simp]
theorem call_threshold : (bv.call call).1.threshold = bv.threshold :=
  (bv.extends_call call).threshold_eq

@[simp]
theorem run_threshold (calls : List VoterCall) : (bv.run calls).threshold = bv.threshold := by
  induction calls using List.reverseRecOn with
  | nil => rfl
  | append_singleton calls call ih =>
    rw [run_append_singleton, call_threshold, ih]

end BinaryBAVoter

/-- The steps whose votes an agreement at `step` adds up: the step itself and
the final votes of the earlier steps. -/
def SummedAt (step other : Int) : Prop :=
  other = step ∨ 4 ≤ -other ∧ -other < step

instance (step other : Int) : Decidable (SummedAt step other) :=
  inferInstanceAs (Decidable (_ ∨ _))

namespace Vote

/-- A vote that an agreement on `key`, and on `wanted` if given, may count. -/
def supports (key : VoteKey) (wanted : Option ByzAgreementValue)
    (vote : Vote) : Bool :=
  decide (vote.key.round = key.round ∧ vote.key.b = key.b ∧ SummedAt key.step vote.key.step) &&
    VoteValue.matchesValue wanted vote.value

/-- Two votes of one signer that some agreement would add up. -/
def CountedTogether (first second : Vote) : Prop :=
  first.pk = second.pk ∧ first.key.round = second.key.round ∧
    first.key.b = second.key.b ∧
    ∃ step, SummedAt step first.key.step ∧ SummedAt step second.key.step

theorem CountedTogether.of_supports
    {first second : Vote} {key : VoteKey} {wanted : Option ByzAgreementValue}
    (samePk : first.pk = second.pk) (firstSupports : first.supports key wanted = true)
    (secondSupports : second.supports key wanted = true) : first.CountedTogether second := by
  simp only [supports, Bool.and_eq_true, decide_eq_true_eq] at *
  obtain ⟨⟨firstRound, firstBit, firstStep⟩, -⟩ := firstSupports
  obtain ⟨⟨secondRound, secondBit, secondStep⟩, -⟩ := secondSupports
  exact ⟨samePk, firstRound.trans secondRound.symm,
    firstBit.trans secondBit.symm, key.step, firstStep, secondStep⟩

end Vote

/-- No signer casts two votes that one agreement would add up. -/
def CountedOnce (calls : List VoterCall) : Prop :=
  (VoterCall.castVotes calls).Pairwise fun first second =>
    ¬ first.CountedTogether second

/-- Pairwise distinct signers, as many as the threshold, have voted in the
calls for `key`, and for `wanted` if given. -/
def HasQuorum (threshold : Int) (calls : List VoterCall)
    (key : VoteKey) (wanted : Option ByzAgreementValue) : Prop :=
  Quorum threshold fun pk : PkKey => ∃ call ∈ calls,
    call.vote.pk = pk ∧ call.vote.supports key wanted = true

/-- A gradecast vote of step 3, or a vote of a later step that is not final. -/
def VoterCall.Plain : VoterCall → Prop
  | addVoteWithBBAMsg _ step _ _ _ => 4 ≤ step
  | addGCVote _ step _ _ _ => step = 3

theorem VoterCall.Plain.three_le {call : VoterCall} (plain : call.Plain) :
    3 ≤ call.vote.key.step := by
  cases call with
  | addVoteWithBBAMsg => exact le_trans (by norm_num) plain
  | addGCVote => exact plain.ge

/-- An agreement adds up votes that are not final only if they are of its
step. -/
theorem SummedAt.eq {step other : Int} (summed : SummedAt step other)
    (notFinal : 3 ≤ other) : other = step := by
  rcases summed with sameStep | final
  · exact sameStep
  · omega

/-- A later vote that is counted together with an earlier one is a repeat. -/
theorem VoterCall.repeats_of_countedTogether {calls : List VoterCall} {first second : VoterCall}
    (firstCalled : first ∈ calls) (firstPlain : first.Plain) (secondPlain : second.Plain)
    (together : first.vote.CountedTogether second.vote) : second.repeats calls = true := by
  obtain ⟨samePk, sameRound, sameBit, step, firstSummed, secondSummed⟩ := together
  have sameStep := (firstSummed.eq firstPlain.three_le).trans
    (secondSummed.eq secondPlain.three_le).symm
  cases first with
  | addVoteWithBBAMsg =>
    cases second with
    | addVoteWithBBAMsg =>
      refine List.any_eq_true.mpr ⟨_, firstCalled, ?_⟩
      simp only [VoterCall.vote] at samePk sameRound sameBit sameStep
      simp [votesUnder, samePk, sameRound, sameBit, sameStep]
    | addGCVote =>
      simp only [Plain, VoterCall.vote] at firstPlain secondPlain sameStep
      omega
  | addGCVote =>
    cases second with
    | addVoteWithBBAMsg =>
      simp only [Plain, VoterCall.vote] at firstPlain secondPlain sameStep
      omega
    | addGCVote =>
      refine List.any_eq_true.mpr ⟨_, firstCalled, ?_⟩
      simpa [gradecastBy, VoterCall.vote] using samePk

/-- Without final votes no signer is counted twice. -/
theorem countedOnce_of_plain (calls : List VoterCall)
    (plain : ∀ call ∈ calls, call.Plain) : CountedOnce calls := by
  unfold CountedOnce
  induction calls using List.reverseRecOn with
  | nil => exact List.Pairwise.nil
  | append_singleton calls call ih =>
    have earlier := ih fun other member =>
      plain other (List.mem_append_left _ member)
    rw [VoterCall.castVotes_append_singleton]
    cases isRepeat : call.repeats calls with
    | true => simpa using earlier
    | false =>
      rw [if_neg Bool.false_ne_true]
      refine List.pairwise_append.mpr ⟨earlier, List.pairwise_singleton _ _, ?_⟩
      intro vote voteCast last lastVote together
      obtain ⟨source, sourceCalled, rfl⟩ := VoterCall.exists_call_of_mem_castVotes _ _ voteCast
      rw [List.mem_singleton.mp lastVote] at together
      have repeated := VoterCall.repeats_of_countedTogether sourceCalled
        (plain source (List.mem_append_left _ sourceCalled))
        (plain call (by simp)) together
      rw [isRepeat] at repeated
      exact Bool.false_ne_true repeated

namespace BinaryBAVoter

variable {rounds : Int → Prop} {bv : BinaryBAVoter} {calls : List VoterCall}

/-- The final votes counted towards a step are those of the earlier steps. -/
theorem Records.numOfFinNodesBeforeStep_eq (records : Records rounds bv calls)
    (key : VoteKey) (wanted : Option ByzAgreementValue) (inRounds : rounds key.round) :
    bv.numOfFinNodesBeforeStep key.round key.step key.b wanted =
      (VoterCall.castVotes calls).countP fun vote =>
        VoteValue.matchesValue wanted vote.value &&
          decide (∃ offset < (key.step - 4).toNat,
            vote.key = ⟨key.round, -((offset : Int) + 4), key.b⟩) := by
  have countEqual := fun step : Int =>
    records.count ⟨key.round, step, key.b⟩ wanted inRounds
  rw [numOfFinNodesBeforeStep, ← sum_countP_fibres]
  · simp only [countEqual, Bool.and_comm]
  · intro first second sameKey
    simp only [VoteKey.mk.injEq] at sameKey
    omega

/-- The tally of a key counts exactly the cast votes that support it. -/
theorem Records.tally_eq (records : Records rounds bv calls)
    (key : VoteKey) (wanted : Option ByzAgreementValue) (inRounds : rounds key.round) :
    bv.tally key wanted = (VoterCall.castVotes calls).countP (Vote.supports key wanted) := by
  rw [tally, records.count key wanted inRounds,
    records.numOfFinNodesBeforeStep_eq key wanted inRounds,
    ← countP_or_of_disjoint]
  · apply List.countP_congr
    rintro ⟨pk, ⟨round, step, b⟩, value⟩ -
    simp only [Vote.supports, Bool.or_eq_true, Bool.and_eq_true, decide_eq_true_eq, VoteKey.ext_iff]
    constructor
    · rintro (⟨⟨rfl, rfl, rfl⟩, isWanted⟩ |
        ⟨isWanted, offset, offsetBound, rfl, rfl, rfl⟩)
      · exact ⟨⟨rfl, rfl, Or.inl rfl⟩, isWanted⟩
      · exact ⟨⟨rfl, rfl, Or.inr (by omega)⟩, isWanted⟩
    · rintro ⟨⟨rfl, rfl, rfl | finalBounds⟩, isWanted⟩
      · exact Or.inl ⟨⟨rfl, rfl, rfl⟩, isWanted⟩
      · exact Or.inr ⟨isWanted, (-step - 4).toNat, by omega, rfl, by omega, rfl⟩
  · rintro ⟨pk, voteKey, value⟩ sameKey
    simp only [Bool.and_eq_true, decide_eq_true_eq] at sameKey
    obtain ⟨rfl, -⟩ := sameKey
    -- a final vote of an earlier step is never a vote of the step itself
    simp only [Bool.and_eq_false_iff, decide_eq_false_iff_not]
    refine Or.inr ?_
    rintro ⟨offset, offsetBound, sameKey⟩
    have sameStep := congrArg VoteKey.step sameKey
    simp only at sameStep
    omega

/-- A tally that has reached a number is backed by as many signers, if no
signer is counted twice. -/
theorem Records.hasQuorum (records : Records rounds bv calls) (countedOnce : CountedOnce calls)
    {key : VoteKey} {wanted : Option ByzAgreementValue}
    (inRounds : rounds key.round) {threshold : Int} (enough : threshold ≤ bv.tally key wanted) :
    HasQuorum threshold calls key wanted := by
  rw [records.tally_eq key wanted inRounds, List.countP_eq_length_filter] at enough
  have different : ((VoterCall.castVotes calls).filter (Vote.supports key wanted)).Pairwise
        fun first second => first.pk ≠ second.pk := by
    apply (List.Pairwise.filter _ countedOnce).imp_of_mem
    intro first second firstMember secondMember notTogether samePk
    exact notTogether (.of_supports samePk
      (List.mem_filter.mp firstMember).2 (List.mem_filter.mp secondMember).2)
  refine ⟨_, (card_labels_of_pairwise _ _ different).symm ▸ enough, ?_⟩
  intro pk signed
  obtain ⟨vote, voteMember, rfl⟩ := List.mem_map.mp (List.mem_toFinset.mp signed)
  obtain ⟨voteCast, voteSupports⟩ := List.mem_filter.mp voteMember
  obtain ⟨source, sourceMember, rfl⟩ := VoterCall.exists_call_of_mem_castVotes _ _ voteCast
  exact ⟨source, sourceMember, rfl, voteSupports⟩

end BinaryBAVoter

/-- Distinct signers stand behind every reported agreement, as long as no
signer casts two votes that the agreement adds up. -/
theorem agreement_hasQuorum (round threshold : Int) (calls : List VoterCall) (call : VoterCall)
    (countedOnce : CountedOnce (calls ++ [call])) (key : VoteKey)
    (agreed : (((BinaryBAVoter.new round threshold).run calls).call call).2.key = some key) :
    HasQuorum threshold (calls ++ [call]) key
      ((((BinaryBAVoter.new round threshold).run calls).call call).2.agreedValue
        call.vote.value) := by
  generalize voterBefore : (BinaryBAVoter.new round threshold).run calls = bv at *
  have records : BinaryBAVoter.Records (fun _ => True) (bv.call call).1
        (calls ++ [call]) := by
    rw [← voterBefore]
    exact (BinaryBAVoter.records_run round threshold calls).call call trivial
  have sameThreshold : (bv.call call).1.threshold = threshold := by
    rw [BinaryBAVoter.call_threshold, ← voterBefore, BinaryBAVoter.run_threshold]
    rfl
  have reportEqual := BinaryBAVoter.call_report bv call key agreed
  rw [reportEqual] at agreed ⊢
  obtain ⟨rfl, enough⟩ := BinaryBAVoter.threshold_le_tally_of_report _ _ _ _ agreed
  rw [sameThreshold] at enough
  exact records.hasQuorum countedOnce trivial enough

/-- A vote of a fixed round, value and bit, for the examples below. -/
def exampleCall (signer : UInt8) (step : Int) : VoterCall :=
  .addVoteWithBBAMsg 1 step 0 ⟨Bytes32.fill 7, []⟩ ⟨[], ⟨Bytes32.fill signer, [],
      ⟨0, 1, step, 0, ⟨Bytes32.fill 7, []⟩⟩⟩⟩

/-- Two signers agree. -/
theorem agreement_hasQuorum_two_signers :
    CountedOnce ([exampleCall 1 4] ++ [exampleCall 2 4]) ∧
      (((BinaryBAVoter.new 1 2).run [exampleCall 1 4]).call
        (exampleCall 2 4)).2.key = some ⟨1, 4, 0⟩ ∧
      HasQuorum 2 ([exampleCall 1 4] ++ [exampleCall 2 4]) ⟨1, 4, 0⟩
        ((((BinaryBAVoter.new 1 2).run [exampleCall 1 4]).call
          (exampleCall 2 4)).2.agreedValue (exampleCall 2 4).vote.value) := by
  have countedOnce : CountedOnce ([exampleCall 1 4] ++ [exampleCall 2 4]) := by
    refine List.pairwise_pair.mpr ?_
    rintro ⟨samePk, -⟩
    exact absurd samePk (by decide)
  have agreed : (((BinaryBAVoter.new 1 2).run [exampleCall 1 4]).call
        (exampleCall 2 4)).2.key = some ⟨1, 4, 0⟩ := by
    decide
  exact ⟨countedOnce, agreed,
    agreement_hasQuorum 1 2 [exampleCall 1 4] (exampleCall 2 4) countedOnce ⟨1, 4, 0⟩ agreed⟩

/-- One signer reaches a threshold of two: the final vote of step 4 and the
vote of step 5 are added up. -/
theorem agreement_of_one_signer :
    (((BinaryBAVoter.new 1 2).run [exampleCall 1 (-4)]).call (exampleCall 1 5)).2 =
      ⟨some ⟨1, 5, 0⟩, .totalAgreeOnZero, false⟩ ∧
    ¬ HasQuorum 2 [exampleCall 1 (-4), exampleCall 1 5] ⟨1, 5, 0⟩
      (some (exampleCall 1 5).vote.value) := by
  refine ⟨by decide, ?_⟩
  rintro ⟨signers, enough, voted⟩
  have single : signers ⊆ {Bytes32.fill 1} := by
    intro pk signed
    obtain ⟨call, callMember, rfl, -⟩ := voted pk signed
    simp only [List.mem_cons, List.not_mem_nil, or_false] at callMember
    rcases callMember with rfl | rfl <;> exact Finset.mem_singleton_self _
  have := Finset.card_le_card single
  simp only [Finset.card_singleton] at this
  omega

end MultiVac.Consensus
