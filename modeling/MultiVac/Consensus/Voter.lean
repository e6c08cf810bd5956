import Mathlib.Algebra.Order.BigOperators.Group.List
import Mathlib.Data.List.AList
import MultiVac.Consensus.Messages

/-!
# The binary Byzantine agreement voter

`binaryBAVoter` counts votes per round, step and bit, and per value under each
of them. A vote for a negative step `-i` is a final vote of step `i`; it is
added to every later step of the same round and bit.
-/

namespace MultiVac.Consensus

/-- `voteKey`. -/
@[ext]
structure VoteKey where
  round : Int
  step : Int
  b : UInt8
deriving DecidableEq

/-- `voteValue`: the votes under one key, in total and per value. A value
never has more votes than there are in total. -/
structure VoteValue where
  cnt : Nat
  cntMap : AList fun _ : ByzAgreementValue => Nat
  lookup_le_cnt : ∀ vote, (cntMap.lookup vote).getD 0 ≤ cnt

/-- `resultType`. -/
inductive ResultType where
  | totalAgreeOnZero
  | partialAgreeOnZero
  | agreeOnOne
  | notAgree
deriving DecidableEq

/-- The three results of adding a vote: the key agreed on, the kind of the
agreement, and `haveBroadcast`. -/
structure VoteReport where
  key : Option VoteKey
  agreeType : ResultType
  haveBroadcast : Bool
deriving DecidableEq

/-- The report of a vote that changes nothing or does not reach the threshold. -/
def VoteReport.nothing : VoteReport where
  key := none
  agreeType := .notAgree
  haveBroadcast := false

/-- The value that an agreement is on: only a total one is on a value. -/
def VoteReport.agreedValue (report : VoteReport) (value : ByzAgreementValue) :
    Option ByzAgreementValue :=
  match report.agreeType with
  | .totalAgreeOnZero => some value
  | _ => none

namespace VoteValue

/-- The number of votes for one value, or of all votes when no value is given. -/
def count (value : VoteValue) : Option ByzAgreementValue → Nat
  | none => value.cnt
  | some vote => (value.cntMap.lookup vote).getD 0

/-- The entry made for the first vote under a key. -/
def first (vote : ByzAgreementValue) : VoteValue where
  cnt := 1
  cntMap := AList.singleton vote 1
  lookup_le_cnt := by
    intro other
    by_cases sameVote : other = vote
    · subst sameVote
      simp [AList.lookup]
    · rw [AList.lookup_eq_none.mpr]
      · exact Nat.zero_le 1
      · simpa [AList.mem_keys] using sameVote

/-- The entry after one more vote. -/
def add (value : VoteValue) (vote : ByzAgreementValue) : VoteValue where
  cnt := value.cnt + 1
  cntMap := value.cntMap.insert vote ((value.cntMap.lookup vote).getD 0 + 1)
  lookup_le_cnt := by
    intro other
    by_cases sameVote : other = vote
    · subst sameVote
      simpa using value.lookup_le_cnt other
    · rw [AList.lookup_insert_ne sameVote]
      exact Nat.le_succ_of_le (value.lookup_le_cnt other)

/-- Whether a vote is counted when votes for `wanted` are asked for. -/
def matchesValue (wanted : Option ByzAgreementValue)
    (vote : ByzAgreementValue) : Bool :=
  wanted.all fun value => decide (vote = value)

@[simp]
theorem matchesValue_none (vote : ByzAgreementValue) : matchesValue none vote = true := rfl

@[simp]
theorem matchesValue_some (value vote : ByzAgreementValue) :
    matchesValue (some value) vote = decide (vote = value) := rfl

theorem count_first (vote : ByzAgreementValue) (wanted : Option ByzAgreementValue) :
    (first vote).count wanted = if matchesValue wanted vote then 1 else 0 := by
  cases wanted with
  | none => rfl
  | some value =>
    simp only [count, first, matchesValue_some, decide_eq_true_eq]
    by_cases voteIsValue : vote = value
    · subst voteIsValue
      simp [AList.lookup]
    · rw [if_neg voteIsValue, AList.lookup_eq_none.mpr]
      · rfl
      · simpa [AList.mem_keys] using Ne.symm voteIsValue

theorem count_add (value : VoteValue) (vote : ByzAgreementValue)
    (wanted : Option ByzAgreementValue) :
    (value.add vote).count wanted =
      value.count wanted + if matchesValue wanted vote then 1 else 0 := by
  cases wanted with
  | none => rfl
  | some target =>
    simp only [count, add, matchesValue_some, decide_eq_true_eq]
    by_cases voteIsTarget : vote = target
    · subst voteIsTarget
      simp
    · rw [AList.lookup_insert_ne (Ne.symm voteIsTarget), if_neg voteIsTarget, Nat.add_zero]

end VoteValue

/-- `binaryBAVoter`. -/
structure BinaryBAVoter where
  result : VoteKey → Option VoteValue
  resultValue : ByzAgreementValue
  threshold : Int
  round : Int
  bbaHistory : VoteKey → PkKey → Option MsgBinaryBA
  gcHistory : PkKey → Bool
  resRound : Int

namespace BinaryBAVoter

/-- `newBinaryBAVoter`. -/
def new (round threshold : Int) : BinaryBAVoter where
  result := fun _ => none
  resultValue := ByzAgreementValue.empty
  threshold := threshold
  round := round
  bbaHistory := fun _ _ => none
  gcHistory := fun _ => false
  resRound := 0

variable (bv : BinaryBAVoter)

/-- `setThreshold`. -/
def setThreshold (threshold : Int) : BinaryBAVoter :=
  { bv with threshold := threshold }

/-- `setCurrentRound`: votes of rounds before the previous one are dropped. -/
def setCurrentRound (round : Int) : BinaryBAVoter :=
  { bv with
    round := round
    bbaHistory := fun key =>
      if key.round < round - 1 then fun _ => none else bv.bbaHistory key
    result := fun key =>
      if key.round < round - 1 then none else bv.result key
    gcHistory := fun _ => false }

/-- The number of votes under one key, zero for an absent entry. -/
def count (bv : BinaryBAVoter) (key : VoteKey)
    (vote : Option ByzAgreementValue) : Nat :=
  match bv.result key with
  | none => 0
  | some value => value.count vote

variable (round step : Int) (b : UInt8) (value : ByzAgreementValue)

/-- `numOfFinNodesBeforeStep`: the final votes of the steps `4 ≤ i < step`. -/
def numOfFinNodesBeforeStep (vote : Option ByzAgreementValue) : Nat :=
  ((List.range (step - 4).toNat).map fun offset : Nat =>
    bv.count ⟨round, -((offset : Int) + 4), b⟩ vote).sum

/-- The votes an agreement on `key` counts: its own and earlier final ones. -/
def tally (key : VoteKey) (vote : Option ByzAgreementValue) : Nat :=
  bv.count key vote + bv.numOfFinNodesBeforeStep key.round key.step key.b vote

/-- The part of `addVote` that compares the counts with the threshold. -/
def report (key : VoteKey) (value : ByzAgreementValue) : VoteReport :=
  if key.b = 0 ∧ (bv.tally key (some value) : Int) = bv.threshold then
    ⟨some key, .totalAgreeOnZero, false⟩
  else if key.b = 0 ∧ bv.threshold < bv.tally key (some value) then
    ⟨some key, .totalAgreeOnZero, true⟩
  else if (bv.tally key none : Int) = bv.threshold then
    if key.b = 0 then ⟨some key, .partialAgreeOnZero, false⟩
    else ⟨some key, .agreeOnOne, false⟩
  else if bv.threshold < bv.tally key none then
    -- a partial agreement is reported anew with every further vote
    if key.b = 0 then ⟨some key, .partialAgreeOnZero, false⟩
    else ⟨some key, .agreeOnOne, true⟩
  else VoteReport.nothing

/-- The counting part of `addVote`. -/
def countVote (key : VoteKey) (value : ByzAgreementValue) : BinaryBAVoter :=
  { bv with
    result := Function.update bv.result key (some (match bv.result key with
        | some entry => entry.add value
        | none => VoteValue.first value)) }

/-- `addVote`. -/
def addVote : BinaryBAVoter × VoteReport :=
  let counted := bv.countVote ⟨round, step, b⟩ value
  (counted, counted.report ⟨round, step, b⟩ value)

/-- `addVoteWithBBAMsg`: a key votes once per round, step and bit. -/
def addVoteWithBBAMsg (msgbba : MsgBinaryBA) : BinaryBAVoter × VoteReport :=
  let key : VoteKey := ⟨round, step, b⟩
  match bv.bbaHistory key msgbba.pk with
  | some _ => (bv, VoteReport.nothing)
  | none =>
    addVote
      { bv with
        bbaHistory := Function.update bv.bbaHistory key
          (Function.update (bv.bbaHistory key) msgbba.pk (some msgbba)) }
      round step b value

/-- `addGCVote`: a key casts one gradecast vote per round. -/
def addGCVote (pk : PkKey) : BinaryBAVoter × VoteReport :=
  if bv.gcHistory pk then (bv, VoteReport.nothing)
  else
    addVote { bv with gcHistory := Function.update bv.gcHistory pk true } round step b value

/-- `getVoteKeyWithHalfThreshold`: the first value with half the threshold
that the loop over the map meets. -/
def getVoteKeyWithHalfThreshold (order : MapOrder) : Option ByzAgreementValue :=
  match bv.result ⟨bv.round, 4, 0⟩ with
  | none => none
  | some value =>
    ((order.visit value.cntMap.entries).find? fun entry =>
      decide ((bv.threshold + 1).tdiv 2 ≤ entry.2)).map Sigma.fst

/-- `getResultValue`. -/
def getResultValue (round : Int) : Option ByzAgreementValue :=
  if round ≠ bv.resRound then none else some bv.resultValue

/-- `setResultValue`. -/
def setResultValue (round : Int) (value : ByzAgreementValue) : BinaryBAVoter :=
  if bv.resRound ≤ round then
    { bv with resultValue := value, resRound := round }
  else bv

@[simp]
theorem addVote_fst : (bv.addVote round step b value).1 = bv.countVote ⟨round, step, b⟩ value := rfl

theorem count_countVote (key other : VoteKey)
    (value : ByzAgreementValue) (wanted : Option ByzAgreementValue) :
    (bv.countVote key value).count other wanted = bv.count other wanted +
        if decide (key = other) && VoteValue.matchesValue wanted value
        then 1 else 0 := by
  by_cases sameKey : key = other
  · subst sameKey
    cases entry : bv.result key <;>
      simp [count, countVote, entry, VoteValue.count_first, VoteValue.count_add]
  · simp [count, countVote, Function.update_of_ne (Ne.symm sameKey), sameKey]

/-- A value never has more votes than its key. -/
theorem count_some_le (key : VoteKey) (value : ByzAgreementValue) :
    bv.count key (some value) ≤ bv.count key none := by
  unfold count
  split
  · exact le_rfl
  · exact VoteValue.lookup_le_cnt _ value

theorem tally_some_le (key : VoteKey) (value : ByzAgreementValue) :
    bv.tally key (some value) ≤ bv.tally key none :=
  Nat.add_le_add (bv.count_some_le key value)
    (List.sum_le_sum fun _ _ => bv.count_some_le _ value)

/-- A reported key is the key of the vote, and its tally has the threshold. -/
theorem threshold_le_tally_of_report (key reported : VoteKey) (value : ByzAgreementValue)
    (agreed : (bv.report key value).key = some reported) :
    reported = key ∧ bv.threshold ≤ bv.tally key ((bv.report key value).agreedValue value) := by
  unfold report at agreed ⊢
  split_ifs at agreed ⊢ <;> simp_all [VoteReport.agreedValue, VoteReport.nothing] <;> omega

/-- A reported key has reached the threshold with all its votes. -/
theorem threshold_le_tally_none_of_report (key reported : VoteKey) (value : ByzAgreementValue)
    (agreed : (bv.report key value).key = some reported) : bv.threshold ≤ bv.tally key none := by
  obtain ⟨-, enough⟩ := bv.threshold_le_tally_of_report key reported value agreed
  cases wanted : (bv.report key value).agreedValue value with
  | none => rwa [wanted] at enough
  | some agreedOn =>
    rw [wanted] at enough
    have := bv.tally_some_le key agreedOn
    omega

/-- The kind of an agreement tells whether the bit is zero. -/
theorem agreeType_eq_agreeOnOne_iff (key reported : VoteKey) (value : ByzAgreementValue)
    (agreed : (bv.report key value).key = some reported) :
    (bv.report key value).agreeType = .agreeOnOne ↔ reported.b ≠ 0 := by
  obtain ⟨rfl, -⟩ := bv.threshold_le_tally_of_report key reported value agreed
  unfold report at agreed ⊢
  split_ifs at agreed ⊢ <;> simp_all [VoteReport.nothing]

/-- An agreement on zero is total if all votes are for one value. -/
theorem agreeType_eq_totalAgreeOnZero (key reported : VoteKey) (value : ByzAgreementValue)
    (zero : key.b = 0) (oneValue : bv.tally key (some value) = bv.tally key none)
    (agreed : (bv.report key value).key = some reported) :
    (bv.report key value).agreeType = .totalAgreeOnZero := by
  unfold report at agreed ⊢
  rw [← oneValue] at agreed ⊢
  split_ifs at agreed ⊢ <;> simp_all [VoteReport.nothing]
  omega

end BinaryBAVoter
end MultiVac.Consensus
