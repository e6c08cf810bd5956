import MultiVac.Consensus.Producer

/-!
# Three computations of a quorum

`setThreshold` of the executor, `setNewRound` of the confirmation producer and
`checkConfirmation` of the heartbeat manager each compute how many votes are enough from
the number of miners on the heartbeat list. Here they are compared as they are written,
without the rounding of `float64`.
-/

namespace MultiVac.Consensus
namespace Quorum

/-! ### The computations -/

/-- `proportion`. -/
def proportion : ℚ := 666666667 / 1000000000

/-- The conversion `int(value)`, which drops the fraction. -/
def truncate (value : ℚ) : Int :=
  if 0 ≤ value then ⌊value⌋ else ⌈value⌉

/-- The threshold that `setThreshold` gives the voters. -/
def setThreshold (perceivedCount : Nat) : Int :=
  let threshold : Int := ⌈perceivedCount * proportion⌉
  -- a threshold of one is replaced by the largest `int`
  let threshold := if threshold ≤ 1 then 2 ^ 63 - 1 else threshold
  let fakeDepositUnit := 1
  truncate (threshold * (1 - (1 - securityLevel id) ^ fakeDepositUnit))

/-- Add votes to the voter of the producer one after the other; the answer is the one to
the last vote. -/
def addVotes (voter : FinVoter) (votes : List MsgBinaryBA) : Bool × FinVoter :=
  votes.foldl
    (fun current vote => current.2.addVoteWithBBAFinMsg vote.round vote.step vote.v vote)
    (false, voter)

/-- The three computations agree for a heartbeat list: the threshold of the voters is two
thirds of the expected size of the shard, and that many votes of different miners on the
list are enough for the producer and for the heartbeat manager. -/
structure Agree (list : Finset PkKey) : Prop where
  twoThirds : 2 / 3 * (securityLevel id * list.card) ≤ setThreshold list.card
  reached : ∀ round step v votes, WellVoted list round step v votes →
    (votes.length : Int) = setThreshold list.card →
    ∀ curRound, (addVotes ⟨finThreshold id list.card, curRound, ∅⟩ votes).1 = true
  confirmed : ∀ message : MsgBlockConfirmation,
    WellVoted list message.round message.step message.v message.confirms →
    (message.confirms.length : Int) = setThreshold list.card →
    checkConfirmation id list message = true

/-! ### The threshold of the voters -/

variable {count : Nat}

/-- The rounding of `proportion` shows only beyond a billion miners. -/
theorem ceil_mul_proportion (positive : 0 < count) (small : count ≤ 1000000000) :
    ⌈(count : ℚ) * proportion⌉ = (2 * count / 3 : Nat) + 1 := by
  have lower : 3 * (2 * count / 3) ≤ 2 * count := by omega
  have upper : 2 * count ≤ 3 * (2 * count / 3) + 2 := by omega
  generalize 2 * count / 3 = quotient at *
  have lowerCast : 3 * (quotient : ℚ) ≤ 2 * count := by exact_mod_cast lower
  have upperCast : 2 * (count : ℚ) ≤ 3 * quotient + 2 := by exact_mod_cast upper
  have positiveCast : (0 : ℚ) < count := by exact_mod_cast positive
  have smallCast : (count : ℚ) ≤ 1000000000 := by exact_mod_cast small
  rw [Int.ceil_eq_iff, proportion]
  push_cast
  constructor <;> linarith

theorem setThreshold_of_small (enough : 2 ≤ count) (small : count ≤ 1000000000) :
    setThreshold count = ((4 * (2 * count / 3 + 1) / 5 : Nat) : Int) := by
  have notOne : ¬ ((2 * count / 3 : Nat) : Int) + 1 ≤ 1 := by omega
  rw [setThreshold, ceil_mul_proportion (by omega) small, if_neg notOne, truncate]
  generalize 2 * count / 3 = quotient
  have scaled : (((quotient : Int) + 1 : Int) : ℚ) * (1 - (1 - securityLevel id) ^ 1) =
      ((4 * (quotient + 1) : Nat) : ℚ) / (5 : Nat) := by
    rw [securityLevel, id]
    push_cast
    ring
  rw [scaled, if_pos (by positivity), Rat.floor_natCast_div_natCast]
  norm_cast

/-- The threshold is hardly more than four fifths of two thirds. -/
theorem setThreshold_bounds (enough : 2 ≤ count) :
    0 ≤ setThreshold count ∧ (setThreshold count : ℚ) ≤ (count * proportion + 1) * (8 / 10) := by
  have enoughCast : (2 : ℚ) ≤ count := by exact_mod_cast enough
  have rounded : (⌈(count : ℚ) * proportion⌉ : ℚ) < count * proportion + 1 := Int.ceil_lt_add_one _
  have above : ¬ ⌈(count : ℚ) * proportion⌉ ≤ 1 := by
    rw [Int.ceil_le, proportion]
    push_cast
    linarith
  have atLeast : (1 : ℚ) ≤ (⌈(count : ℚ) * proportion⌉ : ℚ) := by
    have : (1 : Int) ≤ ⌈(count : ℚ) * proportion⌉ := by omega
    exact_mod_cast this
  have scaled : (0 : ℚ) ≤ (⌈(count : ℚ) * proportion⌉ : ℚ) * (1 - (1 - securityLevel id) ^ 1) := by
    rw [securityLevel, id]
    linarith
  rw [setThreshold, if_neg above, truncate, if_pos scaled]
  refine ⟨Int.floor_nonneg.mpr scaled, (Int.floor_le _).trans ?_⟩
  rw [securityLevel, id]
  linarith

theorem setThreshold_le_card (enough : 2 ≤ count) : setThreshold count ≤ count := by
  have enoughCast : (2 : ℚ) ≤ count := by exact_mod_cast enough
  have bound := (setThreshold_bounds enough).2
  rw [proportion] at bound
  have : (setThreshold count : ℚ) < count + 1 := by linarith
  have : setThreshold count < count + 1 := by exact_mod_cast this
  omega

/-! ### Enough votes for the heartbeat manager -/

/-- Fifteen times the threshold exceeds eight times the number of miners by this much; the
excess depends on the remainder by 15, and zero stands for one that is not positive. -/
def margin (count : Nat) : Nat :=
  match count % 15 with
  | 3 => 6
  | 5 => 5
  | 6 => 12
  | 7 => 4
  | 9 => 3
  | 11 => 2
  | 12 => 9
  | 13 => 1
  | 14 => 8
  | _ => 0

theorem margin_le (count : Nat) : margin count ≤ 12 := by
  unfold margin
  split <;> omega

theorem le_margin_iff (enough : 2 ≤ count) :
    6667 * count ≤ 12500 * (4 * (2 * count / 3 + 1) / 5) ↔ count ≤ 2500 * margin count := by
  obtain ⟨quotient, rest, restSmall, rfl⟩ : ∃ quotient rest, rest < 15 ∧ count = 15 * quotient + rest :=
    ⟨count / 15, count % 15, Nat.mod_lt _ (by omega), by omega⟩
  have sameRest : (15 * quotient + rest) % 15 = rest := by omega
  rw [margin, sameRest]
  interval_cases rest <;> simp only <;> omega

theorem minConfirmationCount_id (count : Nat) :
    minConfirmationCount id count = 6667 * count / 12500 := by
  simp only [minConfirmationCount, securityLevel, minerNodeThreshold, id]
  ring

/-- The threshold is enough for the heartbeat manager exactly up to a number of miners that
the remainder by 15 decides. -/
theorem minConfirmationCount_le_setThreshold_iff (enough : 2 ≤ count) :
    minConfirmationCount id count ≤ setThreshold count ↔ count ≤ 2500 * margin count := by
  rw [minConfirmationCount_id]
  by_cases small : count ≤ 1000000000
  · rw [setThreshold_of_small enough small, ← le_margin_iff enough, div_le_iff₀ (by norm_num)]
    generalize 4 * (2 * count / 3 + 1) / 5 = threshold
    constructor
    · intro isEnough
      have : (6667 * count : ℚ) ≤ 12500 * threshold := by
        push_cast at isEnough
        linarith
      exact_mod_cast this
    · intro isEnough
      have : (6667 * count : ℚ) ≤ 12500 * threshold := by exact_mod_cast isEnough
      push_cast
      linarith
  · -- For so many miners 0.6667 is too far above two thirds.
    have large : (1000000000 : ℚ) < count := by exact_mod_cast Nat.lt_of_not_le small
    have bound := (setThreshold_bounds enough).2
    rw [proportion] at bound
    have marginBound := margin_le count
    constructor
    · intro isEnough
      linarith
    · intro isMargin
      omega

/-! ### The voter of the producer -/

theorem addVotes_append (voter : FinVoter) (votes : List MsgBinaryBA) (vote : MsgBinaryBA) :
    addVotes voter (votes ++ [vote]) =
      (addVotes voter votes).2.addVoteWithBBAFinMsg vote.round vote.step vote.v vote := by
  simp [addVotes]

variable {list : Finset PkKey} {round step : Int} {v : ByzAgreementValue} {votes : List MsgBinaryBA}

theorem WellVoted.of_append {vote : MsgBinaryBA}
    (voted : WellVoted list round step v (votes ++ [vote])) :
    WellVoted list round step v votes ∧
      (vote.round = round ∧ vote.step = step ∧ vote.v = v) ∧ vote.pk ∉ votes.map MsgBinaryBA.pk := by
  have distinct := voted.distinct
  rw [List.map_append, List.nodup_append] at distinct
  refine ⟨⟨distinct.1, ?_, ?_⟩, voted.same vote (by simp), ?_⟩
  · exact fun other isMember => voted.same other (List.mem_append_left _ isMember)
  · exact fun other isMember => voted.members other (List.mem_append_left _ isMember)
  · exact fun isMember => distinct.2.2 _ isMember vote.pk (by simp) rfl

/-- Votes of different miners for one value are all kept, and the last one is told whether
there are enough of them. -/
theorem addVotes_spec (voted : WellVoted list round step v votes) (threshold curRound : Int) :
    (addVotes ⟨threshold, curRound, ∅⟩ votes).2.threshold = threshold ∧
      ((addVotes ⟨threshold, curRound, ∅⟩ votes).2.votes ⟨round, step, v.blockHash⟩).keys =
        (votes.map MsgBinaryBA.pk).reverse ∧
      (votes ≠ [] →
        (addVotes ⟨threshold, curRound, ∅⟩ votes).1 = decide (threshold ≤ votes.length)) := by
  induction votes using List.reverseRecOn with
  | nil => exact ⟨rfl, rfl, fun nonempty => absurd rfl nonempty⟩
  | append_singleton votes vote ih =>
    obtain ⟨votedBefore, ⟨rfl, rfl, rfl⟩, isNew⟩ := WellVoted.of_append voted
    obtain ⟨sameThreshold, keysBefore, -⟩ := ih votedBefore
    rw [addVotes_append, FinVoter.addVoteWithBBAFinMsg_eq]
    generalize (addVotes ⟨threshold, curRound, ∅⟩ votes).2 = voter at *
    have unknown : (voter.votes ⟨vote.round, vote.step, vote.v.blockHash⟩).lookup vote.pk = none := by
      rwa [AList.lookup_eq_none, AList.mem_keys, keysBefore, List.mem_reverse]
    have keysAfter : ((voter.votes ⟨vote.round, vote.step, vote.v.blockHash⟩).insert vote.pk
        vote).keys = ((votes ++ [vote]).map MsgBinaryBA.pk).reverse := by
      rw [AList.keys_insert, keysBefore, List.erase_of_not_mem (by simpa using isNew)]
      simp
    simp only [unknown, Option.isSome_none, Bool.false_eq_true, if_false]
    refine ⟨sameThreshold, ?_, ?_⟩
    · rw [FinVoter.votes_insert, if_pos rfl, keysAfter]
    · intro _
      rw [keysAfter, sameThreshold]
      simp

/-! ### The three together -/

/-- A final vote of a miner in round 0. -/
def voteBy (pk : PkKey) : MsgBinaryBA where
  inShardProof := []
  signedCredentialWithBA :=
    { pk
      signature := []
      message := { shardIndex := 0, round := 0, step := -4, b := 0, v := .empty } }

/-- A confirmation of round 0 with the votes of some miners. -/
def confirmationBy (pks : List PkKey) : MsgBlockConfirmation where
  shardIndex := 0
  round := 0
  step := -4
  v := .empty
  header := roundHeader 0
  confirms := pks.map voteBy

theorem wellVoted_confirmationBy {pks : List PkKey} (distinct : pks.Nodup)
    (members : ∀ pk ∈ pks, pk ∈ list) :
    WellVoted list 0 (-4) .empty (confirmationBy pks).confirms where
  distinct := by simpa [confirmationBy, Function.comp_def, voteBy, MsgBinaryBA.pk] using distinct
  same := by
    intro vote isVote
    obtain ⟨pk, -, rfl⟩ := List.mem_map.mp isVote
    exact ⟨rfl, rfl, rfl⟩
  members := by
    intro vote isVote
    obtain ⟨pk, isMember, rfl⟩ := List.mem_map.mp isVote
    exact members pk isMember

/-- The heartbeat manager counts every vote of a member of its list. -/
theorem checkConfirmation_eq {msg : MsgBlockConfirmation}
    (members : ∀ vote ∈ msg.confirms, vote.pk ∈ list) :
    checkConfirmation id list msg =
      decide (minConfirmationCount id list.card ≤ msg.confirms.length) := by
  have all : msg.confirms.countP (fun vote => vote.pk ∈ list) = msg.confirms.length :=
    List.countP_eq_length.mpr fun vote isVote => decide_eq_true (members vote isVote)
  rw [checkConfirmation, all, Bool.and_self]

/-- The three computations agree exactly up to a number of miners that the remainder by 15
decides, and never for more than 30000 miners. -/
theorem agree_iff (list : Finset PkKey) (enough : 2 ≤ list.card) :
    Agree list ↔ list.card ≤ 2500 * margin list.card := by
  have nonnegative := (setThreshold_bounds enough).1
  rw [← minConfirmationCount_le_setThreshold_iff enough]
  constructor
  · intro agree
    -- As many members of the list as the threshold says confirm a block.
    obtain ⟨signers, isSubset, cardEq⟩ :=
      Finset.exists_subset_card_eq (s := list) (n := (setThreshold list.card).toNat)
        (by have := setThreshold_le_card enough; omega)
    have lengthEq : ((confirmationBy signers.toList).confirms.length : Int) =
        setThreshold list.card := by
      rw [confirmationBy, List.length_map, Finset.length_toList, cardEq]
      omega
    have members : ∀ pk ∈ signers.toList, pk ∈ list :=
      fun pk isSigner => isSubset (Finset.mem_toList.mp isSigner)
    have voted := wellVoted_confirmationBy signers.nodup_toList members
    have passes := agree.confirmed (confirmationBy signers.toList) voted lengthEq
    rw [checkConfirmation_eq voted.members, decide_eq_true_eq] at passes
    rwa [← lengthEq]
  · intro isEnough
    refine ⟨le_trans ?_ isEnough, ?_, ?_⟩
    · rw [minConfirmationCount_id, securityLevel, id]
      have : (0 : ℚ) ≤ list.card := Nat.cast_nonneg _
      linarith
    · intro round step v votes voted lengthEq curRound
      have reached : finThreshold id list.card ≤ votes.length := by
        rw [finThreshold, lengthEq]
        have := Int.ceil_le.mpr isEnough
        omega
      have positive : 0 < setThreshold list.card := by
        have : (0 : ℚ) < minConfirmationCount id list.card := by
          rw [minConfirmationCount_id]
          have : (2 : ℚ) ≤ list.card := by exact_mod_cast enough
          linarith
        exact_mod_cast this.trans_le isEnough
      have nonempty : votes ≠ [] := by
        rintro rfl
        simp only [List.length_nil, Nat.cast_zero] at lengthEq
        omega
      rw [(addVotes_spec voted _ curRound).2.2 nonempty]
      exact decide_eq_true reached
    · intro message voted lengthEq
      rw [checkConfirmation_eq voted.members, decide_eq_true_eq]
      have : ((message.confirms.length : Int) : ℚ) = setThreshold list.card := by rw [lengthEq]
      rwa [← Int.cast_natCast, this]

/-- The counts agree for three miners. -/
theorem agree_three_miners :
    2 ≤ ({.fill 1, .fill 2, .fill 3} : Finset PkKey).card ∧ Agree {.fill 1, .fill 2, .fill 3} := by
  have card : ({.fill 1, .fill 2, .fill 3} : Finset PkKey).card = 3 := by decide
  have enough : 2 ≤ ({.fill 1, .fill 2, .fill 3} : Finset PkKey).card := by rw [card]; decide
  refine ⟨enough, (agree_iff _ enough).mpr ?_⟩
  rw [card]
  decide

/-- With two miners the threshold of the voters is one vote, which is less than two thirds of
the expected shard and not enough for the heartbeat manager. -/
theorem disagree_two_miners :
    setThreshold ({.fill 1, .fill 2} : Finset PkKey).card = 1 ∧
      ¬ 2 / 3 * (securityLevel id * ({.fill 1, .fill 2} : Finset PkKey).card) ≤ 1 ∧
      WellVoted {.fill 1, .fill 2} 0 (-4) .empty (confirmationBy [.fill 1]).confirms ∧
      checkConfirmation id {.fill 1, .fill 2} (confirmationBy [.fill 1]) = false := by
  refine ⟨by decide +kernel, by decide +kernel, ?_, by decide +kernel⟩
  exact wellVoted_confirmationBy (by decide) (by decide)

end Quorum
end MultiVac.Consensus
