import MultiVac.Consensus.VoteCounting

/-!
# When a vote crosses the threshold

The voter compares the votes of a key with the threshold at every vote under the key.
It tells the executor with `haveBroadcast` whether the agreement is an old one. The
votes of a key also grow while final votes of earlier steps arrive, and no comparison is
made then.
-/

namespace MultiVac.Consensus

open BinaryBAVoter

/-! ### Agreements and the calls that report them -/

/-- An agreement that the votes under a key can reach. -/
inductive Agreement where
  | totalOnZero (value : ByzAgreementValue)
  | partialOnZero
  | onOne

namespace Agreement

/-- The value whose votes an agreement counts. -/
def wanted : Agreement → Option ByzAgreementValue
  | totalOnZero value => some value
  | partialOnZero => none
  | onOne => none

/-- How `addVote` names an agreement. -/
def agreeType : Agreement → ResultType
  | totalOnZero _ => .totalAgreeOnZero
  | partialOnZero => .partialAgreeOnZero
  | onOne => .agreeOnOne

/-- The bit that an agreement is about. -/
def FitsBit (b : UInt8) : Agreement → Prop
  | totalOnZero _ => b = 0
  | partialOnZero => b = 0
  | onOne => b ≠ 0

end Agreement

/-- The calls of a sequence are distinct votes: none of them is dropped. -/
def DistinctVotes (calls : List VoterCall) : Prop :=
  ∀ i : Fin calls.length, calls[i].repeats (calls.take i) = false

/-- A vote that is cast under a key itself, and for a value if one is given. -/
def VoterCall.IsOwn (key : VoteKey) (wanted : Option ByzAgreementValue) (call : VoterCall) : Prop :=
  call.vote.key = key ∧ VoteValue.matchesValue wanted call.vote.value = true

/-- The number of votes that count for a key, and for a value if one is given. -/
def votesFor (key : VoteKey) (wanted : Option ByzAgreementValue) (calls : List VoterCall) : Nat :=
  calls.countP fun call => call.vote.supports key wanted

section Calls

variable (round threshold : Int) (calls : List VoterCall)

/-- The voter and its answer after one of the calls. -/
def answerTo (i : Fin calls.length) : BinaryBAVoter × VoteReport :=
  ((new round threshold).run (calls.take i)).call calls[i]

/-- A call for the key of an agreement after which the voter has counted enough votes. -/
def SeesEnough (key : VoteKey) (agreement : Agreement) (i : Fin calls.length) : Prop :=
  calls[i].IsOwn key agreement.wanted ∧
    threshold ≤ (answerTo round threshold calls i).1.tally key agreement.wanted

/-- A call that returns an agreement with `haveBroadcast = false`. -/
def Announces (key : VoteKey) (agreement : Agreement) (i : Fin calls.length) : Prop :=
  calls[i].IsOwn key agreement.wanted ∧
    (answerTo round threshold calls i).2 = ⟨some key, agreement.agreeType, false⟩

/-- An agreement whose votes reach the threshold is announced by one call, the first one
that sees enough votes. -/
def AnnouncedOnce (key : VoteKey) (agreement : Agreement) : Prop :=
  threshold ≤ ((new round threshold).run calls).tally key agreement.wanted →
    ∃ i, (∀ j, Announces round threshold calls key agreement j ↔ j = i) ∧
      SeesEnough round threshold calls key agreement i ∧
      ∀ j, j < i → ¬ SeesEnough round threshold calls key agreement j

end Calls

/-! ### Counting distinct votes -/

variable {calls : List VoterCall}

theorem DistinctVotes.castVotes_take (distinct : DistinctVotes calls) {length : Nat}
    (bound : length ≤ calls.length) :
    VoterCall.castVotes (calls.take length) = (calls.take length).map VoterCall.vote := by
  induction length with
  | zero => rfl
  | succ length ih =>
    have notRepeat := distinct ⟨length, bound⟩
    rw [List.take_succ_eq_append_getElem bound, VoterCall.castVotes_append_singleton,
      ih (by omega), List.map_append]
    simp only [Fin.getElem_fin] at notRepeat
    rw [notRepeat, if_neg Bool.false_ne_true, List.map_singleton]

theorem DistinctVotes.tally_run_take (distinct : DistinctVotes calls) {length : Nat}
    (bound : length ≤ calls.length) (round threshold : Int) (key : VoteKey)
    (wanted : Option ByzAgreementValue) :
    ((new round threshold).run (calls.take length)).tally key wanted =
      votesFor key wanted (calls.take length) := by
  rw [(records_run round threshold (calls.take length)).tally_eq key wanted trivial,
    distinct.castVotes_take bound, List.countP_map]
  rfl

variable {wanted : Option ByzAgreementValue}

theorem VoterCall.IsOwn.supports {key : VoteKey} {call : VoterCall}
    (isOwn : call.IsOwn key wanted) : call.vote.supports key wanted = true := by
  obtain ⟨rfl, isWanted⟩ := isOwn
  simp [Vote.supports, SummedAt, isWanted]

theorem VoterCall.IsOwn.self {key : VoteKey} {wanted : Option ByzAgreementValue} {call : VoterCall}
    (isOwn : call.IsOwn key wanted) :
    call.IsOwn key (some call.vote.value) :=
  ⟨isOwn.1, by simp⟩

/-- A vote under the key itself is one vote more. -/
theorem votesFor_take_succ {i : Fin calls.length} {key : VoteKey}
    (isOwn : calls[i].IsOwn key wanted) :
    votesFor key wanted (calls.take (i + 1)) = votesFor key wanted (calls.take i) + 1 := by
  have supports := isOwn.supports
  rw [votesFor, List.take_succ_eq_append_getElem i.isLt, List.countP_append, List.countP_singleton]
  simp only [Fin.getElem_fin] at supports
  rw [supports, if_pos rfl]
  rfl

/-- Votes are never taken back. -/
theorem votesFor_take_mono (key : VoteKey) (wanted : Option ByzAgreementValue)
    (calls : List VoterCall) {first second : Nat} (isBefore : first ≤ second) :
    votesFor key wanted (calls.take first) ≤ votesFor key wanted (calls.take second) :=
  (List.take_sublist_take_left isBefore).countP_le

section Distinct

variable {round threshold : Int} {calls : List VoterCall} (distinct : DistinctVotes calls)
  {i : Fin calls.length} {key : VoteKey}

theorem answerTo_fst (round threshold : Int) (i : Fin calls.length) :
    (answerTo round threshold calls i).1 = (new round threshold).run (calls.take (i + 1)) := by
  rw [List.take_succ_eq_append_getElem i.isLt, run_append_singleton]
  rfl

include distinct

theorem DistinctVotes.tally_answerTo (wanted : Option ByzAgreementValue) :
    (answerTo round threshold calls i).1.tally key wanted =
      votesFor key wanted (calls.take (i + 1)) := by
  rw [answerTo_fst, distinct.tally_run_take i.isLt]

/-- The answer to a vote is the comparison made after it is counted. -/
theorem DistinctVotes.snd_answerTo :
    (answerTo round threshold calls i).2 =
      (answerTo round threshold calls i).1.report calls[i].vote.key calls[i].vote.value := by
  rcases call_dropped_or_counted ((new round threshold).run (calls.take i)) calls[i] with
    dropped | ⟨compared, -⟩
  · -- A dropped vote would leave its own count as it was.
    exfalso
    have isOwn : calls[i].IsOwn calls[i].vote.key none := ⟨rfl, rfl⟩
    have after := @DistinctVotes.tally_answerTo round threshold calls distinct i
      calls[i].vote.key none
    rw [answerTo, dropped, distinct.tally_run_take i.isLt.le, votesFor_take_succ isOwn] at after
    omega
  · exact compared

end Distinct

/-! ### What the comparison says -/

/-- The comparison that makes `addVote` announce an agreement after a vote for a value. -/
def Agreement.Met (threshold : Int) (count : Option ByzAgreementValue → Nat)
    (value : ByzAgreementValue) : Agreement → Prop
  | totalOnZero _ => count (some value) = threshold
  | partialOnZero => count (some value) < threshold ∧ threshold ≤ count none
  | onOne => count none = threshold

theorem report_eq_iff (bv : BinaryBAVoter) (key : VoteKey) (value : ByzAgreementValue)
    {agreement : Agreement} (fits : agreement.FitsBit key.b) :
    bv.report key value = ⟨some key, agreement.agreeType, false⟩ ↔
      agreement.Met bv.threshold (bv.tally key) value := by
  have smaller := bv.tally_some_le key value
  cases agreement with
  | totalOnZero wanted =>
    simp only [Agreement.FitsBit] at fits
    simp only [report, fits, true_and, Agreement.agreeType, Agreement.Met, if_true]
    split_ifs <;> simp_all [VoteReport.nothing]
  | partialOnZero =>
    simp only [Agreement.FitsBit] at fits
    simp only [report, fits, true_and, Agreement.agreeType, Agreement.Met, if_true]
    split_ifs <;> simp_all [VoteReport.nothing] <;> omega
  | onOne =>
    simp only [Agreement.FitsBit] at fits
    simp only [report, fits, false_and, Agreement.agreeType, Agreement.Met, if_false]
    split_ifs <;> simp_all [VoteReport.nothing]

section Announcing

variable {round threshold : Int} {calls : List VoterCall} (distinct : DistinctVotes calls)
  {key : VoteKey} {agreement : Agreement} {i : Fin calls.length}

include distinct

theorem DistinctVotes.seesEnough_iff :
    SeesEnough round threshold calls key agreement i ↔ calls[i].IsOwn key agreement.wanted ∧
        threshold ≤ votesFor key agreement.wanted (calls.take i) + 1 := by
  apply and_congr_right
  intro isOwn
  rw [distinct.tally_answerTo, votesFor_take_succ isOwn, Nat.cast_succ]

theorem DistinctVotes.announces_iff (fits : agreement.FitsBit key.b) :
    Announces round threshold calls key agreement i ↔ calls[i].IsOwn key agreement.wanted ∧
        agreement.Met threshold (fun wanted => votesFor key wanted (calls.take i) + 1)
          calls[i].vote.value := by
  apply and_congr_right
  intro isOwn
  have sameThreshold : (answerTo round threshold calls i).1.threshold = threshold := by
    rw [answerTo_fst, run_threshold]
    rfl
  have forAny : votesFor key none (calls.take (i + 1)) = votesFor key none (calls.take i) + 1 :=
    votesFor_take_succ ⟨isOwn.1, rfl⟩
  have forValue := votesFor_take_succ isOwn.self
  rw [distinct.snd_answerTo, isOwn.1, report_eq_iff _ _ _ fits, sameThreshold]
  cases agreement <;>
    simp only [Agreement.Met, distinct.tally_answerTo, forAny, forValue, Nat.cast_succ]

end Announcing

/-! ### Agreements that are announced once -/

/-- How the votes for an agreement have to arrive. The vote that brings the count to the
threshold is one under the key itself. A partial agreement needs a first vote under the key
that finds enough votes and is for a value without enough of them, and only votes for values
with enough of them after it. -/
def Completed (threshold : Int) (calls : List VoterCall) (key : VoteKey) : Agreement → Prop
  | .totalOnZero value => ∃ i : Fin calls.length, calls[i].IsOwn key (some value) ∧
      (votesFor key (some value) (calls.take i) : Int) + 1 = threshold
  | .onOne => ∃ i : Fin calls.length, calls[i].IsOwn key none ∧
      (votesFor key none (calls.take i) : Int) + 1 = threshold
  | .partialOnZero => ∃ i : Fin calls.length, calls[i].IsOwn key none ∧
      threshold ≤ votesFor key none (calls.take i) + 1 ∧
      (votesFor key (some calls[i].vote.value) (calls.take i) : Int) + 1 < threshold ∧
      (∀ j, j < i → calls[j].IsOwn key none →
        (votesFor key none (calls.take j) : Int) + 1 < threshold) ∧
      ∀ j, i < j → calls[j].IsOwn key none →
        threshold ≤ votesFor key (some calls[j].vote.value) (calls.take j) + 1

section Once

variable {threshold : Int} {calls : List VoterCall} {key : VoteKey}
  {wanted : Option ByzAgreementValue} {announces sees : Fin calls.length → Prop}

/-- A comparison for equality succeeds once at most, since the count grows between two votes
under the key. -/
theorem once_iff_of_eq (announcesIff : ∀ i, announces i ↔ calls[i].IsOwn key wanted ∧
      (votesFor key wanted (calls.take i) : Int) + 1 = threshold)
    (seesIff : ∀ i, sees i ↔ calls[i].IsOwn key wanted ∧
      threshold ≤ votesFor key wanted (calls.take i) + 1) :
    (∃ i, (∀ j, announces j ↔ j = i) ∧ sees i ∧ ∀ j, j < i → ¬ sees j) ↔
      ∃ i : Fin calls.length, calls[i].IsOwn key wanted ∧
        (votesFor key wanted (calls.take i) : Int) + 1 = threshold := by
  have grows : ∀ i j : Fin calls.length, i < j → calls[i].IsOwn key wanted →
      votesFor key wanted (calls.take i) < votesFor key wanted (calls.take j) := by
    intro i j isBefore isOwn
    have more := votesFor_take_succ isOwn
    have := votesFor_take_mono key wanted calls (Nat.succ_le_of_lt isBefore)
    simp only [Nat.succ_eq_add_one] at this
    omega
  constructor
  · rintro ⟨i, announced, -, -⟩
    exact ⟨i, (announcesIff i).mp ((announced i).mpr rfl)⟩
  · rintro ⟨i, isOwn, exactly⟩
    refine ⟨i, fun j => ⟨?_, ?_⟩, (seesIff i).mpr ⟨isOwn, exactly.ge⟩, ?_⟩
    · intro announcedToo
      obtain ⟨isOwnToo, exactlyToo⟩ := (announcesIff j).mp announcedToo
      rcases lt_trichotomy j i with before | same | after
      · have := grows j i before isOwnToo
        omega
      · exact same
      · have := grows i j after isOwn
        omega
    · rintro rfl
      exact (announcesIff j).mpr ⟨isOwn, exactly⟩
    · intro j before seen
      obtain ⟨isOwnToo, enough⟩ := (seesIff j).mp seen
      have := grows j i before isOwnToo
      omega

/-- A partial agreement is announced by every vote that finds enough votes and is for a value
without enough of them. -/
theorem once_iff_of_partial (announcesIff : ∀ i, announces i ↔ calls[i].IsOwn key none ∧
      (votesFor key (some calls[i].vote.value) (calls.take i) : Int) + 1 < threshold ∧
        threshold ≤ votesFor key none (calls.take i) + 1)
    (seesIff : ∀ i, sees i ↔ calls[i].IsOwn key none ∧
      threshold ≤ votesFor key none (calls.take i) + 1) :
    (∃ i, (∀ j, announces j ↔ j = i) ∧ sees i ∧ ∀ j, j < i → ¬ sees j) ↔
      Completed threshold calls key .partialOnZero := by
  constructor
  · rintro ⟨i, announced, seen, first⟩
    obtain ⟨isOwn, fewer, enough⟩ := (announcesIff i).mp ((announced i).mpr rfl)
    refine ⟨i, isOwn, enough, fewer, fun j before isOwnToo => ?_, fun j after isOwnToo => ?_⟩
    · by_contra notFewer
      exact first j before ((seesIff j).mpr ⟨isOwnToo, not_lt.mp notFewer⟩)
    · by_contra notEnough
      have more := votesFor_take_mono key none calls (Nat.le_of_lt after)
      have announcedToo := (announcesIff j).mpr ⟨isOwnToo, not_le.mp notEnough, by omega⟩
      exact absurd ((announced j).mp announcedToo) (ne_of_gt after)
  · rintro ⟨i, isOwn, enough, fewer, first, others⟩
    refine ⟨i, fun j => ⟨?_, ?_⟩, (seesIff i).mpr ⟨isOwn, enough⟩, ?_⟩
    · intro announcedToo
      obtain ⟨isOwnToo, fewerToo, enoughToo⟩ := (announcesIff j).mp announcedToo
      rcases lt_trichotomy j i with before | same | after
      · exact absurd enoughToo (not_le.mpr (first j before isOwnToo))
      · exact same
      · exact absurd fewerToo (not_lt.mpr (others j after isOwnToo))
    · rintro rfl
      exact (announcesIff j).mpr ⟨isOwn, fewer, enough⟩
    · intro j before seen
      obtain ⟨isOwnToo, enoughToo⟩ := (seesIff j).mp seen
      exact absurd enoughToo (not_le.mpr (first j before isOwnToo))

end Once

/-- The votes for a value are enough for every later vote under the key. -/
theorem VoterCall.IsOwn.votesFor_le {i j : Fin calls.length} {key : VoteKey}
    (isOwn : calls[i].IsOwn key wanted) (after : i < j) :
    votesFor key (some calls[i].vote.value) (calls.take i) + 1 ≤ votesFor key none (calls.take j) := by
  rw [← votesFor_take_succ isOwn.self]
  exact (votesFor_take_mono key _ calls (Nat.succ_le_of_lt after)).trans
    (List.countP_mono_left fun call _ supports => by simp_all [Vote.supports])

/-- An agreement is announced exactly once, by the first call that sees enough votes, just
when its votes arrive as `Completed` says. If the total agreement on zero comes first, only
later votes for other values announce the partial one. -/
theorem announcedOnce_iff (round threshold : Int) (calls : List VoterCall)
    (distinct : DistinctVotes calls) (key : VoteKey) (agreement : Agreement)
    (fits : agreement.FitsBit key.b) :
    (AnnouncedOnce round threshold calls key agreement ↔
      (threshold ≤ votesFor key agreement.wanted calls →
        Completed threshold calls key agreement)) ∧
    ∀ value i, agreement = .totalOnZero value →
      Announces round threshold calls key agreement i →
      (∀ j, j < i → ¬ Announces round threshold calls key .partialOnZero j) →
      ∀ j, Announces round threshold calls key .partialOnZero j ↔
        i < j ∧ calls[j].IsOwn key none ∧
          (votesFor key (some calls[j].vote.value) (calls.take j) : Int) + 1 < threshold := by
  have announcesIff := fun i =>
    @DistinctVotes.announces_iff round threshold calls distinct key agreement i fits
  refine ⟨?_, ?_⟩
  swap
  · rintro value i rfl total first j
    have partialIff := fun k =>
      @DistinctVotes.announces_iff round threshold calls distinct key .partialOnZero k fits
    obtain ⟨isOwn, met⟩ := (announcesIff i).mp total
    simp only [Agreement.Met, Agreement.wanted, Nat.cast_succ] at partialIff met
    rw [partialIff]
    constructor
    · rintro ⟨isOwnToo, fewer, enough⟩
      refine ⟨?_, isOwnToo, fewer⟩
      rcases lt_trichotomy j i with before | rfl | after
      · exact absurd ((partialIff j).mpr ⟨isOwnToo, fewer, enough⟩) (first j before)
      · omega
      · exact after
    · rintro ⟨after, isOwnToo, fewer⟩
      have := isOwn.votesFor_le after
      exact ⟨isOwnToo, fewer, by omega⟩
  have counted := distinct.tally_run_take (le_refl calls.length) round threshold key agreement.wanted
  rw [List.take_length] at counted
  rw [AnnouncedOnce, counted]
  apply imp_congr_right
  intro _
  have seesIff := fun i =>
    @DistinctVotes.seesEnough_iff round threshold calls distinct key agreement i
  cases agreement with
  | totalOnZero value =>
    refine once_iff_of_eq (fun i => (announcesIff i).trans (and_congr_right fun isOwn => ?_)) seesIff
    have sameValue : calls[i].vote.value = value := by
      simpa [Agreement.wanted] using isOwn.2
    rw [Agreement.Met, sameValue, Nat.cast_succ]
  | partialOnZero =>
    exact once_iff_of_partial (fun i => by
        simpa only [Agreement.Met, Agreement.wanted, Nat.cast_succ] using announcesIff i) seesIff
  | onOne =>
    exact once_iff_of_eq (fun i => by
        simpa only [Agreement.Met, Agreement.wanted, Nat.cast_succ] using announcesIff i) seesIff

/-- A vote of a signer in round 1. -/
def voteOf (signer : UInt8) (step : Int) (b : UInt8) (leader : GoString) : VoterCall :=
  .addVoteWithBBAMsg 1 step b ⟨Bytes32.fill 7, leader⟩
    ⟨[], ⟨Bytes32.fill signer, [], ⟨0, 1, step, b, ⟨Bytes32.fill 7, leader⟩⟩⟩⟩

/-- The second of three votes announces. -/
theorem announcedOnce_two_signers :
    DistinctVotes [voteOf 1 4 0 [], voteOf 2 4 0 [], voteOf 3 4 0 []] ∧
      (2 : Int) ≤ votesFor ⟨1, 4, 0⟩ (some ⟨Bytes32.fill 7, []⟩)
        [voteOf 1 4 0 [], voteOf 2 4 0 [], voteOf 3 4 0 []] ∧
      AnnouncedOnce 1 2 [voteOf 1 4 0 [], voteOf 2 4 0 [], voteOf 3 4 0 []] ⟨1, 4, 0⟩
        (.totalOnZero ⟨Bytes32.fill 7, []⟩) := by
  have distinct : DistinctVotes [voteOf 1 4 0 [], voteOf 2 4 0 [], voteOf 3 4 0 []] := by
    unfold DistinctVotes
    decide
  refine ⟨distinct, by decide,
    (announcedOnce_iff 1 2 _ distinct ⟨1, 4, 0⟩ (.totalOnZero ⟨Bytes32.fill 7, []⟩) rfl).1.mpr
      fun _ => ?_⟩
  exact ⟨⟨1, by decide⟩, ⟨by decide, by decide⟩, by decide⟩

/-- The count of step 5 jumps from one vote over the threshold of two when the final votes of
step 4 arrive, so the agreement on one is only reported as an old one; and a partial agreement
is announced again by the next vote. -/
theorem crossing_missed_and_repeated :
    (DistinctVotes [voteOf 1 5 1 [], voteOf 2 (-4) 1 [], voteOf 3 (-4) 1 [], voteOf 4 5 1 []] ∧
      ¬ AnnouncedOnce 1 2 [voteOf 1 5 1 [], voteOf 2 (-4) 1 [], voteOf 3 (-4) 1 [], voteOf 4 5 1 []]
        ⟨1, 5, 1⟩ .onOne) ∧
    DistinctVotes [voteOf 1 4 0 [1], voteOf 2 4 0 [2], voteOf 3 4 0 [3]] ∧
      ¬ AnnouncedOnce 1 2 [voteOf 1 4 0 [1], voteOf 2 4 0 [2], voteOf 3 4 0 [3]]
        ⟨1, 4, 0⟩ .partialOnZero := by
  refine ⟨⟨by unfold DistinctVotes; decide, ?_⟩, by unfold DistinctVotes; decide, ?_⟩
  · intro once
    obtain ⟨i, announced, -⟩ := once (by decide)
    obtain ⟨-, answer⟩ := (announced i).mpr rfl
    have never : ∀ i, (answerTo 1 2
        [voteOf 1 5 1 [], voteOf 2 (-4) 1 [], voteOf 3 (-4) 1 [], voteOf 4 5 1 []] i).2 ≠
          ⟨some ⟨1, 5, 1⟩, .agreeOnOne, false⟩ := by
      decide
    exact never i answer
  · intro once
    obtain ⟨i, announced, -⟩ := once (by decide)
    have second := (announced ⟨1, by decide⟩).mp ⟨⟨by decide, by decide⟩, by decide⟩
    have third := (announced ⟨2, by decide⟩).mp ⟨⟨by decide, by decide⟩, by decide⟩
    exact absurd (second.trans third.symm) (by decide)

end MultiVac.Consensus
