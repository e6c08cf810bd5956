import MultiVac.Consensus.State
import MultiVac.Lib.Counting

/-!
# The gradecast voter

What `pbftVoter` answers after any sequence of votes. Only the first vote of a
key is kept. Among fewer than twice the threshold of keys, the value that reaches
the threshold is unique, so neither the order of arrival nor the order in which the
map is visited is seen.
-/

namespace MultiVac.Consensus

open Lib (Quorum)

/-- A call that adds a vote. -/
inductive PbftCall where
  | addPreVote (vote : PbftVote)
  | addPreCommit (vote : PbftVote)

/-- The value that a vote is counted for. -/
def PbftVote.value (vote : PbftVote) : ByzAgreementValue :=
  ⟨vote.blockHash, vote.leader⟩

/-- The first vote of a key. -/
def firstVote (votes : List PbftVote) (key : PkKey) : Option PbftVote :=
  votes.find? fun vote => vote.votePublicKey = key

/-- The first vote of a key is for a value. -/
def Supports (votes : List PbftVote) (value : ByzAgreementValue) (key : PkKey) : Prop :=
  ∃ vote, firstVote votes key = some vote ∧ vote.value = value

/-- The keys that vote. -/
def voters (votes : List PbftVote) : Finset PkKey :=
  (votes.map PbftVote.votePublicKey).toFinset

namespace PbftCall

/-- The votes of the first phase, in the order of their arrival. -/
def preVotes (calls : List PbftCall) : List PbftVote :=
  calls.filterMap fun
    | .addPreVote vote => some vote
    | .addPreCommit _ => none

/-- The votes of the second phase, in the order of their arrival. -/
def preCommits (calls : List PbftCall) : List PbftVote :=
  calls.filterMap fun
    | .addPreVote _ => none
    | .addPreCommit vote => some vote

end PbftCall

section Votes

variable {votes others : List PbftVote} {value first second : ByzAgreementValue} {key : PkKey}

theorem mem_voters : key ∈ voters votes ↔ (firstVote votes key).isSome := by
  simp [voters, firstVote]

theorem voters_congr (same : firstVote others = firstVote votes) : voters others = voters votes := by
  ext key
  rw [mem_voters, mem_voters, same]

theorem mem_voters_of_supports (supports : Supports votes value key) : key ∈ voters votes := by
  obtain ⟨vote, found, -⟩ := supports
  rw [mem_voters, found]
  rfl

/-- A key has one first vote, so fewer than twice the threshold of keys agree on at
most one value. -/
theorem eq_of_quorums {threshold : Int} (few : ((voters votes).card : Int) < 2 * threshold)
    (firstQuorum : Quorum threshold (Supports votes first))
    (secondQuorum : Quorum threshold (Supports votes second)) : first = second := by
  obtain ⟨key, ⟨vote, found, rfl⟩, other, otherFound, rfl⟩ :=
    Quorum.exists_common (voters votes) few firstQuorum secondQuorum
      (fun _ => mem_voters_of_supports) (fun _ => mem_voters_of_supports)
  rw [found] at otherFound
  rw [Option.some.inj otherFound]

end Votes

/-- A vote of a table with the smallest seed. -/
def IsLeast (table : PkKey → Option PbftVote) (least : PbftVote) : Prop :=
  table least.votePublicKey = some least ∧
    ∀ key vote, table key = some vote → vote.seed.lessThan least.seed = false

namespace PbftVoter

/-- One call. -/
def perform (voter : PbftVoter) : PbftCall → PbftVoter
  | .addPreVote vote => voter.addPreVote vote
  | .addPreCommit vote => voter.addPreCommit vote

/-- A sequence of calls. -/
def performAll (voter : PbftVoter) (calls : List PbftCall) : PbftVoter :=
  calls.foldl perform voter

/-- The entry for the smallest seed is right. -/
def Least (voter : PbftVoter) : Prop :=
  match voter.minSeed with
  | none => ∀ key, voter.preVotes key = none
  | some least => IsLeast voter.preVotes least

/-- A table with one more vote, which does not replace an earlier one. -/
def withVote (table : PkKey → Option PbftVote) (vote : PbftVote) (key : PkKey) :
    Option PbftVote :=
  (table key).or (if vote.votePublicKey = key then some vote else none)

variable {voter : PbftVoter} {vote least : PbftVote} {table : PkKey → Option PbftVote}

theorem withVote_eq_some {key : PkKey} {other : PbftVote}
    (found : withVote table vote key = some other) : table key = some other ∨ vote = other := by
  cases present : table key with
  | some first =>
    rw [withVote, present, Option.some_or] at found
    exact Or.inl found
  | none =>
    rw [withVote, present, Option.none_or] at found
    split at found
    · exact Or.inr (Option.some.inj found)
    · cases found

theorem withVote_of_some (voted : table vote.votePublicKey = some least) :
    withVote table vote = table := by
  funext key
  by_cases same : vote.votePublicKey = key
  · rw [withVote, ← same, voted, Option.some_or]
  · rw [withVote, if_neg same, Option.or_none]

theorem withVote_of_none (fresh : table vote.votePublicKey = none) :
    withVote table vote = Function.update table vote.votePublicKey (some vote) := by
  funext key
  by_cases same : vote.votePublicKey = key
  · rw [withVote, if_pos same, ← same, fresh, Option.none_or, Function.update_self]
  · rw [withVote, if_neg same, Option.or_none, Function.update_of_ne (Ne.symm same)]

theorem preVotes_addPreVote (voter : PbftVoter) (vote : PbftVote) :
    (voter.addPreVote vote).preVotes = withVote voter.preVotes vote := by
  rw [addPreVote]
  split
  · next first voted => exact (withVote_of_some voted).symm
  · next fresh => exact (withVote_of_none fresh).symm

theorem lookup_addPreCommit (voter : PbftVoter) (vote : PbftVote) :
    (voter.addPreCommit vote).preCommits.lookup = withVote voter.preCommits.lookup vote := by
  rw [addPreCommit]
  split
  · next first voted => exact (withVote_of_some voted).symm
  · next fresh =>
    rw [withVote_of_none fresh]
    funext key
    rw [Function.update_apply]
    split
    · next same => rw [same, AList.lookup_insert]
    · next different => exact AList.lookup_insert_ne different

/-- The smaller of the least vote and a new one is the least vote. -/
theorem isLeast_withVote (isLeast : IsLeast table least) (fresh : table vote.votePublicKey = none) :
    IsLeast (withVote table vote) (if vote.seed.lessThan least.seed then vote else least) := by
  have trans : ∀ other : PbftVote, other.seed.lessThan vote.seed = true →
      vote.seed.lessThan least.seed = true → other.seed.lessThan least.seed = true := by
    simp only [Bytes32.lessThan, beq_iff_eq]
    intro other below smaller
    exact Std.TransCmp.lt_trans below smaller
  by_cases smaller : vote.seed.lessThan least.seed = true
  · rw [if_pos smaller]
    refine ⟨by simp [withVote, fresh], fun key other found => ?_⟩
    obtain found | rfl := withVote_eq_some found
    · exact Bool.eq_false_iff.mpr fun below =>
        Bool.eq_false_iff.mp (isLeast.2 key other found) (trans other below smaller)
    · simp [Bytes32.lessThan]
  · rw [if_neg smaller]
    refine ⟨by rw [withVote, isLeast.1, Option.some_or], fun key other found => ?_⟩
    obtain found | rfl := withVote_eq_some found
    · exact isLeast.2 key other found
    · exact Bool.eq_false_iff.mpr smaller

theorem Least.addPreVote (holds : voter.Least) (vote : PbftVote) :
    (voter.addPreVote vote).Least := by
  cases voted : voter.preVotes vote.votePublicKey with
  | some first =>
    rw [PbftVoter.addPreVote, voted]
    exact holds
  | none =>
    have table := preVotes_addPreVote voter vote
    rw [PbftVoter.addPreVote, voted] at table ⊢
    rw [Least] at holds ⊢
    simp only at table ⊢
    cases minSeed : voter.minSeed with
    | none =>
      rw [minSeed] at holds
      simp only at holds ⊢
      refine ⟨Function.update_self _ _ _, fun key other found => ?_⟩
      rw [table] at found
      obtain found | rfl := withVote_eq_some found
      · rw [holds] at found
        cases found
      · simp [Bytes32.lessThan]
    | some least =>
      rw [minSeed] at holds
      have newLeast := isLeast_withVote holds voted
      rw [← table] at newLeast
      by_cases smaller : vote.seed.lessThan least.seed = true
      · simpa [smaller] using newLeast
      · simpa [smaller] using newLeast

/-- What a sequence of calls makes of a voter. -/
theorem performAll_spec (calls : List PbftCall) :
    (voter.performAll calls).voteThreshold = voter.voteThreshold ∧
      (∀ key, (voter.performAll calls).preVotes key =
        (voter.preVotes key).or (firstVote (PbftCall.preVotes calls) key)) ∧
      (∀ key, (voter.performAll calls).preCommits.lookup key =
        (voter.preCommits.lookup key).or (firstVote (PbftCall.preCommits calls) key)) ∧
      (voter.Least → (voter.performAll calls).Least) := by
  induction calls generalizing voter with
  | nil => simp [performAll, firstVote, PbftCall.preVotes, PbftCall.preCommits]
  | cons call calls ih =>
    have first : ∀ (vote : PbftVote) (votes : List PbftVote) (key : PkKey),
        firstVote (vote :: votes) key =
          (if vote.votePublicKey = key then some vote else none).or (firstVote votes key) := by
      intro vote votes key
      by_cases same : vote.votePublicKey = key <;> simp [firstVote, same]
    obtain ⟨threshold, votes, commits, least⟩ := @ih (voter.perform call)
    rw [performAll, List.foldl_cons]
    cases call with
    | addPreVote vote =>
      refine ⟨threshold.trans ?_, fun key => (votes key).trans ?_,
        fun key => (commits key).trans ?_, fun holds => least (holds.addPreVote vote)⟩
      · rw [perform, addPreVote]
        split <;> rfl
      · rw [perform, preVotes_addPreVote, withVote, Option.or_assoc]
        exact congrArg _ (first vote _ key).symm
      · rw [perform, addPreVote]
        split <;> rfl
    | addPreCommit vote =>
      have same : (voter.addPreCommit vote).preVotes = voter.preVotes ∧
          (voter.addPreCommit vote).minSeed = voter.minSeed ∧
          (voter.addPreCommit vote).voteThreshold = voter.voteThreshold := by
        rw [addPreCommit]
        split <;> exact ⟨rfl, rfl, rfl⟩
      refine ⟨threshold.trans same.2.2, fun key => (votes key).trans ?_,
        fun key => (commits key).trans ?_, fun holds => least ?_⟩
      · rw [perform, same.1]
        rfl
      · rw [perform, congrFun (lookup_addPreCommit voter vote) key, withVote, Option.or_assoc]
        exact congrArg _ (first vote _ key).symm
      · rw [Least, perform, same.1, same.2.1]
        exact holds

/-! ### The count -/

/-- The loop stops at a value with enough votes, or no value has enough. -/
theorem firstReaching_spec {threshold : Int} {counts : List ByzAgreementValue}
    (below : ∀ value, (counts.count value : Int) < threshold) (votes : List PbftVote) :
    match firstReaching threshold counts votes with
    | some value => threshold ≤ (counts ++ votes.map PbftVote.value).count value
    | none => ∀ value, ((counts ++ votes.map PbftVote.value).count value : Int) < threshold := by
  induction votes generalizing counts with
  | nil => simpa [firstReaching] using below
  | cons vote rest ih =>
    have moved : ∀ value, (vote.value :: counts ++ rest.map PbftVote.value).count value =
        (counts ++ (vote :: rest).map PbftVote.value).count value := by
      intro value
      refine List.Perm.count_eq ?_ value
      rw [List.map_cons]
      exact List.perm_middle.symm
    rw [firstReaching]
    by_cases reached : threshold ≤ ((vote.value :: counts).count vote.value : Int)
    · have more : (vote.value :: counts).count vote.value ≤
          (counts ++ (vote :: rest).map PbftVote.value).count vote.value := by
        rw [← moved, List.count_append]
        exact Nat.le_add_right _ _
      simp only [PbftVote.value] at reached more ⊢
      rw [if_pos reached]
      simp only
      omega
    · have stillBelow : ∀ value, ((vote.value :: counts).count value : Int) < threshold := by
        intro value
        by_cases same : value = vote.value
        · rw [same]
          omega
        · rw [List.count_cons_of_ne (Ne.symm same)]
          exact below value
      have rest := ih stillBelow
      simp only [moved] at rest
      simp only [PbftVote.value] at reached rest ⊢
      rw [if_neg reached]
      exact rest

/-- The votes of the table for a value come from that many keys. -/
theorem quorum_iff {commits : List PbftVote}
    (holds : ∀ key, voter.preCommits.lookup key = firstVote commits key) (order : MapOrder)
    (threshold : Int) (value : ByzAgreementValue) :
    threshold ≤ ((((order.visit voter.preCommits.entries).map Sigma.snd).map
        PbftVote.value).count value : Int) ↔
      Quorum threshold (Supports commits value) := by
  let entries := voter.preCommits.entries.filter fun entry => entry.2.value = value
  have distinct : (entries.map Sigma.fst).Nodup :=
    List.Nodup.sublist (List.Sublist.map _ List.filter_sublist) voter.preCommits.nodupKeys
  have countEq : (((order.visit voter.preCommits.entries).map Sigma.snd).map
      PbftVote.value).count value = (entries.map Sigma.fst).toFinset.card := by
    rw [List.toFinset_card_of_nodup distinct, List.length_map, List.map_map,
      ((order.visit_perm voter.preCommits.entries).map _).count_eq, List.count_eq_countP,
      List.countP_map, List.countP_eq_length_filter]
    rfl
  have mem_iff : ∀ key, key ∈ (entries.map Sigma.fst).toFinset ↔ Supports commits value key := by
    intro key
    have stored : ∀ vote, firstVote commits key = some vote ↔
        ⟨key, vote⟩ ∈ voter.preCommits.entries := by
      intro vote
      rw [← holds]
      exact AList.mem_lookup_iff
    simp only [List.mem_toFinset, List.mem_map, entries, List.mem_filter, decide_eq_true_eq,
      Supports, stored]
    constructor
    · rintro ⟨⟨_, vote⟩, ⟨member, isFor⟩, rfl⟩
      exact ⟨vote, member, isFor⟩
    · rintro ⟨vote, member, isFor⟩
      exact ⟨⟨key, vote⟩, ⟨member, isFor⟩, rfl⟩
  rw [countEq]
  constructor
  · intro enough
    exact ⟨_, enough, fun key member => (mem_iff key).mp member⟩
  · rintro ⟨keys, enough, supports⟩
    have smaller := Finset.card_le_card fun key member => (mem_iff key).mpr (supports key member)
    omega

/-- The answer to the commit votes, whatever the order of the map. -/
theorem generatePreCommitResult_eq_some_iff {round threshold : Int} {calls : List PbftCall}
    (few : ((voters (PbftCall.preCommits calls)).card : Int) < 2 * threshold) (order : MapOrder)
    (value : ByzAgreementValue) :
    ((new round threshold).performAll calls).generatePreCommitResult order = some value ↔
      Quorum threshold (Supports (PbftCall.preCommits calls) value) := by
  obtain ⟨sameThreshold, -, commits, -⟩ := @performAll_spec (new round threshold) calls
  have none_counted : ∀ value : ByzAgreementValue, (List.count value [] : Int) < threshold := by
    intro value
    rw [List.count_nil]
    omega
  have reach := firstReaching_spec none_counted
    ((order.visit ((new round threshold).performAll calls).preCommits.entries).map Sigma.snd)
  have counted := quorum_iff commits order threshold
  rw [generatePreCommitResult, sameThreshold]
  change firstReaching threshold _ _ = _ ↔ _
  rw [List.nil_append] at reach
  split at reach
  · next chosen found =>
    have quorum := (counted chosen).mp reach
    rw [found]
    refine ⟨fun same => Option.some.inj same ▸ quorum, fun other => ?_⟩
    rw [eq_of_quorums few quorum other]
  · next found =>
    rw [found]
    refine ⟨fun chosen => by simp at chosen, fun quorum => ?_⟩
    have enough := (counted value).mpr quorum
    have missed := reach value
    omega

end PbftVoter

/-- Among fewer than twice the threshold of keys, the gradecast voter finds the one value
with the threshold of first votes, for every order of arrival and of the map, and a
first vote with the smallest seed. -/
theorem pbftVoter_results_independent (round threshold : Int) (calls : List PbftCall)
    (few : ((voters (PbftCall.preCommits calls)).card : Int) < 2 * threshold) :
    let voter := (PbftVoter.new round threshold).performAll calls
    (∀ order value, voter.generatePreCommitResult order = some value ↔
        Quorum threshold (Supports (PbftCall.preCommits calls) value)) ∧
      (∀ first second, Quorum threshold (Supports (PbftCall.preCommits calls) first) →
        Quorum threshold (Supports (PbftCall.preCommits calls) second) → first = second) ∧
      (∀ others order otherOrder,
        firstVote (PbftCall.preCommits others) = firstVote (PbftCall.preCommits calls) →
        ((PbftVoter.new round threshold).performAll others).generatePreCommitResult otherOrder =
          voter.generatePreCommitResult order) ∧
      match voter.generatePreVoteResult with
      | none => ∀ key, firstVote (PbftCall.preVotes calls) key = none
      | some least => IsLeast (firstVote (PbftCall.preVotes calls)) least := by
  have spec := @PbftVoter.performAll_spec (PbftVoter.new round threshold) calls
  have least := spec.2.2.2 fun _ => rfl
  rw [PbftVoter.Least, funext spec.2.1] at least
  refine ⟨fun order value => PbftVoter.generatePreCommitResult_eq_some_iff few order value,
    fun first second => eq_of_quorums few, fun others order otherOrder same => ?_,
    least⟩
  have supports : ∀ value, Supports (PbftCall.preCommits others) value =
      Supports (PbftCall.preCommits calls) value := by
    intro value
    unfold Supports
    rw [same]
  have fewOthers : ((voters (PbftCall.preCommits others)).card : Int) < 2 * threshold := by
    rw [voters_congr same]
    exact few
  refine Option.ext fun value => ?_
  rw [PbftVoter.generatePreCommitResult_eq_some_iff fewOthers,
    PbftVoter.generatePreCommitResult_eq_some_iff few, supports]

/-- A vote for the empty value. -/
def emptyVote (key : PkKey) : PbftVote :=
  ⟨1, [], key, Bytes32.zero, Bytes32.zero, []⟩

/-- Two keys commit to nothing. -/
theorem pbftVoter_results_independent_twoKeys :
    let calls : List PbftCall := [.addPreVote (emptyVote (Bytes32.fill 1)),
      .addPreCommit (emptyVote (Bytes32.fill 1)), .addPreCommit (emptyVote (Bytes32.fill 2))]
    ((voters (PbftCall.preCommits calls)).card : Int) < 2 * 2 ∧
      ∀ order, ((PbftVoter.new 1 2).performAll calls).generatePreCommitResult order =
        some ByzAgreementValue.empty := by
  intro calls
  have few : ((voters (PbftCall.preCommits calls)).card : Int) < 2 * 2 := by decide
  refine ⟨few, fun order => ((pbftVoter_results_independent 1 2 calls few).1 order _).mpr ?_⟩
  refine ⟨{Bytes32.fill 1, Bytes32.fill 2}, by decide, fun key member => ?_⟩
  refine ⟨emptyVote key, ?_, rfl⟩
  rw [Finset.mem_insert, Finset.mem_singleton] at member
  obtain rfl | rfl := member
  · rfl
  · rfl

end MultiVac.Consensus
