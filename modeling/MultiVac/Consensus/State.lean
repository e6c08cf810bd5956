import MultiVac.Base.Fault
import MultiVac.Consensus.Voter

/-!
# The executor's parts

The round and step bookkeeping of `consensusState`, the gradecast voter
`pbftVoter`, and the stores for received and for early messages.
-/

namespace MultiVac.Consensus

/-- The shard statuses of `ceStatus`. -/
inductive ShardStatus where
  | shardDisabled
  | shardPreparation
  | shardEnabled
deriving DecidableEq

/-- An entry of the ring of round seeds. -/
structure Pre where
  round : Int
  seed : Hash

/-- `consensusState`. The ring of seeds is indexed by the round modulo ten. -/
structure ConsensusState where
  round : Int
  step : Int
  smallestCred : Hash
  preRoundS : Int → Option Pre
  inShardProof : Bytes
  shardStartRound : Int
  shardStopRound : Int
  shardStatus : ShardStatus

namespace ConsensusState

/-- `initialRound`. -/
def initialRound : Int := -1

/-- `startRound`. -/
def startRound : Int := 0

/-- `startingStepForRound`. -/
def startingStepForRound : Int := 1

/-- `maxCred`. -/
def maxCred : Hash := Bytes32.fill 255

/-- `emptySeed`. -/
def emptySeed : Hash := Bytes32.zero

/-- The state before the first round. -/
def new : ConsensusState where
  round := initialRound
  step := 0
  smallestCred := maxCred
  preRoundS := fun _ => none
  inShardProof := List.replicate 32 0
  shardStartRound := 0
  shardStopRound := -2
  shardStatus := .shardDisabled

variable (cs : ConsensusState)

/-- `setStepInRound`. -/
def setStepInRound (round newStep : Int) : ConsensusState :=
  if cs.step < newStep ∧ cs.round = round then { cs with step := newStep }
  else cs

/-- `setRound`. -/
def setRound (round : Int) : ConsensusState :=
  { cs with
    round := round
    step := startingStepForRound
    smallestCred := maxCred }

/-- `setNextStepInRound`. Its callers only log whether it succeeded. -/
def setNextStepInRound (round step : Int) : ConsensusState :=
  if cs.step = step - 1 ∧ cs.round = round then { cs with step := cs.step + 1 }
  else cs

/-- `updateShardStatus`. -/
def updateShardStatus (status : ShardStatus) : ConsensusState :=
  match status with
  | .shardEnabled => { cs with shardStatus := .shardEnabled }
  | .shardDisabled =>
    if cs.shardStatus = .shardEnabled then
      { cs with shardStatus := .shardDisabled }
    else cs
  | .shardPreparation =>
    if cs.shardStatus = .shardDisabled then
      { cs with shardStatus := .shardPreparation }
    else cs

/-- `setSmallestCredInRound`. -/
def setSmallestCredInRound (round : Int) (cred : Hash) : ConsensusState :=
  if round = cs.round then { cs with smallestCred := cred } else cs

/-- Write to the ring of seeds. A slot is only overwritten by a later round. -/
def storeSeed (round : Int) (seed : Hash) : ConsensusState :=
  match cs.preRoundS (round.tmod 10) with
  | some entry =>
    if entry.round < round then
      { cs with
        preRoundS := Function.update cs.preRoundS (round.tmod 10) (some ⟨round, seed⟩) }
    else cs
  | none =>
    { cs with
      preRoundS := Function.update cs.preRoundS (round.tmod 10) (some ⟨round, seed⟩) }

/-- `setRoundSeed`. The ring is an array, and the index of most negative rounds is negative. -/
def setRoundSeed (round : Int) (seed : Hash) : Go ConsensusState := do
  Go.assert (0 ≤ round.tmod 10)
  return cs.storeSeed round seed

/-- `getRoundSeed`. -/
def getRoundSeed (round : Int) : Hash :=
  if round ≤ 0 then emptySeed
  else
    match cs.preRoundS (round.tmod 10) with
    | some entry => if entry.round = round then entry.seed else emptySeed
    | none => emptySeed

section Projections

variable (cs : ConsensusState) (round step : Int)

@[simp]
theorem setStepInRound_round : (cs.setStepInRound round step).round = cs.round := by
  unfold setStepInRound
  split <;> rfl

theorem setStepInRound_step (newStep : Int) :
    (cs.setStepInRound round newStep).step =
      if cs.step < newStep ∧ cs.round = round then newStep else cs.step := by
  unfold setStepInRound
  split <;> rfl

theorem setNextStepInRound_step :
    (cs.setNextStepInRound round step).step =
      if cs.step = step - 1 ∧ cs.round = round then cs.step + 1
      else cs.step := by
  unfold setNextStepInRound
  split <;> rfl

@[simp]
theorem setNextStepInRound_round : (cs.setNextStepInRound round step).round = cs.round := by
  unfold setNextStepInRound
  split <;> rfl

@[simp]
theorem storeSeed_round (seed : Hash) : (cs.storeSeed round seed).round = cs.round := by
  unfold storeSeed
  split
  · split <;> rfl
  · rfl

@[simp]
theorem storeSeed_step (seed : Hash) : (cs.storeSeed round seed).step = cs.step := by
  unfold storeSeed
  split
  · split <;> rfl
  · rfl

@[simp]
theorem setSmallestCredInRound_round (cred : Hash) :
    (cs.setSmallestCredInRound round cred).round = cs.round := by
  unfold setSmallestCredInRound
  split <;> rfl

@[simp]
theorem setSmallestCredInRound_step (cred : Hash) :
    (cs.setSmallestCredInRound round cred).step = cs.step := by
  unfold setSmallestCredInRound
  split <;> rfl

@[simp]
theorem updateShardStatus_round (status : ShardStatus) :
    (cs.updateShardStatus status).round = cs.round := by
  unfold updateShardStatus
  split <;> (try split) <;> rfl

@[simp]
theorem updateShardStatus_step (status : ShardStatus) :
    (cs.updateShardStatus status).step = cs.step := by
  unfold updateShardStatus
  split <;> (try split) <;> rfl

end Projections

/-! ### The ring of seeds -/

/-- Calls of `setRoundSeed`, one after the other. -/
def setRoundSeeds (calls : List Pre) : Go ConsensusState :=
  calls.foldlM (fun cs call => cs.setRoundSeed call.round call.seed) new

/-- What the calls store if none of them panics. -/
def storeSeeds (calls : List Pre) : ConsensusState :=
  calls.foldl (fun cs call => cs.storeSeed call.round call.seed) new

/-- The first seed of a round, unless a larger round of its slot was recorded. -/
def recordedSeed (calls : List Pre) (round : Int) : Option Hash :=
  if ∃ call ∈ calls, call.round.tmod 10 = round.tmod 10 ∧ round < call.round then none
  else (calls.find? fun call => call.round = round).map Pre.seed

/-- The calls panic exactly when the round of one of them has a negative index. -/
theorem setRoundSeeds_eq (calls : List Pre) :
    setRoundSeeds calls = if ∀ call ∈ calls, 0 ≤ call.round.tmod 10 then .ok (storeSeeds calls)
      else Go.panic := by
  induction calls using List.reverseRecOn with
  | nil => rfl
  | append_singleton calls call ih =>
    have stored : storeSeeds (calls ++ [call]) =
        (storeSeeds calls).storeSeed call.round call.seed := List.foldl_concat ..
    rw [setRoundSeeds] at ih
    rw [setRoundSeeds, List.foldlM_append, ih, stored]
    by_cases before : ∀ call ∈ calls, 0 ≤ call.round.tmod 10
    · by_cases index : 0 ≤ call.round.tmod 10
      · rw [if_pos before, if_pos (by simpa [or_imp, forall_and, index] using before)]
        simp [List.foldlM, setRoundSeed, Go.assert, index]
      · rw [if_pos before, if_neg fun all => index (all call (by simp))]
        simp [List.foldlM, setRoundSeed, Go.assert, index]
        rfl
    · rw [if_neg before, if_neg fun all => before fun other inCalls =>
        all other (List.mem_append_left _ inCalls)]
      rfl

theorem preRoundS_storeSeed (cs : ConsensusState) (call : Pre) (slot : Int) :
    (cs.storeSeed call.round call.seed).preRoundS slot =
      if call.round.tmod 10 = slot ∧ ∀ entry ∈ cs.preRoundS slot, entry.round < call.round then
        some call
      else cs.preRoundS slot := by
  unfold storeSeed
  by_cases isSlot : call.round.tmod 10 = slot
  · subst isSlot
    cases found : cs.preRoundS (call.round.tmod 10) with
    | none => simp
    | some entry =>
      by_cases less : entry.round < call.round
      · simp [less]
      · simp [less, found]
  · rw [if_neg fun both => isSlot both.1]
    split
    · split
      · exact Function.update_of_ne (Ne.symm isSlot) _ _
      · rfl
    · exact Function.update_of_ne (Ne.symm isSlot) _ _

/-- A slot holds the first call of the largest round that belongs there. -/
theorem preRoundS_storeSeeds (calls : List Pre) (slot : Int) :
    (∀ call ∈ calls, call.round.tmod 10 = slot →
      ∃ entry ∈ (storeSeeds calls).preRoundS slot, call.round ≤ entry.round) ∧
    ∀ entry ∈ (storeSeeds calls).preRoundS slot, entry.round.tmod 10 = slot ∧
      (calls.find? fun call => call.round = entry.round) = some entry := by
  induction calls using List.reverseRecOn with
  | nil => simp [storeSeeds, new]
  | append_singleton calls call ih =>
    obtain ⟨covered, first⟩ := ih
    rw [storeSeeds, List.foldl_concat, ← storeSeeds, preRoundS_storeSeed]
    split
    · next replaced =>
      obtain ⟨rfl, larger⟩ := replaced
      refine ⟨fun other inCalls same => ⟨call, rfl, ?_⟩, ?_⟩
      · rcases List.mem_append.mp inCalls with old | new
        · obtain ⟨entry, isEntry, le⟩ := covered other old same
          exact le.trans (larger entry isEntry).le
        · rw [List.mem_singleton.mp new]
      · rintro _ ⟨⟩
        refine ⟨rfl, ?_⟩
        rw [List.find?_append, List.find?_eq_none.mpr, Option.none_or]
        · simp
        · intro other inCalls same
          have sameRound : other.round = call.round := of_decide_eq_true same
          obtain ⟨entry, isEntry, le⟩ := covered other inCalls (by rw [sameRound])
          exact absurd (larger entry isEntry) (not_lt.mpr (sameRound ▸ le))
    · next kept =>
      refine ⟨fun other inCalls same => ?_, fun entry isEntry => ?_⟩
      · rcases List.mem_append.mp inCalls with old | new
        · exact covered other old same
        · obtain rfl := List.mem_singleton.mp new
          simpa using not_and.mp kept same
      · obtain ⟨isSlot, isFirst⟩ := first entry isEntry
        exact ⟨isSlot, by rw [List.find?_append, isFirst, Option.some_or]⟩

/-- Unless a negative index makes a call panic, the seed of a round is the recorded one if there
is one, and the empty seed otherwise; so the missing seed of a round is never reported. -/
theorem getRoundSeed_setRoundSeeds (calls : List Pre) (round : Int) (positive : 1 ≤ round) :
    setRoundSeeds calls = (if ∀ call ∈ calls, 0 ≤ call.round.tmod 10 then .ok (storeSeeds calls)
        else Go.panic) ∧
      (storeSeeds calls).getRoundSeed round = (recordedSeed calls round).getD emptySeed ∧
      (some ((storeSeeds calls).getRoundSeed round) = recordedSeed calls round ↔
        (recordedSeed calls round).isSome) := by
  have answer : (storeSeeds calls).getRoundSeed round =
      (recordedSeed calls round).getD emptySeed := by
    obtain ⟨covered, first⟩ := preRoundS_storeSeeds calls (round.tmod 10)
    by_cases kept : ∃ entry ∈ (storeSeeds calls).preRoundS (round.tmod 10), entry.round = round
    · obtain ⟨entry, isEntry, rfl⟩ := kept
      rw [getRoundSeed, if_neg (by omega), Option.mem_def.mp isEntry, recordedSeed, if_neg,
        (first entry isEntry).2]
      · exact if_pos rfl
      · rintro ⟨call, inCalls, sameSlot, larger⟩
        obtain ⟨other, isOther, le⟩ := covered call inCalls sameSlot
        rw [Option.mem_unique isOther isEntry] at le
        omega
    · -- A call of the round is then covered by an entry of a larger round.
      have unanswered : (storeSeeds calls).getRoundSeed round = emptySeed := by
        rw [getRoundSeed, if_neg (by omega)]
        split
        · next entry isEntry => exact if_neg fun same => kept ⟨entry, isEntry, same⟩
        · rfl
      rw [unanswered, recordedSeed]
      split
      · rfl
      · next noLarger =>
        rw [List.find?_eq_none.mpr]
        · rfl
        · intro call inCalls same
          have sameRound : call.round = round := of_decide_eq_true same
          obtain ⟨entry, isEntry, le⟩ := covered call inCalls (by rw [sameRound])
          obtain ⟨isSlot, isFirst⟩ := first entry isEntry
          have different : entry.round ≠ round := fun same => kept ⟨entry, isEntry, same⟩
          exact noLarger ⟨entry, List.mem_of_find?_eq_some isFirst, isSlot, by omega⟩
  refine ⟨setRoundSeeds_eq calls, answer, ?_⟩
  rw [answer]
  cases recordedSeed calls round <;> simp

/-- A second seed does not replace the first. -/
theorem getRoundSeed_setRoundSeeds_two :
    ∃ cs, setRoundSeeds [⟨2, Bytes32.fill 1⟩, ⟨2, Bytes32.zero⟩] = .ok cs ∧
      cs.getRoundSeed 2 = Bytes32.fill 1 := by
  obtain ⟨stored, answer, -⟩ := getRoundSeed_setRoundSeeds
    [⟨2, Bytes32.fill 1⟩, ⟨2, Bytes32.zero⟩] 2 (by decide)
  exact ⟨_, stored.trans (if_pos (by decide)), answer.trans (by decide)⟩

/-- Without any seed, the seed of round one is the empty one. -/
theorem getRoundSeed_missing :
    recordedSeed [] 1 = none ∧
      setRoundSeeds [] = .ok new ∧ new.getRoundSeed 1 = emptySeed :=
  ⟨by decide, rfl, by decide⟩

end ConsensusState

/-- `vote`, as the gradecast voter stores it. -/
structure PbftVote where
  round : Int
  voteSignature : Bytes
  votePublicKey : PkKey
  blockHash : Hash
  seed : Hash
  leader : GoString

/-- `pbftVoter`. The entry under the key `MinSeed` is a field of its own. -/
structure PbftVoter where
  round : Int
  voteThreshold : Int
  preVotes : PkKey → Option PbftVote
  minSeed : Option PbftVote
  preCommits : AList fun _ : PkKey => PbftVote

namespace PbftVoter

/-- A voter without votes. -/
def new (round voteThreshold : Int) : PbftVoter where
  round := round
  voteThreshold := voteThreshold
  preVotes := fun _ => none
  minSeed := none
  preCommits := ∅

variable (voter : PbftVoter)

/-- `setThreshold`. -/
def setThreshold (threshold : Int) : PbftVoter :=
  { voter with voteThreshold := threshold }

/-- `setCurrentRound`. -/
def setCurrentRound (round : Int) : PbftVoter :=
  { voter with
    round := round
    preVotes := fun _ => none
    minSeed := none
    preCommits := ∅ }

/-- `addPreVote`. -/
def addPreVote (vote : PbftVote) : PbftVoter :=
  match voter.preVotes vote.votePublicKey with
  | some _ => voter
  | none =>
    { voter with
      preVotes := Function.update voter.preVotes vote.votePublicKey (some vote)
      minSeed :=
        match voter.minSeed with
        | some least => if vote.seed.lessThan least.seed then some vote else some least
        | none => some vote }

/-- `addPreCommit`. -/
def addPreCommit (vote : PbftVote) : PbftVoter :=
  match voter.preCommits.lookup vote.votePublicKey with
  | some _ => voter
  | none =>
    { voter with
      preCommits := voter.preCommits.insert vote.votePublicKey vote }

/-- `generatePreVoteResult`. -/
def generatePreVoteResult : Option PbftVote :=
  voter.minSeed

/-- The loop of `generatePreCommitResult`: the first value whose count reaches
the threshold. `counts` are the votes seen so far. -/
def firstReaching (threshold : Int) (counts : List ByzAgreementValue) :
    List PbftVote → Option ByzAgreementValue
  | [] => none
  | vote :: rest =>
    let key : ByzAgreementValue := ⟨vote.blockHash, vote.leader⟩
    if threshold ≤ (key :: counts).count key then some key
    else firstReaching threshold (key :: counts) rest

/-- `generatePreCommitResult`: the hash and the leader of the selected vote. -/
def generatePreCommitResult (order : MapOrder) : Option ByzAgreementValue :=
  firstReaching voter.voteThreshold []
    ((order.visit voter.preCommits.entries).map Sigma.snd)

end PbftVoter

/-- `receivedData`. -/
structure ReceivedData where
  receivedSeed : Int → GoString → Option Hash
  receivedBlock : Int → Hash → Option Wire.MsgBlock
  cacheBlockForPrep : Hash → Option Wire.MsgBlock

namespace ReceivedData

/-- Nothing is received. -/
def new : ReceivedData where
  receivedSeed := fun _ _ => none
  receivedBlock := fun _ _ => none
  cacheBlockForPrep := fun _ => none

variable (rd : ReceivedData)

/-- `cleanUnusedData`. -/
def cleanUnusedData (round : Int) : ReceivedData :=
  { rd with
    receivedBlock := fun r => if r < round then fun _ => none else rd.receivedBlock r
    receivedSeed := fun r => if r < round then fun _ => none else rd.receivedSeed r }

/-- `cleanCacheBlock`. -/
def cleanCacheBlock : ReceivedData :=
  { rd with cacheBlockForPrep := fun _ => none }

/-- `saveSeed`. -/
def saveSeed (round : Int) (sender : GoString) (seed : Hash) : ReceivedData :=
  { rd with
    receivedSeed := Function.update rd.receivedSeed round
      (Function.update (rd.receivedSeed round) sender (some seed)) }

/-- `saveBlock`. -/
def saveBlock (round : Int) (blockHash : Hash) (block : Wire.MsgBlock) : ReceivedData :=
  { rd with
    receivedBlock := Function.update rd.receivedBlock round
      (Function.update (rd.receivedBlock round) blockHash (some block)) }

/-- `cacheBlock`. -/
def cacheBlock (blockHash : Hash) (block : Wire.MsgBlock) : ReceivedData :=
  { rd with
    cacheBlockForPrep := Function.update rd.cacheBlockForPrep blockHash (some block) }

end ReceivedData

/-- `pendingData`: messages of future rounds, by round and step. -/
structure PendingData where
  pendingMsg : Int → Int → List Message
  pendingMsgMaxStep : Int → Int

namespace PendingData

/-- Nothing is pending. -/
def new : PendingData where
  pendingMsg := fun _ _ => []
  pendingMsgMaxStep := fun _ => 0

/-- `saveMsg`. -/
def saveMsg (pd : PendingData) (round step : Int) (message : Message) :
    PendingData where
  pendingMsg := Function.update pd.pendingMsg round (Function.update (pd.pendingMsg round) step
      (pd.pendingMsg round step ++ [message]))
  pendingMsgMaxStep := Function.update pd.pendingMsgMaxStep round
    (max step (pd.pendingMsgMaxStep round))

/-- The messages `replayPendingMessage` hands to the handler threads: those of
the steps from 1 on, in the order of the steps. -/
def replay (pd : PendingData) (round : Int) : List Message :=
  (List.range (pd.pendingMsgMaxStep round).toNat).flatMap fun index : Nat =>
    pd.pendingMsg round ((index : Int) + 1)

/-- `deletePendingMsg`. -/
def deletePendingMsg (pd : PendingData) (round : Int) : PendingData where
  pendingMsg := fun r => if r < round then fun _ => [] else pd.pendingMsg r
  pendingMsgMaxStep := fun r => if r < round then 0 else pd.pendingMsgMaxStep r

end PendingData

end MultiVac.Consensus
