import Mathlib.Data.Rat.Floor
import MultiVac.Consensus.Executor
import MultiVac.Ledger.State
import MultiVac.Lib.Table

/-!
# The producer of block confirmations

A producer collects the final votes of a shard and the headers of its blocks. When
enough votes for a value have arrived, it sends a confirmation with the header, or
keeps the confirmation until a header arrives.
-/

namespace MultiVac.Consensus

open Lib (Table)

/-! ### The number of votes -/

/-- The nearest integer; a tie goes to the even one. -/
def roundHalfEven (value : ℚ) : Int :=
  let rest := value - ⌊value⌋
  if rest < 1 / 2 then ⌊value⌋
  else if 1 / 2 < rest then ⌊value⌋ + 1
  else if ⌊value⌋ % 2 = 0 then ⌊value⌋ else ⌊value⌋ + 1

/-- The nearest `float64`, for numbers in the range of a heartbeat count. -/
def float64 (value : ℚ) : ℚ :=
  let exponent := (value.num.natAbs.log2 : Int) - value.den.log2
  let exponent := if value < 2 ^ exponent then exponent - 1 else exponent
  roundHalfEven (value / 2 ^ (exponent - 52)) * 2 ^ (exponent - 52)

section Rounding

/-! The numbers of votes are computed with a rounding after each step, that of `float64` in the
source. -/

variable (rounding : ℚ → ℚ)

/-- `params.SecurityLevel`. -/
def securityLevel : ℚ := rounding (8 / 10)

/-- `minerNodeThreshold`. -/
def minerNodeThreshold : ℚ := rounding (6667 / 10000)

/-- `float64(count) * params.SecurityLevel * minerNodeThreshold`. -/
def minConfirmationCount (count : Nat) : ℚ :=
  rounding (rounding (count * securityLevel rounding) * minerNodeThreshold rounding)

/-- The threshold that `setNewRound` gives the voter of the producer. -/
def finThreshold (perceivedCount : Nat) : Int :=
  ⌈minConfirmationCount rounding perceivedCount⌉ - 1

/-- `checkConfirmation` of the heartbeat manager with the given list. -/
def checkConfirmation (list : Finset PkKey) (message : MsgBlockConfirmation) : Bool :=
  decide (minConfirmationCount rounding list.card ≤ message.confirms.length) &&
    decide (minConfirmationCount rounding list.card ≤
      message.confirms.countP fun vote => vote.pk ∈ list)

end Rounding

/-- The keys of the list that confirm a block, each counted once. -/
def confirmingKeys (list : Finset PkKey) (message : MsgBlockConfirmation) : Finset PkKey :=
  ((message.confirms.filter fun vote => vote.pk ∈ list).map MsgBinaryBA.pk).toFinset

/-- A confirmation that passes has enough different keys of the list if none of them
confirms twice; and this is always so exactly for lists of which one key is enough. -/
theorem checkConfirmation_distinct (list : Finset PkKey) :
    (∀ message : MsgBlockConfirmation,
      ((message.confirms.filter fun vote => vote.pk ∈ list).map MsgBinaryBA.pk).Nodup →
      checkConfirmation float64 list message = true →
      minConfirmationCount float64 list.card ≤ (confirmingKeys list message).card) ∧
    ((∀ message, checkConfirmation float64 list message = true →
      minConfirmationCount float64 list.card ≤ (confirmingKeys list message).card) ↔
        minConfirmationCount float64 list.card ≤ 1) := by
  refine ⟨fun message once checked => ?_, fun always => ?_, fun single message checked => ?_⟩
  · rw [confirmingKeys, List.toFinset_card_of_nodup once, List.length_map,
      ← List.countP_eq_length_filter]
    exact decide_eq_true_iff.mp (Bool.and_eq_true_iff.mp checked).2
  · rcases list.eq_empty_or_nonempty with rfl | ⟨key, isListed⟩
    · decide +kernel
    · -- One key that confirms often enough.
      obtain ⟨count, enough⟩ := exists_nat_ge (minConfirmationCount float64 list.card)
      let vote : MsgBinaryBA := ⟨[], ⟨key, [], ⟨0, 0, 0, 0, .empty⟩⟩⟩
      have votes : (List.replicate count vote).filter (fun vote => vote.pk ∈ list) =
          List.replicate count vote := List.filter_eq_self.mpr fun other isVote => by
        rw [List.eq_of_mem_replicate isVote]
        exact decide_eq_true isListed
      have distinct := always ⟨0, 0, 0, .empty, default, List.replicate count vote⟩ (by
        rw [checkConfirmation, List.countP_eq_length_filter, votes, List.length_replicate]
        simpa using enough)
      rw [confirmingKeys, votes, List.map_replicate] at distinct
      have subset : (List.replicate count vote.pk).toFinset ⊆ {vote.pk} := fun other isVote =>
        Finset.mem_singleton.mpr (List.eq_of_mem_replicate (List.mem_toFinset.mp isVote))
      exact distinct.trans (by exact_mod_cast Finset.card_le_card subset)
  · have counted := decide_eq_true_iff.mp (Bool.and_eq_true_iff.mp checked).2
    by_cases none : confirmingKeys list message = ∅
    · rw [confirmingKeys, List.toFinset_eq_empty_iff, List.map_eq_nil_iff] at none
      rw [List.countP_eq_length_filter, none] at counted
      exact counted.trans (by simp)
    · have := Finset.card_pos.mpr (Finset.nonempty_iff_ne_empty.mpr none)
      exact single.trans (by exact_mod_cast this)

/-- Of three keys one confirms twice, which is enough. -/
theorem checkConfirmation_twice :
    ∃ vote : MsgBinaryBA, vote.pk = .fill 1 ∧
      let message : MsgBlockConfirmation := ⟨0, 0, 0, .empty, default, [vote, vote]⟩
      checkConfirmation float64 {.fill 1, .fill 2, .fill 3} message = true ∧
        (confirmingKeys {.fill 1, .fill 2, .fill 3} message).card = 1 ∧
        ¬ minConfirmationCount float64 ({.fill 1, .fill 2, .fill 3} : Finset PkKey).card ≤ 1 := by
  refine ⟨⟨[], ⟨.fill 1, [], ⟨0, 0, 0, 0, .empty⟩⟩⟩, rfl, ?_⟩
  decide +kernel

/-! ### The votes -/

/-- `voteKey`. -/
structure FinVoteKey where
  round : Int
  step : Int
  blockHash : Hash
deriving DecidableEq

/-- `voter` of the producer. -/
structure FinVoter where
  threshold : Int
  round : Int
  bbaHistory : Table FinVoteKey (Table PkKey MsgBinaryBA)

namespace FinVoter

/-- `setCurrentRound`. -/
def setCurrentRound (voter : FinVoter) (round threshold : Int) : FinVoter :=
  { threshold, round, bbaHistory := voter.bbaHistory.keep fun key => ¬ key.round < round }

/-- `addVoteWithBBAFinMsg`. -/
def addVoteWithBBAFinMsg (voter : FinVoter) (round step : Int) (value : ByzAgreementValue)
    (bbaFin : MsgBinaryBA) : Bool × FinVoter :=
  let key := ⟨round, step, value.blockHash⟩
  match voter.bbaHistory.lookup key with
  | some historyListByKey =>
    match historyListByKey.lookup bbaFin.pk with
    | some _ => (false, voter)
    | none =>
      let history := historyListByKey.insert bbaFin.pk bbaFin
      (voter.threshold ≤ history.keys.length,
        { voter with bbaHistory := voter.bbaHistory.insert key history })
  | none =>
    let history := AList.singleton bbaFin.pk bbaFin
    (voter.threshold ≤ history.keys.length,
      { voter with bbaHistory := voter.bbaHistory.insert key history })

/-- The votes under a key; `nil` is an empty map. -/
def votes (voter : FinVoter) (key : FinVoteKey) : Table PkKey MsgBinaryBA :=
  (voter.bbaHistory.lookup key).getD ∅

/-- `getBBAFinHistory`. Go visits the map in any order. -/
def getBBAFinHistory (voter : FinVoter) (round step : Int) (blockHash : Hash) : List MsgBinaryBA :=
  (voter.votes ⟨round, step, blockHash⟩).entries.map Sigma.snd

end FinVoter

/-! ### The producer -/

/-- A `MsgBlockConfirmation` whose header is still `nil`. -/
structure PendingConfirmation where
  shardIndex : Wire.ShardIndex
  round : Int
  step : Int
  v : ByzAgreementValue
  confirms : List MsgBinaryBA

/-- `bc.Header = header`. -/
def PendingConfirmation.withHeader (pending : PendingConfirmation) (header : Wire.BlockHeader) :
    MsgBlockConfirmation where
  shardIndex := pending.shardIndex
  round := pending.round
  step := pending.step
  v := pending.v
  header := header
  confirms := pending.confirms

/-- `bcProducer`. -/
structure Producer where
  shardIndex : Wire.ShardIndex
  receivedBlockHeader : Table Int (Table Hash Wire.BlockHeader)
  pendingConfirmation : Table Int PendingConfirmation
  curRound : Int
  bbaFinVoter : FinVoter

/-- What a producer asks other components: the heartbeat list, the signature of a vote,
the sortition and the hash of a header. -/
structure ProducerEnv where
  list : Finset PkKey
  isValidated : MsgBinaryBA → Bool
  isInShard : Bytes → Bool
  blockHeaderHash : Wire.BlockHeader → Hash

/-- `emptyBlockHash`. -/
def emptyBlockHash : Hash := Bytes32.zero

/-- The hash under which a header is filed. -/
def ProducerEnv.headerKey (env : ProducerEnv) (header : Wire.BlockHeader) : Hash :=
  if header.isEmptyBlock then emptyBlockHash else env.blockHeaderHash header

/-- `int(message.Height - 2)`. -/
def headerRound (header : Wire.BlockHeader) : Int := Int.bmod (header.height - 2) (2 ^ 64)

namespace Producer

variable (env : ProducerEnv)

/-- `cleanOutdatedHeader`. -/
def cleanOutdatedHeader (producer : Producer) (round : Int) : Producer :=
  { producer with
    receivedBlockHeader := producer.receivedBlockHeader.keep fun headerRound => ¬ headerRound < round
    pendingConfirmation := producer.pendingConfirmation.keep fun pendingRound =>
      ¬ pendingRound < round }

/-- `setNewRound`. -/
def setNewRound (producer : Producer) (round : Int) : Producer :=
  { producer with
    curRound := round
    bbaFinVoter := producer.bbaFinVoter.setCurrentRound round (finThreshold float64 env.list.card) }
    |>.cleanOutdatedHeader round

/-- `newBcProducer` and `Start`. -/
def start (shardIndex : Wire.ShardIndex) : Producer :=
  setNewRound env
    { shardIndex
      receivedBlockHeader := ∅
      pendingConfirmation := ∅
      curRound := 0
      bbaFinVoter := ⟨0, 0, ∅⟩ } 0

/-- `getBlockHeader`. -/
def getBlockHeader (producer : Producer) (round : Int) (blockHash : Hash) :
    Option Wire.BlockHeader :=
  (producer.receivedBlockHeader.lookup round).bind fun headers => headers.lookup blockHash

/-- `verifyBBAFinMsg`. -/
def verifyBBAFinMsg (producer : Producer) (message : MsgBinaryBA) : Bool :=
  ¬ producer.curRound > message.round ∧ message.pk ∈ env.list ∧ env.isValidated message ∧
    env.isInShard message.inShardProof

/-- `onBBAFinMessage`: the confirmation that is sent, and the producer afterwards. -/
def onBBAFinMessage (producer : Producer) (message : MsgBinaryBA) :
    Option MsgBlockConfirmation × Producer :=
  let round := message.round
  let step := message.step
  let v := message.v
  let (reached, voter) := producer.bbaFinVoter.addVoteWithBBAFinMsg round step v message
  let producer := { producer with bbaFinVoter := voter }
  if reached then
    let bcMsg : PendingConfirmation :=
      { shardIndex := producer.shardIndex, round, step, v
        confirms := producer.bbaFinVoter.getBBAFinHistory round step v.blockHash }
    match producer.getBlockHeader round v.blockHash with
    | some blockHeader => (some (bcMsg.withHeader blockHeader), producer.setNewRound env (round + 1))
    | none =>
      (none, { producer with
        pendingConfirmation := producer.pendingConfirmation.insert round bcMsg })
  else (none, producer)

/-- `onBlockHeader`. -/
def onBlockHeader (producer : Producer) (message : Wire.BlockHeader) :
    Option MsgBlockConfirmation × Producer :=
  let round := headerRound message
  if producer.curRound > round then (none, producer)
  else
    let blockHash := env.headerKey message
    let headers := (producer.receivedBlockHeader.lookup round).getD ∅
    -- The map of the round exists from here on, if only as an empty one.
    let producer :=
      { producer with receivedBlockHeader := producer.receivedBlockHeader.insert round headers }
    match headers.lookup blockHash with
    | some _ => (none, producer)
    | none =>
      match producer.pendingConfirmation.lookup round with
      | some bc => (some (bc.withHeader message), producer.setNewRound env (round + 1))
      | none =>
        (none, { producer with
          receivedBlockHeader :=
            producer.receivedBlockHeader.insert round (headers.insert blockHash message) })

end Producer

/-- A message that a producer receives. -/
inductive ProducerInput where
  | bbaFin (message : MsgBinaryBA)
  | blockHeader (message : Wire.BlockHeader)

/-- `onMessage`. -/
def Producer.onMessage (env : ProducerEnv) (producer : Producer) :
    ProducerInput → Option MsgBlockConfirmation × Producer
  | .bbaFin message =>
    if producer.verifyBBAFinMsg env message then producer.onBBAFinMessage env message
    else (none, producer)
  | .blockHeader message => producer.onBlockHeader env message

/-- The confirmations that a producer sends when it receives some messages. -/
def Producer.confirmations (env : ProducerEnv) : Producer → List ProducerInput →
    List MsgBlockConfirmation
  | _, [] => []
  | producer, input :: inputs =>
    let (sent, producer) := producer.onMessage env input
    sent.toList ++ confirmations env producer inputs

/-! ### Adding a vote -/

namespace FinVoter

variable (voter : FinVoter)

theorem addVoteWithBBAFinMsg_eq (round step : Int) (value : ByzAgreementValue)
    (bbaFin : MsgBinaryBA) :
    voter.addVoteWithBBAFinMsg round step value bbaFin =
      let key := ⟨round, step, value.blockHash⟩
      if ((voter.votes key).lookup bbaFin.pk).isSome then (false, voter)
      else
        let history := (voter.votes key).insert bbaFin.pk bbaFin
        (decide (voter.threshold ≤ history.keys.length),
          { voter with bbaHistory := voter.bbaHistory.insert key history }) := by
  unfold addVoteWithBBAFinMsg votes
  cases found : voter.bbaHistory.lookup ⟨round, step, value.blockHash⟩ with
  | none =>
    simp only [found]
    rfl
  | some history => cases known : history.lookup bbaFin.pk <;> simp [found, known]

theorem votes_insert (key other : FinVoteKey) (history : Table PkKey MsgBinaryBA) :
    ({ voter with bbaHistory := voter.bbaHistory.insert key history } : FinVoter).votes other =
      if other = key then history else voter.votes other := by
  unfold votes
  split
  · next same => rw [same, AList.lookup_insert]; rfl
  · next different => rw [AList.lookup_insert_ne different]

theorem length_getBBAFinHistory (round step : Int) (blockHash : Hash) :
    (voter.getBBAFinHistory round step blockHash).length =
      (voter.votes ⟨round, step, blockHash⟩).keys.length := by
  simp [getBBAFinHistory, AList.keys, List.keys]

end FinVoter

/-! ### Valid confirmations -/

/-- The votes of a confirmation are votes of different members of the heartbeat list for
its round, step and value. -/
structure WellVoted (list : Finset PkKey) (round step : Int) (v : ByzAgreementValue)
    (confirms : List MsgBinaryBA) : Prop where
  distinct : (confirms.map MsgBinaryBA.pk).Nodup
  same : ∀ vote ∈ confirms, vote.round = round ∧ vote.step = step ∧ vote.v = v
  members : ∀ vote ∈ confirms, vote.pk ∈ list

/-- What a confirmation has to be: it carries the header of the confirmed value, votes of
different keys for one value, and as many of them as the heartbeat manager demands. -/
structure ValidConfirmation (env : ProducerEnv) (message : MsgBlockConfirmation) : Prop where
  header : env.blockHeaderHash message.header = message.v.blockHash ∨
    (message.v.blockHash = emptyBlockHash ∧ message.header.isEmptyBlock = true)
  voted : WellVoted env.list message.round message.step message.v message.confirms
  enough : checkConfirmation float64 env.list message = true

/-- One vote more than the threshold is what the heartbeat manager demands. -/
theorem minConfirmationCount_le_iff (env : ProducerEnv) (count : Nat) :
    minConfirmationCount float64 env.list.card ≤ count ↔ finThreshold float64 env.list.card < count := by
  rw [finThreshold, ← Int.cast_natCast, ← Int.ceil_le]
  omega

theorem validConfirmation_withHeader {env : ProducerEnv} {pending : PendingConfirmation}
    (voted : WellVoted env.list pending.round pending.step pending.v pending.confirms)
    (enough : finThreshold float64 env.list.card < pending.confirms.length) {header : Wire.BlockHeader}
    (isHeader : env.headerKey header = pending.v.blockHash) :
    ValidConfirmation env (pending.withHeader header) where
  header := by
    rw [ProducerEnv.headerKey] at isHeader
    split at isHeader
    · next empty => exact .inr ⟨isHeader.symm, empty⟩
    · exact .inl isHeader
  voted := voted
  enough := by
    have allIn : pending.confirms.countP (fun vote => vote.pk ∈ env.list) =
        pending.confirms.length :=
      List.countP_eq_length.mpr fun vote inVotes => decide_eq_true (voted.members vote inVotes)
    have demanded := (minConfirmationCount_le_iff env _).mpr enough
    simp only [checkConfirmation, PendingConfirmation.withHeader, allIn]
    simp [demanded]

/-- What holds of a producer between two messages. -/
structure Producer.Consistent (env : ProducerEnv) (producer : Producer) : Prop where
  filed : ∀ key pk vote, (producer.bbaFinVoter.votes key).lookup pk = some vote →
    vote.pk = pk ∧ vote.pk ∈ env.list ∧ vote.round = key.round ∧ vote.step = key.step
  headers : ∀ round hash header, producer.getBlockHeader round hash = some header →
    env.headerKey header = hash
  pending : ∀ round pending, producer.pendingConfirmation.lookup round = some pending →
    pending.round = round ∧ WellVoted env.list pending.round pending.step pending.v pending.confirms
  threshold : producer.bbaFinVoter.threshold = finThreshold float64 env.list.card

/-- The condition on a message. A vote is for the value of the votes filed with it, and
when the header is known it does not make up exactly the threshold. A header that
arrives while a confirmation of its round is pending is the header of the confirmed
value, and the confirmation has more votes than the threshold. -/
def Producer.Ready (env : ProducerEnv) (producer : Producer) : ProducerInput → Prop
  | .bbaFin message => producer.verifyBBAFinMsg env message = true →
      let filed := producer.bbaFinVoter.getBBAFinHistory message.round message.step
        message.v.blockHash
      (∀ vote ∈ filed, vote.v = message.v) ∧
        ((producer.getBlockHeader message.round message.v.blockHash).isSome →
          (filed.length : Int) + 1 ≠ finThreshold float64 env.list.card)
  | .blockHeader message =>
    producer.getBlockHeader (headerRound message) (env.headerKey message) = none →
    ∀ pending ∈ producer.pendingConfirmation.lookup (headerRound message),
      env.headerKey message = pending.v.blockHash ∧
        finThreshold float64 env.list.card < pending.confirms.length

instance (env : ProducerEnv) (producer : Producer) :
    (input : ProducerInput) → Decidable (producer.Ready env input)
  | .bbaFin _ => inferInstanceAs (Decidable (_ → (∀ vote ∈ _, _) ∧ (_ → _)))
  | .blockHeader _ => inferInstanceAs (Decidable (_ → ∀ pending ∈ _, _ ∧ _))

/-- Every message meets the condition when it arrives. -/
def Producer.AllReady (env : ProducerEnv) : Producer → List ProducerInput → Prop
  | _, [] => True
  | producer, input :: inputs =>
    producer.Ready env input ∧ AllReady env (producer.onMessage env input).2 inputs

instance decidableAllReady (env : ProducerEnv) :
    (producer : Producer) → (inputs : List ProducerInput) → Decidable (producer.AllReady env inputs)
  | _, [] => inferInstanceAs (Decidable True)
  | producer, input :: inputs =>
    have := decidableAllReady env (producer.onMessage env input).2 inputs
    inferInstanceAs (Decidable (_ ∧ _))

/-! ### What a message does -/

variable {round : Int} {vote : MsgBinaryBA} {voter : FinVoter}

theorem FinVoter.mem_getBBAFinHistory {step : Int} {blockHash : Hash} :
    vote ∈ voter.getBBAFinHistory round step blockHash ↔
      ∃ pk, (voter.votes ⟨round, step, blockHash⟩).lookup pk = some vote := by
  simp only [getBBAFinHistory, List.mem_map, Sigma.exists, ← Option.mem_def, AList.mem_lookup_iff]
  simp

theorem FinVoter.lookup_votes_setCurrentRound {threshold : Int} {key : FinVoteKey} {pk : PkKey}
    (filed : ((voter.setCurrentRound round threshold).votes key).lookup pk = some vote) :
    (voter.votes key).lookup pk = some vote := by
  simp only [setCurrentRound, votes] at filed ⊢
  cases found : (voter.bbaHistory.keep fun key => ¬ key.round < round).lookup key with
  | none =>
    rw [found] at filed
    cases filed
  | some history =>
    rw [found] at filed
    rw [(Table.lookup_keep_eq_some.mp found).2]
    exact filed

namespace Producer

variable {env : ProducerEnv} {producer : Producer} {round : Int}

theorem getBlockHeader_setNewRound {headerRound : Int} {hash : Hash} {header : Wire.BlockHeader}
    (known : (producer.setNewRound env round).getBlockHeader headerRound hash = some header) :
    producer.getBlockHeader headerRound hash = some header := by
  simp only [getBlockHeader, Option.bind_eq_some_iff] at known ⊢
  obtain ⟨headers, kept, known⟩ := known
  exact ⟨headers, (Table.lookup_keep_eq_some.mp kept).2, known⟩

theorem Consistent.setNewRound (consistent : producer.Consistent env)
    (round : Int) : (producer.setNewRound env round).Consistent env where
  filed := fun key pk vote filed =>
    consistent.filed key pk vote (FinVoter.lookup_votes_setCurrentRound filed)
  headers := fun headerRound hash header known =>
    consistent.headers headerRound hash header (getBlockHeader_setNewRound known)
  pending := fun pendingRound pending kept =>
    consistent.pending pendingRound pending (Table.lookup_keep_eq_some.mp kept).2
  threshold := rfl

theorem consistent_start (shardIndex : Wire.ShardIndex) : (start env shardIndex).Consistent env := by
  refine ⟨?_, ?_, ?_, rfl⟩
  · intro key pk vote filed
    have := FinVoter.lookup_votes_setCurrentRound filed
    cases this
  · intro round hash header known
    have := getBlockHeader_setNewRound known
    cases this
  · intro round pending kept
    have := (Table.lookup_keep_eq_some.mp kept).2
    cases this

/-- The votes that are filed together make a confirmation. -/
theorem Consistent.wellVoted (consistent : producer.Consistent env) {step : Int}
    {v : ByzAgreementValue}
    (same : ∀ vote ∈ producer.bbaFinVoter.getBBAFinHistory round step v.blockHash, vote.v = v) :
    WellVoted env.list round step v
      (producer.bbaFinVoter.getBBAFinHistory round step v.blockHash) where
  distinct := by
    have keys : (producer.bbaFinVoter.getBBAFinHistory round step v.blockHash).map
        MsgBinaryBA.pk = (producer.bbaFinVoter.votes ⟨round, step, v.blockHash⟩).keys := by
      rw [FinVoter.getBBAFinHistory, List.map_map, AList.keys, List.keys]
      refine List.map_congr_left fun entry inEntries => ?_
      exact (consistent.filed _ entry.1 entry.2 (AList.mem_lookup_iff.mpr inEntries)).1
    rw [keys]
    exact AList.keys_nodup _
  same := by
    intro vote inVotes
    obtain ⟨pk, filed⟩ := FinVoter.mem_getBBAFinHistory.mp inVotes
    obtain ⟨-, -, sameRound, sameStep⟩ := consistent.filed _ pk vote filed
    exact ⟨sameRound, sameStep, same vote inVotes⟩
  members := by
    intro vote inVotes
    obtain ⟨pk, filed⟩ := FinVoter.mem_getBBAFinHistory.mp inVotes
    exact (consistent.filed _ pk vote filed).2.1

/-- A producer with one more vote. -/
def file (producer : Producer) (message : MsgBinaryBA) : Producer :=
  let key := ⟨message.round, message.step, message.v.blockHash⟩
  { producer with
    bbaFinVoter := { producer.bbaFinVoter with
      bbaHistory := producer.bbaFinVoter.bbaHistory.insert key
        ((producer.bbaFinVoter.votes key).insert message.pk message) } }

variable {msg : MsgBinaryBA}

theorem lookup_votes_file {key : FinVoteKey} {pk : PkKey} {vote : MsgBinaryBA}
    (filed : ((producer.file msg).bbaFinVoter.votes key).lookup pk = some vote) :
    (pk = msg.pk ∧ vote = msg ∧ key = ⟨msg.round, msg.step, msg.v.blockHash⟩) ∨
      (producer.bbaFinVoter.votes key).lookup pk = some vote := by
  rw [file, FinVoter.votes_insert] at filed
  split at filed
  · next same =>
    by_cases own : pk = msg.pk
    · rw [own, AList.lookup_insert, Option.some_inj] at filed
      exact .inl ⟨own, filed.symm, same⟩
    · rw [AList.lookup_insert_ne own] at filed
      rw [same]
      exact .inr filed
  · exact .inr filed

theorem Consistent.file (consistent : producer.Consistent env)
    (isMember : msg.pk ∈ env.list) : (producer.file msg).Consistent env where
  filed := by
    intro key pk vote filed
    rcases lookup_votes_file filed with ⟨rfl, rfl, rfl⟩ | old
    · exact ⟨rfl, isMember, rfl, rfl⟩
    · exact consistent.filed key pk vote old
  headers := consistent.headers
  pending := consistent.pending
  threshold := consistent.threshold

theorem length_file (fresh : (producer.bbaFinVoter.votes ⟨msg.round, msg.step,
      msg.v.blockHash⟩).lookup msg.pk = none) :
    ((producer.file msg).bbaFinVoter.getBBAFinHistory msg.round msg.step
        msg.v.blockHash).length =
      (producer.bbaFinVoter.getBBAFinHistory msg.round msg.step
        msg.v.blockHash).length + 1 := by
  rw [FinVoter.length_getBBAFinHistory, FinVoter.length_getBBAFinHistory, file,
    FinVoter.votes_insert, if_pos rfl, AList.keys_insert,
    List.erase_of_not_mem (AList.lookup_eq_none.mp fresh), List.length_cons]

/-- The confirmation that a vote may complete. -/
def confirmation (producer : Producer) (message : MsgBinaryBA) : PendingConfirmation where
  shardIndex := producer.shardIndex
  round := message.round
  step := message.step
  v := message.v
  confirms := (producer.file message).bbaFinVoter.getBBAFinHistory message.round message.step
    message.v.blockHash

theorem onBBAFinMessage_eq (producer : Producer) (msg : MsgBinaryBA) :
    producer.onBBAFinMessage env msg =
      if ((producer.bbaFinVoter.votes ⟨msg.round, msg.step,
          msg.v.blockHash⟩).lookup msg.pk).isSome then (none, producer)
      else if producer.bbaFinVoter.threshold ≤ (producer.confirmation msg).confirms.length then
        match producer.getBlockHeader msg.round msg.v.blockHash with
        | some header => (some ((producer.confirmation msg).withHeader header),
            (producer.file msg).setNewRound env (msg.round + 1))
        | none => (none, { producer.file msg with
            pendingConfirmation := producer.pendingConfirmation.insert msg.round
              (producer.confirmation msg) })
      else (none, producer.file msg) := by
  have counted : (((producer.bbaFinVoter.votes ⟨msg.round, msg.step,
      msg.v.blockHash⟩).insert msg.pk msg).keys.length : Int) =
      (producer.confirmation msg).confirms.length := by
    rw [confirmation, FinVoter.length_getBBAFinHistory, file, FinVoter.votes_insert, if_pos rfl]
  simp only [onBBAFinMessage, FinVoter.addVoteWithBBAFinMsg_eq, counted]
  split
  · rfl
  · simp only [decide_eq_true_eq]
    split
    · simp only [getBlockHeader]
      rfl
    · rfl

/-- What `onBBAFinMessage` does: nothing with a second vote of one key, and otherwise it
files the vote, and sends or keeps a confirmation if there are enough. -/
theorem onBBAFinMessage_cases (producer : Producer) (msg : MsgBinaryBA) :
    producer.onBBAFinMessage env msg = (none, producer) ∨
      ((producer.confirmation msg).confirms.length =
          (producer.bbaFinVoter.getBBAFinHistory msg.round msg.step
            msg.v.blockHash).length + 1 ∧
        ((∃ header, producer.getBlockHeader msg.round msg.v.blockHash = some header ∧
            producer.bbaFinVoter.threshold ≤ (producer.confirmation msg).confirms.length ∧
            producer.onBBAFinMessage env msg =
              (some ((producer.confirmation msg).withHeader header),
                (producer.file msg).setNewRound env (msg.round + 1))) ∨
          producer.onBBAFinMessage env msg = (none, { producer.file msg with
            pendingConfirmation := producer.pendingConfirmation.insert msg.round
              (producer.confirmation msg) }) ∨
          producer.onBBAFinMessage env msg = (none, producer.file msg))) := by
  rw [onBBAFinMessage_eq]
  split
  · exact .inl rfl
  · next fresh =>
    refine .inr ⟨length_file (Option.not_isSome_iff_eq_none.mp fresh), ?_⟩
    split
    · next reached =>
      cases header : producer.getBlockHeader msg.round msg.v.blockHash with
      | some blockHeader => exact .inl ⟨blockHeader, rfl, reached, rfl⟩
      | none => exact .inr (.inl rfl)
    · exact .inr (.inr rfl)

/-- What a message may lead to: a consistent producer and at most one confirmation, which
is valid and ends its round. -/
structure Stepped (env : ProducerEnv) (producer : Producer)
    (result : Option MsgBlockConfirmation × Producer) : Prop where
  consistent : result.2.Consistent env
  kept : result.1 = none → result.2.curRound = producer.curRound
  sent : ∀ message ∈ result.1, ValidConfirmation env message ∧
    producer.curRound ≤ message.round ∧ result.2.curRound = message.round + 1

theorem stepped_none {after : Producer} (consistent : after.Consistent env)
    (kept : after.curRound = producer.curRound) : Stepped env producer (none, after) :=
  ⟨consistent, fun _ => kept, by simp⟩

theorem Consistent.onBBAFinMessage (consistent : producer.Consistent env)
    (verified : producer.verifyBBAFinMsg env msg = true)
    (ready : producer.Ready env (.bbaFin msg)) :
    Stepped env producer (producer.onBBAFinMessage env msg) := by
  obtain ⟨same, notThreshold⟩ := ready verified
  simp only [verifyBBAFinMsg, decide_eq_true_eq, not_lt, gt_iff_lt] at verified
  obtain ⟨inTime, isMember, -⟩ := verified
  have filed := consistent.file isMember
  have voted : WellVoted env.list msg.round msg.step msg.v
      (producer.confirmation msg).confirms := by
    refine filed.wellVoted fun vote inVotes => ?_
    obtain ⟨pk, isFiled⟩ := FinVoter.mem_getBBAFinHistory.mp inVotes
    rcases lookup_votes_file isFiled with ⟨-, rfl, -⟩ | old
    · rfl
    · exact same vote (FinVoter.mem_getBBAFinHistory.mpr ⟨pk, old⟩)
  obtain unchanged | ⟨length, ⟨header, known, reached, sent⟩ | keptBack | tooFew⟩ :=
    @onBBAFinMessage_cases env producer msg
  · rw [unchanged]
    exact stepped_none consistent rfl
  · rw [sent]
    have different := notThreshold (by rw [known]; rfl)
    have enough : finThreshold float64 env.list.card < (producer.confirmation msg).confirms.length := by
      rw [consistent.threshold] at reached
      omega
    refine ⟨filed.setNewRound _, by simp, ?_⟩
    rintro _ ⟨⟩
    exact ⟨validConfirmation_withHeader voted enough (consistent.headers _ _ _ known), inTime, rfl⟩
  · rw [keptBack]
    refine stepped_none ⟨filed.filed, filed.headers, ?_, filed.threshold⟩ rfl
    intro round pending isPending
    by_cases own : round = msg.round
    · rw [own, AList.lookup_insert, Option.some_inj] at isPending
      rw [own, ← isPending]
      exact ⟨rfl, voted⟩
    · rw [AList.lookup_insert_ne own] at isPending
      exact consistent.pending round pending isPending
  · rw [tooFew]
    exact stepped_none filed rfl

theorem getBlockHeader_insert (producer : Producer) (round other : Int)
    (headers : Table Hash Wire.BlockHeader) (hash : Hash) :
    ({ producer with receivedBlockHeader := producer.receivedBlockHeader.insert round headers } :
      Producer).getBlockHeader other hash =
      if other = round then headers.lookup hash else producer.getBlockHeader other hash := by
  simp only [getBlockHeader]
  split
  · next same => rw [same, AList.lookup_insert]; rfl
  · next different => rw [AList.lookup_insert_ne different]

theorem lookup_headers (producer : Producer) (round : Int) (hash : Hash) :
    ((producer.receivedBlockHeader.lookup round).getD ∅).lookup hash =
      producer.getBlockHeader round hash := by
  unfold getBlockHeader
  cases producer.receivedBlockHeader.lookup round <;> rfl

section

variable (consistent : producer.Consistent env)
include consistent

/-- Filing headers under their hashes keeps a producer consistent. -/
theorem Consistent.insertHeaders (round : Int) {headers : Table Hash Wire.BlockHeader}
    (filed : ∀ hash header, headers.lookup hash = some header → env.headerKey header = hash) :
    Consistent env { producer with
      receivedBlockHeader := producer.receivedBlockHeader.insert round headers } where
  filed := consistent.filed
  headers := by
    intro other hash header known
    rw [getBlockHeader_insert] at known
    split at known
    · exact filed hash header known
    · exact consistent.headers other hash header known
  pending := consistent.pending
  threshold := consistent.threshold

theorem Consistent.onBlockHeader {msg : Wire.BlockHeader}
    (ready : producer.Ready env (.blockHeader msg)) :
    Stepped env producer (producer.onBlockHeader env msg) := by
  have filed : ∀ hash header,
      ((producer.receivedBlockHeader.lookup (headerRound msg)).getD ∅).lookup hash = some header →
        env.headerKey header = hash := by
    intro hash header known
    rw [lookup_headers] at known
    exact consistent.headers _ hash header known
  have opened := consistent.insertHeaders (headerRound msg) filed
  unfold Producer.onBlockHeader
  simp only [lookup_headers]
  split
  · exact stepped_none consistent rfl
  · next inTime =>
    cases known : producer.getBlockHeader (headerRound msg) (env.headerKey msg) with
    | some old => exact stepped_none opened rfl
    | none =>
      cases isPending : producer.pendingConfirmation.lookup (headerRound msg) with
      | some pending =>
        obtain ⟨isHeader, enough⟩ := ready known pending isPending
        obtain ⟨sameRound, voted⟩ := consistent.pending _ _ isPending
        refine ⟨opened.setNewRound _, by simp, ?_⟩
        rintro _ ⟨⟩
        refine ⟨validConfirmation_withHeader voted enough isHeader, ?_, ?_⟩
        · exact (not_lt.mp inTime).trans sameRound.ge
        · exact congrArg (· + 1) sameRound.symm
      | none =>
        refine stepped_none (opened.insertHeaders _ fun hash header isFiled => ?_) rfl
        by_cases own : hash = env.headerKey msg
        · rw [own, AList.lookup_insert, Option.some_inj] at isFiled
          rw [own, isFiled]
        · rw [AList.lookup_insert_ne own] at isFiled
          exact filed hash header isFiled

theorem Consistent.onMessage {input : ProducerInput}
    (ready : producer.Ready env input) : Stepped env producer (producer.onMessage env input) := by
  cases input with
  | bbaFin msg =>
    rw [Producer.onMessage]
    split
    · next verified => exact consistent.onBBAFinMessage verified ready
    · exact stepped_none consistent rfl
  | blockHeader msg => exact consistent.onBlockHeader ready

/-- What a run of a consistent producer sends. -/
theorem Consistent.confirmations {inputs : List ProducerInput}
    (ready : producer.AllReady env inputs) :
    (∀ msg ∈ producer.confirmations env inputs,
        ValidConfirmation env msg ∧ producer.curRound ≤ msg.round) ∧
      (producer.confirmations env inputs).Pairwise fun first second =>
        first.round < second.round := by
  induction inputs generalizing producer with
  | nil => exact ⟨by simp [Producer.confirmations], List.Pairwise.nil⟩
  | cons input inputs ih =>
    obtain ⟨readyNow, readyLater⟩ := ready
    have stepped := consistent.onMessage readyNow
    obtain ⟨valid, increasing⟩ := ih stepped.consistent readyLater
    have parts : producer.confirmations env (input :: inputs) =
        (producer.onMessage env input).1.toList ++
          (producer.onMessage env input).2.confirmations env inputs := rfl
    rw [parts]
    cases sent : (producer.onMessage env input).1 with
    | none =>
      rw [stepped.kept sent] at valid
      exact ⟨valid, increasing⟩
    | some msg =>
      obtain ⟨validNow, inTime, nextRound⟩ := stepped.sent msg sent
      refine ⟨?_, ?_⟩
      · refine List.forall_mem_cons.mpr ⟨⟨validNow, inTime⟩, fun later isLater => ?_⟩
        obtain ⟨validLater, late⟩ := valid later isLater
        exact ⟨validLater, by omega⟩
      · refine List.pairwise_cons.mpr ⟨fun later isLater => ?_, increasing⟩
        have := (valid later isLater).2
        omega

end

end Producer

/-- A producer whose messages meet the condition sends valid confirmations only, with
increasing rounds. -/
theorem valid_confirmations (env : ProducerEnv) (shardIndex : Wire.ShardIndex)
    (inputs : List ProducerInput) (ready : (Producer.start env shardIndex).AllReady env inputs) :
    (∀ message ∈ (Producer.start env shardIndex).confirmations env inputs,
        ValidConfirmation env message) ∧
      ((Producer.start env shardIndex).confirmations env inputs).Pairwise fun first second =>
        first.round < second.round := by
  obtain ⟨valid, increasing⟩ := (Producer.consistent_start shardIndex).confirmations ready
  exact ⟨fun message isSent => (valid message isSent).1, increasing⟩

/-- A producer with the given heartbeat list that finds every signature and every proof
valid. -/
def trustingEnv (list : Finset PkKey) : ProducerEnv where
  list := list
  isValidated := fun _ => true
  isInShard := fun _ => true
  blockHeaderHash := fun header =>
    match Ledger.HeaderStore.blockHeaderHash header with
    | .ok hash => hash
    | .error _ => default

/-- A header of round 0. -/
def roundHeader (timeStamp : Int) : Wire.BlockHeader :=
  { (default : Wire.BlockHeader) with height := 2, timeStamp }

/-- The value of the block with a header of round 0. -/
def roundValue (leader : GoString) : ByzAgreementValue where
  blockHash := (trustingEnv ∅).blockHeaderHash (roundHeader 0)
  leader := leader

/-- The final vote of a key for a value in round 0. -/
def finVote (byte : UInt8) (v : ByzAgreementValue) : MsgBinaryBA where
  inShardProof := []
  signedCredentialWithBA :=
    { pk := .fill byte
      signature := []
      message := { shardIndex := 0, round := 0, step := -1, b := 0, v } }

/-- A whitelist of one miner. -/
theorem valid_confirmations_single :
    ∃ message ∈ (Producer.start (trustingEnv {.fill 1}) 0).confirmations (trustingEnv {.fill 1})
        [.blockHeader (roundHeader 0), .bbaFin (finVote 1 (roundValue []))],
      ValidConfirmation (trustingEnv {.fill 1}) message := by
  have checked : (Producer.start (trustingEnv {.fill 1}) 0).AllReady (trustingEnv {.fill 1})
      [.blockHeader (roundHeader 0), .bbaFin (finVote 1 (roundValue []))] ∧
      (Producer.start (trustingEnv {.fill 1}) 0).confirmations (trustingEnv {.fill 1})
        [.blockHeader (roundHeader 0), .bbaFin (finVote 1 (roundValue []))] ≠ [] := by
    decide +kernel
  obtain ⟨message, isSent⟩ := List.exists_mem_of_ne_nil _ checked.2
  exact ⟨message, isSent, (valid_confirmations _ 0 _ checked.1).1 message isSent⟩

/-- Confirmations that are not valid: with the header of another block, with fewer votes
than the heartbeat manager demands, and with votes for another leader. -/
theorem invalid_confirmations :
    (∃ message ∈ (Producer.start (trustingEnv {.fill 1}) 0).confirmations (trustingEnv {.fill 1})
        [.bbaFin (finVote 1 (roundValue [])), .blockHeader (roundHeader 1)],
      message.header.isEmptyBlock = false ∧
        (trustingEnv {.fill 1}).blockHeaderHash message.header ≠ message.v.blockHash) ∧
    (∃ message ∈ (Producer.start (trustingEnv {.fill 1, .fill 2}) 0).confirmations
        (trustingEnv {.fill 1, .fill 2})
        [.blockHeader (roundHeader 0), .bbaFin (finVote 1 (roundValue []))],
      checkConfirmation float64 {.fill 1, .fill 2} message = false) ∧
    ∃ message ∈ (Producer.start (trustingEnv {.fill 1, .fill 2, .fill 3, .fill 4}) 0).confirmations
        (trustingEnv {.fill 1, .fill 2, .fill 3, .fill 4})
        [.blockHeader (roundHeader 0), .bbaFin (finVote 1 (roundValue [])),
          .bbaFin (finVote 2 (roundValue [1]))],
      ∃ vote ∈ message.confirms, vote.v ≠ message.v := by
  decide +kernel

end MultiVac.Consensus
