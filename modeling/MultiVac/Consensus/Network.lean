import MultiVac.Consensus.View

/-!
# The executors of a shard in one round

All executors of a shard run the handlers. Every message that one of them has
broadcast can be delivered to any of them at any later time, any number of
times, and every registered timeout can fire at any time.
-/

namespace MultiVac.Consensus

variable {n : ℕ}

/-- The executors of a shard. -/
abbrev Shard (n : ℕ) := Fin n → Executor

namespace Shard

/-- Some executor has broadcast the message. -/
def Posted (shard : Shard n) (message : Message) : Prop :=
  ∃ index, Effect.broadcast (.message message) ∈ (shard index).effects

instance (shard : Shard n) (message : Message) :
    Decidable (shard.Posted message) :=
  inferInstanceAs (Decidable (∃ _, _))

/-- What may happen to an executor of the shard: a posted message of the
protocol arrives, or a timeout fires. -/
def Enabled (shard : Shard n) (index : Fin n) : Executor.Event → Prop
  | .receive message => shard.Posted message
  | .timeout timer => timer ∈ (shard index).timers
  | _ => False

instance (shard : Shard n) (index : Fin n) (event : Executor.Event) :
    Decidable (shard.Enabled index event) :=
  match event with
  | .receive message => inferInstanceAs (Decidable (shard.Posted message))
  | .timeout timer => inferInstanceAs (Decidable (timer ∈ (shard index).timers))
  | .start | .updateInShardProof _ | .startConsensusAtRound _
  | .stopConsensusAtRound _ | .initFinished _ =>
    inferInstanceAs (Decidable False)

/-- One executor handles one event. -/
def handle (hashing : Hashing) (shard : Shard n) (index : Fin n)
    (a : Answers) (event : Executor.Event) : Shard n :=
  Function.update shard index ((shard index).handle hashing a event)

/-- One step of the shard that is permitted. Every executor computes the same
threshold. -/
def Moves (hashing : Hashing) (threshold : Int)
    (permitted : Answers → Executor → Executor.Event → Prop)
    (before after : Shard n) : Prop :=
  ∃ index a event, a.threshold = threshold ∧ before.Enabled index event ∧
    permitted a (before index) event ∧
    after = before.handle hashing index a event

/-- A fixed sequence of steps. -/
def handleAll (hashing : Hashing) (shard : Shard n)
    (events : List (Fin n × Answers × Executor.Event)) : Shard n :=
  events.foldl (fun shard event => shard.handle hashing event.1 event.2.1
    event.2.2) shard

section Sequences

variable (hashing : Hashing) (threshold : Int)
  (permitted : Answers → Executor → Executor.Event → Prop)

/-- Every step of a fixed sequence can be taken when its turn comes. -/
def AllEnabled (shard : Shard n) :
    List (Fin n × Answers × Executor.Event) → Prop
  | [] => True
  | event :: rest =>
    (event.2.1.threshold = threshold ∧ shard.Enabled event.1 event.2.2 ∧
      permitted event.2.1 (shard event.1) event.2.2) ∧
      AllEnabled (shard.handle hashing event.1 event.2.1 event.2.2) rest

instance decidableAllEnabled [∀ a ce event, Decidable (permitted a ce event)] (shard : Shard n)
    (events : List (Fin n × Answers × Executor.Event)) :
    Decidable (shard.AllEnabled hashing threshold permitted events) :=
  match events with
  | [] => inferInstanceAs (Decidable True)
  | event :: rest =>
    have := decidableAllEnabled (shard.handle hashing event.1 event.2.1 event.2.2) rest
    inferInstanceAs (Decidable ((_ ∧ _ ∧ _) ∧ _))

theorem reflTransGen_handleAll (shard : Shard n) (events : List (Fin n × Answers × Executor.Event))
    (allEnabled : shard.AllEnabled hashing threshold permitted events) :
    Relation.ReflTransGen (Moves hashing threshold permitted) shard
      (shard.handleAll hashing events) := by
  induction events generalizing shard with
  | nil => exact .refl
  | cons event rest ih =>
    obtain ⟨⟨sameThreshold, enabled, isPermitted⟩, restEnabled⟩ := allEnabled
    exact .head ⟨event.1, event.2.1, event.2.2, sameThreshold, enabled, isPermitted, rfl⟩
      (ih _ restEnabled)

end Sequences

end Shard

/-- An executor that has just entered a round: it knows no vote of the round and
has sent none, and its blocks are as honest leaders propose them. -/
structure Executor.AtRoundStart (hashing : Hashing) (threshold round : Int)
    (ce : Executor) : Prop where
  round_eq : ce.state.round = round
  step_eq : ce.state.step = 1 ∨ ce.state.step = 2
  threshold_eq : ce.bbaVoter.threshold = threshold
  count_eq : ∀ key wanted, key.round = round → ce.bbaVoter.count key wanted = 0
  bbaHistory_eq : ∀ key pk, key.round = round → ce.bbaVoter.bbaHistory key pk = none
  gcHistory_eq : ∀ pk, ce.bbaVoter.gcHistory pk = false
  ballots_ne : ∀ message ∈ ce.view.ballots, message.round ≠ round
  gradecasts_ne : ∀ message ∈ ce.view.gradecasts, message.signedCredential.message.round ≠ round
  timers_ne : ∀ step, .gcLastStep round step ∉ ce.timers ∧ .bbaNextStep round step ∉ ce.timers
  accepted_ne : ∀ entry ∈ ce.accepted, entry.1 ≠ round
  confirmations_eq : ce.view.confirmations = []
  proposals : ∀ proposal ∈ ce.view.proposals, proposal.block.header.height =
        proposal.signedCredential.message.round + 2 ∧
      proposal.blockHash = hashing.blockHeaderHash proposal.block.header
  stored : ∀ storedRound hash block, ce.view.stored storedRound hash = some block →
      block.header.height = storedRound + 2 ∧ hashing.blockHeaderHash block.header = hash

/-- Two accepted blocks are the same: both empty, or leader blocks with one
header hash. -/
def AcceptedBlock.Same (hashing : Hashing) :
    AcceptedBlock → AcceptedBlock → Prop
  | .leader first, .leader second =>
    hashing.blockHeaderHash first.header = hashing.blockHeaderHash second.header
  | .empty _, .empty _ => True
  | _, _ => False

/-- No two executors have accepted different blocks for the round. -/
def Shard.AgreesOn (hashing : Hashing) (round : Int) (shard : Shard n) : Prop :=
  ∀ first second firstBlock secondBlock, (round, firstBlock) ∈ (shard first).accepted →
    (round, secondBlock) ∈ (shard second).accepted →
    firstBlock.Same hashing secondBlock

end MultiVac.Consensus
