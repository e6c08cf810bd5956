import MultiVac.Base.Fault
import MultiVac.Consensus.Messages
import MultiVac.Lib.Table

/-!
# Resharding

`ShardManager` of `processor/controller/internal`. The manager follows the confirmations of
the shards, prepares a miner when the reshard seed of a shard changes, and reshards some
rounds later. The later step is taken at one height only, so it is taken exactly when a
confirmation of this height is handled.
-/

namespace MultiVac.Controller

open Wire
open Consensus (MsgBlockConfirmation)
open Lib (Table)

/-- `params.ReshardRoundThreshold`. -/
def reshardRoundThreshold : Int := 20

/-- `params.ReshardPrepareRoundThreshold`. -/
def reshardPrepareRoundThreshold : Int := 5

/-- `reshardState`. -/
structure ReshardState where
  height : Int
  enabled : Bool
  proof : Bytes

/-- `preInfo`. -/
structure PreInfo where
  seed : Bytes
  height : Int

/-- The miner that the manager works for: its configuration, `Vrf.Generate` with its keys, and
the selector. -/
structure Miner where
  storageNode : Bool
  isOneOfFirstMiners : Bool
  generate : Bytes → Option Bytes
  selects : Bytes → ShardIndex → Bool

/-- `isInShard`. -/
def Miner.isInShard (miner : Miner) (shardIndex : ShardIndex) (seed : Bytes) : Bool × Bytes :=
  match miner.generate seed with
  | none => (false, [])
  | some proof => (miner.selects proof shardIndex, proof)

/-- What the manager tells the shard controllers to do. -/
inductive Entry where
  | suspendService (shard : ShardIndex) (round : Int)
  | startService (shard : ShardIndex) (round : Int) (header : BlockHeader)
      (enabledShards : List ShardIndex)
  | updateProof (shard : ShardIndex) (proof : Bytes)
  | scheduleStop (shard : ShardIndex)

/-- `ShardManager`. -/
structure ShardManager where
  shardStatus : Table ShardIndex ReshardState
  preInfo : Table ShardIndex PreInfo
  lastMessage : Table ShardIndex MsgBlockConfirmation
  log : List Entry

/-- A confirmation that arrives, whether it passes `IsValidated`, and the shards that are
enabled at this time. -/
structure Arrival where
  msg : MsgBlockConfirmation
  validated : Bool
  enabledShards : List ShardIndex

namespace ShardManager

variable (sm : ShardManager)

/-- Write to the log. -/
def record (entries : List Entry) : ShardManager :=
  { sm with log := sm.log ++ entries }

variable (miner : Miner) (enabledShards : List ShardIndex)

/-- `prepare`. -/
def prepare (sm : ShardManager) (msg : MsgBlockConfirmation) : ShardManager :=
  let (isInShard, proof) := miner.isInShard msg.header.shardIndex msg.header.reshardSeed
  let sm :=
    { sm with
      shardStatus := sm.shardStatus.insert msg.shardIndex
        { height := msg.header.height, enabled := isInShard, proof } }
  let round := msg.header.height + reshardPrepareRoundThreshold - 1
  if isInShard then
    if msg.shardIndex ∈ enabledShards then sm
    else sm.record [.startService msg.shardIndex round msg.header enabledShards]
  else sm.record [.suspendService msg.shardIndex round]

/-- `reshard` for a shard with a status. -/
def reshardStep (shardIndex : ShardIndex) (status : ReshardState) : Entry :=
  if status.enabled then .updateProof shardIndex status.proof else .scheduleStop shardIndex

/-- `reshard`. -/
def reshard (shardIndex : ShardIndex) : Go ShardManager :=
  match sm.shardStatus.lookup shardIndex with
  | none => Go.panic
  | some status => .ok (sm.record [reshardStep shardIndex status])

/-- The last information of a shard is that of a confirmation. -/
def remember (msg : MsgBlockConfirmation) : ShardManager :=
  { sm with
    preInfo := sm.preInfo.insert msg.shardIndex
      { seed := msg.header.reshardSeed, height := msg.header.height } }

/-- The first half of `handleConfirmationMsg` after the checks: prepare if the seed has
changed. -/
def maybePrepare (sm : ShardManager) (info : PreInfo) (msg : MsgBlockConfirmation) : ShardManager :=
  if info.seed ≠ msg.header.reshardSeed ∧ msg.header.height > info.height then
    (sm.prepare miner enabledShards msg).remember msg
  else sm

/-- `handleConfirmationMsg`. -/
def handleConfirmationMsg (sm : ShardManager) (msg : MsgBlockConfirmation) : Go ShardManager :=
  if miner.storageNode then .ok sm
  else if msg.header.height ≤ reshardRoundThreshold then .ok sm
  else
    match sm.preInfo.lookup msg.shardIndex with
    | none => Go.panic
    | some info =>
      if miner.isOneOfFirstMiners = false ∧ info.seed = [] then .ok (sm.remember msg)
      else
        let sm := sm.maybePrepare miner enabledShards info msg
        match sm.shardStatus.lookup msg.shardIndex with
        | none => Go.panic
        | some status =>
          if msg.header.height = status.height + reshardPrepareRoundThreshold then
            sm.reshard msg.header.shardIndex
          else .ok sm

/-- The filter of `msgValidate`. -/
def accepts (arrival : Arrival) : Bool :=
  (match sm.lastMessage.lookup arrival.msg.shardIndex with
    | none => true
    | some old =>
      !(old.header = arrival.msg.header || arrival.msg.header.height ≤ old.header.height)) &&
  arrival.validated

/-- `setLastMessage`. -/
def setLastMessage (msg : MsgBlockConfirmation) : ShardManager :=
  { sm with lastMessage := sm.lastMessage.insert msg.shardIndex msg }

/-- `msgValidate`. -/
def msgValidate (sm : ShardManager) (arrival : Arrival) : Go ShardManager :=
  if sm.accepts arrival then
    (sm.setLastMessage arrival.msg).handleConfirmationMsg miner arrival.enabledShards arrival.msg
  else .ok sm

/-- The manager after some confirmations. -/
def run (sm : ShardManager) (arrivals : List Arrival) : Go ShardManager :=
  arrivals.foldlM (fun sm arrival => sm.msgValidate miner arrival) sm

/-! ### What the manager holds of one shard -/

/-- The reshard steps of a shard. -/
def isReshardOf (shard : ShardIndex) : Entry → Bool
  | .updateProof other _ => other = shard
  | .scheduleStop other => other = shard
  | _ => false

@[simp]
theorem isReshardOf_reshardStep (shard other : ShardIndex) (status : ReshardState) :
    isReshardOf shard (reshardStep other status) = decide (other = shard) := by
  unfold reshardStep
  split <;> rfl

/-- The entries of a manager for one shard, and the reshard steps that it has taken for it. -/
structure Seat where
  status : ReshardState
  info : PreInfo
  last : Option MsgBlockConfirmation
  steps : List Entry

/-- The manager has these entries for a shard. -/
structure Seats (sm : ShardManager) (shard : ShardIndex) (seat : Seat) : Prop where
  status : sm.shardStatus.lookup shard = some seat.status
  info : sm.preInfo.lookup shard = some seat.info
  last : sm.lastMessage.lookup shard = seat.last
  steps : sm.log.filter (isReshardOf shard) = seat.steps

/-- The status of a shard that a confirmation is prepared for. -/
def preparedState (msg : MsgBlockConfirmation) : ReshardState where
  height := msg.header.height
  enabled := (miner.isInShard msg.header.shardIndex msg.header.reshardSeed).1
  proof := (miner.isInShard msg.header.shardIndex msg.header.reshardSeed).2

/-- The information that is remembered of a confirmation. -/
def infoOf (msg : MsgBlockConfirmation) : PreInfo where
  seed := msg.header.reshardSeed
  height := msg.header.height

namespace Seat

/-- Prepare if the seed has changed. -/
def maybePrepare (seat : Seat) (msg : MsgBlockConfirmation) : Seat :=
  if seat.info.seed ≠ msg.header.reshardSeed ∧ msg.header.height > seat.info.height then
    { seat with status := preparedState miner msg, info := infoOf msg }
  else seat

/-- Reshard if the height is that of the step. -/
def maybeReshard (seat : Seat) (msg : MsgBlockConfirmation) : Seat :=
  if msg.header.height = seat.status.height + reshardPrepareRoundThreshold then
    { seat with steps := seat.steps ++ [reshardStep msg.shardIndex seat.status] }
  else seat

/-- A confirmation of the shard. -/
def handle (seat : Seat) (msg : MsgBlockConfirmation) : Seat :=
  let seat := { seat with last := some msg }
  if miner.storageNode ∨ msg.header.height ≤ reshardRoundThreshold then seat
  else if miner.isOneOfFirstMiners = false ∧ seat.info.seed = [] then
    { seat with info := infoOf msg }
  else (seat.maybePrepare miner msg).maybeReshard msg

theorem last_handle (seat : Seat) (msg : MsgBlockConfirmation) :
    (seat.handle miner msg).last = some msg := by
  simp only [handle, maybePrepare, maybeReshard, apply_ite Seat.last, ite_self]

/-- The manager does not take the miner for a new one that waits for a seed. -/
def Active (seed : Bytes) : Prop := miner.isOneOfFirstMiners = true ∨ seed ≠ []

instance (miner : Miner) (seed : Bytes) : Decidable (Active miner seed) :=
  inferInstanceAs (Decidable (_ ∨ _))

theorem handle_of_same_seed {miner : Miner} (notStorage : miner.storageNode = false) (seat : Seat)
    {msg : MsgBlockConfirmation} (high : reshardRoundThreshold < msg.header.height)
    (sameSeed : msg.header.reshardSeed = seat.info.seed) :
    seat.handle miner msg = {
      status := seat.status
      info := if Active miner seat.info.seed then seat.info else infoOf msg
      last := some msg
      steps := seat.steps ++ if Active miner seat.info.seed ∧
          msg.header.height = seat.status.height + reshardPrepareRoundThreshold
        then [reshardStep msg.shardIndex seat.status] else [] } := by
  have isActive : ¬ (miner.isOneOfFirstMiners = false ∧ seat.info.seed = []) ↔
      Active miner seat.info.seed := by
    rw [Active, not_and_or, Bool.not_eq_false]
  rw [handle, if_neg (by simp [notStorage, high])]
  split
  · next isNew =>
    have passive : ¬ Active miner seat.info.seed := fun active => isActive.mpr active isNew
    simp [passive]
  · next notNew =>
    rw [isActive] at notNew
    simp only [maybePrepare, sameSeed, ne_eq, not_true_eq_false, false_and, if_false,
      maybeReshard, notNew, true_and, if_true]
    split
    · rfl
    · rw [List.append_nil]

/-- Confirmations of increasing heights that have the known seed: the reshard step is taken at
its height. -/
theorem steps_foldl_handle {miner : Miner} (notStorage : miner.storageNode = false)
    {shard : ShardIndex} {seat : Seat} {msgs : List MsgBlockConfirmation}
    (high : ∀ msg ∈ msgs, reshardRoundThreshold < msg.header.height)
    (own : ∀ msg ∈ msgs, msg.shardIndex = shard)
    (sameSeed : ∀ msg ∈ msgs, msg.header.reshardSeed = seat.info.seed)
    (heights : msgs.Pairwise fun earlier later => earlier.header.height < later.header.height) :
    (msgs.foldl (handle miner) seat).steps = seat.steps ++
      if Active miner seat.info.seed ∧ ∃ msg ∈ msgs,
        msg.header.height = seat.status.height + reshardPrepareRoundThreshold
      then [reshardStep shard seat.status] else [] := by
  induction msgs generalizing seat with
  | nil => simp
  | cons msg msgs ih =>
    rw [List.foldl_cons, handle_of_same_seed notStorage seat (high _ List.mem_cons_self)
      (sameSeed _ List.mem_cons_self)]
    have keepsSeed : (if Active miner seat.info.seed then seat.info else infoOf msg).seed =
        seat.info.seed := by
      split
      · rfl
      · exact sameSeed _ List.mem_cons_self
    rw [ih (fun other isMember => high other (List.mem_cons_of_mem _ isMember))
      (fun other isMember => own other (List.mem_cons_of_mem _ isMember)) (fun other isMember =>
        (sameSeed other (List.mem_cons_of_mem _ isMember)).trans keepsSeed.symm) heights.of_cons]
    simp only [keepsSeed, own _ List.mem_cons_self, List.append_assoc, List.exists_mem_cons_iff]
    -- The heights increase, so at most one of them is that of the step.
    by_cases here : msg.header.height = seat.status.height + reshardPrepareRoundThreshold
    · have notLater : ¬ ∃ other ∈ msgs,
          other.header.height = seat.status.height + reshardPrepareRoundThreshold := by
        rintro ⟨other, isMember, isHeight⟩
        have := List.rel_of_pairwise_cons heights isMember
        omega
      simp [here, notLater]
    · simp [here]

end Seat

section Seats

variable {miner : Miner} {sm : ShardManager} {shard : ShardIndex} {msg : MsgBlockConfirmation}
  {seat : Seat}

section

variable (seats : Seats sm shard seat)
include seats

theorem Seats.unique {other : Seat} (others : Seats sm shard other) : seat = other := by
  cases seat
  cases other
  simp only [Seat.mk.injEq]
  exact ⟨Option.some.inj (seats.status.symm.trans others.status),
    Option.some.inj (seats.info.symm.trans others.info), seats.last.symm.trans others.last,
    seats.steps.symm.trans others.steps⟩

theorem Seats.remember (msg : MsgBlockConfirmation) :
    Seats (sm.remember msg) shard
      (if msg.shardIndex = shard then { seat with info := infoOf msg } else seat) := by
  split
  · next same =>
    subst same
    exact { seats with info := AList.lookup_insert _ }
  · next other =>
    exact { seats with info := (AList.lookup_insert_ne (Ne.symm other)).trans seats.info }

theorem Seats.prepare (miner : Miner) (enabledShards : List ShardIndex)
    (msg : MsgBlockConfirmation) :
    Seats (sm.prepare miner enabledShards msg) shard
      (if msg.shardIndex = shard then { seat with status := preparedState miner msg } else seat) := by
  have inserted : Seats { sm with
      shardStatus := sm.shardStatus.insert msg.shardIndex (preparedState miner msg) } shard
      (if msg.shardIndex = shard then { seat with status := preparedState miner msg } else seat) := by
    split
    · next same =>
      subst same
      exact { seats with status := AList.lookup_insert _ }
    · next other =>
      exact { seats with status := (AList.lookup_insert_ne (Ne.symm other)).trans seats.status }
  -- The orders of a preparation are not reshard steps.
  have recorded : ∀ order, isReshardOf shard order = false → ∀ {sm seat}, Seats sm shard seat →
      Seats (sm.record [order]) shard seat := by
    intro order noStep sm seat seats
    refine { seats with steps := ?_ }
    rw [record, List.filter_append, seats.steps, List.filter_cons_of_neg (by simp [noStep])]
    exact List.append_nil _
  unfold ShardManager.prepare
  dsimp only
  split
  · split
    · exact inserted
    · exact recorded _ rfl inserted
  · exact recorded _ rfl inserted

theorem Seats.maybePrepare (miner : Miner) (enabledShards : List ShardIndex)
    (msg : MsgBlockConfirmation) {info : PreInfo}
    (isInfo : msg.shardIndex = shard → info = seat.info) :
    Seats (sm.maybePrepare miner enabledShards info msg) shard
      (if msg.shardIndex = shard then seat.maybePrepare miner msg else seat) := by
  have prepared := (seats.prepare miner enabledShards msg).remember msg
  by_cases same : msg.shardIndex = shard
  · simp only [same, if_true] at prepared ⊢
    rw [ShardManager.maybePrepare, Seat.maybePrepare, isInfo same]
    split
    · exact prepared
    · exact seats
  · simp only [same, if_false] at prepared ⊢
    unfold ShardManager.maybePrepare
    split
    · exact prepared
    · exact seats

theorem Seats.setLastMessage (msg : MsgBlockConfirmation) :
    Seats (sm.setLastMessage msg) shard
      (if msg.shardIndex = shard then { seat with last := some msg } else seat) := by
  split
  · next same =>
    subst same
    exact { seats with last := AList.lookup_insert _ }
  · next other =>
    exact { seats with last := (AList.lookup_insert_ne (Ne.symm other)).trans seats.last }

theorem Seats.reshard (other : ShardIndex) (status : ReshardState) :
    Seats (sm.record [reshardStep other status]) shard
      (if other = shard then { seat with steps := seat.steps ++ [reshardStep other status] }
        else seat) := by
  have filtered : (sm.log ++ [reshardStep other status]).filter (isReshardOf shard) =
      seat.steps ++ if other = shard then [reshardStep other status] else [] := by
    rw [List.filter_append, seats.steps, List.filter_cons, isReshardOf_reshardStep]
    simp only [decide_eq_true_eq, List.filter_nil]
  split
  · next same => exact { seats with steps := by rwa [if_pos same] at filtered }
  · next isOther =>
    rw [if_neg isOther, List.append_nil] at filtered
    exact { seats with steps := filtered }

end

/-- A confirmation of a shard that the manager serves is handled without a panic, and changes
what the manager holds of this shard only. -/
theorem exists_handleConfirmationMsg (miner : Miner) (enabledShards : List ShardIndex) {own : Seat}
    (serves : Seats sm msg.shardIndex own) (addressed : msg.header.shardIndex = msg.shardIndex) :
    ∃ after, (sm.setLastMessage msg).handleConfirmationMsg miner enabledShards msg = .ok after ∧
      Seats after msg.shardIndex (own.handle miner msg) ∧
      ∀ shard seat, shard ≠ msg.shardIndex → Seats sm shard seat → Seats after shard seat := by
  have served := serves.setLastMessage msg
  simp only [if_true] at served
  have untouched : ∀ {shard seat}, shard ≠ msg.shardIndex → Seats sm shard seat →
      Seats (sm.setLastMessage msg) shard seat := fun isOther seats => by
    simpa only [isOther.symm, if_false] using seats.setLastMessage msg
  simp only [handleConfirmationMsg, served.info, Seat.handle]
  by_cases passive : miner.storageNode = true ∨ msg.header.height ≤ reshardRoundThreshold
  · refine ⟨sm.setLastMessage msg, ?_, ?_, fun shard seat isOther seats => ?_⟩
    · rcases passive with isStorage | low
      · rw [if_pos isStorage]
      · rw [if_pos low, ite_self]
    · simpa only [passive, if_true] using served
    · exact untouched isOther seats
  · rw [if_neg fun isStorage => passive (.inl isStorage), if_neg fun low => passive (.inr low)]
    simp only [passive, if_false]
    split
    · refine ⟨_, rfl, ?_, fun shard seat isOther seats => ?_⟩
      · simpa only [if_true] using served.remember msg
      · simpa only [isOther.symm, if_false] using (untouched isOther seats).remember msg
    · have prepared := served.maybePrepare miner enabledShards msg fun _ => rfl
      have unprepared : ∀ shard seat, shard ≠ msg.shardIndex → Seats sm shard seat →
          Seats ((sm.setLastMessage msg).maybePrepare miner enabledShards own.info msg) shard seat := by
        intro shard seat isOther seats
        simpa only [isOther.symm, if_false] using
          (untouched isOther seats).maybePrepare miner enabledShards msg
            fun same => absurd same isOther.symm
      simp only [if_true] at prepared
      simp only [prepared.status, Seat.maybeReshard]
      split
      · rw [ShardManager.reshard, addressed, prepared.status]
        refine ⟨_, rfl, ?_, fun shard seat isOther seats => ?_⟩
        · simpa only [if_true] using prepared.reshard msg.shardIndex _
        · simpa only [isOther.symm, if_false] using
            (unprepared shard seat isOther seats).reshard msg.shardIndex _
      · exact ⟨_, rfl, prepared, unprepared⟩

end Seats

/-! ### Confirmations of increasing heights -/

/-- The manager serves a shard. -/
def Known (sm : ShardManager) (shard : ShardIndex) : Prop :=
  (sm.shardStatus.lookup shard).isSome ∧ (sm.preInfo.lookup shard).isSome

instance (sm : ShardManager) (shard : ShardIndex) : Decidable (sm.Known shard) :=
  inferInstanceAs (Decidable (_ ∧ _))

theorem known_iff {sm : ShardManager} {shard : ShardIndex} :
    sm.Known shard ↔ ∃ seat, Seats sm shard seat := by
  constructor
  · rintro ⟨hasStatus, hasInfo⟩
    obtain ⟨status, isStatus⟩ := Option.isSome_iff_exists.mp hasStatus
    obtain ⟨info, isInfo⟩ := Option.isSome_iff_exists.mp hasInfo
    exact ⟨⟨status, info, _, _⟩, isStatus, isInfo, rfl, rfl⟩
  · rintro ⟨seat, seats⟩
    rw [Known, seats.status, seats.info]
    exact ⟨rfl, rfl⟩

/-- The confirmations of a shard are validated and have increasing heights, gaps allowed.
Those of the other shards are arbitrary. -/
structure Increasing (shard : ShardIndex) (arrivals : List Arrival) : Prop where
  validated : ∀ arrival ∈ arrivals, arrival.msg.shardIndex = shard → arrival.validated = true
  heights : arrivals.Pairwise fun earlier later =>
    earlier.msg.shardIndex = shard → later.msg.shardIndex = shard →
      earlier.msg.header.height < later.msg.header.height

/-- The confirmations of a shard. -/
def ownOf (shard : ShardIndex) (arrivals : List Arrival) : List MsgBlockConfirmation :=
  (arrivals.map Arrival.msg).filter fun msg => msg.shardIndex = shard

section Runs

variable {miner : Miner} {sm : ShardManager} {shard : ShardIndex} {seat : Seat}

theorem exists_msgValidate (miner : Miner) (seats : Seats sm shard seat) {arrival : Arrival}
    (known : sm.Known arrival.msg.shardIndex)
    (addressed : arrival.msg.header.shardIndex = arrival.msg.shardIndex) :
    ∃ after, sm.msgValidate miner arrival = .ok after ∧
      (∀ other, sm.Known other → after.Known other) ∧
      Seats after shard (if arrival.msg.shardIndex = shard ∧ sm.accepts arrival = true then
        seat.handle miner arrival.msg else seat) := by
  unfold msgValidate
  split
  · next accepted =>
    obtain ⟨own, serves⟩ := known_iff.mp known
    obtain ⟨after, handled, seated, others⟩ :=
      exists_handleConfirmationMsg miner arrival.enabledShards serves addressed
    refine ⟨after, handled, fun other isKnown => ?_, ?_⟩
    · by_cases same : other = arrival.msg.shardIndex
      · exact known_iff.mpr ⟨_, same ▸ seated⟩
      · obtain ⟨seat, seats⟩ := known_iff.mp isKnown
        exact known_iff.mpr ⟨seat, others other seat same seats⟩
    · by_cases same : arrival.msg.shardIndex = shard
      · subst same
        obtain rfl := seats.unique serves
        rwa [if_pos ⟨rfl, accepted⟩]
      · rw [if_neg fun both => same both.1]
        exact others shard seat (Ne.symm same) seats
  · next rejected =>
    refine ⟨sm, rfl, fun _ isKnown => isKnown, ?_⟩
    rwa [if_neg fun both => rejected both.2]

/-- The manager handles the confirmations of a shard one after another, whatever comes between
them. -/
theorem exists_run (miner : Miner) (seats : Seats sm shard seat) {arrivals : List Arrival}
    (known : ∀ arrival ∈ arrivals, sm.Known arrival.msg.shardIndex)
    (addressed : ∀ arrival ∈ arrivals, arrival.msg.header.shardIndex = arrival.msg.shardIndex)
    (increasing : Increasing shard arrivals)
    (above : ∀ last, seat.last = some last → ∀ arrival ∈ arrivals,
      arrival.msg.shardIndex = shard → last.header.height < arrival.msg.header.height) :
    ∃ after, sm.run miner arrivals = .ok after ∧
      Seats after shard ((ownOf shard arrivals).foldl (Seat.handle miner) seat) := by
  induction arrivals generalizing sm seat with
  | nil => exact ⟨sm, rfl, seats⟩
  | cons arrival arrivals ih =>
    obtain ⟨between, validated, stillKnown, seated⟩ :=
      exists_msgValidate miner seats (known _ List.mem_cons_self) (addressed _ List.mem_cons_self)
    have onwards := fun seat seated above => @ih between seat seated
      (fun other isMember => stillKnown _ (known other (List.mem_cons_of_mem _ isMember)))
      (fun other isMember => addressed other (List.mem_cons_of_mem _ isMember))
      ⟨fun other isMember => increasing.validated other (List.mem_cons_of_mem _ isMember),
        increasing.heights.of_cons⟩ above
    simp only [run, List.foldlM_cons, validated, ownOf, List.map_cons]
    by_cases same : arrival.msg.shardIndex = shard
    · have accepted : sm.accepts arrival = true := by
        unfold accepts
        rw [increasing.validated arrival List.mem_cons_self same, same, seats.last, Bool.and_true]
        cases isLast : seat.last with
        | none => rfl
        | some last =>
          have higher := above last isLast arrival List.mem_cons_self same
          have isOther : last.header ≠ arrival.msg.header := fun equal =>
            (equal ▸ higher).false
          simp [isOther, higher]
      rw [if_pos ⟨same, accepted⟩] at seated
      rw [List.filter_cons_of_pos (by simpa using same)]
      refine onwards _ seated fun last isLast other isMember isShard => ?_
      rw [Seat.last_handle] at isLast
      obtain rfl := Option.some.inj isLast
      exact List.rel_of_pairwise_cons increasing.heights isMember same isShard
    · rw [if_neg fun both => same both.1] at seated
      rw [List.filter_cons_of_neg (by simpa using same)]
      exact onwards _ seated fun last isLast other isMember =>
        above last isLast other (List.mem_cons_of_mem _ isMember)

end Runs

/-! ### The reshard step -/

/-- A confirmation is prepared for: it is handled, and its seed is not the one that the manager
knows. -/
structure Prepares (miner : Miner) (sm : ShardManager) (first : Arrival) : Prop where
  notStorage : miner.storageNode = false
  high : reshardRoundThreshold < first.msg.header.height
  accepted : sm.accepts first = true
  changed : ∃ info, sm.preInfo.lookup first.msg.shardIndex = some info ∧
    Seat.Active miner info.seed ∧ info.seed ≠ first.msg.header.reshardSeed ∧
    info.height < first.msg.header.height

theorem Prepares.handle {miner : Miner} {sm : ShardManager} {first : Arrival}
    (prepares : Prepares miner sm first) {seat : Seat}
    (seats : Seats sm first.msg.shardIndex seat) :
    seat.handle miner first.msg = {
      status := preparedState miner first.msg
      info := infoOf first.msg
      last := some first.msg
      steps := seat.steps } := by
  obtain ⟨info, isInfo, active, changed, higher⟩ := prepares.changed
  obtain rfl := Option.some.inj (seats.info.symm.trans isInfo)
  have notNew : ¬ (miner.isOneOfFirstMiners = false ∧ seat.info.seed = []) := by
    rwa [not_and_or, Bool.not_eq_false]
  -- The height of the reshard step lies behind that of the preparation.
  have notDue : first.msg.header.height ≠
      first.msg.header.height + reshardPrepareRoundThreshold := by
    rw [reshardPrepareRoundThreshold]
    omega
  rw [Seat.handle, if_neg (by simp [prepares.notStorage, prepares.high]), if_neg notNew,
    Seat.maybePrepare, if_pos ⟨changed, higher⟩, Seat.maybeReshard]
  exact if_neg notDue

/-- Once a changed seed has been prepared for and until a newer one arrives, the reshard step
is taken exactly once if the confirmation of the height just `reshardPrepareRoundThreshold`
behind arrives, and the seed does not make the miner look like a new one. A higher
confirmation does not make up for it. -/
theorem resharded_once_iff {miner : Miner} {sm : ShardManager} {first : Arrival}
    (prepares : Prepares miner sm first) {later : List Arrival}
    (known : ∀ arrival ∈ first :: later, sm.Known arrival.msg.shardIndex)
    (addressed : ∀ arrival ∈ first :: later, arrival.msg.header.shardIndex = arrival.msg.shardIndex)
    (increasing : Increasing first.msg.shardIndex (first :: later))
    (noNewer : ∀ arrival ∈ later, arrival.msg.shardIndex = first.msg.shardIndex →
      arrival.msg.header.reshardSeed = first.msg.header.reshardSeed) :
    ∃ prepared after, sm.msgValidate miner first = .ok prepared ∧
      prepared.run miner later = .ok after ∧
      (after.log.filter (isReshardOf first.msg.shardIndex) =
          prepared.log.filter (isReshardOf first.msg.shardIndex) ++
            [reshardStep first.msg.shardIndex (preparedState miner first.msg)] ↔
        (miner.isOneOfFirstMiners = true ∨ first.msg.header.reshardSeed ≠ []) ∧
          ∃ arrival ∈ later, arrival.msg.shardIndex = first.msg.shardIndex ∧
            arrival.msg.header.height = first.msg.header.height + reshardPrepareRoundThreshold) := by
  obtain ⟨seat, seats⟩ := known_iff.mp (known _ List.mem_cons_self)
  obtain ⟨prepared, validated, stillKnown, seated⟩ :=
    exists_msgValidate miner seats (known _ List.mem_cons_self) (addressed _ List.mem_cons_self)
  rw [if_pos ⟨rfl, prepares.accepted⟩, prepares.handle seats] at seated
  have above : ∀ arrival ∈ later, arrival.msg.shardIndex = first.msg.shardIndex →
      first.msg.header.height < arrival.msg.header.height := fun arrival isMember isShard =>
    List.rel_of_pairwise_cons increasing.heights isMember rfl isShard
  have validatedLater : Increasing first.msg.shardIndex later :=
    ⟨fun arrival isMember => increasing.validated arrival (List.mem_cons_of_mem _ isMember),
      increasing.heights.of_cons⟩
  obtain ⟨after, isRun, ended⟩ := exists_run miner seated
    (fun arrival isMember => stillKnown _ (known arrival (List.mem_cons_of_mem _ isMember)))
    (fun arrival isMember => addressed arrival (List.mem_cons_of_mem _ isMember)) validatedLater
    fun last isLast => Option.some.inj isLast ▸ above
  refine ⟨prepared, after, validated, isRun, ?_⟩
  have isOwn : ∀ msg, msg ∈ ownOf first.msg.shardIndex later ↔
      ∃ arrival ∈ later, arrival.msg.shardIndex = first.msg.shardIndex ∧ arrival.msg = msg := by
    intro msg
    simp only [ownOf, List.mem_filter, List.mem_map, decide_eq_true_eq]
    constructor
    · rintro ⟨⟨arrival, isMember, rfl⟩, isShard⟩
      exact ⟨arrival, isMember, isShard, rfl⟩
    · rintro ⟨arrival, isMember, isShard, rfl⟩
      exact ⟨⟨arrival, isMember, rfl⟩, isShard⟩
  rw [ended.steps, seated.steps, Seat.steps_foldl_handle prepares.notStorage]
  · rw [List.append_cancel_left_eq]
    have isDue : (∃ msg ∈ ownOf first.msg.shardIndex later, msg.header.height =
        first.msg.header.height + reshardPrepareRoundThreshold) ↔ ∃ arrival ∈ later,
          arrival.msg.shardIndex = first.msg.shardIndex ∧
            arrival.msg.header.height = first.msg.header.height + reshardPrepareRoundThreshold := by
      simp only [isOwn]
      constructor
      · rintro ⟨msg, ⟨arrival, isMember, isShard, rfl⟩, isHeight⟩
        exact ⟨arrival, isMember, isShard, isHeight⟩
      · rintro ⟨arrival, isMember, isShard, isHeight⟩
        exact ⟨arrival.msg, ⟨arrival, isMember, isShard, rfl⟩, isHeight⟩
    rw [← isDue, ite_eq_left_iff]
    simp only [List.nil_eq, List.cons_ne_self, imp_false, not_not]
    exact Iff.rfl
  · intro msg isMember
    obtain ⟨arrival, inLater, isShard, rfl⟩ := (isOwn msg).mp isMember
    exact prepares.high.trans (above arrival inLater isShard)
  · intro msg isMember
    obtain ⟨arrival, -, isShard, rfl⟩ := (isOwn msg).mp isMember
    exact isShard
  · intro msg isMember
    obtain ⟨arrival, inLater, isShard, rfl⟩ := (isOwn msg).mp isMember
    exact noNewer arrival inLater isShard
  · refine List.pairwise_filter.mpr (List.pairwise_map.mpr ?_)
    exact validatedLater.heights.imp fun increases isOwn isOwnToo =>
      increases (by simpa using isOwn) (by simpa using isOwnToo)

/-! ### A gap at the height of the step -/

/-- `newShardManagerImpl`, `Add` and `init` for a miner that serves some shards. -/
def ofShards (shards : List ShardIndex) : ShardManager where
  shardStatus := shards.foldl (fun table shard => table.insert shard ⟨0, false, []⟩) ∅
  preInfo := shards.foldl (fun table shard => table.insert shard ⟨[], 0⟩) ∅
  lastMessage := ∅
  log := []

/-- One of the first miners, who is selected for every shard. -/
def selectedMiner : Miner where
  storageNode := false
  isOneOfFirstMiners := true
  generate := some
  selects _ _ := true

/-- A validated confirmation of the shard 0 with a seed. -/
def confirmedAt (height : Int) : Arrival where
  msg := {
    shardIndex := 0
    round := height
    step := 4
    v := .empty
    header := { (default : BlockHeader) with height, reshardSeed := [7] }
    confirms := [] }
  validated := true
  enabledShards := [0]

theorem prepares_selectedMiner : Prepares selectedMiner (ofShards [0]) (confirmedAt 21) where
  notStorage := rfl
  high := by decide
  accepted := rfl
  changed := ⟨⟨[], 0⟩, rfl, .inl rfl, by decide, by decide⟩

/-- The seed is prepared for at height 21, and the step is taken at height 26. -/
theorem resharded_once_at_26 :
    ∃ prepared after, (ofShards [0]).msgValidate selectedMiner (confirmedAt 21) = .ok prepared ∧
      prepared.run selectedMiner [confirmedAt 23, confirmedAt 26] = .ok after ∧
      after.log.filter (isReshardOf 0) =
        prepared.log.filter (isReshardOf 0) ++ [.updateProof 0 [7]] := by
  obtain ⟨prepared, after, validated, isRun, isOnce⟩ :=
    @resharded_once_iff selectedMiner (ofShards [0]) (confirmedAt 21) prepares_selectedMiner
      [confirmedAt 23, confirmedAt 26] (by decide) (by decide) ⟨by decide, by decide⟩ (by decide)
  exact ⟨prepared, after, validated, isRun,
    isOnce.mpr ⟨.inl rfl, confirmedAt 26, by simp, rfl, rfl⟩⟩

/-- The seed is prepared for at height 21, the heights go on with 25 and 27, and the step is
never taken. -/
theorem reshard_step_skipped :
    Prepares selectedMiner (ofShards [0]) (confirmedAt 21) ∧
    Increasing 0 [confirmedAt 21, confirmedAt 25, confirmedAt 27] ∧
    (confirmedAt 27).msg.header.height ≥
      (confirmedAt 21).msg.header.height + reshardPrepareRoundThreshold ∧
    (confirmedAt 27).msg.header.reshardSeed = (confirmedAt 21).msg.header.reshardSeed ∧
    (ShardManager.log <$> (ofShards [0]).run selectedMiner
        [confirmedAt 21, confirmedAt 25, confirmedAt 27]) = .ok [] :=
  ⟨prepares_selectedMiner, ⟨by decide, by decide⟩, by decide, rfl, rfl⟩

end ShardManager

end MultiVac.Controller
