import MultiVac.Base.Slice
import MultiVac.Lib.Table

/-!
# The heartbeat manager

A miner confirms the other miners that send heartbeats for long enough. A heartbeat
carries a timestamp of its sender. The receiver compares it with its own clock once,
and computes the online time of a sender from the sender's timestamps.
-/

namespace MultiVac.Heartbeat

open Lib (Table)

/-! ### Time -/

/-- `wire.Timestamp`, in seconds. -/
abbrev Timestamp := Int

/-- The difference of two timestamps, as an `int64`. -/
def elapsed (later earlier : Timestamp) : Int := Int.bmod (later - earlier) (2 ^ 64)

/-- `params.OnlineTimeS`. -/
def onlineTimeS : Int := 180

/-- `params.TimeDeviationS`. -/
def timeDeviationS : Int := 100

/-- `isTimestampValid`. -/
def isTimestampValid (now t : Timestamp) : Bool :=
  let deviation := elapsed t now
  if deviation > timeDeviationS ∨ deviation < -timeDeviationS then false else true

/-- `isLastHeartBeatExpired`. -/
def isLastHeartBeatExpired (now lastHeartBeatTs : Timestamp) : Bool :=
  decide (elapsed now lastHeartBeatTs > onlineTimeS)

/-! ### The manager -/

/-- `wire.HeartBeatMsg`. -/
structure HeartBeatMsg where
  pk : Bytes
  timeStamp : Timestamp
  proof : Bytes
  signature : Bytes

/-- `recorder`. -/
structure Recorder where
  firstReceiveTime : Timestamp
  lastReceiveTime : Timestamp

/-- `Manager`, with its lists by public key. -/
structure Manager where
  pk : Bytes
  whiteList : Table Bytes Timestamp
  cacheList : Table Bytes Recorder

/-- What the manager learns while it handles a heartbeat: its clock, whether the deposit pool
verifies the proof for the sender's address, and whether the signature is valid. -/
structure Reception where
  now : Timestamp
  verifyDeposit : Bool
  verifyMessage : Bool

namespace Manager

/-- `newHeartBeatManager`. -/
def new (pk : Bytes) : Manager where
  pk := pk
  whiteList := ∅
  cacheList := ∅

/-- The part of `handleHeartBeat` for a key in the cache list. -/
def updateRecord (manager : Manager) (msg : HeartBeatMsg) (v : Recorder) : Manager :=
  if isLastHeartBeatExpired msg.timeStamp v.lastReceiveTime then
    { manager with
      cacheList := manager.cacheList.insert msg.pk
        { firstReceiveTime := msg.timeStamp, lastReceiveTime := msg.timeStamp } }
  else
    let firstReceiveTime := elapsed msg.timeStamp v.firstReceiveTime
    if firstReceiveTime ≥ onlineTimeS then
      { manager with
        cacheList := manager.cacheList.erase msg.pk
        whiteList := manager.whiteList.insert msg.pk msg.timeStamp }
    else
      { manager with
        cacheList := manager.cacheList.insert msg.pk { v with lastReceiveTime := msg.timeStamp } }

/-- `handleHeartBeat`. -/
def handleHeartBeat (manager : Manager) (reception : Reception) (msg : HeartBeatMsg) : Manager :=
  if !reception.verifyDeposit then manager
  else if !reception.verifyMessage then manager
  else if !isTimestampValid reception.now msg.timeStamp then manager
  else if (manager.whiteList.lookup msg.pk).isSome then
    { manager with whiteList := manager.whiteList.insert msg.pk msg.timeStamp }
  else
    match manager.cacheList.lookup msg.pk with
    | some v => manager.updateRecord msg v
    | none =>
      { manager with
        cacheList := manager.cacheList.insert msg.pk
          { lastReceiveTime := msg.timeStamp, firstReceiveTime := msg.timeStamp } }

/-- The part of `send` that changes the lists: the manager puts itself on the white list. -/
def addMyself (manager : Manager) (now : Timestamp) : Manager :=
  { manager with whiteList := manager.whiteList.insert manager.pk now }

/-- `removeExpired`. -/
def removeExpired (manager : Manager) (now : Timestamp) : Manager :=
  { manager with
    whiteList := manager.whiteList.keep fun key =>
      decide (key = manager.pk) ||
        (manager.whiteList.lookup key).all fun v => !isLastHeartBeatExpired now v }

end Manager

/-- A step of the manager. Its lists are guarded by a lock. -/
inductive Event where
  | receive (reception : Reception) (msg : HeartBeatMsg)
  | send (now : Timestamp)
  | removeExpired (now : Timestamp)

/-- One step. -/
def Manager.handle (manager : Manager) : Event → Manager
  | .receive reception msg => manager.handleHeartBeat reception msg
  | .send now => manager.addMyself now
  | .removeExpired now => manager.removeExpired now

/-- A sequence of steps. -/
def Manager.run (manager : Manager) (events : List Event) : Manager :=
  events.foldl handle manager

@[simp]
theorem Manager.run_append_singleton (manager : Manager) (events : List Event) (event : Event) :
    manager.run (events ++ [event]) = (manager.run events).handle event := by
  simp [run]

/-! ### Accepted heartbeats -/

/-- An accepted heartbeat: the receiver's clock and the timestamp. -/
structure Beat where
  now : Timestamp
  timeStamp : Timestamp

/-- The heartbeat of a key that a step accepts. -/
def Event.beat? (pk : Bytes) : Event → Option Beat
  | receive reception msg =>
    if msg.pk = pk ∧ reception.verifyDeposit = true ∧ reception.verifyMessage = true ∧
        isTimestampValid reception.now msg.timeStamp = true
    then some ⟨reception.now, msg.timeStamp⟩
    else none
  | send _ => none
  | removeExpired _ => none

/-- The accepted heartbeats of a key, from the first to the last. -/
def beats (pk : Bytes) (events : List Event) : List Beat :=
  events.filterMap (Event.beat? pk)

/-- Heartbeats without an expiry gap. -/
def Unbroken (streak : List Beat) : Prop :=
  streak.IsChain fun earlier later =>
    isLastHeartBeatExpired later.timeStamp earlier.timeStamp = false

/-- The last heartbeats of a key came without an expiry gap for `onlineTimeS` seconds of the
receiver's clock. -/
def Online (pk : Bytes) (events : List Event) : Prop :=
  ∃ earlier first between last, beats pk events = earlier ++ first :: (between ++ [last]) ∧
    Unbroken (first :: (between ++ [last])) ∧ last.now - first.now ≥ onlineTimeS

/-- The timestamps of a key run no faster than the receiver's clock. -/
def Paced (pk : Bytes) (events : List Event) : Prop :=
  (beats pk events).Pairwise fun earlier later =>
    elapsed later.timeStamp earlier.timeStamp ≤ later.now - earlier.now

/-- A step puts a key on the white list. -/
def Manager.Admits (manager : Manager) (event : Event) (pk : Bytes) : Prop :=
  manager.whiteList.lookup pk = none ∧ (manager.handle event).whiteList.lookup pk ≠ none

theorem beats_append (pk : Bytes) (events : List Event) (event : Event) :
    beats pk (events ++ [event]) = beats pk events ++ (event.beat? pk).toList := by
  rw [beats, List.filterMap_append]
  cases accepted : event.beat? pk <;> simp [beats, accepted]

/-! ### What a step does to one key -/

/-- The entries of a key before and after a step that accepts a heartbeat of it. -/
inductive Counts (manager after : Manager) (pk : Bytes) (beat : Beat) : Prop where
  | confirmed (listed : manager.whiteList.lookup pk ≠ none)
      (stillListed : after.whiteList.lookup pk ≠ none)
      (sameRecord : after.cacheList.lookup pk = manager.cacheList.lookup pk)
  | starts (record : after.cacheList.lookup pk = some ⟨beat.timeStamp, beat.timeStamp⟩)
      (notListed : after.whiteList.lookup pk = none)
  | continues (v : Recorder) (notListed : manager.whiteList.lookup pk = none)
      (before : manager.cacheList.lookup pk = some v)
      (noGap : isLastHeartBeatExpired beat.timeStamp v.lastReceiveTime = false)
      (record : after.cacheList.lookup pk = some { v with lastReceiveTime := beat.timeStamp })
      (stillNotListed : after.whiteList.lookup pk = none)
  | admitted (v : Recorder) (notListed : manager.whiteList.lookup pk = none)
      (before : manager.cacheList.lookup pk = some v)
      (noGap : isLastHeartBeatExpired beat.timeStamp v.lastReceiveTime = false)
      (enough : elapsed beat.timeStamp v.firstReceiveTime ≥ onlineTimeS)
      (record : after.cacheList.lookup pk = none)

variable {manager : Manager} {msg : HeartBeatMsg} {v : Recorder}

theorem Manager.counts_updateRecord (notListed : manager.whiteList.lookup msg.pk = none)
    (before : manager.cacheList.lookup msg.pk = some v) (now : Timestamp) :
    Counts manager (manager.updateRecord msg v) msg.pk ⟨now, msg.timeStamp⟩ := by
  unfold updateRecord
  cases expired : isLastHeartBeatExpired msg.timeStamp v.lastReceiveTime with
  | true => exact .starts (AList.lookup_insert _) notListed
  | false =>
    rw [if_neg Bool.false_ne_true]
    dsimp only
    split
    · next enough => exact .admitted v notListed before expired enough (AList.lookup_erase _ _)
    · exact .continues v notListed before expired (AList.lookup_insert _) notListed

variable {event : Event} {pk : Bytes} {beat : Beat}

/-- A step that accepts a heartbeat of a key. -/
theorem Manager.counts_handle (manager : Manager) (accepted : event.beat? pk = some beat) :
    Counts manager (manager.handle event) pk beat := by
  cases event with
  | receive reception msg =>
    simp only [Event.beat?] at accepted
    split at accepted
    · next passes =>
      obtain ⟨rfl, deposit, signed, valid⟩ := passes
      cases accepted
      simp only [handle, handleHeartBeat, deposit, signed, valid, Bool.not_true,
        Bool.false_eq_true, if_false]
      split
      · next listed =>
        refine .confirmed (Option.isSome_iff_ne_none.mp listed) ?_ rfl
        rw [AList.lookup_insert]
        exact Option.some_ne_none _
      · next notListed =>
        rw [Option.not_isSome_iff_eq_none] at notListed
        cases record : manager.cacheList.lookup msg.pk with
        | none => exact .starts (AList.lookup_insert _) notListed
        | some v => exact counts_updateRecord notListed record reception.now
    · exact absurd accepted (by simp)
  | send => exact absurd accepted (by simp [Event.beat?])
  | removeExpired => exact absurd accepted (by simp [Event.beat?])

theorem Manager.updateRecord_other (manager : Manager) (v : Recorder) (other : pk ≠ msg.pk) :
    (manager.updateRecord msg v).cacheList.lookup pk = manager.cacheList.lookup pk ∧
      (manager.updateRecord msg v).whiteList.lookup pk = manager.whiteList.lookup pk := by
  unfold updateRecord
  split
  · exact ⟨AList.lookup_insert_ne other, rfl⟩
  · dsimp only
    split
    · exact ⟨AList.lookup_erase_ne other, AList.lookup_insert_ne other⟩
    · exact ⟨AList.lookup_insert_ne other, rfl⟩

/-- A heartbeat of another key, or one that is not accepted, changes nothing for a key. -/
theorem Manager.handleHeartBeat_of_none (manager : Manager) {reception : Reception}
    (accepted : (Event.receive reception msg).beat? pk = none) :
    (manager.handleHeartBeat reception msg).cacheList.lookup pk = manager.cacheList.lookup pk ∧
      (manager.handleHeartBeat reception msg).whiteList.lookup pk = manager.whiteList.lookup pk := by
  by_cases same : msg.pk = pk
  · have refused : ¬ (reception.verifyDeposit = true ∧ reception.verifyMessage = true ∧
        isTimestampValid reception.now msg.timeStamp = true) := by
      intro passes
      rw [Event.beat?, if_pos ⟨same, passes⟩] at accepted
      exact absurd accepted (by simp)
    simp only [handleHeartBeat]
    split_ifs with deposit signed valid <;> simp_all
  · have other : pk ≠ msg.pk := Ne.symm same
    simp only [handleHeartBeat]
    repeat' split
    all_goals first
      | exact ⟨rfl, rfl⟩
      | exact ⟨rfl, AList.lookup_insert_ne other⟩
      | exact ⟨AList.lookup_insert_ne other, rfl⟩
      | exact manager.updateRecord_other _ other

/-- A step that accepts no heartbeat of a key leaves its record. It confirms only the
manager's own key, and drops only other keys. -/
theorem Manager.handle_of_none (manager : Manager) (accepted : event.beat? pk = none) :
    (manager.handle event).cacheList.lookup pk = manager.cacheList.lookup pk ∧
      ((manager.handle event).whiteList.lookup pk = manager.whiteList.lookup pk ∨
        pk = manager.pk ∧ (∃ now, event = .send now) ∧
          (manager.handle event).whiteList.lookup pk ≠ none ∨
        pk ≠ manager.pk ∧ (manager.handle event).whiteList.lookup pk = none) := by
  cases event with
  | receive reception msg =>
    obtain ⟨sameRecord, sameListed⟩ := manager.handleHeartBeat_of_none accepted
    exact ⟨sameRecord, Or.inl sameListed⟩
  | send now =>
    refine ⟨rfl, ?_⟩
    by_cases own : pk = manager.pk
    · refine Or.inr (Or.inl ⟨own, ⟨now, rfl⟩, ?_⟩)
      rw [handle, addMyself, own, AList.lookup_insert]
      exact Option.some_ne_none _
    · exact Or.inl (AList.lookup_insert_ne own)
  | removeExpired now =>
    refine ⟨rfl, ?_⟩
    cases after : (manager.handle (.removeExpired now)).whiteList.lookup pk with
    | some v =>
      refine Or.inl ?_
      exact (Table.lookup_keep_eq_some.mp after).2.symm
    | none =>
      by_cases own : pk = manager.pk
      · refine Or.inl ?_
        cases before : manager.whiteList.lookup pk with
        | none => rfl
        | some v =>
          have kept : (manager.handle (.removeExpired now)).whiteList.lookup pk = some v :=
            Table.lookup_keep_eq_some.mpr ⟨by simp [own], before⟩
          rw [after] at kept
          exact kept
      · exact Or.inr (Or.inr ⟨own, rfl⟩)

theorem Manager.pk_handle (manager : Manager) (event : Event) :
    (manager.handle event).pk = manager.pk := by
  cases event with
  | receive reception msg =>
    simp only [handle, handleHeartBeat, updateRecord]
    repeat' split
    all_goals rfl
  | send => rfl
  | removeExpired => rfl

/-! ### Runs -/

/-- A record stands for the last heartbeats of a key, from the first after the last gap. -/
structure Tracks (v : Recorder) (streak : List Beat) : Prop where
  unbroken : Unbroken streak
  first : streak.head?.map Beat.timeStamp = some v.firstReceiveTime
  last : streak.getLast?.map Beat.timeStamp = some v.lastReceiveTime

theorem tracks_singleton (beat : Beat) : Tracks ⟨beat.timeStamp, beat.timeStamp⟩ [beat] where
  unbroken := List.isChain_singleton beat
  first := rfl
  last := rfl

variable {streak : List Beat}

theorem Tracks.unbroken_append (tracks : Tracks v streak)
    (noGap : isLastHeartBeatExpired beat.timeStamp v.lastReceiveTime = false) :
    Unbroken (streak ++ [beat]) := by
  refine List.isChain_append.mpr ⟨tracks.unbroken, List.isChain_singleton beat, ?_⟩
  intro before isLast after isNext
  have isBeat : beat = after := by simpa using isNext
  have sameStamp := tracks.last
  rw [Option.mem_def.mp isLast, Option.map_some, Option.some.injEq] at sameStamp
  rw [← isBeat, sameStamp]
  exact noGap

theorem Tracks.append (tracks : Tracks v streak)
    (noGap : isLastHeartBeatExpired beat.timeStamp v.lastReceiveTime = false) :
    Tracks { v with lastReceiveTime := beat.timeStamp } (streak ++ [beat]) where
  unbroken := tracks.unbroken_append noGap
  first := by
    have isFirst := tracks.first
    cases streak with
    | nil => exact absurd isFirst (by simp)
    | cons head rest => exact isFirst
  last := by simp

/-- A record of a key that is not confirmed stands for its last heartbeats. Only the manager's
own key can be confirmed and have a record. -/
structure Manager.Recorded (manager : Manager) (events : List Event) : Prop where
  apart : ∀ pk, pk ≠ manager.pk → manager.whiteList.lookup pk ≠ none →
    manager.cacheList.lookup pk = none
  tracked : ∀ pk v, manager.whiteList.lookup pk = none → manager.cacheList.lookup pk = some v →
    ∃ earlier streak, beats pk events = earlier ++ streak ∧ Tracks v streak

variable {events : List Event}

theorem Manager.Recorded.apart_handle (recorded : manager.Recorded events) (event : Event)
    (pk : Bytes) (other : pk ≠ manager.pk)
    (listed : (manager.handle event).whiteList.lookup pk ≠ none) :
    (manager.handle event).cacheList.lookup pk = none := by
  cases accepted : event.beat? pk with
  | none =>
    obtain ⟨sameRecord, sameListed | ⟨own, -⟩ | ⟨-, dropped⟩⟩ := manager.handle_of_none accepted
    · rw [sameRecord]
      rw [sameListed] at listed
      exact recorded.apart pk other listed
    · exact absurd own other
    · exact absurd dropped listed
  | some beat =>
    cases manager.counts_handle accepted with
    | confirmed wasListed _ sameRecord =>
      rw [sameRecord]
      exact recorded.apart pk other wasListed
    | starts _ notListed => exact absurd notListed listed
    | continues _ _ _ _ _ stillNotListed => exact absurd stillNotListed listed
    | admitted _ _ _ _ _ record => exact record

theorem Manager.Recorded.tracked_handle (recorded : manager.Recorded events) (event : Event)
    (pk : Bytes) (v : Recorder) (notListed : (manager.handle event).whiteList.lookup pk = none)
    (found : (manager.handle event).cacheList.lookup pk = some v) :
    ∃ earlier streak, beats pk (events ++ [event]) = earlier ++ streak ∧ Tracks v streak := by
  rw [beats_append]
  cases accepted : event.beat? pk with
  | none =>
    rw [Option.toList_none, List.append_nil]
    obtain ⟨sameRecord, sameListed | ⟨-, -, listed⟩ | ⟨other, -⟩⟩ := manager.handle_of_none accepted
    · rw [sameRecord] at found
      rw [sameListed] at notListed
      exact recorded.tracked pk v notListed found
    · exact absurd notListed listed
    · -- A key that was dropped had no record while it was confirmed.
      rw [sameRecord] at found
      by_cases wasListed : manager.whiteList.lookup pk = none
      · exact recorded.tracked pk v wasListed found
      · rw [recorded.apart pk other wasListed] at found
        exact absurd found (by simp)
  | some beat =>
    cases manager.counts_handle accepted with
    | confirmed _ stillListed _ => exact absurd notListed stillListed
    | starts record _ =>
      rw [record] at found
      cases found
      exact ⟨beats pk events, [beat], rfl, tracks_singleton beat⟩
    | continues old wasNotListed before noGap record _ =>
      rw [record] at found
      cases found
      obtain ⟨earlier, streak, split, tracks⟩ := recorded.tracked pk old wasNotListed before
      refine ⟨earlier, streak ++ [beat], ?_, tracks.append noGap⟩
      rw [split, List.append_assoc]
      rfl
    | admitted _ _ _ _ _ record =>
      rw [record] at found
      exact absurd found (by simp)

theorem Manager.recorded_run (own : Bytes) (events : List Event) :
    ((new own).run events).pk = own ∧ ((new own).run events).Recorded events := by
  induction events using List.reverseRecOn with
  | nil =>
    refine ⟨rfl, ⟨fun _ _ _ => rfl, fun _ _ _ found => ?_⟩⟩
    exact absurd found (by simp [run, new])
  | append_singleton events event ih =>
    obtain ⟨samePk, recorded⟩ := ih
    rw [run_append_singleton]
    refine ⟨(pk_handle _ event).trans samePk, ⟨fun pk other => ?_, recorded.tracked_handle event⟩⟩
    rw [pk_handle] at other
    exact recorded.apart_handle event pk other

/-- If the timestamps of a key run no faster than the receiver's clock, the key is confirmed
only after it was online for long enough. The manager confirms itself when it sends. -/
theorem admitted_online (own : Bytes) (events : List Event) (event : Event) (pk : Bytes)
    (paced : Paced pk (events ++ [event]))
    (admits : ((Manager.new own).run events).Admits event pk) :
    Online pk (events ++ [event]) ∨ pk = own ∧ ∃ now, event = .send now := by
  obtain ⟨samePk, recorded⟩ := Manager.recorded_run own events
  obtain ⟨isNew, isListed⟩ := admits
  generalize (Manager.new own).run events = manager at *
  rw [Paced, beats_append] at paced
  rw [Online, beats_append]
  cases accepted : event.beat? pk with
  | none =>
    obtain ⟨-, sameListed | ⟨isOwn, isSend, -⟩ | ⟨-, dropped⟩⟩ := manager.handle_of_none accepted
    · rw [sameListed] at isListed
      exact absurd isNew isListed
    · exact Or.inr ⟨isOwn.trans samePk, isSend⟩
    · exact absurd dropped isListed
  | some beat =>
    rw [accepted] at paced
    cases manager.counts_handle accepted with
    | confirmed wasListed _ _ => exact absurd isNew wasListed
    | starts _ notListed => exact absurd notListed isListed
    | continues _ _ _ _ _ stillNotListed => exact absurd stillNotListed isListed
    | admitted v wasNotListed before noGap enough _ =>
      obtain ⟨earlier, streak, split, tracks⟩ := recorded.tracked pk v wasNotListed before
      have unbroken := tracks.unbroken_append noGap
      have isFirst := tracks.first
      cases streak with
      | nil => exact absurd isFirst (by simp)
      | cons first between =>
        refine Or.inl ⟨earlier, first, between, beat, ?_, unbroken, ?_⟩
        · rw [split, List.append_assoc]
          rfl
        · have apart := (List.pairwise_append.mp paced).2.2 first (by simp [split]) beat (by simp)
          simp only [List.head?_cons, Option.map_some, Option.some.injEq] at isFirst
          rw [isFirst] at apart
          exact le_trans enough apart

/-- A heartbeat that passes the checks of the deposit and the signature. -/
def heard (now timeStamp : Timestamp) : Event :=
  .receive ⟨now, true, true⟩ ⟨[1], timeStamp, [], []⟩

/-- Beats that are far enough apart. -/
theorem admitted_online_after_three_minutes :
    Paced [1] ([heard 1000 1000, heard 1100 1090] ++ [heard 1200 1180]) ∧
      ((Manager.new [9]).run [heard 1000 1000, heard 1100 1090]).Admits (heard 1200 1180) [1] ∧
      Online [1] ([heard 1000 1000, heard 1100 1090] ++ [heard 1200 1180]) := by
  have paced : Paced [1] ([heard 1000 1000, heard 1100 1090] ++ [heard 1200 1180]) := by
    unfold Paced
    decide
  have admits :
      ((Manager.new [9]).run [heard 1000 1000, heard 1100 1090]).Admits (heard 1200 1180) [1] := by
    unfold Manager.Admits
    decide
  refine ⟨paced, admits, (admitted_online [9] _ _ [1] paced admits).resolve_right ?_⟩
  rintro ⟨isOwn, -⟩
  exact absurd isOwn (by decide)

/-- Three heartbeats that arrive in one second confirm a key: their timestamps lie within the
accepted deviation and 200 seconds apart. -/
theorem admitted_within_a_second :
    ((Manager.new [9]).run [heard 1000 900, heard 1000 1000]).Admits (heard 1000 1100) [1] ∧
      ¬ Online [1] ([heard 1000 900, heard 1000 1000] ++ [heard 1000 1100]) := by
  refine ⟨by unfold Manager.Admits; decide, ?_⟩
  rintro ⟨earlier, first, between, last, split, -, longEnough⟩
  have allNow : ∀ beat ∈ beats [1] ([heard 1000 900, heard 1000 1000] ++ [heard 1000 1100]),
      beat.now = 1000 := by
    decide
  have firstNow := allNow first (by rw [split]; simp)
  have lastNow := allNow last (by rw [split]; simp)
  rw [firstNow, lastNow] at longEnough
  exact absurd longEnough (by decide)

end MultiVac.Heartbeat
