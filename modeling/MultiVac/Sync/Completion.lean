import MultiVac.Sync.Worker

/-!
# What a completed sync has fetched

A sync is reported complete with data when the sets of missing hashes get empty. The sets
are those of the last inventory only if no later group of the inventory replaces an earlier
one and no hash is missing when a stale sync is started again.
-/

namespace MultiVac.Sync

open Wire
open Lib (Table)

/-! ### What the log says -/

/-- A header hash is listed in the group of its shard. -/
def Listed (groups : List InvGroup) (shard : ShardIndex) (hash : Hash) : Prop :=
  ∃ group ∈ groups, group.shard = shard ∧ hash ∈ group.headerHashes

/-- The last inventory that answers the current sync request with what happened since, after
one more entry of the log. -/
def track (answer : Option (List InvGroup × List Entry)) (entry : Entry) :
    Option (List InvGroup × List Entry) :=
  match entry with
  | .inventory groups => some (groups, [])
  | .received _ _ => answer.map fun (groups, since) => (groups, since ++ [entry])
  | .sent _ (.getData _ _) => answer.map fun (groups, since) => (groups, since ++ [entry])
  -- A new request, and the start and the end of a sync, make earlier inventories obsolete.
  | .sent _ (.syncReq _ _) => none
  | .published _ => none

variable (log : List Entry)

/-- The last inventory that answers the current sync request, with what happened since. -/
def answer : Option (List InvGroup × List Entry) :=
  log.foldl track none

/-- Every hash of the last inventory has been received since. -/
def Fetched : Prop :=
  ∃ groups since, answer log = some (groups, since) ∧ (∃ shard hash, Listed groups shard hash) ∧
    ∀ shard hash, Listed groups shard hash → .received shard hash ∈ since

/-- Every hash of the last inventory has been requested from a peer since. -/
def Requested : Prop :=
  ∀ groups since, answer log = some (groups, since) → ∀ shard hash, Listed groups shard hash →
    ∃ peer reqShardIdx asked, .sent peer (.getData reqShardIdx asked) ∈ since ∧
      Listed asked shard hash

/-- At every point of a log, the next entry reports a sync with data exactly when every hash
has been received, and then all of them were requested. -/
def ExactlyReported : Prop :=
  ∀ past entry rest, log = past ++ entry :: rest →
    (entry = .published (.syncComplete true) ↔ Fetched past) ∧
      (entry = .published (.syncComplete true) → Requested past)

theorem answer_append (entry : Entry) : answer (log ++ [entry]) = track (answer log) entry := by
  rw [answer, List.foldl_append]
  rfl

variable {log : List Entry} {entry : Entry}

theorem ExactlyReported.append (exactly : ExactlyReported log)
    (reported : entry = .published (.syncComplete true) ↔ Fetched log)
    (requested : entry = .published (.syncComplete true) → Requested log) :
    ExactlyReported (log ++ [entry]) := by
  intro past next rest isSplit
  rcases List.eq_nil_or_concat rest with rfl | ⟨front, last, rfl⟩
  · obtain ⟨rfl, same⟩ := List.append_inj' isSplit rfl
    obtain rfl := List.head_eq_of_cons_eq same
    exact ⟨reported, requested⟩
  · have isSplit : log ++ [entry] = (past ++ next :: front) ++ [last] := by
      rw [isSplit]
      simp
    obtain ⟨rfl, -⟩ := List.append_inj' isSplit rfl
    exact exactly past next front rfl

/-- An entry that reports nothing, while something is missing. -/
theorem ExactlyReported.append_other (exactly : ExactlyReported log) (missing : ¬ Fetched log)
    (isOther : entry ≠ .published (.syncComplete true)) : ExactlyReported (log ++ [entry]) :=
  exactly.append ⟨fun same => absurd same isOther, fun fetched => absurd fetched missing⟩
    fun same => absurd same isOther

theorem not_fetched_of_none (noAnswer : answer log = none) : ¬ Fetched log := by
  rintro ⟨groups, since, isAnswer, -⟩
  rw [noAnswer] at isAnswer
  cases isAnswer

variable {groups : List InvGroup} {shard : ShardIndex} {hash : Hash}

theorem Fetched.received (fetched : Fetched log) {since : List Entry}
    (isAnswer : answer log = some (groups, since))
    (isListed : Listed groups shard hash) : .received shard hash ∈ since := by
  obtain ⟨others, later, isOther, -, allReceived⟩ := fetched
  obtain ⟨rfl, rfl⟩ := Prod.mk.inj (Option.some.inj (isAnswer.symm.trans isOther))
  exact allReceived shard hash isListed

theorem requested_of_none (noAnswer : answer log = none) : Requested log := by
  intro groups since isAnswer
  rw [noAnswer] at isAnswer
  cases isAnswer

/-- An entry that belongs to the fetch of the last inventory. -/
def Entry.Keeps (entry : Entry) : Prop :=
  ∀ answer, track answer entry = answer.map fun (groups, since) => (groups, since ++ [entry])

theorem keeps_received (shard : ShardIndex) (hash : Hash) : (Entry.received shard hash).Keeps :=
  fun _ => rfl

theorem keeps_getData (peer : ConnPeer) (reqShardIdx : ShardIndex) (groups : List InvGroup) :
    (Entry.sent peer (.getData reqShardIdx groups)).Keeps :=
  fun _ => rfl

theorem Entry.Keeps.answer_eq_some (keeps : entry.Keeps) {later : List Entry} :
    answer (log ++ [entry]) = some (groups, later) ↔
      ∃ since, answer log = some (groups, since) ∧ later = since ++ [entry] := by
  rw [answer_append, keeps]
  constructor
  · intro isLater
    obtain ⟨⟨earlier, since⟩, isAnswer, same⟩ := Option.map_eq_some_iff.mp isLater
    obtain ⟨rfl, rfl⟩ := Prod.mk.inj same
    exact ⟨since, isAnswer, rfl⟩
  · rintro ⟨since, isAnswer, rfl⟩
    rw [isAnswer]
    rfl

theorem Entry.Keeps.requested (keeps : entry.Keeps)
    (requested : Requested log) : Requested (log ++ [entry]) := by
  intro groups later isLater shard hash isListed
  obtain ⟨since, isAnswer, rfl⟩ := keeps.answer_eq_some.mp isLater
  obtain ⟨peer, reqShardIdx, asked, isSent, isAsked⟩ := requested groups since isAnswer shard hash isListed
  exact ⟨peer, reqShardIdx, asked, List.mem_append_left _ isSent, isAsked⟩

/-! ### The sets of missing hashes -/

/-- A hash is in one of the sets. -/
def Missing (invs : Table ShardIndex HashSet) (shard : ShardIndex) (hash : Hash) : Prop :=
  ∃ set, invs.lookup shard = some set ∧ HashSet.contains set hash = true

/-- No later group of an inventory takes away what an earlier one of its shard lists. -/
def Covering (groups : List InvGroup) : Prop :=
  groups.Pairwise fun earlier later =>
    earlier.shard = later.shard → later.headerHashes ≠ [] →
      ∀ hash ∈ earlier.headerHashes, hash ∈ later.headerHashes

theorem contains_ofHashes (hashes : List Hash) (hash : Hash) :
    HashSet.contains (HashSet.ofHashes hashes) hash = true ↔ hash ∈ hashes := by
  have added : ∀ (set : HashSet), HashSet.contains
      (hashes.foldl (fun set hash => set.insert hash ()) set) hash = true ↔
        HashSet.contains set hash = true ∨ hash ∈ hashes := by
    induction hashes with
    | nil => simp
    | cons first others ih =>
      intro set
      rw [List.foldl_cons, ih, List.mem_cons]
      by_cases same : hash = first
      · subst same
        simp [HashSet.contains]
      · simp [HashSet.contains, AList.lookup_insert_ne same, same]
  rw [HashSet.ofHashes, added]
  simp [HashSet.contains]

theorem missing_insert (invs : Table ShardIndex HashSet) (changed : ShardIndex) (set : HashSet)
    (shard : ShardIndex) (hash : Hash) :
    Missing (invs.insert changed set) shard hash ↔
      if shard = changed then HashSet.contains set hash = true else Missing invs shard hash := by
  unfold Missing
  split
  · next same =>
    subst same
    simp
  · next differs => simp [AList.lookup_insert_ne differs]

theorem missing_collect (covering : Covering groups) (shard : ShardIndex)
    (hash : Hash) : Missing (Worker.collect groups) shard hash ↔ Listed groups shard hash := by
  induction groups using List.reverseRecOn with
  | nil => simp [Missing, Listed, Worker.collect]
  | append_singleton groups group ih =>
    obtain ⟨coveringFront, -, covers⟩ := List.pairwise_append.mp covering
    have front := ih coveringFront
    have listed : Listed (groups ++ [group]) shard hash ↔
        Listed groups shard hash ∨ group.shard = shard ∧ hash ∈ group.headerHashes := by
      simp [Listed, or_and_right, exists_or]
    rw [listed, Worker.collect, List.foldl_append]
    simp only [List.foldl_cons, List.foldl_nil]
    rw [← Worker.collect]
    split
    · next isEmpty =>
      rw [front, List.isEmpty_iff.mp isEmpty]
      simp
    · next hasHashes =>
      rw [missing_insert, contains_ofHashes]
      split
      · next same =>
        refine ⟨fun isMember => Or.inr ⟨same.symm, isMember⟩, ?_⟩
        rintro (⟨earlier, isMember, sameShard, inEarlier⟩ | ⟨-, isMember⟩)
        · exact covers earlier isMember group List.mem_cons_self (sameShard.trans same)
            (fun isNil => hasHashes (List.isEmpty_iff.mpr isNil)) hash inEarlier
        · exact isMember
      · next differs =>
        rw [front]
        exact ⟨Or.inl, fun either => either.elim id fun own => absurd own.1.symm differs⟩

variable {invs : Table ShardIndex HashSet} {set : HashSet}

theorem missing_strike {header : SyncHeader} (found : invs.lookup header.shardIndex = some set)
    (shard : ShardIndex) (hash : Hash) :
    Missing (Worker.strike invs header set) shard hash ↔
      Missing invs shard hash ∧ ¬ (shard = header.shardIndex ∧ hash = header.hash) := by
  have erased : HashSet.contains (set.erase header.hash) hash = true ↔
      HashSet.contains set hash = true ∧ hash ≠ header.hash := by
    by_cases same : hash = header.hash
    · subst same
      simp [HashSet.contains]
    · simp [HashSet.contains, AList.lookup_erase_ne same, same]
  by_cases own : shard = header.shardIndex
  · subst own
    have before : Missing invs header.shardIndex hash ↔ HashSet.contains set hash = true := by
      simp [Missing, found]
    rw [before, Worker.strike]
    split
    · next noKeys =>
      have gone : ¬ HashSet.contains (set.erase header.hash) hash = true := by
        intro isMember
        have inKeys := AList.mem_keys.mp (AList.lookup_isSome.mp isMember)
        rw [List.length_eq_zero_iff.mp noKeys] at inKeys
        cases inKeys
      rw [erased] at gone
      simp only [Missing, AList.lookup_erase, reduceCtorEq, false_and, exists_false, true_and,
        false_iff]
      exact gone
    · rw [missing_insert, if_pos rfl, erased]
      simp
  · have sameElsewhere : Missing (Worker.strike invs header set) shard hash ↔
        Missing invs shard hash := by
      unfold Worker.strike Missing
      split
      · rw [AList.lookup_erase_ne own]
      · rw [AList.lookup_insert_ne own]
    rw [sameElsewhere]
    simp [own]

/-- No set of missing hashes is empty. -/
def NoEmptySet (invs : Table ShardIndex HashSet) : Prop :=
  ∀ shard set, invs.lookup shard = some set → ∃ hash, Missing invs shard hash

theorem lookup_eq_none_of_no_keys (noKeys : invs.keys.length = 0)
    (shard : ShardIndex) : invs.lookup shard = none := by
  refine AList.lookup_eq_none.mpr fun isMember => ?_
  have inKeys := AList.mem_keys.mp isMember
  rw [List.length_eq_zero_iff.mp noKeys] at inKeys
  cases inKeys

theorem length_keys_eq_zero_iff (noEmptySet : NoEmptySet invs) :
    invs.keys.length = 0 ↔ ∀ shard hash, ¬ Missing invs shard hash := by
  constructor
  · rintro noKeys shard hash ⟨set, found, -⟩
    rw [lookup_eq_none_of_no_keys noKeys] at found
    cases found
  · intro nothing
    by_contra hasKeys
    obtain ⟨shard, inKeys⟩ := List.exists_mem_of_ne_nil _
      (List.ne_nil_of_length_pos (Nat.pos_of_ne_zero hasKeys))
    obtain ⟨set, found⟩ := Option.isSome_iff_exists.mp
      (AList.lookup_isSome.mpr (AList.mem_keys.mpr inKeys))
    obtain ⟨hash, isMissing⟩ := noEmptySet shard set found
    exact nothing shard hash isMissing

theorem NoEmptySet.insert (noEmptySet : NoEmptySet invs)
    (hasHash : ∃ hash, HashSet.contains set hash = true)
    (changed : ShardIndex) : NoEmptySet (invs.insert changed set) := by
  intro shard found isFound
  by_cases same : shard = changed
  · obtain ⟨hash, isMember⟩ := hasHash
    exact ⟨hash, (missing_insert ..).mpr (by rwa [if_pos same])⟩
  · rw [AList.lookup_insert_ne same] at isFound
    obtain ⟨hash, isMissing⟩ := noEmptySet shard found isFound
    exact ⟨hash, (missing_insert ..).mpr (by rwa [if_neg same])⟩

theorem noEmptySet_collect (groups : List InvGroup) : NoEmptySet (Worker.collect groups) := by
  refine List.foldlRecOn groups _ (by exact nofun) fun invs noEmptySet group _ => ?_
  split
  · exact noEmptySet
  · next hasHashes =>
    obtain ⟨hash, isMember⟩ := List.exists_mem_of_ne_nil group.headerHashes
      fun isNil => hasHashes (List.isEmpty_iff.mpr isNil)
    exact noEmptySet.insert ⟨hash, (contains_ofHashes _ _).mpr isMember⟩ group.shard

theorem NoEmptySet.strike (noEmptySet : NoEmptySet invs) (header : SyncHeader)
    (set : HashSet) : NoEmptySet (Worker.strike invs header set) := by
  unfold Worker.strike
  split
  · intro shard found isFound
    by_cases same : shard = header.shardIndex
    · rw [same, AList.lookup_erase] at isFound
      cases isFound
    · rw [AList.lookup_erase_ne same] at isFound
      obtain ⟨hash, other, isOther, isMember⟩ := noEmptySet shard found isFound
      exact ⟨hash, other, by rwa [AList.lookup_erase_ne same], isMember⟩
  · next hasKeys =>
    obtain ⟨hash, inKeys⟩ := List.exists_mem_of_length_pos (Nat.pos_of_ne_zero hasKeys)
    exact noEmptySet.insert ⟨hash, AList.lookup_isSome.mpr (AList.mem_keys.mpr inKeys)⟩ _

theorem listed_missingGroups (worker : Worker) (around : Surroundings)
    (isMissing : Missing worker.curInvs shard hash) :
    Listed (worker.missingGroups around) shard hash := by
  obtain ⟨set, found, isMember⟩ := isMissing
  refine ⟨{ shard, headerHashes := around.order.visit set.keys }, List.mem_map.mpr ?_, rfl, ?_⟩
  · exact ⟨⟨shard, set⟩, (around.order.visit_perm _).mem_iff.mpr (AList.mem_lookup_iff.mp found), rfl⟩
  · exact (around.order.visit_perm _).mem_iff.mpr (AList.mem_keys.mp (AList.lookup_isSome.mp isMember))

/-! ### The invariant -/

namespace Worker

/-- The sets of a worker are what its log says is missing. -/
structure Tracked (worker : Worker) : Prop where
  reported : ExactlyReported worker.log
  unfetched : ¬ Fetched worker.log
  requested : Requested worker.log
  missing : ∀ shard hash, Missing worker.curInvs shard hash ↔
    ∃ groups since, answer worker.log = some (groups, since) ∧ Listed groups shard hash ∧
      .received shard hash ∉ since
  noEmptySet : NoEmptySet worker.curInvs
  idle : worker.status = .idle → answer worker.log = none

/-- Only the log, the sets and the status matter. -/
theorem Tracked.of_eq {worker other : Worker} (tracked : worker.Tracked)
    (sameLog : other.log = worker.log) (sameInvs : other.curInvs = worker.curInvs)
    (sameStatus : other.status = worker.status) : other.Tracked where
  reported := by rw [sameLog]; exact tracked.reported
  unfetched := by rw [sameLog]; exact tracked.unfetched
  requested := by rw [sameLog]; exact tracked.requested
  missing := by rw [sameLog, sameInvs]; exact tracked.missing
  noEmptySet := by rw [sameInvs]; exact tracked.noEmptySet
  idle := by rw [sameLog, sameStatus]; exact tracked.idle

variable {worker : Worker}

/-- Nothing is missing and no inventory is pending. -/
theorem tracked_of_none (reported : ExactlyReported worker.log)
    (noAnswer : answer worker.log = none)
    (noKeys : ∀ shard, worker.curInvs.lookup shard = none) : worker.Tracked where
  reported := reported
  unfetched := not_fetched_of_none noAnswer
  requested := requested_of_none noAnswer
  missing := by
    intro shard hash
    simp [Missing, noAnswer, noKeys]
  noEmptySet := by
    intro shard set found
    rw [noKeys] at found
    cases found
  idle := fun _ => noAnswer

/-- The end of a running sync. -/
theorem tracked_ended (reported : ExactlyReported worker.log)
    (isRunning : worker.managerStatus = .running) {notice : Notice}
    (isReport : Entry.published notice = .published (.syncComplete true) ↔ Fetched worker.log)
    (requested : Entry.published notice = .published (.syncComplete true) → Requested worker.log) :
    (worker.reset.notifyEnd notice).Tracked := by
  unfold notifyEnd
  rw [if_pos (by exact isRunning)]
  refine tracked_of_none (reported.append isReport requested) ?_ fun _ => rfl
  exact answer_append worker.log (.published notice)

namespace Tracked

variable {worker : Worker} {entry : Entry}
  {peer : SyncPeer} {around : Surroundings} {after : Worker}

section

variable (tracked : worker.Tracked)
include tracked

/-- The end of a sync that is not reported as one with data. -/
theorem ended (agrees : worker.managerStatus = worker.status) {notice : Notice}
    (isOther : notice ≠ .syncComplete true) : (worker.reset.notifyEnd notice).Tracked := by
  have notReported : Entry.published notice ≠ .published (.syncComplete true) :=
    fun same => isOther (Entry.published.inj same)
  cases isStatus : worker.managerStatus with
  | running =>
    refine tracked_ended tracked.reported isStatus ?_ fun same => absurd same notReported
    exact ⟨fun same => absurd same notReported, fun fetched => absurd fetched tracked.unfetched⟩
  | idle =>
    unfold notifyEnd
    rw [if_neg (by rw [reset, isStatus]; exact nofun)]
    exact tracked_of_none tracked.reported (tracked.idle (agrees.symm.trans isStatus)) fun _ => rfl

/-- What is missing after an entry that belongs to the fetch. -/
theorem missing_kept (keeps : entry.Keeps) (shard : ShardIndex) (hash : Hash) :
    (∃ groups since, answer (worker.log ++ [entry]) = some (groups, since) ∧
        Listed groups shard hash ∧ .received shard hash ∉ since) ↔
      Missing worker.curInvs shard hash ∧ .received shard hash ≠ entry := by
  rw [tracked.missing]
  constructor
  · rintro ⟨groups, later, isLater, isListed, notReceived⟩
    obtain ⟨since, isAnswer, rfl⟩ := keeps.answer_eq_some.mp isLater
    rw [List.mem_append, List.mem_singleton, not_or] at notReceived
    exact ⟨⟨groups, since, isAnswer, isListed, notReceived.1⟩, notReceived.2⟩
  · rintro ⟨⟨groups, since, isAnswer, isListed, notReceived⟩, isOther⟩
    refine ⟨groups, since ++ [entry], keeps.answer_eq_some.mpr ⟨since, isAnswer, rfl⟩, isListed, ?_⟩
    rw [List.mem_append, List.mem_singleton, not_or]
    exact ⟨notReceived, isOther⟩

/-- An entry that belongs to the fetch and is not the arrival of a missing header. -/
theorem kept (keeps : entry.Keeps) (isOther : entry ≠ .published (.syncComplete true))
    (notMissing : ∀ shard hash, entry = .received shard hash →
      ¬ Missing worker.curInvs shard hash) :
    (worker.record [entry]).Tracked := by
  have sameMissing : ∀ shard hash, Missing worker.curInvs shard hash →
      Entry.received shard hash ≠ entry :=
    fun shard hash isMissing same => notMissing shard hash same.symm isMissing
  refine ⟨tracked.reported.append_other tracked.unfetched isOther, ?_,
    keeps.requested tracked.requested, ?_, tracked.noEmptySet, ?_⟩
  · rintro ⟨groups, later, isLater, listsSome, allReceived⟩
    obtain ⟨since, isAnswer, rfl⟩ := keeps.answer_eq_some.mp isLater
    refine tracked.unfetched ⟨groups, since, isAnswer, listsSome, fun shard hash isListed => ?_⟩
    by_contra notReceived
    have isMissing := (tracked.missing shard hash).mpr ⟨groups, since, isAnswer, isListed, notReceived⟩
    rcases List.mem_append.mp (allReceived shard hash isListed) with inSince | isLast
    · exact notReceived inSince
    · exact sameMissing shard hash isMissing (List.mem_singleton.mp isLast)
  · intro shard hash
    refine Iff.trans ?_ (tracked.missing_kept keeps shard hash).symm
    exact ⟨fun isMissing => ⟨isMissing, sameMissing shard hash isMissing⟩, And.left⟩
  · intro isIdle
    change answer (worker.log ++ [entry]) = none
    rw [answer_append, keeps, tracked.idle isIdle]
    rfl

/-- Something is missing only while a sync runs. -/
theorem running_of_missing
    (isMissing : Missing worker.curInvs shard hash) : worker.status = .running := by
  obtain ⟨groups, since, isAnswer, -⟩ := (tracked.missing shard hash).mp isMissing
  cases isStatus : worker.status with
  | running => rfl
  | idle =>
    rw [tracked.idle isStatus] at isAnswer
    cases isAnswer

/-- The arrival of a missing header. -/
theorem received_missing (agrees : worker.managerStatus = worker.status) {header : SyncHeader}
    (found : worker.curInvs.lookup header.shardIndex = some set)
    (isMember : HashSet.contains set header.hash = true) :
    (let taken := { worker.record [.received header.shardIndex header.hash] with
        curInvs := strike worker.curInvs header set }
      if taken.curInvs.keys.length = 0 then taken.markSyncStop true else taken).Tracked := by
  have keeps := keeps_received header.shardIndex header.hash
  have isMissing : Missing worker.curInvs header.shardIndex header.hash := ⟨set, found, isMember⟩
  have reported := tracked.reported.append_other tracked.unfetched
    (nofun : Entry.received header.shardIndex header.hash ≠ .published (.syncComplete true))
  have requested := keeps.requested tracked.requested
  have missing : ∀ shard hash, Missing (strike worker.curInvs header set) shard hash ↔
      ∃ groups since, answer (worker.log ++ [.received header.shardIndex header.hash]) =
        some (groups, since) ∧ Listed groups shard hash ∧ .received shard hash ∉ since := by
    intro shard hash
    rw [missing_strike found, tracked.missing_kept keeps, Ne, Entry.received.injEq]
  have noEmptySet := tracked.noEmptySet.strike header set
  dsimp only
  split
  · next noKeys =>
    have nothing := (length_keys_eq_zero_iff noEmptySet).mp noKeys
    refine @tracked_ended
      { worker.record [.received header.shardIndex header.hash] with
        curInvs := strike worker.curInvs header set }
      reported (agrees.trans (tracked.running_of_missing isMissing)) _ ?_ fun _ => requested
    obtain ⟨groups, since, isAnswer, isListed, -⟩ := (tracked.missing _ _).mp isMissing
    refine iff_of_true rfl ⟨groups, _, keeps.answer_eq_some.mpr ⟨since, isAnswer, rfl⟩,
      ⟨_, _, isListed⟩, fun shard hash isListed => ?_⟩
    by_contra notReceived
    exact nothing shard hash ((missing shard hash).mpr
      ⟨groups, _, keeps.answer_eq_some.mpr ⟨since, isAnswer, rfl⟩, isListed, notReceived⟩)
  · next hasKeys =>
    refine ⟨reported, ?_, requested, missing, noEmptySet, ?_⟩
    · rintro ⟨groups, since, isAnswer, -, allReceived⟩
      refine hasKeys ((length_keys_eq_zero_iff noEmptySet).mpr fun shard hash stillMissing => ?_)
      obtain ⟨others, later, isLater, isListed, notReceived⟩ := (missing shard hash).mp stillMissing
      obtain ⟨rfl, rfl⟩ := Prod.mk.inj (Option.some.inj (isAnswer.symm.trans isLater))
      exact notReceived (allReceived shard hash isListed)
    · intro isIdle
      have isRunning := tracked.running_of_missing isMissing
      cases isRunning.symm.trans isIdle

theorem recHeader (agrees : worker.managerStatus = worker.status)
    (header : SyncHeader) : (worker.recHeader header).Tracked := by
  have keeps := keeps_received header.shardIndex header.hash
  have unaffected : ¬ Missing worker.curInvs header.shardIndex header.hash →
      (worker.record [.received header.shardIndex header.hash]).Tracked := by
    intro notMissing
    refine tracked.kept keeps nofun fun shard hash same => ?_
    obtain ⟨rfl, rfl⟩ := Entry.received.inj same
    exact notMissing
  unfold Worker.recHeader
  dsimp only
  split
  · next noSet =>
    refine unaffected ?_
    rintro ⟨set, found, -⟩
    cases noSet.symm.trans found
  · next set found =>
    split
    · next isMember => exact tracked.received_missing agrees found isMember
    · next notMember =>
      refine unaffected ?_
      rintro ⟨other, foundOther, isMember⟩
      obtain rfl := Option.some.inj (found.symm.trans foundOther)
      exact notMember isMember

/-- An inventory, while a sync runs. -/
theorem recInvFullList (agrees : worker.managerStatus = worker.status)
    (isRunning : worker.status = .running) (isCurrent : worker.peerMgr.curSyncPeer = some peer)
    (covering : Covering groups)
    (ran : worker.recInvFullList around groups = .ok after) : after.Tracked := by
  have reported : ExactlyReported (worker.log ++ [.inventory groups]) :=
    tracked.reported.append_other tracked.unfetched nofun
  have isAnswer : answer (worker.log ++ [.inventory groups]) = some (groups, []) :=
    answer_append worker.log (.inventory groups)
  have unfetched : ¬ Fetched (worker.log ++ [.inventory groups]) := by
    rintro ⟨others, since, isOther, ⟨shard, hash, isListed⟩, allReceived⟩
    obtain ⟨rfl, rfl⟩ := Prod.mk.inj (Option.some.inj (isAnswer.symm.trans isOther))
    cases allReceived shard hash isListed
  unfold Worker.recInvFullList at ran
  dsimp only at ran
  split at ran
  · rw [reqFetchData, sendMsg_of_current (by exact isCurrent)] at ran
    obtain rfl := Except.ok.inj ran
    have isLater : ∀ {others later}, answer ((worker.log ++ [.inventory groups]) ++
        [.sent peer.cp (.getData worker.shardIdx
          ((({ worker with curInvs := collect groups } : Worker).record
            [.inventory groups]).missingGroups around))]) = some (others, later) ↔
          others = groups ∧ later = [.sent peer.cp (.getData worker.shardIdx
            ((({ worker with curInvs := collect groups } : Worker).record
              [.inventory groups]).missingGroups around))] := by
      intro others later
      rw [(keeps_getData _ _ _).answer_eq_some, isAnswer]
      simp [eq_comm]
    refine ⟨reported.append_other unfetched nofun, ?_, ?_, ?_, noEmptySet_collect groups, ?_⟩
    · rintro ⟨others, later, isOther, ⟨shard, hash, isListed⟩, allReceived⟩
      obtain ⟨rfl, rfl⟩ := isLater.mp isOther
      simpa using allReceived shard hash isListed
    · intro others later isOther shard hash isListed
      obtain ⟨rfl, rfl⟩ := isLater.mp isOther
      refine ⟨_, _, _, List.mem_singleton_self _, ?_⟩
      exact listed_missingGroups _ around ((missing_collect covering shard hash).mpr isListed)
    · intro shard hash
      refine (missing_collect covering shard hash).trans ⟨fun isListed => ?_, ?_⟩
      · exact ⟨groups, _, isLater.mpr ⟨rfl, rfl⟩, isListed, by simp⟩
      · rintro ⟨others, later, isOther, isListed, -⟩
        obtain ⟨rfl, -⟩ := isLater.mp isOther
        exact isListed
    · intro isIdle
      cases isRunning.symm.trans isIdle
  · obtain rfl := Except.ok.inj ran
    refine @tracked_ended (({ worker with curInvs := collect groups } : Worker).record
      [.inventory groups]) reported (agrees.trans isRunning) _ ?_ nofun
    exact ⟨nofun, fun fetched => absurd fetched unfetched⟩

/-- A sync request, while nothing is missing. -/
theorem makeSyncReq (noKeys : worker.curInvs.keys.length = 0)
    (isCurrent : worker.peerMgr.curSyncPeer = some peer)
    (ran : worker.makeSyncReq around = .ok after) : after.Tracked := by
  obtain ⟨reqShardIdx, locators, isRequest⟩ : ∃ reqShardIdx locators,
      worker.createSyncReq around = .syncReq reqShardIdx locators := by
    unfold createSyncReq
    cases worker.nodeType <;> exact ⟨_, _, rfl⟩
  rw [Worker.makeSyncReq, sendMsg_of_current isCurrent, isRequest] at ran
  obtain rfl := Except.ok.inj ran
  refine tracked_of_none (tracked.reported.append_other tracked.unfetched nofun) ?_ fun shard => ?_
  · exact answer_append worker.log (.sent peer.cp (.syncReq reqShardIdx locators))
  · exact lookup_eq_none_of_no_keys noKeys shard

theorem markSyncStart (noKeys : worker.curInvs.keys.length = 0)
    (now : Int) : (worker.markSyncStart now).Tracked := by
  unfold Worker.markSyncStart notifySyncStart
  split
  · refine tracked_of_none (tracked.reported.append_other tracked.unfetched nofun) ?_
      (lookup_eq_none_of_no_keys noKeys)
    exact answer_append worker.log (.published .syncStart)
  · exact ⟨tracked.reported, tracked.unfetched, tracked.requested, tracked.missing,
      tracked.noEmptySet, nofun⟩

theorem handleSyncReq (around : Surroundings)
    (fresh : worker.status = .running → worker.isSyncStale around.now = true →
      worker.curInvs.keys.length = 0)
    (ran : worker.handleSyncReq around = .ok after) : after.Tracked := by
  have chosen : (worker.choose around).Tracked := tracked.of_eq rfl rfl rfl
  unfold Worker.handleSyncReq at ran
  split at ran
  · next starts =>
    have noKeys : worker.curInvs.keys.length = 0 := by
      cases isStatus : worker.status with
      | idle =>
        refine (length_keys_eq_zero_iff tracked.noEmptySet).mpr fun shard hash isMissing => ?_
        cases isStatus.symm.trans (tracked.running_of_missing isMissing)
      | running => exact fresh isStatus (by simpa [isStatus] using starts)
    dsimp only at ran
    split at ran
    · next hasPeer =>
      obtain ⟨peer, isCurrent⟩ := Option.isSome_iff_exists.mp hasPeer
      have isCurrentThen : ((worker.choose around).markSyncStart around.now).peerMgr.curSyncPeer =
          some peer := by
        rwa [markSyncStart_peerMgr]
      refine (chosen.markSyncStart noKeys around.now).makeSyncReq ?_ isCurrentThen ran
      rwa [markSyncStart_curInvs]
    · obtain rfl := Except.ok.inj ran
      exact chosen
  · obtain rfl := Except.ok.inj ran
    exact tracked

theorem syncPeerRemoved (agrees : worker.managerStatus = worker.status)
    (ran : worker.syncPeerRemoved around = .ok after) : after.Tracked := by
  have chosen : (worker.choose around).Tracked := tracked.of_eq rfl rfl rfl
  unfold Worker.syncPeerRemoved at ran
  split at ran
  · obtain rfl := Except.ok.inj ran
    exact tracked
  · dsimp only at ran
    split at ran
    · next hasPeer =>
      obtain ⟨peer, isCurrent⟩ := Option.isSome_iff_exists.mp hasPeer
      split at ran
      · rw [reqFetchData, sendMsg_of_current isCurrent] at ran
        obtain rfl := Except.ok.inj ran
        exact chosen.kept (keeps_getData _ _ _) nofun nofun
      · next noKeys => exact chosen.makeSyncReq (not_not.mp noKeys) isCurrent ran
    · obtain rfl := Except.ok.inj ran
      exact chosen.ended agrees nofun

end

end Tracked

/-- The event asks the worker to sync. -/
def Event.Asks : Event → Prop
  | .syncReq => True
  | .addPeer cp _ => cp.inbound = false
  | _ => False

/-- An inventory that is taken up lists no hash that a later group of the shard takes away, and
a stale sync is started again only when nothing is missing. -/
structure Met (worker : Worker) (around : Surroundings) (event : Event) : Prop where
  covering : ∀ groups, event = .syncInv syncInvTypeFullList groups → worker.status = .running →
    Covering groups
  fresh : event.Asks → worker.status = .running → worker.isSyncStale around.now = true →
    worker.curInvs.keys.length = 0

theorem Tracked.handleSyncHeaders (tracked : worker.Tracked) (invariant : worker.Invariant)
    (reqShardIdx : ShardIndex)
    (headers : List SyncHeader) : (worker.handleSyncHeaders reqShardIdx headers).Tracked := by
  unfold Worker.handleSyncHeaders
  split
  · split
    · exact tracked
    · have kept := List.foldlRecOn headers Worker.recHeader
        (motive := fun worker => worker.Invariant ∧ worker.Tracked) ⟨invariant, tracked⟩
        fun worker both header _ => ⟨both.1.recHeader header, both.2.recHeader both.1.agrees header⟩
      exact kept.2
  · exact tracked

theorem Tracked.handleSyncBlock (tracked : worker.Tracked) (invariant : worker.Invariant)
    (header : SyncHeader) : (worker.handleSyncBlock header).Tracked := by
  unfold Worker.handleSyncBlock
  split
  · split
    · exact tracked
    · exact tracked.recHeader invariant.agrees header
  · exact tracked

theorem Tracked.act (tracked : worker.Tracked) (invariant : worker.Invariant)
    {around : Surroundings} {event : Event} (met : worker.Met around event) {after : Worker}
    (ran : worker.act around event = .ok after) : after.Tracked := by
  cases event with
  | addPeer cp nodeType =>
    have added : (if worker.isSyncCandidate cp nodeType then
        { worker with peerMgr := worker.peerMgr.addSyncPeerCandidate cp nodeType }
        else worker).Tracked := by
      split
      · exact tracked.of_eq rfl rfl rfl
      · exact tracked
    change worker.handleAddPeer around cp nodeType = .ok after at ran
    unfold handleAddPeer at ran
    dsimp only at ran
    split at ran
    · obtain rfl := Except.ok.inj ran
      exact added
    · next isOutbound =>
      have fresh := met.fresh (Bool.eq_false_of_not_eq_true isOutbound)
      refine added.handleSyncReq around ?_ ran
      split <;> exact fresh
  | donePeer cp nodeType =>
    change worker.handlePeerDone around cp nodeType = .ok after at ran
    unfold handlePeerDone at ran
    split at ran
    · have removed : ({ worker with
          peerMgr := (worker.peerMgr.removePeerCandidate cp nodeType).2 } : Worker).Tracked :=
        tracked.of_eq rfl rfl rfl
      dsimp only at ran
      split at ran
      · exact removed.syncPeerRemoved invariant.agrees ran
      · obtain rfl := Except.ok.inj ran
        exact removed
    · obtain rfl := Except.ok.inj ran
      exact tracked
  | syncReq => exact tracked.handleSyncReq around (met.fresh trivial) ran
  | syncInv type groups =>
    change worker.handleSyncInv around type groups = .ok after at ran
    unfold handleSyncInv at ran
    split at ran
    · obtain rfl := Except.ok.inj ran
      exact tracked
    · next isRunning =>
      have isRunning := not_not.mp isRunning
      split at ran
      · next isFullList =>
        subst isFullList
        obtain ⟨peer, isCurrent⟩ := Option.ne_none_iff_exists'.mp (invariant.running isRunning)
        exact tracked.recInvFullList invariant.agrees isRunning isCurrent
          (met.covering groups rfl isRunning) ran
      · obtain rfl := Except.ok.inj ran
        exact tracked
  | syncHeaders reqShardIdx headers =>
    obtain rfl := Except.ok.inj ran
    exact tracked.handleSyncHeaders invariant reqShardIdx headers
  | syncBlock header =>
    obtain rfl := Except.ok.inj ran
    exact tracked.handleSyncBlock invariant header
  | syncSlimBlock header =>
    obtain rfl := Except.ok.inj ran
    exact tracked.handleSyncBlock invariant header
  | timeout =>
    obtain rfl := Except.ok.inj ran
    exact tracked.ended invariant.agrees nofun

/-- Every event of a run finds a worker that meets the conditions for it. -/
def AllMet (worker : Worker) : List (Surroundings × Event) → Prop
  | [] => True
  | (around, event) :: events =>
    worker.Met around event ∧ ∀ after, worker.act around event = .ok after → after.AllMet events

variable {events : List (Surroundings × Event)}

theorem Tracked.exists_run (tracked : worker.Tracked) (invariant : worker.Invariant)
    (met : worker.AllMet events) : ∃ after, worker.run events = .ok after ∧ after.Tracked := by
  induction events generalizing worker with
  | nil => exact ⟨worker, rfl, tracked⟩
  | cons event events ih =>
    obtain ⟨between, acted, kept⟩ := invariant.exists_act event.1 event.2
    obtain ⟨after, ran, keptToo⟩ :=
      ih (tracked.act invariant met.1 acted) kept (met.2 between acted)
    refine ⟨after, ?_, keptToo⟩
    rw [run, List.foldlM_cons, acted]
    exact ran

/-- If the events meet the conditions, a sync is reported complete with data exactly when every
hash of the last inventory has been received since, and all of them were requested. -/
theorem completion_reported_exactly (nodeType : NodeType) (shardIdx : ShardIndex)
    (events : List (Surroundings × Event)) (met : (newWorker nodeType shardIdx).AllMet events) :
    ∃ worker, (newWorker nodeType shardIdx).run events = .ok worker ∧
      ExactlyReported worker.log ∧ ¬ Fetched worker.log := by
  have fresh : (newWorker nodeType shardIdx).Tracked :=
    tracked_of_none (fun past entry rest isSplit => by simp [newWorker] at isSplit) rfl fun _ => rfl
  obtain ⟨worker, ran, tracked⟩ := fresh.exists_run (newWorker_invariant nodeType shardIdx) met
  exact ⟨worker, ran, tracked.reported, tracked.unfetched⟩

/-- Events that do not ask for a sync meet the conditions if their inventories do. -/
theorem allMet_of_not_asks (worker : Worker) (quiet : ∀ step ∈ events, ¬ step.2.Asks ∧
      ∀ groups, step.2 = .syncInv syncInvTypeFullList groups → Covering groups) :
    worker.AllMet events := by
  induction events generalizing worker with
  | nil => trivial
  | cons step events ih =>
    obtain ⟨notAsks, covering⟩ := quiet step List.mem_cons_self
    refine ⟨⟨fun groups same _ => covering groups same, fun asks => absurd asks notAsks⟩, ?_⟩
    exact fun after _ => ih after fun other isMember =>
      quiet other (List.mem_cons_of_mem _ isMember)

/-! ### Runs of a miner in shard 0 -/

/-- A peer that the node has connected to. -/
def outboundPeer : ConnPeer := { id := 0, inbound := false }

/-- Surroundings in which every peer works for shard 0. -/
def atTime (now : Int) : Surroundings where
  order := .listed
  getShards := fun _ => [0]
  now := now
  getShardHeight := 0
  getAllShardHeights := []

/-- A hash of thirty-two equal bytes. -/
def evenHash (byte : UInt8) : Hash := Bytes32.fill byte

/-- The header with such a hash arrives. -/
def arrival (byte : UInt8) : Surroundings × Event :=
  (atTime 0, .syncHeaders 0 [{ shardIndex := 0, hash := evenHash byte }])

/-- A group of shard 0. -/
def groupOf (bytes : List UInt8) : InvGroup := { shard := 0, headerHashes := bytes.map evenHash }

/-- An inventory arrives. -/
def inventoryOf (groups : List InvGroup) : Surroundings × Event :=
  (atTime 0, .syncInv syncInvTypeFullList groups)

/-- The sync request of the miner. -/
def syncRequest : Entry :=
  .sent outboundPeer (.syncReq 0 [{ shardIdx := 0, fromHeight := 1, toHeight := reqSyncToLatest }])

/-- A sync with one group of two hashes. -/
theorem completion_reported_exactly_two_hashes :
    ∃ worker, (newWorker .minerNode 0).run [(atTime 0, .addPeer outboundPeer .minerNode),
          inventoryOf [groupOf [1, 2]], arrival 2, arrival 1] = .ok worker ∧
      ExactlyReported worker.log ∧ ¬ Fetched worker.log := by
  refine completion_reported_exactly .minerNode 0 _ ⟨⟨nofun, fun _ => nofun⟩, fun after _ => ?_⟩
  refine allMet_of_not_asks after fun step isMember => ?_
  simp only [List.mem_cons, List.not_mem_nil, or_false] at isMember
  rcases isMember with rfl | rfl | rfl
  · refine ⟨id, ?_⟩
    rintro _ ⟨⟩
    exact List.pairwise_singleton _ _
  · exact ⟨id, nofun⟩
  · exact ⟨id, nofun⟩

/-- The last entry reports a sync although a hash was not received. -/
theorem not_exactlyReported {past : List Entry} (notFetched : ¬ Fetched past) :
    ¬ ExactlyReported (past ++ [.published (.syncComplete true)]) := by
  intro exactly
  exact notFetched ((exactly past _ [] rfl).1.mp rfl)

/-- With two groups for one shard, the hashes of the first are neither requested nor waited
for. After a restart of a stale sync, the hashes of the old inventory complete the sync before
the new request is answered. -/
theorem completion_misreported :
    (∃ worker, (newWorker .minerNode 0).run [(atTime 0, .addPeer outboundPeer .minerNode),
          inventoryOf [groupOf [1], groupOf [2]], arrival 2] = .ok worker ∧
        ¬ ExactlyReported worker.log) ∧
      ∃ worker, (newWorker .minerNode 0).run [(atTime 0, .addPeer outboundPeer .minerNode),
          inventoryOf [groupOf [1]], (atTime (3 * 60 * 10 ^ 9), .syncReq), arrival 1] = .ok worker ∧
        ¬ ExactlyReported worker.log := by
  constructor
  · obtain ⟨worker, ran, isLog⟩ := Lib.map_eq_ok.mp
      (show Worker.log <$> (newWorker .minerNode 0).run
          [(atTime 0, .addPeer outboundPeer .minerNode),
            inventoryOf [groupOf [1], groupOf [2]], arrival 2] =
        .ok ([.published .syncStart, syncRequest, .inventory [groupOf [1], groupOf [2]],
          .sent outboundPeer (.getData 0 [groupOf [2]]), .received 0 (evenHash 2)] ++
            [.published (.syncComplete true)]) by decide)
    refine ⟨worker, ran, ?_⟩
    rw [isLog]
    refine not_exactlyReported fun fetched => ?_
    have received : Entry.received 0 (evenHash 1) ∈
        [.sent outboundPeer (.getData 0 [groupOf [2]]), .received 0 (evenHash 2)] :=
      fetched.received rfl ⟨_, List.mem_cons_self, rfl, List.mem_singleton_self _⟩
    exact absurd received (by decide)
  · obtain ⟨worker, ran, isLog⟩ := Lib.map_eq_ok.mp
      (show Worker.log <$> (newWorker .minerNode 0).run
          [(atTime 0, .addPeer outboundPeer .minerNode),
            inventoryOf [groupOf [1]], (atTime (3 * 60 * 10 ^ 9), .syncReq), arrival 1] =
        .ok ([.published .syncStart, syncRequest, .inventory [groupOf [1]],
          .sent outboundPeer (.getData 0 [groupOf [1]]), syncRequest, .received 0 (evenHash 1)] ++
            [.published (.syncComplete true)]) by decide)
    refine ⟨worker, ran, ?_⟩
    rw [isLog]
    exact not_exactlyReported (not_fetched_of_none rfl)

end Worker

end MultiVac.Sync
