import MultiVac.Base.Fault
import MultiVac.Lib.Table
import MultiVac.Wire.Types

/-!
# The sync worker

`baseWorker` of `processor/sync` with the two kinds of work that it is used for, its peer
manager and the state of its manager. The worker asks a peer what it lacks, receives an
inventory of header hashes, fetches the data and reports the end of the sync. What it
takes in, sends and publishes is written to a log.
-/

namespace MultiVac.Sync

open Wire
open Lib (Table)

/-! ### Peers and messages -/

/-- `config.NodeType`. -/
inductive NodeType where
  | minerNode
  | storageNode
deriving DecidableEq

/-- `connection.ConnPeer`: a peer, and which side opened the connection. -/
structure ConnPeer where
  id : Nat
  inbound : Bool
deriving DecidableEq

/-- `syncPeer`. -/
structure SyncPeer where
  cp : ConnPeer
  nodeType : NodeType
deriving DecidableEq

/-- `wire.InvGroup`. -/
structure InvGroup where
  shard : ShardIndex
  headerHashes : List Hash
deriving DecidableEq

/-- `wire.BlockLocator`. -/
structure BlockLocator where
  shardIdx : ShardIndex
  fromHeight : Int
  toHeight : Int
deriving DecidableEq

/-- `wire.ReqSyncToLatest`. -/
def reqSyncToLatest : Int := -1

/-- `wire.SyncInvTypeFullList`. -/
def syncInvTypeFullList : Int := 0

/-- What the worker reads of a header: its shard and `BlockHeaderHash`. -/
structure SyncHeader where
  shardIndex : ShardIndex
  hash : Hash

/-- The messages that the worker sends: `MsgSyncReq`, and `MsgSyncInv` of the type
`SyncInvTypeGetData`. -/
inductive Request where
  | syncReq (reqShardIdx : ShardIndex) (locators : List BlockLocator)
  | getData (reqShardIdx : ShardIndex) (groups : List InvGroup)
deriving DecidableEq

/-- The events that the manager publishes. -/
inductive Notice where
  | syncStart
  | syncComplete (dataFetched : Bool)
  | syncAbort
deriving DecidableEq

/-- `syncStatus`. -/
inductive SyncStatus where
  | idle
  | running
deriving DecidableEq

/-- What the worker has taken in and given out. -/
inductive Entry where
  | inventory (groups : List InvGroup)
  | received (shard : ShardIndex) (hash : Hash)
  | sent (peer : ConnPeer) (request : Request)
  | published (notice : Notice)
deriving DecidableEq

/-- What the worker finds when an event is handled: the order of map iterations, the shards
that the peers work for, the time, and the heights that the miner or the storage node
reports. -/
structure Surroundings where
  order : MapOrder
  getShards : ConnPeer → List ShardIndex
  now : Int
  getShardHeight : Int
  getAllShardHeights : List IndexAndHeight

/-! ### Sets of hashes -/

/-- `hashSet`: the only value that is stored in the map is `true`. -/
abbrev HashSet := Table Hash Unit

namespace HashSet

/-- `hashSet.contains`. -/
def contains (set : HashSet) (hash : Hash) : Bool := (set.lookup hash).isSome

/-- A set with the hashes of a group. -/
def ofHashes (hashes : List Hash) : HashSet :=
  hashes.foldl (fun set hash => set.insert hash ()) ∅

end HashSet

/-! ### The peer manager -/

/-- `syncPeerManager`. -/
structure SyncPeerManager where
  curSyncPeer : Option SyncPeer
  candidates : Table ConnPeer SyncPeer

namespace SyncPeerManager

/-- `getSyncPeer`. The loop over the candidates does not end at a match, so the last one
is chosen. -/
def getSyncPeer (manager : SyncPeerManager) (around : Surroundings) (shardIdx : ShardIndex) :
    SyncPeerManager :=
  match manager.curSyncPeer with
  | some _ => manager
  | none =>
    { manager with
      curSyncPeer := (around.order.visit manager.candidates.entries).foldl (fun chosen entry =>
          if shardIdx ∈ around.getShards entry.2.cp then some entry.2 else chosen) none }

/-- `addSyncPeerCandidate`. -/
def addSyncPeerCandidate (manager : SyncPeerManager) (cp : ConnPeer) (nodeType : NodeType) :
    SyncPeerManager :=
  { manager with candidates := manager.candidates.insert cp { cp, nodeType } }

/-- `removePeerCandidate`, with whether the current peer was removed. -/
def removePeerCandidate (manager : SyncPeerManager) (cp : ConnPeer) (nodeType : NodeType) :
    Bool × SyncPeerManager :=
  let manager := { manager with candidates := manager.candidates.erase cp }
  if manager.curSyncPeer = some { cp, nodeType } then
    (true, { manager with curSyncPeer := none })
  else (false, manager)

end SyncPeerManager

/-! ### The worker -/

/-- `baseWorker`: `nodeType` tells a `minerWorker` from a `storageWorker`, and
`managerStatus` is the status in the `syncState` of the manager. -/
structure Worker where
  nodeType : NodeType
  shardIdx : ShardIndex
  peerMgr : SyncPeerManager
  status : SyncStatus
  curInvs : Table ShardIndex HashSet
  syncStartTime : Int
  managerStatus : SyncStatus
  log : List Entry

/-- `newBaseWorker`. -/
def newWorker (nodeType : NodeType) (shardIdx : ShardIndex) : Worker where
  nodeType := nodeType
  shardIdx := shardIdx
  peerMgr := { curSyncPeer := none, candidates := ∅ }
  status := .idle
  curInvs := ∅
  syncStartTime := 0
  managerStatus := .idle
  log := []

namespace Worker

variable (worker : Worker) (around : Surroundings)

/-- Write to the log. -/
def record (entries : List Entry) : Worker :=
  { worker with log := worker.log ++ entries }

/-- `notifySyncStart`. -/
def notifySyncStart : Worker :=
  if worker.managerStatus = .idle then
    { worker with managerStatus := .running }.record [.published .syncStart]
  else worker

/-- `maybeStop` and `maybeAbort`: the manager leaves `RUNNING` and publishes it. -/
def notifyEnd (notice : Notice) : Worker :=
  if worker.managerStatus = .running then
    { worker with managerStatus := .idle }.record [.published notice]
  else worker

/-- `reset`. -/
def reset : Worker :=
  { worker with
    status := .idle
    curInvs := ∅
    peerMgr := { worker.peerMgr with curSyncPeer := none } }

/-- `markSyncStart`. -/
def markSyncStart (now : Int) : Worker :=
  { worker with status := .running, syncStartTime := now }.notifySyncStart

/-- `markSyncStop`. -/
def markSyncStop (dataFetched : Bool) : Worker :=
  worker.reset.notifyEnd (.syncComplete dataFetched)

/-- `markSyncAborted`. -/
def markSyncAborted : Worker :=
  worker.reset.notifyEnd .syncAbort

/-- `sendMsg`. -/
def sendMsg (request : Request) : Go Worker :=
  let peerMgr := worker.peerMgr.getSyncPeer around worker.shardIdx
  match peerMgr.curSyncPeer with
  | none => Go.panic
  | some peer => .ok ({ worker with peerMgr }.record [.sent peer.cp request])

/-- `createSyncReq` of the miner and of the storage node. -/
def createSyncReq : Request :=
  match worker.nodeType with
  | .minerNode =>
    .syncReq worker.shardIdx
      [{ shardIdx := worker.shardIdx, fromHeight := around.getShardHeight + 1
         toHeight := reqSyncToLatest }]
  | .storageNode =>
    .syncReq worker.shardIdx (around.getAllShardHeights.map fun entry =>
      { shardIdx := entry.index, fromHeight := entry.height + 1, toHeight := reqSyncToLatest })

/-- `makeSyncReq`. -/
def makeSyncReq : Go Worker :=
  worker.sendMsg around (worker.createSyncReq around)

/-- The groups of the hashes that are still missing. -/
def missingGroups : List InvGroup :=
  (around.order.visit worker.curInvs.entries).map fun entry =>
    { shard := entry.1, headerHashes := around.order.visit entry.2.keys }

/-- `reqFetchData`. -/
def reqFetchData : Go Worker :=
  worker.sendMsg around (.getData worker.shardIdx (worker.missingGroups around))

/-- The sets of `recInvFullList`: a later group of a shard replaces an earlier one. -/
def collect (groups : List InvGroup) : Table ShardIndex HashSet :=
  groups.foldl (fun invs group =>
    if group.headerHashes.isEmpty then invs
    else invs.insert group.shard (HashSet.ofHashes group.headerHashes)) ∅

/-- An inventory lists some hash. -/
def hasData (groups : List InvGroup) : Bool :=
  groups.any fun group => !group.headerHashes.isEmpty

/-- `recInvFullList`. -/
def recInvFullList (groups : List InvGroup) : Go Worker :=
  let worker := { worker with curInvs := collect groups }.record [.inventory groups]
  if hasData groups then worker.reqFetchData around
  else .ok (worker.markSyncStop false)

/-- `handleSyncInv`. -/
def handleSyncInv (type : Int) (groups : List InvGroup) : Go Worker :=
  if worker.status ≠ .running then .ok worker
  else if type = syncInvTypeFullList then worker.recInvFullList around groups
  else .ok worker

/-- The sets without a hash of one of them; a set that gets empty is deleted. -/
def strike (invs : Table ShardIndex HashSet) (header : SyncHeader) (set : HashSet) :
    Table ShardIndex HashSet :=
  if (set.erase header.hash).keys.length = 0 then invs.erase header.shardIndex
  else invs.insert header.shardIndex (set.erase header.hash)

/-- `recHeader`. -/
def recHeader (header : SyncHeader) : Worker :=
  let worker := worker.record [.received header.shardIndex header.hash]
  match worker.curInvs.lookup header.shardIndex with
  | none => worker
  | some set =>
    if HashSet.contains set header.hash then
      let worker := { worker with curInvs := strike worker.curInvs header set }
      if worker.curInvs.keys.length = 0 then worker.markSyncStop true else worker
    else worker

/-- `isSyncCandidate`. -/
def isSyncCandidate (cp : ConnPeer) (nodeType : NodeType) : Bool :=
  !cp.inbound && nodeType = worker.nodeType

/-- `isSyncStale`: more than two minutes have passed, in nanoseconds. -/
def isSyncStale (now : Int) : Bool :=
  now - worker.syncStartTime > 2 * 60 * 10 ^ 9

/-- `handleSyncReq`, with `shouldStartSync` and `startSync`. -/
def handleSyncReq : Go Worker :=
  if worker.status = .idle || worker.isSyncStale around.now then
    let worker := { worker with peerMgr := worker.peerMgr.getSyncPeer around worker.shardIdx }
    if worker.peerMgr.curSyncPeer.isSome then
      (worker.markSyncStart around.now).makeSyncReq around
    else .ok worker
  else .ok worker

/-- `handleAddPeer`. -/
def handleAddPeer (cp : ConnPeer) (nodeType : NodeType) : Go Worker :=
  let worker :=
    if worker.isSyncCandidate cp nodeType then
      { worker with peerMgr := worker.peerMgr.addSyncPeerCandidate cp nodeType }
    else worker
  if cp.inbound then .ok worker else worker.handleSyncReq around

/-- `syncPeerRemoved`. -/
def syncPeerRemoved : Go Worker :=
  if worker.status ≠ .running then .ok worker
  else
    let worker := { worker with peerMgr := worker.peerMgr.getSyncPeer around worker.shardIdx }
    if worker.peerMgr.curSyncPeer.isSome then
      if worker.curInvs.keys.length ≠ 0 then worker.reqFetchData around
      else worker.makeSyncReq around
    else .ok worker.markSyncAborted

/-- `handlePeerDone`. -/
def handlePeerDone (cp : ConnPeer) (nodeType : NodeType) : Go Worker :=
  if worker.isSyncCandidate cp nodeType then
    let (isCurrent, peerMgr) := worker.peerMgr.removePeerCandidate cp nodeType
    let worker := { worker with peerMgr }
    if isCurrent then worker.syncPeerRemoved around else .ok worker
  else .ok worker

/-! ### Events -/

/-- What the worker can be told: the topics of `Act`, the messages of `handleMsg`, and the
end of the timer. -/
inductive Event where
  | addPeer (cp : ConnPeer) (nodeType : NodeType)
  | donePeer (cp : ConnPeer) (nodeType : NodeType)
  | syncReq
  | syncInv (type : Int) (groups : List InvGroup)
  | syncHeaders (reqShardIdx : ShardIndex) (headers : List SyncHeader)
  | syncBlock (header : SyncHeader)
  | syncSlimBlock (header : SyncHeader)
  | timeout

/-- `handleCustomMsg` for `MsgSyncHeaders`, which only a miner looks at. -/
def handleSyncHeaders (reqShardIdx : ShardIndex) (headers : List SyncHeader) : Worker :=
  if worker.nodeType = .minerNode then
    if reqShardIdx ≠ worker.shardIdx then worker else headers.foldl recHeader worker
  else worker

/-- `handleCustomMsg` for `MsgSyncBlock` and `MsgSyncSlimBlock`, which only a storage node
looks at: `handleSyncBlock` and `handleSyncSlimBlock`. -/
def handleSyncBlock (header : SyncHeader) : Worker :=
  if worker.nodeType = .storageNode then
    if worker.status ≠ .running then worker else worker.recHeader header
  else worker

/-- `Act`, and `syncTimeout`. -/
def act : Event → Go Worker
  | .addPeer cp nodeType => worker.handleAddPeer around cp nodeType
  | .donePeer cp nodeType => worker.handlePeerDone around cp nodeType
  | .syncReq => worker.handleSyncReq around
  | .syncInv type groups => worker.handleSyncInv around type groups
  | .syncHeaders reqShardIdx headers => .ok (worker.handleSyncHeaders reqShardIdx headers)
  | .syncBlock header => .ok (worker.handleSyncBlock header)
  | .syncSlimBlock header => .ok (worker.handleSyncBlock header)
  | .timeout => .ok worker.markSyncAborted

/-- The worker after some events. -/
def run (events : List (Surroundings × Event)) : Go Worker :=
  events.foldlM (fun worker step => worker.act step.1 step.2) worker

/-! ### The current peer is a candidate -/

/-- What holds at all times. -/
structure Consistent (worker : Worker) : Prop where
  candidates : ∀ cp peer, worker.peerMgr.candidates.lookup cp = some peer →
    peer = { cp, nodeType := worker.nodeType }
  current : ∀ peer, worker.peerMgr.curSyncPeer = some peer →
    worker.peerMgr.candidates.lookup peer.cp = some peer
  agrees : worker.managerStatus = worker.status

/-- What holds between any two events: only while a peer is replaced, the worker runs
without one. -/
structure Invariant (worker : Worker) : Prop extends Consistent worker where
  running : worker.status = .running → worker.peerMgr.curSyncPeer ≠ none

/-- The peers of a worker that has been told to choose one. -/
def choose : Worker :=
  { worker with peerMgr := worker.peerMgr.getSyncPeer around worker.shardIdx }

theorem getSyncPeer_candidates (manager : SyncPeerManager) (around : Surroundings)
    (shardIdx : ShardIndex) :
    (manager.getSyncPeer around shardIdx).candidates = manager.candidates := by
  unfold SyncPeerManager.getSyncPeer
  split <;> rfl

variable {manager : SyncPeerManager} {peer : SyncPeer}

theorem getSyncPeer_of_current (isCurrent : manager.curSyncPeer = some peer) (around : Surroundings)
    (shardIdx : ShardIndex) : manager.getSyncPeer around shardIdx = manager := by
  rw [SyncPeerManager.getSyncPeer, isCurrent]

theorem getSyncPeer_ne_none (hasPeer : manager.curSyncPeer ≠ none) (around : Surroundings)
    (shardIdx : ShardIndex) : (manager.getSyncPeer around shardIdx).curSyncPeer ≠ none := by
  obtain ⟨peer, isCurrent⟩ := Option.ne_none_iff_exists'.mp hasPeer
  rwa [getSyncPeer_of_current isCurrent]

theorem removePeerCandidate_of_other {cp : ConnPeer} {nodeType : NodeType}
    (isOther : (manager.removePeerCandidate cp nodeType).1 ≠ true) :
    (manager.removePeerCandidate cp nodeType).2.curSyncPeer = manager.curSyncPeer := by
  unfold SyncPeerManager.removePeerCandidate at isOther ⊢
  dsimp only at isOther ⊢
  split at isOther
  · exact absurd rfl isOther
  · next notCurrent => rw [if_neg notCurrent]

/-- The chosen peer is the current one or a candidate. -/
theorem mem_of_getSyncPeer {around : Surroundings} {shardIdx : ShardIndex}
    (chosen : (manager.getSyncPeer around shardIdx).curSyncPeer = some peer) :
    manager.curSyncPeer = some peer ∨ ∃ cp, manager.candidates.lookup cp = some peer := by
  unfold SyncPeerManager.getSyncPeer at chosen
  split at chosen
  · exact Or.inl chosen
  · next isNone =>
    -- Whatever the loop has chosen is one of the entries visited so far.
    have fromEntries : ∀ (entries : List (Sigma fun _ : ConnPeer => SyncPeer)) start,
        (∀ candidate, start = some candidate → ∃ cp, manager.candidates.lookup cp = some candidate) →
        (∀ entry ∈ entries, entry ∈ manager.candidates.entries) →
        ∀ candidate, entries.foldl (fun chosen entry =>
            if shardIdx ∈ around.getShards entry.2.cp then some entry.2 else chosen) start =
          some candidate → ∃ cp, manager.candidates.lookup cp = some candidate := by
      intro entries
      induction entries with
      | nil => exact fun start known _ => known
      | cons entry entries ih =>
        intro start known within
        refine ih _ ?_ fun other isMember =>
          within other (List.mem_cons_of_mem _ isMember)
        intro candidate isChosen
        dsimp only at isChosen
        split at isChosen
        · obtain rfl := Option.some.inj isChosen
          exact ⟨entry.1, AList.mem_lookup_iff.mpr (within entry List.mem_cons_self)⟩
        · exact known candidate isChosen
    refine Or.inr (fromEntries _ none nofun (fun entry isMember => ?_) peer chosen)
    exact (around.order.visit_perm _).mem_iff.mp isMember

variable {worker : Worker}

theorem Consistent.choose (consistent : worker.Consistent)
    (around : Surroundings) : (worker.choose around).Consistent where
  candidates := by
    intro cp peer found
    exact consistent.candidates cp peer (by rwa [Worker.choose, getSyncPeer_candidates] at found)
  current := by
    intro peer isCurrent
    rw [Worker.choose, getSyncPeer_candidates]
    rcases mem_of_getSyncPeer isCurrent with wasCurrent | ⟨cp, found⟩
    · exact consistent.current peer wasCurrent
    · obtain rfl := consistent.candidates cp peer found
      exact found
  agrees := consistent.agrees

/-- A message is sent to the current peer. -/
theorem sendMsg_of_current (isCurrent : worker.peerMgr.curSyncPeer = some peer)
    (around : Surroundings) (request : Request) :
    worker.sendMsg around request = .ok (worker.record [.sent peer.cp request]) := by
  simp only [sendMsg, getSyncPeer_of_current isCurrent, isCurrent]

theorem markSyncStart_status (worker : Worker) (now : Int) :
    (worker.markSyncStart now).status = .running := by
  unfold markSyncStart notifySyncStart
  split <;> rfl

theorem markSyncStart_peerMgr (worker : Worker) (now : Int) :
    (worker.markSyncStart now).peerMgr = worker.peerMgr := by
  unfold markSyncStart notifySyncStart
  split <;> rfl

theorem markSyncStart_curInvs (worker : Worker) (now : Int) :
    (worker.markSyncStart now).curInvs = worker.curInvs := by
  unfold markSyncStart notifySyncStart
  split <;> rfl

namespace Consistent

variable {worker : Worker} (consistent : worker.Consistent)
include consistent

theorem record (entries : List Entry) : (worker.record entries).Consistent :=
  ⟨consistent.candidates, consistent.current, consistent.agrees⟩

/-- The end of a sync, from any state of the worker. -/
theorem ended (notice : Notice) : (worker.reset.notifyEnd notice).Invariant := by
  unfold notifyEnd
  split
  · exact ⟨⟨consistent.candidates, nofun, rfl⟩, nofun⟩
  · next notRunning =>
    refine ⟨⟨consistent.candidates, nofun, ?_⟩, nofun⟩
    cases isStatus : worker.reset.managerStatus with
    | idle => rfl
    | running => exact absurd isStatus notRunning

theorem started (hasPeer : worker.peerMgr.curSyncPeer ≠ none) (now : Int) :
    (worker.markSyncStart now).Invariant := by
  unfold markSyncStart notifySyncStart
  split
  · exact ⟨⟨consistent.candidates, consistent.current, rfl⟩, fun _ => hasPeer⟩
  · next notIdle =>
    refine ⟨⟨consistent.candidates, consistent.current, ?_⟩, fun _ => hasPeer⟩
    change worker.managerStatus = .running
    cases isStatus : worker.managerStatus with
    | idle => exact absurd isStatus notIdle
    | running => rfl

variable {cp : ConnPeer} {nodeType : NodeType}

theorem addPeer (isCandidate : worker.isSyncCandidate cp nodeType = true) :
    ({ worker with peerMgr := worker.peerMgr.addSyncPeerCandidate cp nodeType } :
      Worker).Consistent := by
  obtain ⟨-, sameType⟩ := Bool.and_eq_true_iff.mp isCandidate
  obtain rfl : nodeType = worker.nodeType := of_decide_eq_true sameType
  refine ⟨fun other peer found => ?_, fun peer isCurrent => ?_, consistent.agrees⟩
  · by_cases same : other = cp
    · rw [SyncPeerManager.addSyncPeerCandidate, same, AList.lookup_insert] at found
      rw [same]
      exact (Option.some.inj found).symm
    · rw [SyncPeerManager.addSyncPeerCandidate, AList.lookup_insert_ne same] at found
      exact consistent.candidates other peer found
  · have wasCandidate := consistent.current peer isCurrent
    by_cases same : peer.cp = cp
    · rw [SyncPeerManager.addSyncPeerCandidate, same, AList.lookup_insert]
      rw [consistent.candidates _ _ wasCandidate, same]
    · rw [SyncPeerManager.addSyncPeerCandidate, AList.lookup_insert_ne same]
      exact wasCandidate

/-- The peers after one of them has left. -/
theorem removePeer (isCandidate : worker.isSyncCandidate cp nodeType = true) :
    ({ worker with peerMgr := (worker.peerMgr.removePeerCandidate cp nodeType).2 } :
      Worker).Consistent := by
  obtain ⟨-, sameType⟩ := Bool.and_eq_true_iff.mp isCandidate
  obtain rfl : nodeType = worker.nodeType := of_decide_eq_true sameType
  have others : ∀ other peer, (worker.peerMgr.candidates.erase cp).lookup other = some peer →
      other ≠ cp ∧ worker.peerMgr.candidates.lookup other = some peer := by
    intro other peer found
    by_cases same : other = cp
    · rw [same, AList.lookup_erase] at found
      cases found
    · rw [AList.lookup_erase_ne same] at found
      exact ⟨same, found⟩
  have kept : ∀ other peer, (worker.peerMgr.candidates.erase cp).lookup other = some peer →
      peer = { cp := other, nodeType := worker.nodeType } := by
    intro other peer found
    exact consistent.candidates other peer (others other peer found).2
  unfold SyncPeerManager.removePeerCandidate
  dsimp only
  split
  · exact ⟨kept, nofun, consistent.agrees⟩
  · next notCurrent =>
    refine ⟨kept, fun peer isCurrent => ?_, consistent.agrees⟩
    have wasCandidate := consistent.current peer isCurrent
    have differs : peer.cp ≠ cp := by
      intro same
      rw [consistent.candidates _ _ wasCandidate, same] at isCurrent
      exact notCurrent isCurrent
    rw [AList.lookup_erase_ne differs]
    exact wasCandidate

end Consistent

namespace Invariant

variable {worker : Worker} (invariant : worker.Invariant)

section

include invariant

theorem record (entries : List Entry) : (worker.record entries).Invariant :=
  ⟨invariant.toConsistent.record entries, invariant.running⟩

theorem withInvs (curInvs : Table ShardIndex HashSet) :
    ({ worker with curInvs } : Worker).Invariant :=
  ⟨⟨invariant.candidates, invariant.current, invariant.agrees⟩, invariant.running⟩

theorem exists_sendMsg (hasPeer : worker.peerMgr.curSyncPeer ≠ none) (around : Surroundings)
    (request : Request) :
    ∃ after, worker.sendMsg around request = .ok after ∧ after.Invariant := by
  obtain ⟨peer, isCurrent⟩ := Option.ne_none_iff_exists'.mp hasPeer
  exact ⟨_, sendMsg_of_current isCurrent around request, invariant.record _⟩

theorem recHeader (header : SyncHeader) : (worker.recHeader header).Invariant := by
  unfold Worker.recHeader
  dsimp only
  split
  · exact invariant.record _
  · split
    · split
      · exact ((invariant.record _).withInvs _).ended _
      · exact (invariant.record _).withInvs _
    · exact invariant.record _

theorem exists_handleSyncReq (around : Surroundings) :
    ∃ after, worker.handleSyncReq around = .ok after ∧ after.Invariant := by
  unfold handleSyncReq
  split
  · dsimp only
    have consistent := invariant.toConsistent.choose around
    split
    · next hasPeer =>
      have started := consistent.started (Option.isSome_iff_ne_none.mp hasPeer) around.now
      exact started.exists_sendMsg (started.running (markSyncStart_status _ _)) around _
    · next noPeer =>
      refine ⟨_, rfl, consistent, fun isRunning => ?_⟩
      exact getSyncPeer_ne_none (invariant.running isRunning) around worker.shardIdx
  · exact ⟨_, rfl, invariant⟩

theorem exists_handleAddPeer (around : Surroundings) (cp : ConnPeer) (nodeType : NodeType) :
    ∃ after, worker.handleAddPeer around cp nodeType = .ok after ∧ after.Invariant := by
  have added : (if worker.isSyncCandidate cp nodeType then
      { worker with peerMgr := worker.peerMgr.addSyncPeerCandidate cp nodeType }
      else worker).Invariant := by
    split
    · next isCandidate =>
      exact ⟨invariant.toConsistent.addPeer isCandidate, invariant.running⟩
    · exact invariant
  unfold handleAddPeer
  dsimp only
  split
  · exact ⟨_, rfl, added⟩
  · exact added.exists_handleSyncReq around

end

theorem exists_syncPeerRemoved (consistent : worker.Consistent) (around : Surroundings) :
    ∃ after, worker.syncPeerRemoved around = .ok after ∧ after.Invariant := by
  unfold syncPeerRemoved
  split
  · next notRunning => exact ⟨_, rfl, consistent, fun isRunning => absurd isRunning notRunning⟩
  · dsimp only
    have chosen := consistent.choose around
    split
    · next hasPeer =>
      have hasPeer := Option.isSome_iff_ne_none.mp hasPeer
      have invariant : (worker.choose around).Invariant := ⟨chosen, fun _ => hasPeer⟩
      split
      · exact invariant.exists_sendMsg hasPeer around _
      · exact invariant.exists_sendMsg hasPeer around _
    · exact ⟨_, rfl, chosen.ended _⟩

section

include invariant

theorem exists_handlePeerDone (around : Surroundings) (cp : ConnPeer) (nodeType : NodeType) :
    ∃ after, worker.handlePeerDone around cp nodeType = .ok after ∧ after.Invariant := by
  unfold handlePeerDone
  split
  · next isCandidate =>
    have removed := invariant.toConsistent.removePeer isCandidate
    dsimp only
    split
    · exact exists_syncPeerRemoved removed around
    · next notCurrent =>
      refine ⟨_, rfl, removed, ?_⟩
      rw [removePeerCandidate_of_other notCurrent]
      exact invariant.running
  · exact ⟨_, rfl, invariant⟩

theorem exists_handleSyncInv (around : Surroundings) (type : Int) (groups : List InvGroup) :
    ∃ after, worker.handleSyncInv around type groups = .ok after ∧ after.Invariant := by
  unfold handleSyncInv
  split
  · exact ⟨_, rfl, invariant⟩
  · next isRunning =>
    split
    · have taken := (invariant.withInvs (collect groups)).record [.inventory groups]
      unfold recInvFullList
      dsimp only
      split
      · exact taken.exists_sendMsg (invariant.running (not_not.mp isRunning)) around _
      · exact ⟨_, rfl, taken.ended _⟩
    · exact ⟨_, rfl, invariant⟩

theorem handleSyncHeaders (reqShardIdx : ShardIndex)
    (headers : List SyncHeader) : (worker.handleSyncHeaders reqShardIdx headers).Invariant := by
  unfold Worker.handleSyncHeaders
  split
  · split
    · exact invariant
    · exact List.foldlRecOn headers Worker.recHeader invariant
        fun _ kept header _ => kept.recHeader header
  · exact invariant

theorem handleSyncBlock (header : SyncHeader) : (worker.handleSyncBlock header).Invariant := by
  unfold Worker.handleSyncBlock
  split
  · split
    · exact invariant
    · exact invariant.recHeader header
  · exact invariant

theorem exists_act (around : Surroundings)
    (event : Event) : ∃ after, worker.act around event = .ok after ∧ after.Invariant := by
  cases event with
  | addPeer cp nodeType => exact invariant.exists_handleAddPeer around cp nodeType
  | donePeer cp nodeType => exact invariant.exists_handlePeerDone around cp nodeType
  | syncReq => exact invariant.exists_handleSyncReq around
  | syncInv type groups => exact invariant.exists_handleSyncInv around type groups
  | syncHeaders reqShardIdx headers => exact ⟨_, rfl, invariant.handleSyncHeaders reqShardIdx headers⟩
  | syncBlock header => exact ⟨_, rfl, invariant.handleSyncBlock header⟩
  | syncSlimBlock header => exact ⟨_, rfl, invariant.handleSyncBlock header⟩
  | timeout => exact ⟨_, rfl, invariant.ended _⟩

end

end Invariant

theorem newWorker_invariant (nodeType : NodeType) (shardIdx : ShardIndex) :
    (newWorker nodeType shardIdx).Invariant where
  candidates := nofun
  current := nofun
  agrees := rfl
  running := nofun

theorem Invariant.exists_run (invariant : worker.Invariant) (events : List (Surroundings × Event)) :
    ∃ after, worker.run events = .ok after ∧ after.Invariant := by
  induction events generalizing worker with
  | nil => exact ⟨worker, rfl, invariant⟩
  | cons event events ih =>
    obtain ⟨between, acted, kept⟩ := invariant.exists_act event.1 event.2
    obtain ⟨after, ran, keptToo⟩ := ih kept
    refine ⟨after, ?_, keptToo⟩
    rw [run, List.foldlM_cons, acted]
    exact ran

/-- Whatever events a worker is told, it does not panic, a running sync has a current peer
that is a candidate, and the manager knows the status. -/
theorem run_keeps_candidate (nodeType : NodeType) (shardIdx : ShardIndex)
    (events : List (Surroundings × Event)) :
    ∃ worker, (newWorker nodeType shardIdx).run events = .ok worker ∧
      (worker.status = .running → ∃ peer, worker.peerMgr.curSyncPeer = some peer ∧
        worker.peerMgr.candidates.lookup peer.cp = some peer) ∧
      worker.managerStatus = worker.status := by
  obtain ⟨worker, ran, invariant⟩ := (newWorker_invariant nodeType shardIdx).exists_run events
  refine ⟨worker, ran, fun isRunning => ?_, invariant.agrees⟩
  obtain ⟨peer, isCurrent⟩ := Option.ne_none_iff_exists'.mp (invariant.running isRunning)
  exact ⟨peer, isCurrent, invariant.current peer isCurrent⟩

end Worker

end MultiVac.Sync
