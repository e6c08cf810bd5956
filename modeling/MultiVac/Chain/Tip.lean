import MultiVac.Chain.Node
import MultiVac.Ledger.Headers

/-!
# The tip of the chain

What a node remembers of the last block it has accepted, and what a refused block
changes nevertheless.
-/

namespace MultiVac.Chain

open Lib Wire Merkle Ledger Contract

namespace Node

variable {env : Environment}

/-! ### Refused blocks -/

/-- A call has left everything as it was that later calls depend on, and the header
that is stored for the height of a block. -/
structure Unchanged (header : BlockHeader) (before after : Node) : Prop where
  shardHeight : after.shardHeight = before.shardHeight
  proposeBlockHgt : after.proposeBlockHgt = before.proposeBlockHgt
  prevHeader : after.prevHeader = before.prevHeader
  prevReshardHeader : after.prevReshardHeader = before.prevReshardHeader
  tree : after.state.tree = before.state.tree
  shardHeights : after.state.shardHeights = before.state.shardHeights
  txPool : after.txPool = before.txPool
  smartContractDataStore : after.smartContractDataStore = before.smartContractDataStore
  dPool : after.dPool = before.dPool
  stored : after.state.chain.getShardsHeaderByHeight header.shardIndex header.height =
    before.state.chain.getShardsHeaderByHeight header.shardIndex header.height

/-- The data base already has a header for this height, or cannot read this one back. -/
def Kept (store : HeaderStore) (header : BlockHeader) : Prop :=
  (store.getShardsHeaderByHeight header.shardIndex header.height).isSome = true ∨
    ∃ bytes, encodeToBytes Codec.blockHeader header = .ok bytes ∧
      decodeBytes Codec.blockHeader bytes = none

theorem receiveHeader_stored_iff {store received : HeaderStore} {header : BlockHeader}
    (receives : store.receiveHeader header = .ok received) :
    received.getShardsHeaderByHeight header.shardIndex header.height =
        store.getShardsHeaderByHeight header.shardIndex header.height ↔ Kept store header := by
  simp only [HeaderStore.receiveHeader, bind_eq_ok] at receives
  obtain ⟨_, _, receives⟩ := receives
  split at receives
  · next known =>
    obtain rfl := pure_eq_ok.mp receives
    exact iff_of_true rfl (.inl known)
  · next unknown =>
    obtain ⟨bytes, written, receives⟩ := bind_eq_ok.mp receives
    split at receives
    · next unreadable =>
      obtain rfl := pure_eq_ok.mp receives
      exact iff_of_true rfl (.inr ⟨bytes, written, unreadable⟩)
    · next stored readable =>
      obtain rfl := pure_eq_ok.mp receives
      have isDecoded : stored = Codec.blockHeader.decoded header :=
        (Rlp.bytesOf Fault.panic Codec.blockHeader).read_of_write written stored readable
      have absent : store.getShardsHeaderByHeight header.shardIndex header.height = none :=
        Option.not_isSome_iff_eq_none.mp unknown
      refine iff_of_false (fun same => ?_) ?_
      · rw [absent, HeaderStore.getShardsHeaderByHeight, List.find?_append] at same
        rw [HeaderStore.getShardsHeaderByHeight] at absent
        rw [absent, Option.none_or, isDecoded] at same
        have key : (Codec.blockHeader.decoded header).shardIndex = header.shardIndex ∧
            (Codec.blockHeader.decoded header).height = header.height :=
          ⟨Codec.decoded_uint32 header.shardIndex, rfl⟩
        simp [key] at same
      · rintro (known | ⟨other, writtenToo, unreadable⟩)
        · exact unknown known
        · obtain rfl := Except.ok.inj (written.symm.trans writtenToo)
          rw [readable] at unreadable
          cases unreadable

/-- A refused block leaves the node as it was exactly when it is too old, or when it
has the reshard seed of the last reshard header and its header is not stored. -/
theorem acceptBlock_refused_unchanged_iff (visits : Visits) (node after : Node) (block : MsgBlock)
    (refused : node.acceptBlock env visits block = .ok (after, false)) :
    Unchanged block.header node after ↔ block.header.height < node.shardHeight + 1 ∨
        (block.header.reshardSeed = node.prevReshardHeader.reshardSeed ∧
          Kept node.state.chain block.header) := by
  rcases acceptBlock_cases refused with ⟨old, rfl, _⟩ | ⟨new, chain, received, refused | accepted⟩
  · exact iff_of_true ⟨rfl, rfl, rfl, rfl, rfl, rfl, rfl, rfl, rfl, rfl⟩ (.inl old)
  · obtain ⟨_, _, rfl⟩ := refused
    have stored := receiveHeader_stored_iff received
    constructor
    · rintro ⟨_, _, _, reshard, _, _, _, _, _, sameStored⟩
      refine .inr ⟨?_, stored.mp sameStored⟩
      by_contra different
      simp only [ne_eq, different, not_false_eq_true, if_true] at reshard
      exact different (by rw [reshard])
    · rintro (old | ⟨sameSeed, kept⟩)
      · exact absurd old (not_lt.mpr new)
      · exact ⟨rfl, rfl, rfl, if_neg (not_not.mpr sameSeed), rfl, rfl, rfl, rfl, rfl,
          stored.mpr kept⟩
  · cases accepted.2.1

/-- Whether a node has stored a header for a shard and a height. -/
def hasHeader (shardIndex : ShardIndex) (height : Int) (node : Node) : Bool :=
  (node.state.chain.getShardsHeaderByHeight shardIndex height).isSome

/-- A block for height one with a wrong version. -/
def wrongBlock : MsgBlock :=
  { header := { (default : BlockHeader) with height := 1 }
    body := default }

/-- A node that already has the header of this block. -/
def knowingNode : Node :=
  let node := Node.fresh Bytes32.zero
  { node with state := { node.state with chain := { headers := [wrongBlock.header] } } }

/-- A wrong block whose header is already stored changes nothing. -/
theorem acceptBlock_refused_unchanged_knowingNode :
    ∃ after, knowingNode.acceptBlock .plain .listed wrongBlock = .ok (after, false) ∧
      Unchanged wrongBlock.header knowingNode after := by
  have observed : observe (hasHeader 0 1) (knowingNode.acceptBlock .plain .listed wrongBlock) =
      .ok (false, true) := by decide +kernel
  obtain ⟨after, performed, _⟩ := exists_of_observe observed
  exact ⟨after, performed,
    (acceptBlock_refused_unchanged_iff .listed knowingNode after wrongBlock performed).mpr
      (.inr ⟨rfl, .inl (by decide)⟩)⟩

/-- The header of a wrong block is stored, and no other header for this height will
be. -/
theorem acceptBlock_wrongBlock_stores_header :
    ∃ after, (Node.fresh Bytes32.zero).acceptBlock .plain .listed wrongBlock =
        .ok (after, false) ∧ ¬ Unchanged wrongBlock.header (Node.fresh Bytes32.zero) after := by
  have observed : observe (hasHeader 0 1) ((Node.fresh Bytes32.zero).acceptBlock .plain .listed
      wrongBlock) = .ok (false, true) := by decide +kernel
  obtain ⟨after, performed, stored⟩ := exists_of_observe observed
  refine ⟨after, performed, fun unchanged => ?_⟩
  have sameStored := congrArg Option.isSome unchanged.stored
  exact absurd (stored.symm.trans sameStored) (by decide)

/-! ### The last block -/

/-- What a node remembers fits together. -/
structure Consistent (node : Node) : Prop where
  proposes : node.proposeBlockHgt = node.shardHeight + 1
  height : node.prevHeader.height = node.shardHeight
  shard : node.prevHeader.shardIndex = node.shardIndex
  root : node.state.getLedgerRoot = node.prevHeader.shardLedgerMerkleRoot
  block : ∀ block, node.prevBlock = some block → block.header = node.prevHeader

/-- An accepted block writes no shard data of a contract; an init message has a header
of its own height and of the shard of the node, and a node that has accepted a block
gets the header of this block. -/
def Call.Sound (node : Node) : Call → Prop
  | acceptBlock _ block => block.body.updateActions.length = 0
  | proposeAndAcceptEmptyBlock _ => True
  | handleInit msg =>
    msg.latestHeader.height = msg.shardHeight ∧ msg.latestHeader.shardIndex = node.shardIndex ∧
      ∀ block, node.prevBlock = some block → block.header = msg.latestHeader

variable {block : MsgBlock}

variable {node after : Node} {returnedNil : Bool}

/-- A block of the shard for the next height has become the last block. -/
structure NewTip (node after : Node) (block : MsgBlock) : Prop where
  received : node.state.chain.receiveHeader block.header = .ok after.state.chain
  version : block.header.version = blockVersion
  shard : block.header.shardIndex = node.shardIndex
  height : block.header.height = node.proposeBlockHgt
  shardIndex : after.shardIndex = node.shardIndex
  shardHeight : after.shardHeight = node.shardHeight + 1
  proposeBlockHgt : after.proposeBlockHgt = node.proposeBlockHgt + 1
  prevHeader : after.prevHeader = block.header
  prevBlock : after.prevBlock = some block

theorem newTip_of_acceptBlock {visits : Visits}
    (performed : node.acceptBlock env visits block = .ok (after, true)) :
    NewTip node after block := by
  rcases acceptBlock_cases performed with
    ⟨_, _, refused⟩ | ⟨_, chain, received, ⟨_, refused, _⟩ | ⟨verified, _, committed⟩⟩
  · cases refused
  · cases refused
  · have header := ((verifyBlock_eq_ok_iff _ _ _ _ _).mp verified).header
    simp only [verifyBlockHeader, bind_eq_ok, Go.require_eq_ok, decide_eq_true_eq] at header
    obtain ⟨_, version, _, sameShard, _, nextHeight, _⟩ := header
    simp only [Node.commitBlock, blockAccepted, bind_eq_ok, pure_eq_ok,
      Go.orPanic_eq_ok] at committed
    obtain ⟨_, _, _, _, _, _, _, _, state, applied, _, _, _, ⟨_, _, rfl⟩, rfl⟩ := committed
    have sameChain : state.chain = chain := ShardStateManager.chain_applyUpdate applied
    exact ⟨received.trans (congrArg Except.ok sameChain.symm), version, sameShard, nextHeight, rfl,
      rfl, rfl, rfl, rfl⟩

/-- An empty block becomes the last block with the root of the block before. -/
theorem proposeAndAcceptEmptyBlock_cases {height : Int}
    (performed : node.proposeAndAcceptEmptyBlock height = .ok (after, returnedNil)) :
    after = node ∧ returnedNil = false ∨ returnedNil = true ∧
      after.state.tree = node.state.tree ∧ ∃ block, NewTip node after block ∧
        block.header.shardLedgerMerkleRoot = node.prevHeader.shardLedgerMerkleRoot := by
  obtain ⟨⟨miner, nil⟩, called, same⟩ := bind_eq_ok.mp performed
  obtain ⟨rfl, rfl⟩ := Prod.mk.inj (pure_eq_ok.mp same)
  unfold Chain.proposeAndAcceptEmptyBlock at called
  dsimp only at called
  split at called
  · obtain ⟨rfl, rfl⟩ := Prod.mk.inj (pure_eq_ok.mp called)
    exact .inl ⟨rfl, rfl⟩
  · simp only [newBlock, blockAccepted, bind_eq_ok, pure_eq_ok, Prod.mk.injEq] at called
    obtain ⟨_, _, _, ⟨_, _, rfl⟩, chain, received, _, ⟨_, _, rfl⟩, rfl, rfl⟩ := called
    exact .inr ⟨rfl, rfl, _, ⟨received, rfl, rfl, rfl, rfl, rfl, rfl, rfl, rfl⟩, rfl⟩

theorem handleInit_cases {msg : MsgReturnInit}
    (performed : node.handleInit msg = .ok (after, returnedNil)) :
    after = node ∨ ∃ chain dPool, node.state.chain.receiveHeader msg.latestHeader = .ok chain ∧
      after = node.initialised msg chain dPool := by
  unfold Node.handleInit at performed
  split at performed
  · exact .inl (Prod.mk.inj (pure_eq_ok.mp performed)).1.symm
  split at performed
  · exact .inl (Prod.mk.inj (pure_eq_ok.mp performed)).1.symm
  obtain ⟨_ | ⟨⟩, _, performed⟩ := bind_eq_ok.mp performed
  · exact .inl (Prod.mk.inj (pure_eq_ok.mp performed)).1.symm
  · simp only [bind_eq_ok, pure_eq_ok, Prod.mk.injEq] at performed
    obtain ⟨chain, received, dPool, _, rfl, _⟩ := performed
    exact .inr ⟨chain, dPool, received, rfl⟩

theorem Consistent.of_newTip (consistent : Consistent node) (tip : NewTip node after block)
    (root : after.state.getLedgerRoot = block.header.shardLedgerMerkleRoot) : Consistent after where
  proposes := by rw [tip.proposeBlockHgt, tip.shardHeight, consistent.proposes]
  height := by rw [tip.prevHeader, tip.shardHeight, tip.height, consistent.proposes]
  shard := by rw [tip.prevHeader, tip.shardIndex, tip.shard]
  root := by rw [tip.prevHeader, root]
  block := by
    intro other isBlock
    obtain rfl := Option.some.inj (tip.prevBlock.symm.trans isBlock)
    exact tip.prevHeader.symm

/-- A sound call keeps the node consistent. -/
theorem Consistent.perform {call : Call} (consistent : Consistent node)
    (performed : call.perform env node = .ok (after, returnedNil)) (sound : call.Sound node) :
    Consistent after := by
  cases call with
  | acceptBlock visits block =>
    rcases acceptBlock_cases performed with
      ⟨_, rfl, _⟩ | ⟨_, chain, _, ⟨_, _, rfl⟩ | ⟨_, rfl, _⟩⟩
    · exact consistent
    · exact { consistent with }
    · exact consistent.of_newTip (newTip_of_acceptBlock performed)
        (getLedgerRoot_acceptBlock (acceptBlock_toMiner performed) sound)
  | proposeAndAcceptEmptyBlock height =>
    rcases proposeAndAcceptEmptyBlock_cases performed with
      ⟨rfl, _⟩ | ⟨_, sameTree, block, tip, sameRoot⟩
    · exact consistent
    · refine consistent.of_newTip tip ?_
      rw [ShardStateManager.getLedgerRoot, sameTree, sameRoot]
      exact consistent.root
  | handleInit msg =>
    rcases handleInit_cases performed with rfl | ⟨chain, dPool, _, rfl⟩
    · exact consistent
    · obtain ⟨height, shard, block⟩ := sound
      exact ⟨rfl, height, shard, rfl, block⟩

/-- In every run whose calls are sound, the node stays consistent. -/
theorem consistent_of_runs (env : Environment) (node after : Node) (steps : List Step)
    (runs : Runs env node steps after) (consistent : Consistent node)
    (sound : ∀ step ∈ steps, step.call.Sound step.before) : Consistent after := by
  induction runs with
  | nil => exact consistent
  | @cons node next after call returnedNil steps performed _ ih =>
    obtain ⟨soundNow, soundLater⟩ := List.forall_mem_cons.mp sound
    exact ih (consistent.perform performed soundNow) soundLater

/-- An init message with the header of a later block. -/
def aheadInit : MsgReturnInit where
  ledger := ⟨0, []⟩
  rightPath := { hashes := .of [Bytes32.zero], proofPath := .of [] }
  latestHeader := { (default : BlockHeader) with height := 7 }
  shardHeight := 5
  treeSize := 1
  deposits := []

theorem consistent_fresh : Consistent (Node.fresh Bytes32.zero) :=
  ⟨rfl, rfl, rfl, rfl, fun _ isBlock => by cases isBlock⟩

/-- Empty blocks for the first two heights, one of them asked for twice. -/
theorem consistent_of_runs_emptyBlocks :
    ∃ first second after, Runs .plain (Node.fresh Bytes32.zero)
        [⟨Node.fresh Bytes32.zero, .proposeAndAcceptEmptyBlock 1⟩,
          ⟨first, .proposeAndAcceptEmptyBlock 1⟩, ⟨second, .proposeAndAcceptEmptyBlock 2⟩] after ∧
      after.shardHeight = 2 ∧ Consistent after := by
  have checked : (do
      let (first, _) ← Call.perform .plain (.fresh Bytes32.zero) (.proposeAndAcceptEmptyBlock 1)
      let (second, _) ← Call.perform .plain first (.proposeAndAcceptEmptyBlock 1)
      let (after, _) ← Call.perform .plain second (.proposeAndAcceptEmptyBlock 2)
      return after.shardHeight) = (.ok 2 : Go Int) := by decide +kernel
  simp only [bind_eq_ok, pure_eq_ok, Prod.exists] at checked
  obtain ⟨first, _, performed, second, _, repeated, after, _, performedNext, isTwo⟩ := checked
  have runs := Runs.cons performed (.cons repeated (.cons performedNext (.nil after)))
  exact ⟨first, second, after, runs, isTwo,
    consistent_of_runs .plain _ after _ runs consistent_fresh (by simp [Call.Sound])⟩

/-- An init message is taken with a header of another height than its own. -/
theorem handleInit_aheadInit_inconsistent :
    ∃ after, Consistent (Node.fresh Bytes32.zero) ∧ Runs .plain (Node.fresh Bytes32.zero)
        [⟨Node.fresh Bytes32.zero, .handleInit aheadInit⟩] after ∧ ¬ Consistent after := by
  have observed : observe (fun node : Node => (node.prevHeader.height, node.shardHeight))
      ((Node.fresh Bytes32.zero).handleInit aheadInit) = .ok (true, 7, 5) := by decide +kernel
  obtain ⟨after, performed, seen⟩ := exists_of_observe observed
  refine ⟨after, consistent_fresh, .cons performed (.nil after), fun consistent => ?_⟩
  obtain ⟨seven, five⟩ := Prod.mk.inj seen
  have height := consistent.height
  rw [seven, five] at height
  cases height

end Node

end MultiVac.Chain
