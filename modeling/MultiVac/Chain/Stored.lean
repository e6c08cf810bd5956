import MultiVac.Chain.Tip

/-!
# The stored chain and the accepted chain

Headers come to a node from other nodes, with the blocks that it is asked to accept and
with its own empty blocks. The database keeps the first header for a shard and height,
whether or not a block with it is accepted later.
-/

namespace MultiVac.Chain
namespace Node

open Lib Wire Merkle Ledger Contract

variable {env : Environment} {node next last : Node}

/-! ### Events -/

/-- What happens to a node: a call, or a header that its block chain receives from other
nodes, alone or with a block. -/
inductive Event where
  | call (call : Call)
  | receiveHeader (header : BlockHeader)

/-- The node after an event, and the header that has been accepted in it. -/
def Event.perform (env : Environment) (node : Node) : Event → Go (Node × Option BlockHeader)
  | call (.acceptBlock visits block) => do
    let (after, returnedNil) ← node.acceptBlock env visits block
    return (after, if returnedNil then some block.header else none)
  | call (.proposeAndAcceptEmptyBlock height) => do
    let (after, returnedNil) ← node.proposeAndAcceptEmptyBlock height
    return (after, if returnedNil then some after.prevHeader else none)
  | call (.handleInit msg) => do
    let (after, _) ← node.handleInit msg
    return (after, none)
  | receiveHeader header => do
    let chain ← node.state.chain.receiveHeader header
    return ({ node with state := { node.state with chain } }, none)

/-- An accepted header, with the stored headers before the event. -/
structure Acceptance where
  before : HeaderStore
  header : BlockHeader

/-- What a sequence of events makes of a node, and what it has accepted in it. -/
inductive Happens (env : Environment) : Node → List Acceptance → Node → Prop where
  | nil (node : Node) : Happens env node [] node
  | cons {node next after : Node} {event : Event} {accepted : Option BlockHeader}
      {acceptances : List Acceptance}
      (performed : event.perform env node = .ok (next, accepted))
      (rest : Happens env next acceptances after) :
      Happens env node ((accepted.map (Acceptance.mk node.state.chain)).toList ++ acceptances) after

/-! ### One event -/

variable {event : Event} {accepted : Option BlockHeader}

/-- An event receives at most one header, and it accepts no other one. Accepted headers are of
the shard of the node and have the version of this program. -/
theorem of_perform (performed : event.perform env node = .ok (next, accepted)) :
    next.shardIndex = node.shardIndex ∧ ((next.state.chain = node.state.chain ∧ accepted = none) ∨
        ∃ header, node.state.chain.receiveHeader header = .ok next.state.chain ∧
          ∀ other, accepted = some other → other = header ∧
            header.shardIndex = node.shardIndex ∧ header.version = blockVersion) := by
  cases event with
  | receiveHeader header =>
    obtain ⟨chain, received, same⟩ := bind_eq_ok.mp performed
    obtain ⟨rfl, rfl⟩ := Prod.mk.inj (pure_eq_ok.mp same)
    exact ⟨rfl, .inr ⟨header, received, nofun⟩⟩
  | call call =>
    cases call with
    | acceptBlock visits block =>
      obtain ⟨⟨after, returnedNil⟩, called, same⟩ := bind_eq_ok.mp performed
      obtain ⟨rfl, rfl⟩ := Prod.mk.inj (pure_eq_ok.mp same)
      rcases acceptBlock_cases called with
        ⟨_, rfl, rfl⟩ | ⟨_, chain, received, ⟨_, rfl, rfl⟩ | ⟨_, rfl, _⟩⟩
      · exact ⟨rfl, .inl ⟨rfl, rfl⟩⟩
      · exact ⟨rfl, .inr ⟨block.header, received, nofun⟩⟩
      · have tip := newTip_of_acceptBlock called
        exact ⟨tip.shardIndex, .inr ⟨block.header, tip.received, fun other isOther =>
          ⟨(Option.some.inj isOther).symm, tip.shard, tip.version⟩⟩⟩
    | proposeAndAcceptEmptyBlock height =>
      obtain ⟨⟨after, returnedNil⟩, called, same⟩ := bind_eq_ok.mp performed
      obtain ⟨rfl, rfl⟩ := Prod.mk.inj (pure_eq_ok.mp same)
      rcases proposeAndAcceptEmptyBlock_cases called with ⟨rfl, rfl⟩ | ⟨rfl, _, block, tip, _⟩
      · exact ⟨rfl, .inl ⟨rfl, rfl⟩⟩
      · exact ⟨tip.shardIndex, .inr ⟨block.header, tip.received, fun other isOther =>
          ⟨(Option.some.inj isOther).symm.trans tip.prevHeader, tip.shard, tip.version⟩⟩⟩
    | handleInit msg =>
      obtain ⟨⟨after, returnedNil⟩, called, same⟩ := bind_eq_ok.mp performed
      obtain ⟨rfl, rfl⟩ := Prod.mk.inj (pure_eq_ok.mp same)
      rcases handleInit_cases called with rfl | ⟨chain, dPool, received, rfl⟩
      · exact ⟨rfl, .inl ⟨rfl, rfl⟩⟩
      · exact ⟨rfl, .inr ⟨msg.latestHeader, received, nofun⟩⟩

/-! ### Runs -/

variable {shardIndex : ShardIndex} {height : Int} {found : BlockHeader}

/-- A header that is found stays. -/
theorem kept_of_perform (performed : event.perform env node = .ok (next, accepted))
    (isFound : node.state.chain.getShardsHeaderByHeight shardIndex height = some found) :
    next.state.chain.getShardsHeaderByHeight shardIndex height = some found := by
  obtain ⟨-, ⟨unchanged, -⟩ | ⟨header, received, -⟩⟩ := of_perform performed
  · rw [unchanged, isFound]
  · exact HeaderStore.getShardsHeaderByHeight_kept isFound received

theorem kept_of_happens {acceptances : List Acceptance}
    (happens : Happens env node acceptances last)
    (isFound : node.state.chain.getShardsHeaderByHeight shardIndex height = some found) :
    last.state.chain.getShardsHeaderByHeight shardIndex height = some found := by
  induction happens with
  | nil => exact isFound
  | cons performed _ ih =>
    exact ih (kept_of_perform performed isFound)

/-- An accepted header is what is found afterwards, if there was no other one before. -/
theorem found_of_perform {header : BlockHeader}
    (performed : event.perform env node = .ok (next, some header)) :
    next.state.chain.getShardsHeaderByHeight node.shardIndex header.height =
      (node.state.chain.getShardsHeaderByHeight node.shardIndex header.height).or
        (some (Codec.blockHeader.decoded header)) := by
  obtain ⟨-, ⟨-, impossible⟩ | ⟨other, received, known⟩⟩ := of_perform performed
  · cases impossible
  · obtain ⟨rfl, sameShard, version⟩ := known header rfl
    rw [HeaderStore.getShardsHeaderByHeight_receiveHeader received, if_pos]
    exact ⟨sameShard, rfl, by rw [version]; decide⟩

/-- The database has no other header for the height of an accepted one. -/
def Acceptance.Undisputed (shardIndex : ShardIndex) (acceptance : Acceptance) : Prop :=
  ∀ found, acceptance.before.getShardsHeaderByHeight shardIndex acceptance.header.height =
    some found → found = Codec.blockHeader.decoded acceptance.header

/-- In every run, all headers that have been accepted are found for their heights, as they are
read back, exactly if for each of them no other header was stored before it was accepted. -/
theorem accepted_found_iff (env : Environment) (node last : Node) (acceptances : List Acceptance)
    (happens : Happens env node acceptances last) :
    (∀ acceptance ∈ acceptances,
      last.state.chain.getShardsHeaderByHeight node.shardIndex acceptance.header.height =
        some (Codec.blockHeader.decoded acceptance.header)) ↔
      ∀ acceptance ∈ acceptances, acceptance.Undisputed node.shardIndex := by
  induction happens with
  | nil => simp
  | @cons node next after event accepted acceptances performed rest ih =>
    rw [(of_perform performed).1] at ih
    rw [List.forall_mem_append, List.forall_mem_append, ih]
    refine and_congr_left fun _ => ?_
    cases accepted with
    | none => simp
    | some header =>
      simp only [Option.map_some, Option.toList_some, List.mem_singleton, forall_eq]
      have found := found_of_perform performed
      rw [Acceptance.Undisputed]
      cases before : node.state.chain.getShardsHeaderByHeight node.shardIndex header.height with
      | none =>
        rw [before, Option.none_or] at found
        simp [kept_of_happens rest found]
      | some other =>
        rw [before, Option.some_or] at found
        simp [kept_of_happens rest found]

/-- A header that another node has sent for height one. -/
def strangeHeader : BlockHeader := { (default : BlockHeader) with height := 1 }

theorem accepted_receiveHeader {header : BlockHeader}
    (performed : Event.perform env node (.receiveHeader header) = .ok (next, accepted)) :
    accepted = none := by
  obtain ⟨_, _, same⟩ := bind_eq_ok.mp performed
  exact (Prod.mk.inj (pure_eq_ok.mp same)).2.symm

/-- Two empty blocks are accepted, and another header for the first height comes between. -/
theorem accepted_found_emptyBlocks :
    ∃ first second before last,
      Happens .plain (.fresh Bytes32.zero) [⟨⟨[]⟩, first⟩, ⟨before, second⟩] last ∧
      ∀ acceptance ∈ [Acceptance.mk ⟨[]⟩ first, ⟨before, second⟩],
        last.state.chain.getShardsHeaderByHeight 0 acceptance.header.height =
          some (Codec.blockHeader.decoded acceptance.header) := by
  have checked : (do
      let one ← Event.perform .plain (.fresh Bytes32.zero) (.call (.proposeAndAcceptEmptyBlock 1))
      let two ← Event.perform .plain one.1 (.receiveHeader strangeHeader)
      let three ← Event.perform .plain two.1 (.call (.proposeAndAcceptEmptyBlock 2))
      return (one.2.isSome, three.2.map fun header =>
        (two.1.state.chain.getShardsHeaderByHeight 0 header.height).isNone)) =
      (.ok (true, some true) : Go _) := by decide +kernel
  simp only [bind_eq_ok, pure_eq_ok, Prod.exists, Prod.mk.injEq] at checked
  obtain ⟨one, _, performed, two, _, received, last, _, performedNext, isSome, isNew⟩ := checked
  obtain rfl := accepted_receiveHeader received
  obtain ⟨first, rfl⟩ := Option.isSome_iff_exists.mp isSome
  obtain ⟨second, rfl, isNone⟩ := Option.map_eq_some_iff.mp isNew
  have happens := Happens.cons performed (.cons received (.cons performedNext (.nil last)))
  have undisputed : ∀ acceptance ∈ [Acceptance.mk ⟨[]⟩ first, ⟨two.state.chain, second⟩],
      acceptance.Undisputed 0 := by
    have nothing : (⟨[]⟩ : HeaderStore).getShardsHeaderByHeight 0 first.height = none := rfl
    simp [Acceptance.Undisputed, Option.isNone_iff_eq_none.mp isNone, nothing]
  exact ⟨first, second, _, last, happens, (accepted_found_iff _ _ _ _ happens).mpr undisputed⟩

/-- The header that has been sent is found for the height of the accepted block. -/
theorem accepted_not_found :
    ∃ before header last, Happens .plain (.fresh Bytes32.zero) [⟨before, header⟩] last ∧
      last.state.chain.getShardsHeaderByHeight 0 header.height ≠
        some (Codec.blockHeader.decoded header) := by
  have checked : (do
      let (next, _) ← Event.perform .plain (.fresh Bytes32.zero) (.receiveHeader strangeHeader)
      let (last, accepted) ← Event.perform .plain next (.call (.proposeAndAcceptEmptyBlock 1))
      return accepted.map fun header =>
        (header.timeStamp, (last.state.chain.getShardsHeaderByHeight 0 header.height).map
          BlockHeader.timeStamp) : Go (Option (Int × Option Int))) = .ok (some (10, some 0)) := by
    decide +kernel
  simp only [bind_eq_ok, pure_eq_ok, Prod.exists] at checked
  obtain ⟨next, nothing, received, last, accepted, performed, stamps⟩ := checked
  obtain ⟨header, rfl, result⟩ := Option.map_eq_some_iff.mp stamps
  obtain ⟨isTen, isZero⟩ := Prod.mk.inj result
  obtain ⟨found, isFound, isZero⟩ := Option.map_eq_some_iff.mp isZero
  obtain rfl := accepted_receiveHeader received
  refine ⟨next.state.chain, header, last, .cons received (.cons performed (.nil last)), ?_⟩
  rw [isFound]
  intro same
  obtain rfl := Option.some.inj same
  rw [show (Codec.blockHeader.decoded header).timeStamp = header.timeStamp from rfl, isTen] at isZero
  cases isZero

end Node
end MultiVac.Chain
