import MultiVac.Storage.DiskChain
import MultiVac.Wire.Header

/-!
# The recorded heights of a chain

Every call stores the header that it brings, if there is none for its shard and height,
and then lets the recorded height of the shard catch up. So the recorded height is the
frontier of the headers that can be read, whatever the order of the calls.
-/

namespace MultiVac.Storage
namespace DiskBlockChain

open Lib Wire Merkle Ledger

variable {primitives : Primitives} {chain next last : DiskBlockChain}

/-- There is an entry for a shard and height. -/
def Stored (chain : DiskBlockChain) (shardIndex : ShardIndex) (height : Int) : Prop :=
  (chain.chainDB.lookup (.indexAndHeight shardIndex height)).isSome

/-! ### What does not concern the heights -/

/-- The headers and the heights are the same. -/
structure SameHeaders (chain next : DiskBlockChain) : Prop where
  curShardsHeight : next.curShardsHeight = chain.curShardsHeight
  header : ∀ shardIndex height, next.chainDB.lookup (.indexAndHeight shardIndex height) =
    chain.chainDB.lookup (.indexAndHeight shardIndex height)
  shardHeight : ∀ shardIndex, next.chainDB.lookup (.shardHeight shardIndex) =
    chain.chainDB.lookup (.shardHeight shardIndex)

theorem SameHeaders.refl (chain : DiskBlockChain) : SameHeaders chain chain :=
  ⟨rfl, fun _ _ => rfl, fun _ => rfl⟩

theorem SameHeaders.trans (same : SameHeaders chain next)
    (sameLast : SameHeaders next last) : SameHeaders chain last where
  curShardsHeight := sameLast.curShardsHeight.trans same.curShardsHeight
  header := fun shard height =>
    (sameLast.header shard height).trans (same.header shard height)
  shardHeight := fun shard =>
    (sameLast.shardHeight shard).trans (same.shardHeight shard)

/-- The key of a header or of a height. -/
def concernsHeights : ChainKey → Bool
  | .indexAndHeight _ _ => true
  | .shardHeight _ => true
  | _ => false

variable {key : ChainKey}

theorem sameHeaders_put (chain : DiskBlockChain) (other : concernsHeights key = false)
    (value : ChainValue) : SameHeaders chain (chain.put key value) where
  curShardsHeight := rfl
  header := fun shard height => AList.lookup_insert_ne (by rintro rfl; cases other)
  shardHeight := fun shard => AList.lookup_insert_ne (by rintro rfl; cases other)

variable {saved : Bool}

theorem sameHeaders_save {α : Type} {codec : Codec α} (other : concernsHeights key = false)
    {value : α}
    (saves : chain.save codec key value = .ok (saved, next)) : SameHeaders chain next := by
  obtain ⟨encoded, -, rest⟩ := bind_eq_ok.mp saves
  cases encoded with
  | none =>
    obtain ⟨-, rfl⟩ := Prod.mk.inj (pure_eq_ok.mp rest)
    exact .refl _
  | some dataToStore =>
    obtain ⟨-, rfl⟩ := Prod.mk.inj (pure_eq_ok.mp rest)
    exact sameHeaders_put chain other _

theorem sameHeaders_receiveSmartContracts {scs : List SmartContract}
    (received : chain.receiveSmartContracts scs = .ok (saved, next)) : SameHeaders chain next := by
  induction scs generalizing chain with
  | nil =>
    cases received
    exact .refl _
  | cons sc scs ih =>
    obtain ⟨⟨stored, between⟩, saves, rest⟩ := bind_eq_ok.mp received
    have same := sameHeaders_save rfl saves
    cases stored with
    | false =>
      cases rest
      exact same
    | true => exact same.trans (ih rest)

theorem sameHeaders_saveSmartContractOut {out : OutState}
    (saves : chain.saveSmartContractOut primitives out = .ok (saved, next)) :
    SameHeaders chain next := by
  rw [saveSmartContractOut] at saves
  split at saves
  · exact sameHeaders_save rfl saves
  split at saves
  · exact sameHeaders_save rfl saves
  · obtain ⟨-, rfl⟩ := Prod.mk.inj (pure_eq_ok.mp saves)
    exact .refl _

variable {outs : List OutState}

theorem sameHeaders_saveBlockOuts
    (saves : chain.saveBlockOuts primitives outs = .ok next) : SameHeaders chain next := by
  induction outs generalizing chain with
  | nil =>
    cases saves
    exact .refl _
  | cons out outs ih =>
    obtain ⟨⟨_, between⟩, savesOut, rest⟩ := bind_eq_ok.mp saves
    exact (sameHeaders_saveSmartContractOut savesOut).trans (ih rest)

theorem sameHeaders_saveSlimBlockOuts
    (saves : chain.saveSlimBlockOuts primitives outs = .ok (saved, next)) :
    SameHeaders chain next := by
  induction outs generalizing chain with
  | nil =>
    cases saves
    exact .refl _
  | cons out outs ih =>
    obtain ⟨⟨stored, between⟩, savesOut, rest⟩ := bind_eq_ok.mp saves
    have same := sameHeaders_saveSmartContractOut savesOut
    cases stored with
    | false =>
      cases rest
      exact same
    | true => exact same.trans (ih rest)

variable {accepted : Bool}

theorem of_receiveBlock {block : MsgBlock}
    (received : chain.receiveBlock primitives block = .ok (accepted, next)) :
    ∃ stored between, chain.receiveAllHeader block.header = .ok (stored, between) ∧
      SameHeaders between next := by
  obtain ⟨⟨stored, between⟩, receivedHeader, rest⟩ := bind_eq_ok.mp received
  refine ⟨stored, between, receivedHeader, ?_⟩
  cases stored with
  | false =>
    cases rest
    exact .refl _
  | true =>
    obtain ⟨encoded, -, rest⟩ := bind_eq_ok.mp rest
    cases encoded with
    | none =>
      cases rest
      exact .refl _
    | some dataToStore =>
      simp only [bind_eq_ok, pure_eq_ok, Prod.exists] at rest
      obtain ⟨hash, -, _, contracts, isContracts, outs, isOuts, same⟩ := rest
      obtain ⟨-, rfl⟩ := Prod.mk.inj same
      have put : SameHeaders between (between.put (.block hash) (.bytes dataToStore)) :=
        sameHeaders_put between rfl _
      exact (put.trans (sameHeaders_receiveSmartContracts isContracts)).trans
        (sameHeaders_saveBlockOuts isOuts)

theorem of_receiveSlimBlock {msg : SlimBlock}
    (received : chain.receiveSlimBlock primitives msg = .ok (accepted, next)) :
    ∃ stored between, chain.receiveAllHeader msg.header = .ok (stored, between) ∧
      SameHeaders between next := by
  obtain ⟨⟨stored, between⟩, receivedHeader, rest⟩ := bind_eq_ok.mp received
  refine ⟨stored, between, receivedHeader, ?_⟩
  cases stored with
  | false =>
    cases rest
    exact .refl _
  | true =>
    obtain ⟨⟨saved, savedChain⟩, saves, rest⟩ := bind_eq_ok.mp rest
    have same := sameHeaders_save rfl saves
    cases saved with
    | false =>
      cases rest
      exact same
    | true =>
      obtain ⟨⟨saved, contracts⟩, receives, rest⟩ := bind_eq_ok.mp rest
      have same := same.trans (sameHeaders_receiveSmartContracts receives)
      cases saved with
      | false =>
        cases rest
        exact same
      | true => exact same.trans (sameHeaders_saveSlimBlockOuts rest)

variable {call : ReceiveCall}

/-- A call receives its header and does nothing else that concerns the heights. -/
theorem of_receive (received : chain.receive primitives call = .ok (accepted, next)) :
    ∃ stored between, chain.receiveAllHeader (receivedHeader call) = .ok (stored, between) ∧
      SameHeaders between next := by
  cases call with
  | header header => exact ⟨accepted, next, received, .refl next⟩
  | block block => exact of_receiveBlock received
  | slimBlock msg => exact of_receiveSlimBlock received

/-! ### The catch-up loop -/

variable {shard : ShardIndex} {height : Int}

theorem containsShardsBlock_congr (same : next.chainDB.lookup (.indexAndHeight shard height) =
      chain.chainDB.lookup (.indexAndHeight shard height)) :
    next.containsShardsBlock shard height = chain.containsShardsBlock shard height := by
  rw [containsShardsBlock, containsShardsBlock, getShardsHeaderByHeight, getShardsHeaderByHeight,
    same]

theorem stored_of_containsShardsBlock (contains : chain.containsShardsBlock shard height = true) :
    chain.Stored shard height := by
  rw [Stored]
  cases found : chain.chainDB.lookup (.indexAndHeight shard height) with
  | some _ => rfl
  | none => simp [containsShardsBlock, getShardsHeaderByHeight, found] at contains

/-- The height in a key of a header of a shard. -/
def heightOfKey (shardIndex : ShardIndex) : ChainKey → Option Int
  | .indexAndHeight index height => if index = shardIndex then some height else none
  | _ => none

/-- The database has enough entries for the loop to find the frontier. -/
theorem isFrontier_nextHeight (nonnegative : 0 ≤ chain.getShardsHeight shard)
    (filled : ∀ height, 0 < height → height ≤ chain.getShardsHeight shard →
      chain.containsShardsBlock shard height = true) :
    IsFrontier (chain.containsShardsBlock shard · = true) 0 (chain.nextHeight shard) := by
  let heights := (chain.chainDB.keys.filterMap (heightOfKey shard)).toFinset
  refine isFrontier_advance heights (fun height contains => ?_) ?_ nonnegative filled
  · have isStored := stored_of_containsShardsBlock contains
    rw [Stored, AList.lookup_isSome] at isStored
    refine List.mem_toFinset.mpr (List.mem_filterMap.mpr ⟨_, isStored, ?_⟩)
    exact if_pos rfl
  · calc (heights.filter (chain.getShardsHeight shard < ·)).card
        ≤ heights.card := Finset.card_filter_le _ _
      _ ≤ (chain.chainDB.keys.filterMap (heightOfKey shard)).length := List.toFinset_card_le _
      _ ≤ chain.chainDB.keys.length := List.length_filterMap_le _ _
      _ = chain.chainDB.entries.length := List.length_map _

/-- The recorded height is the frontier of the headers that can be read, and it is what the
database has, where no entry stands for zero. -/
structure Tracked (chain : DiskBlockChain) (shardIndex : ShardIndex) : Prop where
  isFrontier : IsFrontier (chain.containsShardsBlock shardIndex · = true) 0
    (chain.getShardsHeight shardIndex)
  persisted : (chain.chainDB.lookup (.shardHeight shardIndex)).getD (.height 0) =
    .height (chain.getShardsHeight shardIndex)

theorem SameHeaders.containsShardsBlock (same : SameHeaders chain next) (shard : ShardIndex)
    (height : Int) :
    next.containsShardsBlock shard height = chain.containsShardsBlock shard height :=
  containsShardsBlock_congr (same.header shard height)

theorem SameHeaders.getShardsHeight (same : SameHeaders chain next) (shard : ShardIndex) :
    next.getShardsHeight shard = chain.getShardsHeight shard := by
  rw [DiskBlockChain.getShardsHeight, same.curShardsHeight]
  rfl

theorem Tracked.congr (tracked : chain.Tracked shard)
    (contains : ∀ height, next.containsShardsBlock shard height =
      chain.containsShardsBlock shard height)
    (sameHeight : next.getShardsHeight shard = chain.getShardsHeight shard)
    (persisted : next.chainDB.lookup (.shardHeight shard) =
      chain.chainDB.lookup (.shardHeight shard)) : next.Tracked shard := by
  refine ⟨?_, ?_⟩
  · have isFrontier := tracked.isFrontier
    rw [← sameHeight] at isFrontier
    simpa only [contains] using isFrontier
  · rw [persisted, sameHeight, tracked.persisted]

theorem curShardsHeight_updateHeight (chain : DiskBlockChain) {shard other : ShardIndex}
    (different : other ≠ shard) :
    (chain.updateHeight shard).curShardsHeight.lookup other =
      chain.curShardsHeight.lookup other := by
  simp only [updateHeight, put]
  split
  · rfl
  · exact AList.lookup_insert_ne different

theorem getShardsHeight_updateHeight (chain : DiskBlockChain) (shard other : ShardIndex) :
    (chain.updateHeight shard).getShardsHeight other =
      if other = shard then chain.nextHeight shard else chain.getShardsHeight other := by
  by_cases same : other = shard
  · subst same
    rw [if_pos rfl]
    simp only [updateHeight, put]
    rw [getShardsHeight]
    split
    · rename_i unchanged
      exact unchanged.symm
    · rw [AList.lookup_insert, Option.getD_some]
  · rw [if_neg same, getShardsHeight, curShardsHeight_updateHeight chain same, getShardsHeight]

theorem header_updateHeight (chain : DiskBlockChain) (shard other : ShardIndex) (height : Int) :
    (chain.updateHeight shard).chainDB.lookup (.indexAndHeight other height) =
      chain.chainDB.lookup (.indexAndHeight other height) :=
  AList.lookup_insert_ne nofun

/-- The loop lets the height of a shard catch up with the headers. -/
theorem tracked_updateHeight (nonnegative : 0 ≤ chain.getShardsHeight shard)
    (filled : ∀ height, 0 < height → height ≤ chain.getShardsHeight shard →
      chain.containsShardsBlock shard height = true) :
    (chain.updateHeight shard).Tracked shard := by
  have isFrontier := isFrontier_nextHeight nonnegative filled
  have isHeight := getShardsHeight_updateHeight chain shard shard
  rw [if_pos rfl] at isHeight
  have contains : ∀ height, (chain.updateHeight shard).containsShardsBlock shard height =
      chain.containsShardsBlock shard height := by
    intro height
    exact containsShardsBlock_congr (header_updateHeight chain shard shard height)
  refine ⟨?_, ?_⟩
  · rw [isHeight]
    simpa only [contains] using isFrontier
  · rw [isHeight]
    have persisted : (chain.updateHeight shard).chainDB.lookup (.shardHeight shard) =
        some (.height (chain.nextHeight shard)) := AList.lookup_insert _
    rw [persisted, Option.getD_some]

/-! ### Headers that arrive -/

/-- The database can read the header back. -/
def Readable (header : BlockHeader) : Prop := header.version.natAbs < 2 ^ 24

instance (header : BlockHeader) : Decidable (Readable header) :=
  inferInstanceAs (Decidable (_ < _))

/-- What the arrival of a header changes. -/
structure Arrives (header : BlockHeader) (chain next : DiskBlockChain) : Prop where
  contains : ∀ shardIndex height, next.containsShardsBlock shardIndex height = true ↔
    chain.containsShardsBlock shardIndex height = true ∨
      (header.shardIndex = shardIndex ∧ header.height = height ∧ Readable header)
  stored : ∀ shardIndex height, next.Stored shardIndex height ↔
    chain.Stored shardIndex height ∨ (header.shardIndex = shardIndex ∧ header.height = height)
  tracked : ∀ shardIndex, chain.Tracked shardIndex → next.Tracked shardIndex
  others : ∀ shardIndex, shardIndex ≠ header.shardIndex →
    next.curShardsHeight.lookup shardIndex = chain.curShardsHeight.lookup shardIndex

theorem lookup_put (chain : DiskBlockChain) (index shard : ShardIndex) (place height : Int)
    (value : ChainValue) :
    (chain.put (.indexAndHeight index place) value).chainDB.lookup
        (.indexAndHeight shard height) =
      if index = shard ∧ place = height then some value
      else chain.chainDB.lookup (.indexAndHeight shard height) := by
  by_cases isKey : index = shard ∧ place = height
  · rw [if_pos isKey, isKey.1, isKey.2]
    exact AList.lookup_insert _
  · rw [if_neg isKey]
    refine AList.lookup_insert_ne fun same => isKey ?_
    cases same
    exact ⟨rfl, rfl⟩

variable {header : BlockHeader}

theorem Arrives.then_same (arrives : Arrives header chain next)
    (same : SameHeaders next last) : Arrives header chain last where
  contains := by
    intro shard height
    rw [same.containsShardsBlock, arrives.contains]
  stored := by
    intro shard height
    rw [← arrives.stored, Stored, Stored, same.header]
  tracked := fun shard tracked => (arrives.tracked shard tracked).congr
    (same.containsShardsBlock shard) (same.getShardsHeight shard)
    (same.shardHeight shard)
  others := by
    intro shard other
    rw [same.curShardsHeight, arrives.others shard other]

theorem arrives_of_containsShardsBlock
    (contains : chain.containsShardsBlock header.shardIndex header.height = true) :
    Arrives header chain chain := by
  refine ⟨fun shard height => ?_, fun shard height => ?_, fun _ tracked => tracked,
    fun _ _ => rfl⟩
  · refine (or_iff_left_of_imp ?_).symm
    rintro ⟨rfl, rfl, -⟩
    exact contains
  · refine (or_iff_left_of_imp ?_).symm
    rintro ⟨rfl, rfl⟩
    exact stored_of_containsShardsBlock contains

/-- A header is stored for its shard and height. -/
theorem containsShardsBlock_put {dataToSave : Bytes}
    (absent : chain.containsShardsBlock header.shardIndex header.height = false)
    (encoded : encodeToBytes Codec.blockHeader header = .ok dataToSave) (shard : ShardIndex)
    (height : Int) :
    (chain.put (.indexAndHeight header.shardIndex header.height)
        (.bytes dataToSave)).containsShardsBlock shard height = true ↔
      chain.containsShardsBlock shard height = true ∨
        (header.shardIndex = shard ∧ header.height = height ∧ Readable header) := by
  have found := lookup_put chain header.shardIndex shard header.height height (.bytes dataToSave)
  by_cases isKey : header.shardIndex = shard ∧ header.height = height
  · rw [if_pos isKey] at found
    obtain ⟨rfl, rfl⟩ := isKey
    simp only [absent, Bool.false_eq_true, false_or, true_and]
    rw [Readable, ← Codec.isSome_decodeBytes_blockHeader_iff encoded, containsShardsBlock,
      getShardsHeaderByHeight, found]
  · rw [if_neg isKey] at found
    rw [containsShardsBlock_congr found]
    exact (or_iff_left fun isHeader => isKey ⟨isHeader.1, isHeader.2.1⟩).symm

theorem stored_put (chain : DiskBlockChain) (index shard : ShardIndex) (place height : Int)
    (value : ChainValue) :
    (chain.put (.indexAndHeight index place) value).Stored shard height ↔
      chain.Stored shard height ∨ (index = shard ∧ place = height) := by
  rw [Stored, lookup_put]
  by_cases isKey : index = shard ∧ place = height
  · simp [isKey]
  · rw [if_neg isKey, or_iff_left isKey, Stored]

variable {stored : Bool}

/-- A header is known, or it is stored under its hash, then under its shard and height, and
the height of the shard catches up. -/
theorem receiveAllHeader_cases (received : chain.receiveAllHeader header = .ok (stored, next)) :
    ∃ hash, HeaderStore.blockHeaderHash header = .ok hash ∧
      (chain.containsShardsBlock header.shardIndex header.height = true ∧ next = chain ∨
        chain.containsShardsBlock header.shardIndex header.height = false ∧ ∃ dataToSave,
          encodeToBytes Codec.blockHeader header = .ok dataToSave ∧
          next = ((chain.put (.header hash) (.bytes dataToSave)).put
            (.indexAndHeight header.shardIndex header.height) (.bytes dataToSave)).updateHeight
              header.shardIndex) := by
  obtain ⟨hash, isHash, rest⟩ := bind_eq_ok.mp received
  refine ⟨hash, isHash, ?_⟩
  split at rest
  · rename_i contains
    exact .inl ⟨contains, (Prod.mk.inj (pure_eq_ok.mp rest)).2.symm⟩
  rename_i absent
  obtain ⟨encoded, isEncoded, rest⟩ := bind_eq_ok.mp rest
  cases encoded with
  | none =>
    obtain ⟨text, failed⟩ := (Go.attempt_eq_ok_none _).mp isEncoded
    cases Rlp.bytesOf_failsOnly Codec.blockHeader_failsOnly header _ failed
  | some dataToSave =>
    exact .inr ⟨Bool.eq_false_iff.mpr absent, dataToSave, (Go.attempt_eq_ok_some _ _).mp isEncoded,
      (Prod.mk.inj (pure_eq_ok.mp rest)).2.symm⟩

theorem arrives_of_receiveAllHeader
    (received : chain.receiveAllHeader header = .ok (stored, next)) :
    Arrives header chain next := by
  obtain ⟨headerHash, -, ⟨contains, rfl⟩ | ⟨absent, dataToSave, written, rfl⟩⟩ :=
    receiveAllHeader_cases received
  · exact arrives_of_containsShardsBlock contains
  -- first the entry by hash, which is not looked at, then the entry by height
  let byHash := chain.put (.header headerHash) (.bytes dataToSave)
  let byHeight := byHash.put (.indexAndHeight header.shardIndex header.height) (.bytes dataToSave)
  have same : SameHeaders chain byHash := sameHeaders_put chain rfl _
  have absentByHash : byHash.containsShardsBlock header.shardIndex header.height = false := by
    rw [same.containsShardsBlock, absent]
  have contains : ∀ shard height, byHeight.containsShardsBlock shard height = true ↔
      chain.containsShardsBlock shard height = true ∨
        (header.shardIndex = shard ∧ header.height = height ∧ Readable header) := by
    intro shard height
    rw [← same.containsShardsBlock]
    exact containsShardsBlock_put absentByHash written shard height
  have updated : ∀ shard height,
      (byHeight.updateHeight header.shardIndex).containsShardsBlock shard height =
        byHeight.containsShardsBlock shard height := by
    intro shard height
    exact containsShardsBlock_congr (header_updateHeight _ _ _ _)
  refine ⟨fun shard height => ?_, fun shard height => ?_,
    fun shard tracked => ?_, fun shard isOther => ?_⟩
  · rw [← contains, ← updated]
  · have unchanged : (byHeight.updateHeight header.shardIndex).Stored shard height ↔
        byHeight.Stored shard height := by
      rw [Stored, header_updateHeight, Stored]
    refine unchanged.trans ((stored_put _ _ _ _ _ _).trans (or_congr_left ?_))
    rw [Stored, Stored, same.header]
  · have height_eq : ∀ index, byHeight.getShardsHeight index = chain.getShardsHeight index :=
      fun index => same.getShardsHeight index
    by_cases isShard : shard = header.shardIndex
    · subst isShard
      refine tracked_updateHeight ?_ fun height positive below => ?_
      · rw [height_eq]
        exact tracked.isFrontier.base_le
      · rw [height_eq] at below
        exact (contains _ _).mpr (.inl (tracked.isFrontier.filled height positive below))
    · refine tracked.congr (fun height => ?_) ?_ ?_
      · rw [updated, Bool.eq_iff_iff, contains]
        exact or_iff_left fun isHeader => isShard isHeader.1.symm
      · exact (getShardsHeight_updateHeight byHeight header.shardIndex shard).trans
          ((if_neg isShard).trans (height_eq shard))
      · have different : ChainKey.shardHeight shard ≠ .shardHeight header.shardIndex :=
          fun same => isShard (ChainKey.shardHeight.inj same)
        rw [← same.shardHeight]
        exact (AList.lookup_insert_ne different).trans (AList.lookup_insert_ne nofun)
  · exact curShardsHeight_updateHeight byHeight isOther

/-! ### The chain as a store of headers -/

/-- The chain returns the headers of a header store. -/
def Refines (chain : DiskBlockChain) (store : HeaderStore) : Prop :=
  ∀ shardIndex height, chain.getShardsHeaderByHeight shardIndex height =
    store.getShardsHeaderByHeight shardIndex height

theorem getShardsHeaderByHeight_congr (same : next.chainDB.lookup (.indexAndHeight shard height) =
      chain.chainDB.lookup (.indexAndHeight shard height)) :
    next.getShardsHeaderByHeight shard height =
      chain.getShardsHeaderByHeight shard height := by
  rw [getShardsHeaderByHeight, getShardsHeaderByHeight, same]

theorem getShardsHeaderByHeight_append (store : HeaderStore) (header : BlockHeader)
    {stored : BlockHeader} (isDecoded : stored = Codec.blockHeader.decoded header)
    (shard : ShardIndex) (height : Int) :
    HeaderStore.getShardsHeaderByHeight ⟨store.headers ++ [stored]⟩ shard height =
      (store.getShardsHeaderByHeight shard height).or
        (if header.shardIndex = shard ∧ header.height = height then some stored else none) := by
  have key : stored.shardIndex = header.shardIndex ∧ stored.height = header.height := by
    rw [isDecoded]
    exact ⟨Codec.decoded_uint32 header.shardIndex, rfl⟩
  rw [HeaderStore.getShardsHeaderByHeight, List.find?_append, HeaderStore.getShardsHeaderByHeight,
    List.find?_singleton, key.1, key.2]
  simp only [decide_eq_true_eq]

variable {store : HeaderStore}

theorem Refines.receiveAllHeader (refines : chain.Refines store)
    (received : chain.receiveAllHeader header = .ok (stored, next)) :
    ∃ after, store.receiveHeader header = .ok after ∧ next.Refines after := by
  obtain ⟨headerHash, isHash, cases⟩ := receiveAllHeader_cases received
  rw [HeaderStore.receiveHeader, isHash]
  simp only [← refines header.shardIndex header.height]
  obtain ⟨contains, rfl⟩ | ⟨absent, dataToSave, written, rfl⟩ := cases
  · exact ⟨store, if_pos contains, refines⟩
  have unknown : chain.getShardsHeaderByHeight header.shardIndex header.height = none :=
    Option.isSome_eq_false_iff.mp absent |> Option.isNone_iff_eq_none.mp
  let byHash := chain.put (.header headerHash) (.bytes dataToSave)
  have lookup_next : ∀ shard height, ((byHash.put
      (.indexAndHeight header.shardIndex header.height) (.bytes dataToSave)).updateHeight
        header.shardIndex).getShardsHeaderByHeight shard height =
      if header.shardIndex = shard ∧ header.height = height then
        decodeBytes Codec.blockHeader dataToSave
      else store.getShardsHeaderByHeight shard height := by
    intro shard height
    rw [getShardsHeaderByHeight_congr (header_updateHeight _ _ _ _), ← refines,
      getShardsHeaderByHeight, lookup_put]
    by_cases isKey : header.shardIndex = shard ∧ header.height = height
    · rw [if_pos isKey, if_pos isKey]
    · rw [if_neg isKey, if_neg isKey]
      exact getShardsHeaderByHeight_congr (AList.lookup_insert_ne nofun)
  have absentInStore : store.getShardsHeaderByHeight header.shardIndex header.height = none :=
    (refines _ _).symm.trans unknown
  simp only [unknown, Option.isSome_none, Bool.false_eq_true, if_false, written]
  cases isRead : decodeBytes Codec.blockHeader dataToSave with
  | none =>
    refine ⟨store, by simp [isRead], fun shard height => ?_⟩
    rw [lookup_next, isRead]
    split
    · rename_i isKey
      rw [← isKey.1, ← isKey.2, absentInStore]
    · rfl
  | some kept =>
    have isDecoded : kept = Codec.blockHeader.decoded header :=
      (Rlp.bytesOf Fault.panic Codec.blockHeader).read_of_write written kept isRead
    refine ⟨⟨store.headers ++ [kept]⟩, by simp [isRead], fun shard height => ?_⟩
    rw [lookup_next, isRead, getShardsHeaderByHeight_append store header isDecoded]
    split
    · rename_i isKey
      rw [← isKey.1, ← isKey.2, absentInStore, Option.none_or]
    · rw [Option.or_none]

/-- Every call keeps the chain in step with a store that only receives headers. -/
theorem Refines.receive (refines : chain.Refines store)
    (received : chain.receive primitives call = .ok (accepted, next)) :
    ∃ after, store.receiveHeader (receivedHeader call) = .ok after ∧ next.Refines after := by
  obtain ⟨stored, between, isReceived, same⟩ := of_receive received
  obtain ⟨after, receives, refinesBetween⟩ := refines.receiveAllHeader isReceived
  refine ⟨after, receives, fun shard height => ?_⟩
  rw [getShardsHeaderByHeight_congr (same.header shard height), refinesBetween]

/-! ### Runs -/

/-- A header for a shard and height is among those of the calls. -/
def Heard (shardIndex : ShardIndex) (calls : List ReceiveCall) (height : Int) : Prop :=
  ∃ call ∈ calls, (receivedHeader call).shardIndex = shardIndex ∧
    (receivedHeader call).height = height

/-- A header for a shard and height that can be read is among those of the calls. -/
def HeardReadable (shardIndex : ShardIndex) (calls : List ReceiveCall) (height : Int) : Prop :=
  ∃ call ∈ calls, (receivedHeader call).shardIndex = shardIndex ∧
    (receivedHeader call).height = height ∧ Readable (receivedHeader call)

variable {calls : List ReceiveCall}

theorem of_receiveAll (ran : chain.receiveAll primitives calls = .ok last) :
    (∀ shard height, last.containsShardsBlock shard height = true ↔
      chain.containsShardsBlock shard height = true ∨ HeardReadable shard calls height) ∧
    (∀ shard height, last.Stored shard height ↔
      chain.Stored shard height ∨ Heard shard calls height) ∧
    ∀ shard, chain.Tracked shard → last.Tracked shard := by
  induction calls generalizing chain with
  | nil =>
    obtain rfl := pure_eq_ok.mp ran
    simp [HeardReadable, Heard]
  | cons call calls ih =>
    rw [receiveAll, List.foldlM_cons, bind_eq_ok] at ran
    obtain ⟨next, stepped, rest⟩ := ran
    obtain ⟨⟨accepted, after⟩, received, isNext⟩ := map_eq_ok.mp stepped
    obtain rfl : after = next := isNext
    obtain ⟨stored, between, receivedHeader, same⟩ := of_receive received
    have arrives := (arrives_of_receiveAllHeader receivedHeader).then_same same
    obtain ⟨contains, stored, tracked⟩ := ih rest
    refine ⟨fun shard height => ?_, fun shard height => ?_, fun shard before => ?_⟩
    · rw [contains, arrives.contains]
      simp only [HeardReadable, List.exists_mem_cons_iff, or_assoc]
    · rw [stored, arrives.stored]
      simp only [Heard, List.exists_mem_cons_iff, or_assoc]
    · exact tracked shard (arrives.tracked shard before)

/-- After any run the chain returns the headers of a store that received only headers. -/
theorem refines_receiveAll (refines : chain.Refines store)
    (ran : chain.receiveAll primitives calls = .ok last) :
    ∃ after, (calls.map receivedHeader).foldlM HeaderStore.receiveHeader store = .ok after ∧
      last.Refines after := by
  induction calls generalizing chain store with
  | nil =>
    obtain rfl := pure_eq_ok.mp ran
    exact ⟨store, rfl, refines⟩
  | cons call calls ih =>
    rw [receiveAll, List.foldlM_cons, bind_eq_ok] at ran
    obtain ⟨next, stepped, rest⟩ := ran
    obtain ⟨⟨accepted, between⟩, received, rfl⟩ := map_eq_ok.mp stepped
    obtain ⟨middle, receives, refinesNext⟩ := refines.receive received
    obtain ⟨after, receivesRest, refinesLast⟩ := ih refinesNext rest
    exact ⟨after, bind_eq_ok.mpr ⟨middle, receives, receivesRest⟩, refinesLast⟩

/-! ### The start -/

/-- What is computed of a genesis block when the program starts. -/
structure GenesisData where
  body : BlockBody
  bodyHash : Hash
  outsMerkleRoot : MerkleHash
  shardLedgerMerkleRoot : MerkleHash

/-- `genesis.GenesisBlocks`. -/
def genesisBlock (data : ShardIndex → GenesisData) (shardIndex : ShardIndex) : MsgBlock where
  header := { (default : BlockHeader) with
    version := 1
    shardIndex
    height := 1
    prevBlockHeader := Bytes32.zero
    blockBodyHash := (data shardIndex).bodyHash
    outsMerkleRoot := (data shardIndex).outsMerkleRoot
    shardLedgerMerkleRoot := (data shardIndex).shardLedgerMerkleRoot }
  body := (data shardIndex).body

/-- The genesis blocks of some shards have been loaded, and nothing else. -/
structure Opened (done : List ShardIndex) (chain : DiskBlockChain) : Prop where
  contains : ∀ shardIndex height, chain.containsShardsBlock shardIndex height = true ↔
    shardIndex ∈ done ∧ height = 1
  stored : ∀ shardIndex height, chain.Stored shardIndex height ↔ shardIndex ∈ done ∧ height = 1
  tracked : ∀ shardIndex, chain.Tracked shardIndex
  unknown : ∀ shardIndex, shardIndex ∉ done → chain.curShardsHeight.lookup shardIndex = none

theorem opened_empty : Opened [] ⟨∅, ∅⟩ := by
  have contains : ∀ shard height,
      containsShardsBlock ⟨∅, ∅⟩ shard height = false := fun _ _ => rfl
  refine ⟨fun shard height => ?_, fun shard height => ?_, fun shard => ?_,
    fun _ _ => rfl⟩
  · simp [contains]
  · simp [Stored]
  · refine ⟨⟨le_refl _, fun height positive below => ?_, ?_⟩, rfl⟩
    · have : height ≤ 0 := below
      omega
    · simp [contains]

variable {done : List ShardIndex}

/-- After the genesis block, the height of a shard is one. -/
theorem Opened.getShardsHeight (opened : Opened done chain)
    (inDone : shard ∈ done) : chain.getShardsHeight shard = 1 := by
  refine (opened.tracked shard).isFrontier.unique ⟨by norm_num, ?_, ?_⟩
  · intro height positive below
    exact (opened.contains shard height).mpr ⟨inDone, by omega⟩
  · intro contains
    have := ((opened.contains shard _).mp contains).2
    omega

variable {data : ShardIndex → GenesisData}

theorem Opened.loadGenesis (opened : Opened done chain)
    (loaded : loadGenesis primitives (genesisBlock data) chain shard = .ok next) :
    Opened (shard :: done) next := by
  rw [DiskBlockChain.loadGenesis] at loaded
  split at loaded
  · rename_i known
    obtain rfl := pure_eq_ok.mp loaded
    have inDone : shard ∈ done := by
      by_contra notIn
      rw [opened.unknown shard notIn] at known
      cases known
    have same : ∀ other, other ∈ shard :: done ↔ other ∈ done := by
      intro other
      rw [List.mem_cons, or_iff_right_of_imp]
      rintro rfl
      exact inDone
    refine ⟨?_, ?_, opened.tracked, ?_⟩
    · simpa only [same] using opened.contains
    · simpa only [same] using opened.stored
    · simpa only [same] using opened.unknown
  · simp only [bind_eq_ok, Prod.exists, pure_eq_ok] at loaded
    obtain ⟨ok, received, isReceived, _, _, rfl⟩ := loaded
    obtain ⟨_, between, receivedHeader, same⟩ := of_receiveBlock isReceived
    have arrives := (arrives_of_receiveAllHeader receivedHeader).then_same same
    have readable : Readable (genesisBlock data shard).header := show (1 : Int).natAbs < _ by
      norm_num
    have isGenesis : ∀ other height, (other ∈ done ∧ height = 1 ∨
        shard = other ∧ (1 : Int) = height) ↔ other ∈ shard :: done ∧ height = 1 := by
      intro other height
      rw [List.mem_cons, or_and_right, or_comm, eq_comm, eq_comm (a := (1 : Int))]
    have openedNext : Opened (shard :: done) received := by
      refine ⟨fun other height => ?_, fun other height => ?_, fun other => ?_, fun other notIn => ?_⟩
      · rw [← isGenesis, arrives.contains, opened.contains]
        exact or_congr_right ⟨fun header => ⟨header.1, header.2.1⟩,
          fun header => ⟨header.1, header.2, readable⟩⟩
      · rw [← isGenesis, arrives.stored, opened.stored]
        rfl
      · exact arrives.tracked other (opened.tracked other)
      · rw [List.mem_cons, not_or] at notIn
        rw [arrives.others other notIn.1, opened.unknown other notIn.2]
    -- the height that is written again is the recorded one
    have height_eq : ∀ other, DiskBlockChain.getShardsHeight { received with
        curShardsHeight := received.curShardsHeight.insert shard 1 } other =
          received.getShardsHeight other := by
      intro other
      by_cases isShard : other = shard
      · subst isShard
        rw [openedNext.getShardsHeight List.mem_cons_self, DiskBlockChain.getShardsHeight,
          AList.lookup_insert, Option.getD_some]
      · rw [DiskBlockChain.getShardsHeight, AList.lookup_insert_ne isShard]
        rfl
    refine { openedNext with tracked := fun other => ?_, unknown := fun other notIn => ?_ }
    · exact (openedNext.tracked other).congr (fun _ => rfl) (height_eq other) rfl
    · have different : other ≠ shard := by
        rintro rfl
        exact notIn List.mem_cons_self
      rw [AList.lookup_insert_ne different]
      exact openedNext.unknown other notIn

/-- Once the chain is open, it has the genesis blocks. -/
theorem opened_newDiskBlockChain
    (opens : newDiskBlockChain primitives (genesisBlock data) ∅ = .ok chain) :
    Opened shardList.reverse chain := by
  have start : shardList.foldl loadHeight ⟨∅, ∅⟩ = ⟨∅, ∅⟩ := rfl
  rw [newDiskBlockChain, start] at opens
  have loads : ∀ (shards done : List ShardIndex) (before : DiskBlockChain), Opened done before →
      shards.foldlM (DiskBlockChain.loadGenesis primitives (genesisBlock data)) before = .ok chain →
        Opened (shards.reverse ++ done) chain := by
    intro shards
    induction shards with
    | nil =>
      intro done before opened loaded
      obtain rfl := pure_eq_ok.mp loaded
      exact opened
    | cons shard shards ih =>
      intro done before opened loaded
      rw [List.foldlM_cons, bind_eq_ok] at loaded
      obtain ⟨between, isLoaded, rest⟩ := loaded
      rw [List.reverse_cons, List.append_assoc, List.singleton_append]
      exact ih _ between (opened.loadGenesis isLoaded) rest
  have loaded := loads shardList [] _ opened_empty opens
  rwa [List.append_nil] at loaded

/-- The height of a shard after any calls: the headers of the genesis block and of the calls
are stored, and the recorded height is the frontier of those that can be read. -/
theorem of_calls (inList : shard ∈ shardList)
    (opens : newDiskBlockChain primitives (genesisBlock data) ∅ = .ok chain)
    (ran : chain.receiveAll primitives calls = .ok last) :
    IsFrontier (fun height => height = 1 ∨ HeardReadable shard calls height) 0
        (last.getShardsHeight shard) ∧
      (∀ height, last.Stored shard height ↔ height = 1 ∨ Heard shard calls height) ∧
      last.chainDB.lookup (.shardHeight shard) =
        some (.height (last.getShardsHeight shard)) := by
  have opened := opened_newDiskBlockChain opens
  have inDone : shard ∈ shardList.reverse := List.mem_reverse.mpr inList
  obtain ⟨contains, stored, tracked⟩ := of_receiveAll ran
  obtain ⟨isFrontier, persisted⟩ := tracked shard (opened.tracked shard)
  simp only [contains, opened.contains, inDone, true_and] at isFrontier
  refine ⟨isFrontier, fun height => ?_, ?_⟩
  · rw [stored, opened.stored, and_iff_right inDone]
  · -- the recorded height is not zero
    have positive : 1 ≤ last.getShardsHeight shard :=
      isFrontier.le fun height above below => .inl (by omega)
    cases found : last.chainDB.lookup (.shardHeight shard) with
    | some value =>
      rw [found, Option.getD_some] at persisted
      rw [persisted]
    | none =>
      rw [found, Option.getD_none] at persisted
      have := ChainValue.height.inj persisted
      omega

/-- For the lowest height of which no header can be read there is no header at all. -/
def FirstMissing (shardIndex : ShardIndex) (calls : List ReceiveCall) : Prop :=
  ∀ height, 1 < height →
    (∀ lower, 1 < lower → lower < height → HeardReadable shardIndex calls lower) →
      Heard shardIndex calls height → HeardReadable shardIndex calls height

/-- Genesis blocks without outs. -/
def emptyGenesis (shardIndex : ShardIndex) : MsgBlock :=
  genesisBlock (fun _ => ⟨default, Bytes32.zero, Bytes32.zero, Bytes32.zero⟩) shardIndex

/-- Functions that these blocks and headers do not use. -/
def unusedPrimitives : Primitives where
  base58Encode := fun bytes => bytes
  base58Decode := fun bytes => bytes
  ripemd160 := fun bytes => bytes
  ed25519Sign := fun _ _ => []
  ed25519Verify := fun _ _ _ => false

/-- The recorded height of the shard 0 and whether there is a header for height two, after the
given headers. -/
def observeHeaders (headers : List BlockHeader) : Go (Int × Bool) := do
  let chain ← newDiskBlockChain unusedPrimitives emptyGenesis ∅
  let last ← chain.receiveAll unusedPrimitives (headers.map .header)
  return (last.getShardsHeight 0, (last.chainDB.lookup (.indexAndHeight 0 2)).isSome)

theorem of_observeHeaders {headers : List BlockHeader} {isStored : Bool}
    (observed : observeHeaders headers = .ok (height, isStored)) :
    ∃ chain last, newDiskBlockChain unusedPrimitives emptyGenesis ∅ = .ok chain ∧
      chain.receiveAll unusedPrimitives (headers.map .header) = .ok last ∧
      last.getShardsHeight 0 = height ∧ (last.Stored 0 2 ↔ isStored = true) := by
  simp only [observeHeaders, bind_eq_ok, pure_eq_ok, Prod.mk.injEq] at observed
  obtain ⟨chain, opens, last, ran, isHeight, rfl⟩ := observed
  exact ⟨chain, last, opens, ran, isHeight, Iff.rfl⟩

/-- A header for a height, with a version. -/
def headerOf (height version : Int) : BlockHeader :=
  { (default : BlockHeader) with height, version }

/-- The heights have a gap, and the second header for height two is dropped. -/
theorem refines_receiveAll_repeated :
    ∃ last after, receiveAll unusedPrimitives ⟨∅, ∅⟩
        ([headerOf 2 1, headerOf 4 1, headerOf 2 7].map .header) = .ok last ∧
      [headerOf 2 1, headerOf 4 1, headerOf 2 7].foldlM HeaderStore.receiveHeader ⟨[]⟩ =
        .ok after ∧
      last.Refines after ∧
      (last.getShardsHeaderByHeight 0 2).map BlockHeader.version = some 1 := by
  have runs : (do
      let last ← receiveAll unusedPrimitives ⟨∅, ∅⟩
        ([headerOf 2 1, headerOf 4 1, headerOf 2 7].map .header)
      return (last.getShardsHeaderByHeight 0 2).map BlockHeader.version) =
      (.ok (some 1) : Go _) := by decide +kernel
  obtain ⟨last, ran, isFirst⟩ := bind_eq_ok.mp runs
  have empty : Refines ⟨∅, ∅⟩ ⟨[]⟩ := fun _ _ => rfl
  obtain ⟨after, receives, refines⟩ := refines_receiveAll empty ran
  exact ⟨last, after, ran, receives, refines, pure_eq_ok.mp isFirst⟩

end DiskBlockChain
end MultiVac.Storage
