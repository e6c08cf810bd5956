import MultiVac.Ledger.State

/-!
# The clock vector

The shard heights of a ledger say which headers it has mounted. An update mounts
the headers between the heights of the ledger and those of a block, and the ledger
then has the heights of the block.
-/

namespace MultiVac.Ledger

open Lib Wire Merkle

/-- The shard and the height of a header. -/
def headerKey (header : BlockHeader) : ShardIndex × Int := (header.shardIndex, header.height)

/-- The shards and heights between two clock vectors, in the order in which their
headers are mounted. -/
def keysBetween (old new : ShardIndex → Int) : List (ShardIndex × Int) :=
  shardList.flatMap fun index =>
    (List.range (new index - old index).toNat).map fun offset : Nat =>
      (index, old index + 1 + offset)

variable {old new : ShardIndex → Int} {index : ShardIndex} {height : Int}

theorem mem_keysBetween :
    (index, height) ∈ keysBetween old new ↔
      index ∈ shardList ∧ old index < height ∧ height ≤ new index := by
  simp only [keysBetween, List.mem_flatMap, List.mem_map, List.mem_range, Prod.mk.injEq]
  constructor
  · rintro ⟨_, inList, offset, less, rfl, rfl⟩
    exact ⟨inList, by omega, by omega⟩
  · rintro ⟨inList, above, below⟩
    exact ⟨index, inList, (height - old index - 1).toNat, by omega, rfl, by omega⟩

theorem nodup_keysBetween (old new : ShardIndex → Int) : (keysBetween old new).Nodup := by
  refine List.nodup_flatMap.mpr ⟨fun index _ => ?_, ?_⟩
  · refine List.nodup_range.map fun first second same => ?_
    have := (Prod.mk.inj same).2
    omega
  · have distinct : shardList.Pairwise (· ≠ ·) := by decide
    refine distinct.imp fun {first second} different => ?_
    intro key inFirst inSecond
    obtain ⟨_, _, rfl⟩ := List.mem_map.mp inFirst
    obtain ⟨_, _, same⟩ := List.mem_map.mp inSecond
    exact different (Prod.mk.inj same).1.symm

/-! ### Heights in a clock vector -/

/-- A clock vector has an entry for every shard. -/
def Complete (info : LedgerInfo) : Prop :=
  ∀ index ∈ shardList, (info.shardsHeights.any fun entry => entry.index = index) = true

theorem complete_ledgerInfo (state : ShardStateManager) : Complete state.ledgerInfo := by
  intro index inList
  exact List.any_eq_true.mpr ⟨⟨index, state.shardHeights index⟩,
    List.mem_map.mpr ⟨index, inList, rfl⟩, by simp⟩

theorem getShardHeight_ledgerInfo (state : ShardStateManager) (inList : index ∈ shardList) :
    getShardHeight state.ledgerInfo index = state.shardHeights index := by
  simp only [shardList, List.mem_cons, List.not_mem_nil, or_false] at inList
  rcases inList with rfl | rfl | rfl | rfl <;> rfl

theorem getShardHeight_replaceHeight {entries : List IndexAndHeight}
    (present : (entries.any fun entry => entry.index = index) = true) (size height : Int)
    (other : ShardIndex) :
    getShardHeight ⟨size, replaceHeight index height entries⟩ other =
      if other = index then height else getShardHeight ⟨size, entries⟩ other := by
  induction entries with
  | nil => cases present
  | cons entry entries ih =>
    by_cases here : entry.index = index
    · by_cases same : other = index
      · simp [replaceHeight, getShardHeight, here, same]
      · simp [replaceHeight, getShardHeight, here, same, Ne.symm same]
    · have presentLater : (entries.any fun entry => entry.index = index) = true := by
        simpa [here] using present
      have later := ih presentLater
      rw [replaceHeight, if_neg here]
      by_cases found : entry.index = other
      · have different : other ≠ index := found ▸ here
        simp [getShardHeight, found, different]
      · simpa [getShardHeight, List.find?_cons, found] using later

theorem any_replaceHeight (entries : List IndexAndHeight) (index other : ShardIndex)
    (height : Int) :
    ((replaceHeight index height entries).any fun entry => entry.index = other) =
      entries.any fun entry => entry.index = other := by
  induction entries with
  | nil => rfl
  | cons entry entries ih =>
    by_cases here : entry.index = index
    · simp [replaceHeight, here]
    · simp [replaceHeight, here, ih]

/-- Sorting by shard keeps the first entry of every shard. -/
theorem find?_insertionSort (entries : List IndexAndHeight) (index : ShardIndex) :
    (entries.insertionSort fun first second => first.index ≤ second.index).find?
        (fun entry => entry.index = index) =
      entries.find? fun entry => entry.index = index := by
  have inserted : ∀ (entry : IndexAndHeight) (sorted : List IndexAndHeight),
      (sorted.orderedInsert (fun first second => first.index ≤ second.index) entry).find?
          (fun entry => entry.index = index) =
        (entry :: sorted).find? fun entry => entry.index = index := by
    intro entry sorted
    induction sorted with
    | nil => rfl
    | cons first sorted ih =>
      rw [List.orderedInsert_cons]
      split
      · rfl
      · rename_i less
        rw [List.find?_cons, ih]
        by_cases here : entry.index = index
        · have other : first.index ≠ index :=
            fun same => less (here.trans same.symm ▸ UInt32.le_refl _)
          simp [here, other]
        · simp [List.find?_cons, here]
  induction entries with
  | nil => rfl
  | cons entry entries ih =>
    rw [List.insertionSort_cons, inserted, List.find?_cons, List.find?_cons, ih]

theorem getShardHeight_setShardHeight (info : LedgerInfo) (index : ShardIndex) (height : Int)
    (other : ShardIndex) :
    getShardHeight (setShardHeight info index height) other =
      if other = index then height else getShardHeight info other := by
  rw [setShardHeight]
  split
  · rename_i present
    exact getShardHeight_replaceHeight present info.size height other
  · rename_i absent
    have none : info.shardsHeights.find? (fun entry => entry.index = index) = none := by
      simpa [List.find?_eq_none] using absent
    simp only [getShardHeight, find?_insertionSort, List.find?_append]
    by_cases same : other = index
    · simp [same, none]
    · simp [same, Ne.symm same]

variable {info : LedgerInfo}

theorem Complete.setShardHeight (complete : Complete info) (inList : index ∈ shardList)
    (height : Int) : Complete (setShardHeight info index height) := by
  intro other otherIn
  rw [Ledger.setShardHeight, if_pos (complete index inList)]
  rw [any_replaceHeight]
  exact complete other otherIn

/-! ### Mounted headers -/

variable {headers : List BlockHeader}

/-- Every mounted header raises the height of its shard by one. -/
theorem getShardHeight_addHeights {newInfo : LedgerInfo} (complete : Complete info)
    (inList : ∀ header ∈ headers, header.shardIndex ∈ shardList)
    (added : Update.addHeights info headers = .ok newInfo) (index : ShardIndex) :
    getShardHeight newInfo index =
      getShardHeight info index + (headers.map BlockHeader.shardIndex).count index := by
  induction headers generalizing info with
  | nil =>
    obtain rfl := Except.ok.inj added
    simp
  | cons header headers ih =>
    obtain ⟨headerIn, restIn⟩ := List.forall_mem_cons.mp inList
    simp only [Update.addHeights, bind_eq_ok, Go.require_eq_ok] at added
    obtain ⟨_, _, added⟩ := added
    rw [ih (complete.setShardHeight headerIn _) restIn added,
      getShardHeight_setShardHeight, List.map_cons, List.count_cons]
    by_cases same : index = header.shardIndex
    · subst same
      simp only [if_true, beq_self_eq_true]
      push_cast
      omega
    · simp [same, Ne.symm same]

variable {state : ShardStateManager} {count : Nat}

theorem keys_headersAbove (found : state.headersAbove index count height = .ok headers) :
    headers.map headerKey =
        (List.range count).map (fun offset : Nat => (index, height + 1 + offset)) ∧
      ∀ header ∈ headers,
        state.chain.getShardsHeaderByHeight header.shardIndex header.height = some header := by
  induction count generalizing height headers with
  | zero =>
    obtain rfl := Except.ok.inj found
    simp
  | succ count ih =>
    rw [ShardStateManager.headersAbove] at found
    split at found
    · cases found
    · next header isHeader =>
      obtain ⟨rest, foundRest, joined⟩ := bind_eq_ok.mp found
      obtain rfl := pure_eq_ok.mp joined
      have matching := List.find?_some isHeader
      simp only [decide_eq_true_eq] at matching
      obtain ⟨keysRest, storedRest⟩ := ih foundRest
      constructor
      · rw [List.map_cons, keysRest, List.range_succ_eq_map, List.map_cons, List.map_map]
        refine List.cons_eq_cons.mpr ⟨?_, List.map_congr_left fun offset _ => ?_⟩
        · simp [headerKey, matching]
        · simp only [Function.comp_apply, Nat.succ_eq_add_one, Prod.mk.injEq, true_and]
          push_cast
          omega
      · refine List.forall_mem_cons.mpr ⟨?_, storedRest⟩
        rw [matching.1, matching.2]
        exact isHeader

/-- The headers that are mounted for a block are the stored ones between the heights
of the ledger and those of the block. -/
theorem keys_getBlockHeadersToAppend (found : state.getBlockHeadersToAppend info = .ok headers) :
    headers.map headerKey = keysBetween state.shardHeights (getShardHeight info) ∧
      (∀ header ∈ headers,
        state.chain.getShardsHeaderByHeight header.shardIndex header.height = some header) ∧
      ∀ index ∈ shardList, state.shardHeights index ≤ getShardHeight info index := by
  obtain ⟨parts, collected, joined⟩ := bind_eq_ok.mp found
  obtain rfl := pure_eq_ok.mp joined
  have related := mapM_eq_ok_iff.mp collected
  clear collected found joined
  rw [keysBetween]
  generalize shardList = indices at related ⊢
  induction related with
  | nil => simp
  | @cons index part indices parts stepped _ ih =>
    simp only [bind_eq_ok, Go.require_eq_ok, decide_eq_true_eq] at stepped
    obtain ⟨_, higher, foundPart⟩ := stepped
    obtain ⟨keysPart, storedPart⟩ := keys_headersAbove foundPart
    obtain ⟨keysRest, storedRest, higherRest⟩ := ih
    rw [List.flatten_cons, List.map_append, keysPart, keysRest, List.flatMap_cons]
    exact ⟨rfl, List.forall_mem_append.mpr ⟨storedPart, storedRest⟩,
      List.forall_mem_cons.mpr ⟨higher, higherRest⟩⟩

/-- Headers of one shard can be added from its height on. -/
theorem addHeights_of_keys (complete : Complete info) (inList : index ∈ shardList)
    (keys : headers.map headerKey = (List.range count).map fun offset : Nat =>
      (index, getShardHeight info index + 1 + offset)) :
    ∃ newInfo, Update.addHeights info headers = .ok newInfo ∧ Complete newInfo ∧
      ∀ other ≠ index, getShardHeight newInfo other = getShardHeight info other := by
  induction count generalizing info headers with
  | zero =>
    obtain rfl := List.map_eq_nil_iff.mp keys
    exact ⟨info, rfl, complete, fun _ _ => rfl⟩
  | succ count ih =>
    rw [List.range_succ_eq_map, List.map_cons, List.map_map] at keys
    obtain ⟨header, headers, rfl, isKey, restKeys⟩ := List.map_eq_cons_iff.mp keys
    obtain ⟨rfl, isHeight⟩ : header.shardIndex = index ∧
        header.height = getShardHeight info index + 1 := by
      simpa [headerKey] using isKey
    have raised := getShardHeight_setShardHeight info header.shardIndex
      (getShardHeight info header.shardIndex + 1)
    have nextComplete := complete.setShardHeight inList (getShardHeight info header.shardIndex + 1)
    obtain ⟨newInfo, added, newComplete, others⟩ := @ih _ headers nextComplete (by
        rw [restKeys, raised, if_pos rfl]
        refine List.map_congr_left fun offset _ => ?_
        simp only [Function.comp_apply, Nat.succ_eq_add_one, Prod.mk.injEq, true_and]
        push_cast
        omega)
    refine ⟨newInfo, ?_, newComplete, fun other different => ?_⟩
    · simpa [Update.addHeights, Go.require, isHeight] using added
    · rw [others other different, raised, if_neg different]

theorem addHeights_append (info : LedgerInfo) (first second : List BlockHeader) :
    Update.addHeights info (first ++ second) =
      Update.addHeights info first >>= fun next => Update.addHeights next second := by
  induction first generalizing info with
  | nil => rfl
  | cons header first ih =>
    simp only [List.cons_append, Update.addHeights, ih, bind_assoc]

/-- The headers of several shards can be added one shard after the other. -/
theorem addHeights_of_keys_flatMap (complete : Complete info) {indices : List ShardIndex}
    (distinct : indices.Nodup) (inList : indices ⊆ shardList) {counts : ShardIndex → Nat}
    (keys : headers.map headerKey = indices.flatMap fun index =>
      (List.range (counts index)).map fun offset : Nat =>
        (index, getShardHeight info index + 1 + offset)) :
    ∃ newInfo, Update.addHeights info headers = .ok newInfo := by
  induction indices generalizing info headers with
  | nil =>
    obtain rfl := List.map_eq_nil_iff.mp keys
    exact ⟨info, rfl⟩
  | cons index indices ih =>
    rw [List.flatMap_cons] at keys
    obtain ⟨first, second, rfl, firstKeys, secondKeys⟩ := List.map_eq_append_iff.mp keys
    obtain ⟨notLater, distinct⟩ := List.nodup_cons.mp distinct
    obtain ⟨isIndex, inList⟩ := List.cons_subset.mp inList
    obtain ⟨middle, addsFirst, middleComplete, others⟩ :=
      addHeights_of_keys complete isIndex firstKeys
    obtain ⟨newInfo, addsSecond⟩ := ih middleComplete distinct inList (by
      rw [secondKeys]
      refine List.flatMap_congr fun other inIndices => ?_
      rw [others other fun same => notLater (same ▸ inIndices)])
    refine ⟨newInfo, ?_⟩
    rw [addHeights_append, addsFirst]
    exact addsSecond

/-- The headers that are mounted for a block can be added to the clock vector. -/
theorem addHeights_getBlockHeadersToAppend
    (found : state.getBlockHeadersToAppend info = .ok headers) :
    ∃ newInfo, Update.addHeights state.ledgerInfo headers = .ok newInfo := by
  obtain ⟨keys, -⟩ := keys_getBlockHeadersToAppend found
  refine @addHeights_of_keys_flatMap _ _ (complete_ledgerInfo state) shardList (by decide)
    (List.Subset.refl _) (fun index => (getShardHeight info index - state.shardHeights index).toNat)
    ?_
  rw [keys, keysBetween]
  refine List.flatMap_congr fun index inList => ?_
  rw [getShardHeight_ledgerInfo state inList]

theorem count_keysBetween (inList : index ∈ shardList) (higher : old index ≤ new index) :
    (((keysBetween old new).map Prod.fst).count index : Int) = new index - old index := by
  have counts : ((keysBetween old new).map Prod.fst).count index =
      (new index - old index).toNat := by
    rw [keysBetween, List.map_flatMap, List.count_flatMap]
    have single : ∀ other : ShardIndex,
        (List.map Prod.fst ((List.range (new other - old other).toNat).map
          fun offset : Nat => (other, old other + 1 + (offset : Int)))).count index =
            if other = index then (new index - old index).toNat else 0 := by
      intro other
      rw [List.map_map, show (Prod.fst ∘ fun offset : Nat => (other, old other + 1 + (offset : Int))) =
        fun _ => other from rfl, List.map_const', List.count_replicate, List.length_range]
      by_cases same : other = index
      · simp [same]
      · simp [same]
    simp only [Function.comp_def, single]
    simp only [shardList, List.mem_cons, List.not_mem_nil, or_false] at inList
    rcases inList with rfl | rfl | rfl | rfl <;> simp [shardList]
  rw [counts]
  omega

variable {update : Update}

/-- Edits do not change the heights of an update. -/
theorem newLedgerInfo_of_writes {written : Update} {edits : List Edit}
    (writes : edits.foldlM Update.write update = .ok written) :
    written.newLedgerInfo = update.newLedgerInfo := by
  refine @foldlM_invariant _ _ _ _ (fun next => next.newLedgerInfo = update.newLedgerInfo) _
    (fun state edit _ next stepped same => ?_) _ _ writes rfl
  simp only [Update.write, bind_eq_ok, pure_eq_ok] at stepped
  obtain ⟨_, _, _, _, rfl⟩ := stepped
  exact same

/-- After a block the ledger has the heights of the block. -/
theorem shardHeights_of_applyUpdate {after : ShardStateManager} {block : MsgBlock}
    (updated : state.getUpdateWithFullBlock block = .ok update)
    (applied : state.applyUpdate update = .ok after) :
    ∃ headers, state.getBlockHeadersToAppend block.body.ledgerInfo = .ok headers ∧
      ∀ index ∈ shardList,
        after.shardHeights index = getShardHeight block.body.ledgerInfo index := by
  simp only [ShardStateManager.getUpdateWithFullBlock, ShardStateManager.newUpdate,
    Update.markTransactions_eq_ok_iff, Update.applyActions_eq, bind_eq_ok, pure_eq_ok] at updated
  obtain ⟨start, ⟨_, _, rfl⟩, marked, ⟨-, marks⟩, written, writes, headers, found, adds⟩ := updated
  obtain ⟨keys, _, higher⟩ := keys_getBlockHeadersToAppend found
  refine ⟨headers, found, fun index inList => ?_⟩
  have info : written.newLedgerInfo = state.ledgerInfo :=
    (newLedgerInfo_of_writes writes).trans (newLedgerInfo_of_writes marks)
  obtain ⟨newInfo, added, isInfo⟩ : ∃ newInfo,
      Update.addHeights state.ledgerInfo headers = .ok newInfo ∧
        update.newLedgerInfo = newInfo := by
    simp only [Update.addHeaders, bind_eq_ok, info] at adds
    obtain ⟨newInfo, added, grown⟩ := adds
    refine ⟨newInfo, added, ?_⟩
    split at grown
    · rw [← pure_eq_ok.mp grown]
    · obtain ⟨_, _, joined⟩ := bind_eq_ok.mp grown
      rw [← pure_eq_ok.mp joined]
  have indices : headers.map BlockHeader.shardIndex =
      (keysBetween state.shardHeights (getShardHeight block.body.ledgerInfo)).map Prod.fst := by
    rw [← keys, List.map_map]
    rfl
  have inShards : ∀ header ∈ headers, header.shardIndex ∈ shardList := by
    intro header inHeaders
    have inKeys : headerKey header ∈ headers.map headerKey := List.mem_map_of_mem inHeaders
    rw [keys] at inKeys
    exact (mem_keysBetween.mp inKeys).1
  have raised := getShardHeight_addHeights (complete_ledgerInfo state) inShards added index
  rw [indices, count_keysBetween inList (higher index inList),
    getShardHeight_ledgerInfo state inList] at raised
  simp only [ShardStateManager.applyUpdate, bind_eq_ok, pure_eq_ok] at applied
  obtain ⟨_, _, _, _, _, _, rfl⟩ := applied
  refine (if_pos inList).trans ?_
  rw [isInfo, raised]
  omega

end MultiVac.Ledger
