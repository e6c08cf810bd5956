import MultiVac.Chain.Selection
import MultiVac.Lib.Counting

/-!
# Mounting known headers

`LocalLedgerInfo` goes to the end of the known headers of every shard, so the headers up to
it can be read and mounted, also when the headers of some shards are cut short.
-/

namespace MultiVac
namespace Ledger

open Lib Wire Merkle

variable {state : ShardStateManager} {index : ShardIndex}

/-- How many headers of a shard lie above a height. -/
def countAbove (state : ShardStateManager) (index : ShardIndex) (height : Int) : Nat :=
  state.chain.headers.countP fun header => header.shardIndex = index && height < header.height

variable {height : Int}

theorem countAbove_succ_lt {header : BlockHeader}
    (found : state.chain.getShardsHeaderByHeight index (height + 1) = some header) :
    countAbove state index (height + 1) < countAbove state index height := by
  have split := countP_or_of_disjoint state.chain.headers
    (fun header => header.shardIndex = index && height + 1 < header.height)
    (fun header => header.shardIndex = index && header.height = height + 1) (by
      intro header above
      simp only [Bool.and_eq_true, decide_eq_true_eq] at above
      simp only [Bool.and_eq_false_iff, decide_eq_false_iff_not]
      omega)
  have here : 0 < state.chain.headers.countP fun header =>
      header.shardIndex = index && header.height = height + 1 :=
    List.countP_pos_iff.mpr ⟨header, List.mem_of_find?_eq_some found, by
      simpa using List.find?_some found⟩
  have same : countAbove state index height = state.chain.headers.countP fun header =>
      header.shardIndex = index && height + 1 < header.height ||
        header.shardIndex = index && header.height = height + 1 := by
    refine List.countP_congr fun header _ => ?_
    simp only [← Bool.and_or_distrib_left, Bool.and_eq_true, Bool.or_eq_true, decide_eq_true_eq]
    exact and_congr_right fun _ => by omega
  rw [same, split, countAbove]
  omega

/-- The loop over the known headers of a shard stops at the first gap. -/
theorem knownHeight_spec {fuel : Nat} (enough : countAbove state index height ≤ fuel) :
    height ≤ state.knownHeight index fuel height ∧
      (∀ known, height < known → known ≤ state.knownHeight index fuel height →
        (state.chain.getShardsHeaderByHeight index known).isSome) ∧
      state.chain.getShardsHeaderByHeight index (state.knownHeight index fuel height + 1) =
        none := by
  induction fuel generalizing height with
  | zero =>
    refine ⟨le_refl _, fun known above below => ?_, ?_⟩
    · rw [ShardStateManager.knownHeight] at below
      omega
    · cases found : state.chain.getShardsHeaderByHeight index (height + 1) with
      | none => exact found
      | some header => exact absurd (countAbove_succ_lt found) (by omega)
  | succ fuel ih =>
    rw [ShardStateManager.knownHeight]
    cases found : state.chain.getShardsHeaderByHeight index (height + 1) with
    | none => exact ⟨le_refl _, fun known above below => by simp only at below; omega, found⟩
    | some header =>
      have less := countAbove_succ_lt found
      obtain ⟨higher, filled, gap⟩ := @ih (height + 1) (by omega)
      refine ⟨by simp only; omega, fun known above below => ?_, gap⟩
      by_cases next : known = height + 1
      · rw [next, found]
        rfl
      · exact filled known (by omega) below

/-- The height up to which `LocalLedgerInfo` finds the headers of a shard. -/
def localHeight (state : ShardStateManager) (index : ShardIndex) : Int :=
  state.knownHeight index state.chain.headers.length (state.shardHeights index)

theorem localHeight_spec (state : ShardStateManager) (index : ShardIndex) :
    state.shardHeights index ≤ localHeight state index ∧
      (∀ known, state.shardHeights index < known → known ≤ localHeight state index →
        (state.chain.getShardsHeaderByHeight index known).isSome) ∧
      state.chain.getShardsHeaderByHeight index (localHeight state index + 1) = none :=
  knownHeight_spec List.countP_le_length

theorem heights_localLedgerInfo (state : ShardStateManager) :
    (∀ index ∈ shardList, getShardHeight state.localLedgerInfo index = localHeight state index) ∧
      state.localLedgerInfo.size = (shardList.map (localHeight state)).sum := by
  have raised : ∀ (info : LedgerInfo) (tag other : ShardIndex),
      getShardHeight (state.raiseKnown info tag) other =
        if other = tag then state.knownHeight tag state.chain.headers.length
          (getShardHeight info tag) else getShardHeight info other := fun info tag other =>
    getShardHeight_setShardHeight _ tag _ other
  have size : ∀ (info : LedgerInfo) (tag : ShardIndex), (state.raiseKnown info tag).size =
      info.size + (state.knownHeight tag state.chain.headers.length (getShardHeight info tag) -
        getShardHeight info tag) := by
    intro info tag
    rw [ShardStateManager.raiseKnown, setShardHeight]
    split <;> rfl
  have start : ∀ index ∈ shardList,
      getShardHeight state.ledgerInfo index = state.shardHeights index :=
    fun index => getShardHeight_ledgerInfo state
  have total : state.ledgerInfo.size = (shardList.map state.shardHeights).sum := rfl
  simp only [shardList, List.forall_mem_cons] at start total ⊢
  simp [ShardStateManager.localLedgerInfo, shardList, raised, size, localHeight, start, total]
  ring

/-- The headers of a shard can be read as long as they are known. -/
theorem exists_headersAbove {count : Nat} (known : ∀ next, height < next → next ≤ height + count →
      (state.chain.getShardsHeaderByHeight index next).isSome) :
    ∃ headers, state.headersAbove index count height = .ok headers := by
  induction count generalizing height with
  | zero => exact ⟨[], rfl⟩
  | succ count ih =>
    push_cast at known
    obtain ⟨header, found⟩ := Option.isSome_iff_exists.mp (known (height + 1) (by omega) (by omega))
    obtain ⟨rest, foundRest⟩ := @ih (height + 1) fun next above below =>
      known next (by omega) (by omega)
    refine ⟨header :: rest, ?_⟩
    rw [ShardStateManager.headersAbove, found]
    exact bind_eq_ok.mpr ⟨rest, foundRest, rfl⟩

theorem exists_getBlockHeadersToAppend (state : ShardStateManager) :
    ∃ headers, state.getBlockHeadersToAppend state.localLedgerInfo = .ok headers := by
  obtain ⟨heights, -⟩ := heights_localLedgerInfo state
  obtain ⟨parts, collected⟩ := @exists_mapM _ _ _ (fun index => do
    let oldHeight := state.shardHeights index
    let newHeight := getShardHeight state.localLedgerInfo index
    Go.require (oldHeight ≤ newHeight) "Shard height in ledgerInfo is smaller than old height"
    state.headersAbove index (newHeight - oldHeight).toNat oldHeight) shardList (by
      intro index inList
      obtain ⟨higher, known, -⟩ := localHeight_spec state index
      obtain ⟨headers, found⟩ := @exists_headersAbove state index _
        (localHeight state index - state.shardHeights index).toNat
        fun next above below => known next above (by omega)
      refine ⟨headers, ?_⟩
      simp only [heights index inList]
      exact bind_eq_ok.mpr ⟨(), by simpa using higher, found⟩)
  exact ⟨parts.flatten, bind_eq_ok.mpr ⟨parts, collected, rfl⟩⟩

/-- The headers up to a height of every shard. -/
def cutHeaders (bound : ShardIndex → Int) (headers : List BlockHeader) : List BlockHeader :=
  headers.filter fun header => header.height ≤ bound header.shardIndex

theorem filter_range_lt (count limit : Nat) :
    (List.range count).filter (· < limit) = List.range (min count limit) := by
  induction count with
  | zero => simp
  | succ count ih =>
    rw [List.range_succ, List.filter_append, ih]
    by_cases below : count < limit
    · simp [below, Nat.min_eq_left (Nat.le_of_lt below), List.range_succ]
    · simp [below, Nat.min_eq_right (Nat.le_of_not_lt below),
        Nat.min_eq_right (Nat.le_succ_of_le (Nat.le_of_not_lt below))]

variable {headers : List BlockHeader}

theorem keys_cutHeaders {old new : ShardIndex → Int}
    (keys : headers.map headerKey = keysBetween old new) (bound : ShardIndex → Int) :
    (cutHeaders bound headers).map headerKey =
      keysBetween old fun index => min (new index) (bound index) := by
  have filtered : (cutHeaders bound headers).map headerKey =
      (headers.map headerKey).filter fun key => key.2 ≤ bound key.1 := by
    rw [List.filter_map]
    rfl
  rw [filtered, keys, keysBetween, keysBetween, List.filter_flatMap]
  refine List.flatMap_congr fun index _ => ?_
  have kept : ((fun key : ShardIndex × Int => decide (key.2 ≤ bound key.1)) ∘
      fun offset : Nat => (index, old index + 1 + (offset : Int))) =
        fun offset => decide (offset < (bound index - old index).toNat) := by
    funext offset
    simp only [Function.comp_apply, decide_eq_decide]
    omega
  rw [List.filter_map, kept, filter_range_lt]
  congr 2
  omega

variable {edits : List Edit}

/-- Any hashes can be appended to a delta tree over the tree of a book. -/
theorem Book.Follows.exists_append {book : Book} {tree : DeltaMerkleTree}
    (follows : book.Follows edits tree) (positive : 0 < book.size) {roots : List MerkleHash}
    (small : book.size + roots.length < 2 ^ 63) : ∃ appended, tree.append roots = .ok appended := by
  obtain ⟨sketch, part, frames, tracks, ends⟩ := follows
  have loop : ∀ (roots : List MerkleHash) (size : Nat) (tree : DeltaMerkleTree) (sketch : Sketch)
      (last : NodeId), MerkleTree.Mounted tree sketch size last → 0 < size →
      size + roots.length < 2 ^ 63 → ∃ newLast appended,
        tree.appendAll size (some last) roots = .ok (some newLast, appended) := by
    intro roots
    induction roots with
    | nil => exact fun size tree _ last _ _ _ => ⟨last, tree, rfl⟩
    | cons root roots ih =>
      intro size tree sketch last mounted positive small
      rw [List.length_cons] at small
      obtain ⟨middle, grown, _, appends, middleMounted, -⟩ :=
        mounted.appendLeaf positive (by omega) (.leaf root)
      obtain ⟨newLast, appended, rest⟩ :=
        ih _ middle grown _ middleMounted (Nat.succ_pos _) (by omega)
      refine ⟨newLast, appended, ?_⟩
      rw [MerkleTree.appendAll, if_neg (Nat.ne_of_gt positive)]
      exact bind_eq_ok.mpr ⟨_, appends, rest⟩
  obtain ⟨last, appended, appends⟩ :=
    loop roots book.size tree _ _ (tracks.mounted ends) positive small
  have start : tree.appendAll tree.size.toNat (if 0 < tree.size then
      tree.lastNodeHash.bind tree.nodeMap else none) roots = .ok (some last, appended) := by
    rw [ends.size, Int.toNat_natCast, if_pos (by exact_mod_cast positive), ends.lastNode]
    exact appends
  exact ⟨_, MerkleTree.append_eq (by rw [ends.size]; omega) start⟩

/-- The known headers can be mounted, however they are cut. -/
theorem Book.Follows.exists_addHeaders {book : Book} {update : Update}
    (follows : book.Follows edits update.deltaTree)
    (sameInfo : update.newLedgerInfo = state.ledgerInfo)
    (found : state.getBlockHeadersToAppend state.localLedgerInfo = .ok headers)
    (positive : 0 < book.size) (small : book.size + headers.length < 2 ^ 63)
    (bound : ShardIndex → Int) :
    ∃ after, update.addHeaders (cutHeaders bound headers) = .ok after := by
  obtain ⟨keys, -⟩ := keys_getBlockHeadersToAppend found
  have cutKeys := keys_cutHeaders keys bound
  obtain ⟨newInfo, added⟩ := @addHeights_of_keys_flatMap _ _ (complete_ledgerInfo state) shardList
    (by decide) (List.Subset.refl _)
    (fun index => (min (getShardHeight state.localLedgerInfo index) (bound index) -
      state.shardHeights index).toNat) (by
      rw [cutKeys, keysBetween]
      refine List.flatMap_congr fun index inList => ?_
      rw [getShardHeight_ledgerInfo state inList])
  let roots := ((cutHeaders bound headers).map BlockHeader.outsMerkleRoot).filter (· ≠ emptyHash)
  have shorter : roots.length ≤ headers.length := (List.length_filter_le _ _).trans (by
      rw [List.length_map]
      exact List.length_filter_le _ _)
  obtain ⟨appended, appends⟩ := follows.exists_append positive (by omega : _ + roots.length < _)
  simp only [Update.addHeaders, sameInfo, added, bind, Except.bind]
  split
  · exact ⟨_, rfl⟩
  · exact ⟨⟨appended, newInfo⟩, by rw [appends]; rfl⟩

theorem pairwise_keysBetween (old new : ShardIndex → Int) :
    (keysBetween old new).Pairwise fun first second => first.1 = second.1 → first.2 < second.2 := by
  refine List.pairwise_flatMap.mpr ⟨fun index _ => ?_, ?_⟩
  · refine List.pairwise_map.mpr (List.pairwise_lt_range.imp fun less _ => ?_)
    dsimp only
    omega
  · refine (by decide : shardList.Pairwise (· ≠ ·)).imp fun different first inFirst second inSecond
      same => absurd ?_ different
    obtain ⟨_, -, rfl⟩ := List.mem_map.mp inFirst
    obtain ⟨_, -, rfl⟩ := List.mem_map.mp inSecond
    exact same

end Ledger

namespace Chain

open Lib Wire Merkle Ledger Contract

variable {env : Environment} {miner : Miner} {top : ShardIndex → Int}

/-- The height up to which the headers of a shard are mounted. -/
def mountBound (top : ShardIndex → Int) (errShard : List (ShardIndex × Int)) (index : ShardIndex) :
    Int :=
  ((errShard.find? fun entry => entry.1 = index).map (·.2 - 1)).getD (top index)

/-- The headers that are mounted are a cut of those that are known. -/
theorem mountHeader_eq_cutHeaders {headers : List BlockHeader}
    (sorted : headers.Pairwise fun first second =>
      first.shardIndex = second.shardIndex → first.height < second.height)
    (below : ∀ header ∈ headers, header.height ≤ top header.shardIndex) {mounting : Mounting}
    (mounts : headers.foldlM (mountStep env miner) ⟨[], [], []⟩ = .ok mounting) :
    mounting.mountHeader = cutHeaders (mountBound top mounting.errShard) headers ∧
      ∀ entry ∈ mounting.errShard, ∃ header ∈ headers,
        header.shardIndex = entry.1 ∧ header.height = entry.2 := by
  induction headers using List.reverseRecOn generalizing mounting with
  | nil =>
    obtain rfl := pure_eq_ok.mp mounts
    exact ⟨rfl, by simp⟩
  | append_singleton headers header ih =>
    obtain ⟨sortedBefore, -, higher⟩ := List.pairwise_append.mp sorted
    obtain ⟨belowBefore, belowLast⟩ := List.forall_mem_append.mp below
    rw [List.foldlM_append] at mounts
    obtain ⟨before, mountsBefore, last⟩ := bind_eq_ok.mp mounts
    obtain ⟨mounted, failed⟩ := ih sortedBefore belowBefore mountsBefore
    have last : mountStep env miner before header = .ok mounting := by simpa using last
    have kept : ∀ entry ∈ before.errShard, ∃ other ∈ headers ++ [header],
        other.shardIndex = entry.1 ∧ other.height = entry.2 := fun entry inErr =>
      (failed entry inErr).imp fun _ => And.imp_left (List.mem_append_left _)
    rw [mountStep] at last
    rw [cutHeaders, List.filter_append, ← cutHeaders]
    split at last
    · next isBlocked =>
      obtain rfl := pure_eq_ok.mp last
      obtain ⟨entry, found⟩ := Option.isSome_iff_exists.mp (List.find?_isSome.mpr
        (List.any_eq_true.mp isBlocked))
      obtain ⟨other, inHeaders, sameShard, sameHeight⟩ :=
        failed entry (List.mem_of_find?_eq_some found)
      have isShard : entry.1 = header.shardIndex := by simpa using List.find?_some found
      have less := higher other inHeaders header (by simp) (sameShard.trans isShard)
      refine ⟨?_, kept⟩
      rw [mounted, List.filter_singleton]
      simp [mountBound, found, show ¬ header.height ≤ entry.2 - 1 by omega]
    · next notBlocked =>
      have notFound : (before.errShard.find? fun entry => entry.1 = header.shardIndex) = none :=
        List.find?_eq_none.mpr fun entry inErr isShard =>
          notBlocked (List.any_eq_true.mpr ⟨entry, inErr, isShard⟩)
      obtain ⟨found, -, last⟩ := bind_eq_ok.mp last
      cases found with
      | some reduceTxs =>
        obtain rfl := pure_eq_ok.mp last
        refine ⟨?_, kept⟩
        simp [mounted, mountBound, notFound, belowLast]
      | none =>
        obtain rfl := pure_eq_ok.mp last
        refine ⟨?_, List.forall_mem_append.mpr ⟨kept, by simp⟩⟩
        have dropped : [header].filter (fun other => other.height ≤ mountBound top
            (before.errShard ++ [(header.shardIndex, header.height)]) other.shardIndex) = [] := by
          simp [mountBound, List.find?_append, notFound]
        rw [dropped, List.append_nil, mounted]
        refine List.filter_congr fun other inHeaders => ?_
        by_cases isShard : other.shardIndex = header.shardIndex
        · have less := higher other inHeaders header (by simp) isShard
          have known := belowBefore other inHeaders
          rw [isShard] at known
          simp [mountBound, List.find?_append, isShard, notFound, known]
          omega
        · have different : header.shardIndex ≠ other.shardIndex := Ne.symm isShard
          have same : mountBound top (before.errShard ++ [(header.shardIndex, header.height)])
              other.shardIndex = mountBound top before.errShard other.shardIndex := by
            simp [mountBound, List.find?_append, if_neg different]
          rw [same]

/-- The headers that are known can be mounted: `LocalLedgerInfo` goes to the end of the
known headers of every shard, and these headers are found. In a ledger without repeated outs,
whatever transactions have been taken from a pool of good proofs, every cut of the headers
can be added, so also the headers for which the loop of `ProposeBlock` can build the reduce
transactions. -/
theorem known_headers_mountable (env : Environment) (miner : Miner) :
    let state := miner.state
    let info := state.localLedgerInfo
    (∀ index ∈ shardList, state.shardHeights index ≤ getShardHeight info index ∧
      (∀ height, state.shardHeights index < height → height ≤ getShardHeight info index →
        (state.chain.getShardsHeaderByHeight index height).isSome) ∧
      state.chain.getShardsHeaderByHeight index (getShardHeight info index + 1) = none) ∧
    info.size = (shardList.map (getShardHeight info)).sum ∧
    ∃ headers, state.getBlockHeadersToAppend info = .ok headers ∧
      headers.map headerKey = keysBetween state.shardHeights (getShardHeight info) ∧
      (∀ header ∈ headers,
        state.chain.getShardsHeaderByHeight header.shardIndex header.height = some header) ∧
      ∀ strings (book : Book) (pool : List MsgTxWithProofs), CollisionFree strings →
        book.Backs state.tree → book.Distinct → encodings book.outs ⊆ strings →
        nodeStrings book.tree ⊆ strings →
        (∀ edit ∈ pool.flatMap inputSpends, edit.Valid strings (treeRoot book.tree)) →
        book.size + headers.length < 2 ^ 63 →
        ∃ update, state.newUpdate = .ok update ∧ ∀ marked allTxs selected txs,
          getTopTransactions miner.shardHeight maxTransactionsInBlock update pool =
            .ok (marked, allTxs) →
          selectTransactions miner marked allTxs = .ok (selected, txs) →
          (∀ bound, ∃ after, selected.addHeaders (cutHeaders bound headers) = .ok after) ∧
          ∀ mounting, headers.foldlM (mountStep env miner) ⟨[], [], []⟩ = .ok mounting →
            ∃ after, selected.addHeaders mounting.mountHeader = .ok after := by
  intro state info
  obtain ⟨heights, total⟩ := heights_localLedgerInfo state
  obtain ⟨headers, found⟩ := exists_getBlockHeadersToAppend state
  obtain ⟨keys, stored, -⟩ := keys_getBlockHeadersToAppend found
  refine ⟨fun index inList => ?_, ?_, headers, found, keys, stored, ?_⟩
  · rw [heights index inList]
    exact localHeight_spec state index
  · rw [total]
    exact congrArg List.sum (List.map_congr_left fun index inList => (heights index inList).symm)
  intro strings book pool collisionFree backs distinct outsIn treeIn genuine fits
  obtain ⟨update, updates, follows, sameInfo⟩ :=
    backs.newUpdate collisionFree distinct outsIn treeIn (by omega)
  refine ⟨update, updates, fun marked allTxs selected txs gets selects => ?_⟩
  obtain ⟨-, marks, -⟩ := of_getTopTransactions gets
  obtain ⟨edits, fromTaken, writes⟩ := exists_writes_of_selectTransactions selects
  have fromPool : (visited miner.shardHeight maxTransactionsInBlock pool).flatMap
      (Chain.marks miner.shardHeight) ++ edits ⊆ pool.flatMap inputSpends := by
    refine List.append_subset.mpr ⟨fun edit inMarks => ?_, fun edit inEdits => ?_⟩
    · obtain ⟨tx, isVisited, inTx⟩ := List.mem_flatMap.mp inMarks
      exact List.mem_flatMap_of_mem (visited_subset _ _ _ isVisited) (marksUntilLocked_subset inTx)
    · obtain ⟨tx, inTaken, inTx⟩ := List.mem_flatMap.mp (fromTaken inEdits)
      exact List.mem_flatMap_of_mem (taken_subset gets inTaken) inTx
  obtain ⟨final, allWrites, followsLast⟩ := follows.writes collisionFree backs.treeOf outsIn treeIn
    distinct fun edit inBoth => genuine edit (fromPool inBoth)
  have infoLast := (newLedgerInfo_of_writes allWrites).trans sameInfo
  rw [List.foldlM_append] at allWrites
  obtain rfl := Except.ok.inj ((bind_eq_ok.mpr ⟨marked, marks, writes⟩).symm.trans allWrites)
  have cuts := followsLast.exists_addHeaders infoLast found backs.positive fits
  refine ⟨cuts, fun mounting mounts => ?_⟩
  have sorted : headers.Pairwise fun first second =>
      first.shardIndex = second.shardIndex → first.height < second.height :=
    List.pairwise_map.mp (keys ▸ pairwise_keysBetween _ _)
  have below : ∀ header ∈ headers, header.height ≤ getShardHeight info header.shardIndex := by
    intro header inHeaders
    have inKeys := keys ▸ List.mem_map_of_mem inHeaders
    exact (mem_keysBetween.mp inKeys).2.2
  rw [(mountHeader_eq_cutHeaders sorted below mounts).1]
  exact cuts _

/-- A payment, and a header to mount. -/
theorem known_headers_mountable_copyMiner :
    ∃ headers update marked selected, copyMiner.state.getBlockHeadersToAppend
          copyMiner.state.localLedgerInfo = .ok headers ∧
      headers.map headerKey = [(1, 1)] ∧ copyMiner.state.newUpdate = .ok update ∧
      getTopTransactions copyMiner.shardHeight maxTransactionsInBlock update [payTx coinPath] =
        .ok (marked, [payTx coinPath]) ∧
      selectTransactions copyMiner marked [payTx coinPath] = .ok (selected, [payTx coinPath]) ∧
      ∃ after, selected.addHeaders headers = .ok after := by
  have runs : (do
      let headers ← copyMiner.state.getBlockHeadersToAppend copyMiner.state.localLedgerInfo
      let update ← copyMiner.state.newUpdate
      let top ← getTopTransactions copyMiner.shardHeight maxTransactionsInBlock update
        [payTx coinPath]
      let selected ← selectTransactions copyMiner top.1 top.2
      return (headers.map headerKey, top.2, selected.2)) =
        .ok ([(1, 1)], [payTx coinPath], [payTx coinPath]) := by
    decide +kernel
  simp only [bind_eq_ok, pure_eq_ok, Prod.mk.injEq] at runs
  obtain ⟨found, isFound, update, updates, ⟨marked, _⟩, gets, ⟨selected, _⟩, selects, foundKeys, rfl,
    rfl⟩ := runs
  obtain ⟨-, -, headers, get, -, -, mountable⟩ := known_headers_mountable .plain copyMiner
  obtain rfl := Except.ok.inj (isFound.symm.trans get)
  obtain ⟨inputs, proofs⟩ := inputs_payTx
  obtain ⟨start, starts, cuts⟩ := mountable _ coinBook [payTx coinPath]
    (collisionFree_of_list payBlock_runs.1) backs_coinBook distinct_coinBook hashed_payTx.outs
    hashed_payTx.tree (by
      rw [List.flatMap_singleton, inputSpends, inputs, proofs]
      exact List.forall_mem_singleton.mpr ⟨sound_payTx,
        encodings_subset_iff.mp hashed_payTx.olds _ (List.mem_singleton_self _),
        hashed_payTx.paths _ (List.mem_singleton_self _)⟩)
    (by
      rw [← List.length_map headerKey, foundKeys]
      decide)
  obtain rfl := Except.ok.inj (updates.symm.trans starts)
  have all : cutHeaders (fun _ => 1) found = found := by
    refine List.filter_eq_self.mpr fun header inFound => ?_
    have inKeys : headerKey header ∈ [(1, 1)] := foundKeys ▸ List.mem_map_of_mem inFound
    simpa using (Prod.mk.inj (List.mem_singleton.mp inKeys)).2.le
  exact ⟨found, update, marked, selected, isFound, foundKeys, updates, gets, selects,
    all ▸ (cuts marked _ selected _ gets selects).1 _⟩

/-- A miner that has mounted the coins a second time, and knows one more header. -/
def twinMiner : Go ShardStateManager := do
  let update ← copyMiner.state.newUpdate
  let after ← copyMiner.state.applyUpdate (← update.addHeaders [copyHeader])
  return { after with chain := { headers := [copyHeader, { copyHeader with height := 2 }] } }

/-- In a ledger with the same root twice a known header cannot be mounted. -/
theorem addHeaders_panics_twinMiner :
    ∃ state headers update, twinMiner = .ok state ∧
      state.getBlockHeadersToAppend state.localLedgerInfo = .ok headers ∧
      state.newUpdate = .ok update ∧ update.addHeaders headers = Go.panic := by
  have panics : (do
      let state ← twinMiner
      let headers ← state.getBlockHeadersToAppend state.localLedgerInfo
      let update ← state.newUpdate
      return (fun _ => ()) <$> update.addHeaders headers : Go (Go Unit)) = .ok Go.panic := by
    decide +kernel
  simp only [bind_eq_ok, pure_eq_ok] at panics
  obtain ⟨state, isState, headers, found, update, updates, fails⟩ := panics
  refine ⟨state, headers, update, isState, found, updates, ?_⟩
  generalize update.addHeaders headers = result at fails
  rcases result with fault | after
  · cases fails
    rfl
  · cases fails

end Chain
end MultiVac
