import MultiVac.Chain.Body
import MultiVac.Chain.Mountable

/-!
# Proposed blocks

What `ProposeBlock` puts into a block: a reward, transactions of the pool and reduce
transactions for the headers that it mounts, with what their execution returns. The
hashes of a block survive its way to a verifier.
-/

namespace MultiVac.Chain

open Lib Wire Merkle Ledger Contract

/-- Where a proposer takes a transaction from. -/
inductive Taken (env : Environment) (miner : Miner) (proposal : Proposal)
    (tx : MsgTxWithProofs) : Prop
  | reward {addr : Address} (owner : proposal.rewardAddress = .ok addr)
      (created : createRewardTx env.platform miner.shardIndex miner.shardHeight addr = .ok tx)
  | pooled (inPool : tx ∈ proposal.pool) (plain : tx.tx.isReduceTx = false)
      (verified : verifyTx miner tx.tx = .ok ())
  | reduce {headers : List BlockHeader} {header : BlockHeader} {made : List MsgTxWithProofs}
      (known : miner.state.getBlockHeadersToAppend miner.state.localLedgerInfo = .ok headers)
      (inHeaders : header ∈ headers)
      (generated : generateReduceTxsByHeader env miner header = .ok made) (inMade : tx ∈ made)

variable {env : Environment} {miner : Miner} {proposal : Proposal} {txs : List MsgTxWithProofs}

theorem taken_of_selectTransactions {before after : Update} {pool : List MsgTxWithProofs}
    (selects : selectTransactions miner before pool = .ok (after, txs))
    (inPool : pool ⊆ proposal.pool) : ∀ tx ∈ txs, Taken env miner proposal tx := by
  induction pool generalizing before after txs with
  | nil =>
    obtain ⟨-, rfl⟩ := Prod.mk.inj (Except.ok.inj selects)
    simp
  | cons tx pool ih =>
    obtain ⟨isPooled, restPooled⟩ := List.cons_subset.mp inPool
    rw [selectTransactions] at selects
    split at selects
    · exact ih selects restPooled
    next plain =>
      obtain ⟨_ | _, attempted, rest⟩ := bind_eq_ok.mp selects
      · exact ih rest restPooled
      · obtain ⟨next, -, rest⟩ := bind_eq_ok.mp rest
        obtain ⟨⟨last, others⟩, selected, rest⟩ := bind_eq_ok.mp rest
        obtain ⟨-, rfl⟩ := Prod.mk.inj (pure_eq_ok.mp rest)
        refine List.forall_mem_cons.mpr ⟨.pooled isPooled ?_ ?_, ih selected restPooled⟩
        · simpa using plain
        · exact (Go.attempt_eq_ok_some _ _).mp attempted

theorem taken_of_mountStep {headers : List BlockHeader} {mounting : Mounting}
    (known : miner.state.getBlockHeadersToAppend miner.state.localLedgerInfo = .ok headers)
    (mounts : headers.foldlM (mountStep env miner) ⟨[], [], []⟩ = .ok mounting) :
    ∀ tx ∈ mounting.reduceTxs, Taken env miner proposal tx := by
  refine @foldlM_invariant _ _ _ _ (fun next => ∀ tx ∈ next.reduceTxs, Taken env miner proposal tx)
    _ (fun before header inHeaders after stepped taken => ?_) _ _ mounts (by simp)
  rw [mountStep] at stepped
  split at stepped
  · rwa [← pure_eq_ok.mp stepped]
  obtain ⟨_ | made, attempted, stepped⟩ := bind_eq_ok.mp stepped
  · rwa [← pure_eq_ok.mp stepped]
  · obtain rfl := pure_eq_ok.mp stepped
    have generated := (Go.attempt_eq_ok_some _ _).mp attempted
    exact List.forall_mem_append.mpr ⟨taken, fun _ => .reduce known inHeaders generated⟩

theorem of_findTx {hash : Hash} {tx : MsgTxWithProofs} (found : findTx txs hash = .ok tx) :
    tx ∈ txs ∧ tx.tx.txHash = .ok hash := by
  obtain ⟨hashes, hashed, found⟩ := bind_eq_ok.mp found
  split at found
  · cases found
  next _ last isFound =>
    obtain rfl := pure_eq_ok.mp found
    have inZip := List.mem_reverse.mp (List.mem_of_find?_eq_some isFound)
    obtain rfl : last = hash := by simpa using List.find?_some isFound
    exact ⟨(List.of_mem_zip inZip).1,
      (List.forall₂_iff_zip.mp (mapM_eq_ok_iff.mp hashed)).2 inZip⟩

/-- A proposed block holds the transactions that succeed of those that were taken, and what
executing these returned; its header names its body, its outs and the reduce actions, and is
not marked as empty. -/
theorem matchesExecution_of_proposeBlock {block : MsgBlock}
    (proposed : proposeBlock env miner proposal = .ok block) :
    blockBodyHash block.body = .ok block.header.blockBodyHash ∧
      block.header.isEmptyBlock = false ∧
      ∃ (txs : List MsgTxWithProofs) (result : Result),
        (∀ tx ∈ txs, Taken env miner proposal tx) ∧
        execute env.platform env.contracts proposal.order miner.shardIndex
          (txs.map MsgTxWithProofs.tx) miner.proposeBlockHgt = .ok result ∧
        List.Forall₂ (fun done tx => tx ∈ txs ∧ tx.tx.txHash = done.txHash)
          result.successfulTxs block.body.transactions ∧
        block.body.outs = result.outStates ∧
        outsRoot block.body.outs = .ok block.header.outsMerkleRoot ∧
        block.header.reduceActions = result.reduceActions := by
  simp only [proposeBlock, prepareLedger, newBlock, bind_eq_ok, pure_eq_ok] at proposed
  obtain ⟨_, ⟨update, -, ⟨marked, allTxs⟩, gets, ⟨selected, normal⟩, selects, headers, known,
    mounting, mounts, _, -, rfl⟩, _, -, addr, owner, reward, created, _, -, result, executed,
    inBlock, collected, _, -, _, ⟨_, hashed, rfl⟩, rfl⟩ := proposed
  refine ⟨hashed, rfl, _, result, ?_, executed, ?_, rfl, merkleRoot_of_execute executed, rfl⟩
  · exact List.forall_mem_cons.mpr ⟨.reward owner created, List.forall_mem_append.mpr
      ⟨taken_of_selectTransactions selects (taken_subset gets), taken_of_mountStep known mounts⟩⟩
  · refine (mapM_eq_ok_iff.mp collected).imp fun done tx found => ?_
    obtain ⟨hash, isHash, found⟩ := bind_eq_ok.mp found
    exact (of_findTx found).imp_right fun same => same.trans isHash.symm

/-- A call with a payment in the pool. -/
def Proposal.paying : Proposal := ⟨[payTx coinPath], .listed, .ok (.of [1]), [], [], 0⟩

/-- The miner takes the payment from the pool and mounts the header that it knows. -/
theorem matchesExecution_of_proposeBlock_paying :
    ∃ block : MsgBlock, proposeBlock .plain copyMiner .paying = .ok block ∧
      payTx coinPath ∈ block.body.transactions ∧ block.body.transactions.length = 2 ∧
      getShardHeight block.body.ledgerInfo 1 = 1 ∧ block.header.isEmptyBlock = false ∧
      ∃ txs : List MsgTxWithProofs, (∀ tx ∈ txs, Taken .plain copyMiner .paying tx) ∧
        ∀ tx ∈ block.body.transactions, tx ∈ txs := by
  have checked : (fun block : MsgBlock => (decide (payTx coinPath ∈ block.body.transactions),
        block.body.transactions.length, getShardHeight block.body.ledgerInfo 1)) <$>
      proposeBlock .plain copyMiner .paying = .ok (true, 2, 1) := by decide +kernel
  obtain ⟨block, proposed, parts⟩ := map_eq_ok.mp checked
  simp only [Prod.mk.injEq, decide_eq_true_eq] at parts
  obtain ⟨pays, two, mounted⟩ := parts
  obtain ⟨-, notEmpty, txs, result, taken, -, listed, -⟩ :=
    matchesExecution_of_proposeBlock proposed
  refine ⟨block, proposed, pays, two, mounted, notEmpty, txs, taken, ?_⟩
  clear proposed pays two mounted notEmpty
  generalize result.successfulTxs = done, block.body.transactions = inBlock at listed
  induction listed with
  | nil => simp
  | cons found _ ih => exact List.forall_mem_cons.mpr ⟨found.1, ih⟩

/-- A block that has been sent and read has the hashes of the block that was sent. -/
theorem hashes_of_decodeBytes {block received : MsgBlock} {bytes : Bytes}
    (written : encodeToBytes Codec.msgBlock block = .ok bytes)
    (isRead : decodeBytes Codec.msgBlock bytes = some received) :
    HeaderStore.blockHeaderHash received.header = HeaderStore.blockHeaderHash block.header ∧
      blockBodyHash received.body = blockBodyHash block.body ∧
      received.body.transactions.map (·.tx.txHash) = block.body.transactions.map (·.tx.txHash) := by
  obtain rfl := (Rlp.bytesOf Fault.panic Codec.msgBlock).read_of_write written received isRead
  refine ⟨hashOf_decoded Codec.blockHeader { block.header with headerSig := [] },
    hashOf_decoded _ _, ?_⟩
  show (block.body.transactions.map Codec.msgTxWithProofs.decoded).map _ = _
  rw [List.map_map]
  exact List.map_congr_left fun tx _ => hashOf_decoded Codec.msgTx tx.tx

/-- A block with a reward and a payment. -/
theorem hashes_of_decodeBytes_payBlock :
    ∃ bytes received, encodeToBytes Codec.msgBlock payBlock = .ok bytes ∧
      decodeBytes Codec.msgBlock bytes = some received ∧ received.body.transactions.length = 2 ∧
      received.body.transactions.map (·.tx.txHash) =
        payBlock.body.transactions.map (·.tx.txHash) := by
  have both : (fun bytes => (decodeBytes Codec.msgBlock bytes).map
      (·.body.transactions.length)) <$> encodeToBytes Codec.msgBlock payBlock = .ok (some 2) := by
    decide +kernel
  obtain ⟨bytes, written, isRead⟩ := map_eq_ok.mp both
  obtain ⟨received, isRead, two⟩ := Option.map_eq_some_iff.mp isRead
  exact ⟨bytes, received, written, isRead, two, (hashes_of_decodeBytes written isRead).2.2⟩

end MultiVac.Chain
