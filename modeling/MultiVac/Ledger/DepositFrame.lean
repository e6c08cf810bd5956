import MultiVac.Ledger.DepositStore

/-!
# What an update leaves alone

`Update` is called with the shard whose ledger has changed. It drops a locked deposit
whose time is over before it looks at the shard of the deposit, so the deposits of the
other shards are left alone exactly when no such deposit is among them.
-/

namespace MultiVac.Ledger

open Lib Wire Merkle

/-- What a deposit pool can hold: the deposits in its database are under their hashes. -/
structure StoredDeposits extends DepositStore where
  keyed : DepositStore.Keyed depositDb

namespace DepositStore

/-- The deposits of a pool, in memory or in the database that it uses. -/
def Contains (store : DepositStore) (key : MerkleHash) (deposit : DepositInfo) : Prop :=
  store.pool.lookup key = some deposit ∨ store.isUsedDB = true ∧ Holds store.depositDb key deposit

/-- The path of a deposit leads to the root that an update ends with. -/
def LeadsToNewRoot (update : Ledger.Update) (deposit : DepositInfo) : Prop :=
  ∃ root, update.deltaTree.getMerkleRoot = .ok root ∧ verify deposit.proof root = .ok ()

/-- The frame of an update of one shard. -/
structure Framed (update : Ledger.Update) (shard : ShardIndex)
    (before after : DepositStore) : Prop where
  othersInMemory : ∀ key deposit, before.pool.lookup key = some deposit →
    deposit.outPoint.shard ≠ shard → after.pool.lookup key = some deposit
  ownInMemory : ∀ key deposit, before.pool.lookup key = some deposit →
    deposit.outPoint.shard = shard → deposit.locked = false →
      ∃ kept, after.pool.lookup key = some kept ∧ kept.outPoint = deposit.outPoint ∧
        LeadsToNewRoot update kept
  othersInDatabase : before.isUsedDB = true → ∀ key deposit, Holds before.depositDb key deposit →
      deposit.outPoint.shard ≠ shard → Holds after.depositDb key deposit
  ownInDatabase : before.isUsedDB = true → ∀ key deposit, Holds before.depositDb key deposit →
      deposit.outPoint.shard = shard → deposit.locked = false →
        ∃ kept, Holds after.depositDb key kept ∧ kept.outPoint = deposit.outPoint ∧
          LeadsToNewRoot update kept

/-- The withdrawal of a locked deposit is so long ago that `Update` drops it. -/
def Expired (height : Int) (deposit : DepositInfo) : Prop :=
  deposit.locked = true ∧ height - deposit.blockHeight > withdrawHeight

section Cases

variable {update : Ledger.Update} {shard : ShardIndex} {height : Int} {deposit : DepositInfo}

theorem updateDeposit_of_expired (expired : Expired height deposit) :
    DepositPool.updateDeposit update shard height deposit = .ok none := by
  rw [DepositPool.updateDeposit_eq, if_pos expired.1, if_pos expired.2]

theorem updateDeposit_of_other (other : deposit.outPoint.shard ≠ shard)
    (current : ¬ Expired height deposit) :
    DepositPool.updateDeposit update shard height deposit = .ok (some deposit) := by
  rw [DepositPool.updateDeposit_eq]
  split
  · next locked => rw [if_neg fun late => current ⟨locked, late⟩]
  · rfl

/-- A deposit whose refresh succeeds leads to the new root. -/
theorem updateDeposit_of_own (own : deposit.outPoint.shard = shard)
    (unlocked : deposit.locked = false) {next : Option DepositInfo}
    (updated : DepositPool.updateDeposit update shard height deposit = .ok next) :
    ∃ kept, next = some kept ∧ kept.outPoint = deposit.outPoint ∧ LeadsToNewRoot update kept := by
  rw [DepositPool.updateDeposit_eq, if_neg (by simp [unlocked]), if_neg (not_not.mpr own)] at updated
  obtain ⟨newProof, refreshed, rfl⟩ := map_eq_ok.mp updated
  refine ⟨_, rfl, rfl, ?_⟩
  obtain ⟨_, -, rest⟩ := bind_eq_ok.mp refreshed
  obtain ⟨root, isRoot, rest⟩ := bind_eq_ok.mp rest
  obtain ⟨_, verified, same⟩ := bind_eq_ok.mp rest
  obtain rfl := pure_eq_ok.mp same
  exact ⟨root, isRoot, verified⟩

end Cases

section Frame

variable {update : Ledger.Update} {shard : ShardIndex} {height : Int}
  {before after : DepositStore}

theorem Updated.framed (updated : Updated update shard height before after)
    (current : ∀ key deposit, before.Contains key deposit → deposit.outPoint.shard ≠ shard →
      ¬ Expired height deposit) :
    Framed update shard before after where
  othersInMemory := by
    intro key deposit found other
    have step := updated.inMemory key deposit found
    rw [updateDeposit_of_other other (current key deposit (Or.inl found) other)] at step
    exact (Except.ok.inj step).symm
  ownInMemory := by
    intro key deposit found own unlocked
    exact updateDeposit_of_own own unlocked (updated.inMemory key deposit found)
  othersInDatabase := by
    intro isUsed key deposit holds other
    obtain ⟨next, step, -, keeps⟩ := updated.inDatabase isUsed key deposit holds
    rw [updateDeposit_of_other other (current key deposit (Or.inr ⟨isUsed, holds⟩) other)] at step
    exact keeps deposit (Except.ok.inj step).symm
  ownInDatabase := by
    intro isUsed key deposit holds own unlocked
    obtain ⟨next, step, -, keeps⟩ := updated.inDatabase isUsed key deposit holds
    obtain ⟨kept, isKept, sameOut, leads⟩ := updateDeposit_of_own own unlocked step
    exact ⟨kept, keeps kept isKept, sameOut, leads⟩

/-- An expired deposit is gone afterwards. -/
theorem Updated.not_expired (updated : Updated update shard height before after)
    (framed : Framed update shard before after) {key : MerkleHash} {deposit : DepositInfo}
    (contains : before.Contains key deposit) (other : deposit.outPoint.shard ≠ shard) :
    ¬ Expired height deposit := by
  intro expired
  rcases contains with found | ⟨isUsed, holds⟩
  · have step := updated.inMemory key deposit found
    rw [updateDeposit_of_expired expired, framed.othersInMemory key deposit found other] at step
    cases step
  · obtain ⟨next, step, gone, -⟩ := updated.inDatabase isUsed key deposit holds
    rw [updateDeposit_of_expired expired] at step
    obtain ⟨data, present, -⟩ := framed.othersInDatabase isUsed key deposit holds other
    rw [gone (Except.ok.inj step).symm] at present
    cases present

end Frame

/-- A successful update of a shard leaves the deposits of the other shards alone and
refreshes its own exactly when no deposit of another shard has expired. -/
theorem framed_iff (before : StoredDeposits) (fails : DbOperation → Bool) (order : MapOrder)
    (update : Ledger.Update) (shard : ShardIndex) (height : Int)
    (succeeded :
      (DepositStore.update fails order update shard height before.toDepositStore).1 = .ok ()) :
    Framed update shard before.toDepositStore
        (DepositStore.update fails order update shard height before.toDepositStore).2 ↔
      ∀ key deposit, before.Contains key deposit → deposit.outPoint.shard ≠ shard →
        ¬ Expired height deposit := by
  have updated : Updated update shard height before.toDepositStore
      (DepositStore.update fails order update shard height before.toDepositStore).2 :=
    updated_of_update before.keyed (Prod.ext succeeded rfl)
  constructor
  · intro framed key deposit contains other
    exact updated.not_expired framed contains other
  · exact updated.framed

/-- An update that changes nothing, of a ledger with one leaf. -/
def idleUpdate : Ledger.Update where
  deltaTree := newDeltaMerkleTree default
  newLedgerInfo := default

/-- A deposit that is the only leaf of its ledger. -/
def lonelyDeposit (shard : ShardIndex) (locked : Bool) : DepositInfo where
  outPoint := { (default : OutPoint) with shard }
  proof := pathOf default []
  blockHeight := 1
  locked := locked

/-- The key of a deposit. -/
def keyOf (deposit : DepositInfo) : MerkleHash :=
  deposit.outPoint.unspentOutHash.toOption.getD default

/-- A pool with a database that holds one deposit of shard `0`, and a withdrawn one of
shard `1` in memory. -/
def twoShards : StoredDeposits where
  pool := (AList.insert (keyOf (lonelyDeposit 0 false)) (lonelyDeposit 0 false) ∅).insert
    (keyOf (lonelyDeposit 1 true)) (lonelyDeposit 1 true)
  isUsedDB := true
  depositDb := AList.insert (keyOf (lonelyDeposit 0 false))
    ((encodeToBytes DepositInfo.codec (lonelyDeposit 0 false)).toOption.getD []) ∅
  keyed := @Keyed.insert ∅ keyed_empty (lonelyDeposit 0 false) _ (by decide) _
    (by decide)

/-- Two hundred blocks after the withdrawal the deposit of the other shard is kept. -/
theorem framed_at_expiry :
    (DepositStore.update (fun _ => false) .listed idleUpdate 0 201 twoShards.toDepositStore).1 =
        .ok () ∧
      Framed idleUpdate 0 twoShards.toDepositStore
        (DepositStore.update (fun _ => false) .listed idleUpdate 0 201 twoShards.toDepositStore).2 := by
  have succeeded :
      (DepositStore.update (fun _ => false) .listed idleUpdate 0 201 twoShards.toDepositStore).1 =
        .ok () := by
    decide
  refine ⟨succeeded, (framed_iff twoShards _ _ _ _ _ succeeded).mpr ?_⟩
  rintro key deposit (found | ⟨-, data, found, written⟩) other
  · have checked : ∀ entry ∈ twoShards.pool.entries, entry.2.outPoint.shard ≠ 0 →
        ¬ Expired 201 entry.2 := by
      unfold Expired
      decide
    exact checked _ (AList.mem_lookup_iff.mp found) other
  · have checked : ∀ entry ∈ twoShards.depositDb.entries,
        encodeToBytes DepositInfo.codec (lonelyDeposit 0 false) = .ok entry.2 := by
      decide
    -- The deposit of the encoding belongs to shard 0.
    have same := (Rlp.bytesOf Fault.panic DepositInfo.codec).decoded_of_write written
      (checked _ (AList.mem_lookup_iff.mp found))
    have sameShard : Codec.uint32.decoded deposit.outPoint.shard = Codec.uint32.decoded 0 :=
      congrArg (fun decoded : DepositInfo => decoded.outPoint.shard) same
    rw [Codec.decoded_uint32, Codec.decoded_uint32] at sameShard
    exact absurd sameShard other

/-- One block later it is dropped, although the update is one of shard `0`. -/
theorem withdrawn_of_other_shard_dropped :
    (DepositStore.update (fun _ => false) .listed idleUpdate 0 202 twoShards.toDepositStore).1 =
        .ok () ∧
      ¬ Framed idleUpdate 0 twoShards.toDepositStore
        (DepositStore.update (fun _ => false) .listed idleUpdate 0 202 twoShards.toDepositStore).2 := by
  have facts :
      (DepositStore.update (fun _ => false) .listed idleUpdate 0 202 twoShards.toDepositStore).1 =
          .ok () ∧
        ((DepositStore.update (fun _ => false) .listed idleUpdate 0 202
          twoShards.toDepositStore).2.pool.lookup (keyOf (lonelyDeposit 1 true))).isNone := by
    decide
  refine ⟨facts.1, fun framed => ?_⟩
  have kept := framed.othersInMemory (keyOf (lonelyDeposit 1 true)) (lonelyDeposit 1 true)
    (AList.lookup_insert _) (by decide)
  rw [kept] at facts
  exact absurd facts.2 (by decide)

end DepositStore

end MultiVac.Ledger
