import MultiVac.Ledger.State
import MultiVac.Wire.Header

/-!
# Received headers

The database keeps the first header for a shard and height that it can read back.
-/

namespace MultiVac.Ledger

open Lib Wire

namespace HeaderStore

variable {store received : HeaderStore}

/-- What is returned for a shard and height after a header has been received. -/
theorem getShardsHeaderByHeight_receiveHeader {header : BlockHeader}
    (receives : store.receiveHeader header = .ok received) (shardIndex : ShardIndex)
    (height : Int) :
    received.getShardsHeaderByHeight shardIndex height =
      (store.getShardsHeaderByHeight shardIndex height).or
        (if header.shardIndex = shardIndex ∧ header.height = height ∧
            header.version.natAbs < 2 ^ 24 then some (Codec.blockHeader.decoded header)
          else none) := by
  simp only [HeaderStore.receiveHeader, bind_eq_ok] at receives
  obtain ⟨_, _, receives⟩ := receives
  split at receives
  · rename_i known
    obtain rfl := pure_eq_ok.mp receives
    obtain ⟨kept, isKept⟩ := Option.isSome_iff_exists.mp known
    split
    · rename_i isKey
      obtain ⟨rfl, rfl, -⟩ := isKey
      rw [isKept, Option.some_or]
    · rw [Option.or_none]
  · obtain ⟨bytes, written, receives⟩ := bind_eq_ok.mp receives
    have readable := Codec.isSome_decodeBytes_blockHeader_iff written
    split at receives
    · rename_i unreadable
      obtain rfl := pure_eq_ok.mp receives
      rw [unreadable] at readable
      rw [if_neg, Option.or_none]
      exact fun isKey => absurd (readable.mpr isKey.2.2) Bool.false_ne_true
    · rename_i stored isRead
      obtain rfl := pure_eq_ok.mp receives
      have isDecoded : stored = Codec.blockHeader.decoded header :=
        (Rlp.bytesOf Fault.panic Codec.blockHeader).read_of_write written stored isRead
      have key : stored.shardIndex = header.shardIndex ∧ stored.height = header.height := by
        rw [isDecoded]
        exact ⟨Codec.decoded_uint32 header.shardIndex, rfl⟩
      have small : header.version.natAbs < 2 ^ 24 := readable.mp (by rw [isRead]; rfl)
      rw [HeaderStore.getShardsHeaderByHeight, List.find?_append, List.find?_singleton, key.1,
        key.2, ← isDecoded]
      simp only [small, and_true, decide_eq_true_eq]
      rfl

/-- A header that is found stays. -/
theorem getShardsHeaderByHeight_kept {header found : BlockHeader} {shardIndex : ShardIndex}
    {height : Int} (isFound : store.getShardsHeaderByHeight shardIndex height = some found)
    (receives : store.receiveHeader header = .ok received) :
    received.getShardsHeaderByHeight shardIndex height = some found := by
  rw [getShardsHeaderByHeight_receiveHeader receives, isFound, Option.some_or]

end HeaderStore

namespace ShardStateManager

theorem chain_applyUpdate {state newState : ShardStateManager} {update : Update}
    (applied : state.applyUpdate update = .ok newState) : newState.chain = state.chain := by
  simp only [ShardStateManager.applyUpdate, bind_eq_ok, pure_eq_ok] at applied
  obtain ⟨_, _, _, _, _, _, rfl⟩ := applied
  rfl

end ShardStateManager

end MultiVac.Ledger
