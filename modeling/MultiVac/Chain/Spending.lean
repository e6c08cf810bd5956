import MultiVac.Chain.Accept
import MultiVac.Ledger.Book

/-!
# Who may spend, and only once

The transactions of a verified block after the coinbase slot spend outs of the ledger
that belong to the keys that signed them. An accepted block leaves these outs in the
ledger as spent outs, and they stay there, so that no later block spends them.
-/

namespace MultiVac.Chain

open Lib Wire Merkle Ledger Contract

variable {env : Environment} {miner : Miner} {visits : Visits} {block : MsgBlock}

/-- The outs that the transactions after the coinbase slot spend. -/
def spentInputs (body : BlockBody) : List OutPoint :=
  (normalTxs body).flatMap fun tx => if tx.tx.isReduceTx then [] else tx.tx.inputs

theorem mem_spentInputs {body : BlockBody} {out : OutPoint} :
    out ∈ spentInputs body ↔
      ∃ tx ∈ normalTxs body, tx.tx.isReduceTx = false ∧ out ∈ tx.tx.inputs := by
  rw [spentInputs, List.mem_flatMap]
  refine exists_congr fun tx => and_congr_right fun _ => ?_
  cases tx.tx.isReduceTx <;> simp

theorem spentInputs_sublist (body : BlockBody) :
    (spentInputs body).Sublist ((normalTxs body).flatMap fun tx => tx.tx.inputs) := by
  rw [spentInputs]
  induction normalTxs body with
  | nil => exact .slnil
  | cons tx txs ih =>
    rw [List.flatMap_cons, List.flatMap_cons]
    refine List.Sublist.append ?_ ih
    split
    · exact List.nil_sublist _
    · exact List.Sublist.refl _

/-! ### Verified inputs -/

variable {inputs : List OutPoint} {proofs : List MerklePath}

theorem of_verifyProofs {root : MerkleHash} (verified : verifyProofs root inputs proofs = .ok ()) :
    inputs.length ≤ proofs.length ∧ ∀ edit ∈ List.zipWith spend inputs proofs,
      verify edit.path root = .ok () ∧ getLeaf edit.path = .ok (digest edit.old) ∧
        Encodable edit.old := by
  induction inputs generalizing proofs with
  | nil => simp
  | cons out inputs ih =>
    cases proofs with
    | nil => exact absurd verified (Go.panic_ne_ok _)
    | cons proof proofs =>
      simp only [verifyProofs, bind_eq_ok, Go.require_eq_ok, decide_eq_true_eq] at verified
      obtain ⟨hash, hashed, leaf, isLeaf, _, rfl, _, checked, rest⟩ := verified
      obtain ⟨enough, sound⟩ := ih rest
      have isDigest : digest (spend out proof).old = hash := digest_eq hashed
      refine ⟨by simpa using enough, ?_⟩
      rw [List.zipWith_cons_cons]
      refine List.forall_mem_cons.mpr ⟨⟨checked, ?_, encodable_of_hash hashed⟩, sound⟩
      rw [isDigest]
      exact isLeaf

theorem encodable_of_writes {update written : Update} {edits : List Edit}
    (writes : edits.foldlM Update.write update = .ok written) :
    ∀ edit ∈ edits, Encodable edit.new := by
  induction edits generalizing update with
  | nil => simp
  | cons edit edits ih =>
    obtain ⟨next, steps, rest⟩ := bind_eq_ok.mp writes
    obtain ⟨hash, hashed, -⟩ := bind_eq_ok.mp steps
    exact List.forall_mem_cons.mpr ⟨encodable_of_hash hashed, ih rest⟩

variable {tx : MsgTxWithProofs} {out : OutPoint}

section

variable (verified : Verified env miner visits block)
include verified

/-- What has been verified of an ordinary transaction. -/
theorem Verified.ordinary (inNormal : tx ∈ normalTxs block.body)
    (ordinary : tx.tx.isReduceTx = false) :
    tx.tx.shard = miner.shardIndex ∧ tx.tx.verifyTransaction env.platform.toPrimitives = .ok () ∧
      tx.tx.inputs.length = tx.proofs.elems.length ∧
      verifyProofs miner.state.tree.root tx.tx.inputs tx.proofs.elems = .ok () := by
  have checked := verified.normal tx inNormal
  simp only [verifyNormalTx, verifyTxWithProof, ordinary, Bool.not_false, if_true,
    bind_eq_ok, Go.require_eq_ok, decide_eq_true_eq, MsgTx.isTxInShard] at checked
  obtain ⟨_, inShard, _, ⟨_, transaction, _, lengths, proofs⟩, _⟩ := checked
  refine ⟨inShard.symm, transaction, ?_, proofs⟩
  rw [MsgTx.inputs, List.length_map]
  exact lengths

/-- The inputs of the transactions after the coinbase slot are marked with good proofs. -/
theorem Verified.sound (inNormal : tx ∈ normalTxs block.body) :
    HasProofs tx ∧ ∀ edit ∈ spends tx, edit.Sound miner.state.tree.root := by
  cases reduce : tx.tx.isReduceTx with
  | true => exact ⟨.inl reduce, by simp [spends, reduce]⟩
  | false =>
    obtain ⟨_, _, lengths, proofs⟩ := verified.ordinary inNormal reduce
    have root := verified.root
    simp only [newLedgerRoot, Update.markTransactions_eq_ok_iff, bind_eq_ok] at root
    obtain ⟨_, _, _, ⟨-, marks⟩, _⟩ := root
    refine ⟨.inr (Nat.le_of_eq lengths), fun edit inEdits => ?_⟩
    have newEncodable := encodable_of_writes marks edit
      (List.mem_flatMap_of_mem (List.mem_of_mem_tail inNormal) inEdits)
    rw [spends, reduce, if_neg Bool.false_ne_true] at inEdits
    obtain ⟨checked, leaf, oldEncodable⟩ := (of_verifyProofs proofs).2 edit inEdits
    exact ⟨checked, leaf, oldEncodable, newEncodable⟩

/-- Every spent input is marked. -/
theorem Verified.exists_edit (isSpent : out ∈ spentInputs block.body) :
    ∃ tx ∈ normalTxs block.body, ∃ edit ∈ spends tx,
      edit.old = out.toUnspentOutState ∧ edit.new = out.toSpentOutState := by
  obtain ⟨tx, inNormal, ordinary, inInputs⟩ := mem_spentInputs.mp isSpent
  obtain ⟨_, _, lengths, _⟩ := verified.ordinary inNormal ordinary
  obtain ⟨index, inRange, rfl⟩ := List.getElem_of_mem inInputs
  refine ⟨tx, inNormal, spend tx.tx.inputs[index] tx.proofs.elems[index], ?_, rfl, rfl⟩
  rw [spends, ordinary, if_neg Bool.false_ne_true]
  have inZip : index < (List.zipWith spend tx.tx.inputs tx.proofs.elems).length := by
    rw [List.length_zipWith]
    omega
  have := List.getElem_mem inZip
  rwa [List.getElem_zipWith] at this

/-- No out is an input twice. -/
theorem Verified.nodup_inputs :
    (((normalTxs block.body).flatMap fun tx => tx.tx.inputs).map
      Codec.outPoint.decoded).Nodup := by
  obtain ⟨hashes, hashed, distinct, _⟩ := (refuseDuplicates_eq_ok_iff _ _ _ _).mp verified.distinct
  generalize (normalTxs block.body).flatMap (fun tx => tx.tx.inputs) = outs at hashed ⊢
  obtain rfl : hashes = (outs.map Codec.outPoint.decoded).map
      fun out => digest out.toUnspentOutState := by
    rw [List.map_map]
    refine eq_map_of_mapM (fun out hash hashed => (digest_eq ?_).symm) hashed
    exact (hashOf_decoded Codec.outState out.toUnspentOutState).trans hashed
  exact distinct.of_map

end

/-! ### The ledger as a book -/

/-- In a book without repetitions an out that is held as spent is not held as unspent. -/
theorem not_holds_unspent {book : Book} (distinct : book.Distinct)
    (spent : Holds book.outs out.toSpentOutState) : ¬ Holds book.outs out.toUnspentOutState := by
  rintro ⟨unspentEntry, inOuts, isUnspent⟩
  obtain ⟨spentEntry, inOutsToo, isSpent⟩ := spent
  have sameKey : outKey spentEntry = outKey unspentEntry :=
    (congrArg OutState.outPoint isSpent).trans (congrArg OutState.outPoint isUnspent).symm
  obtain rfl := List.inj_on_of_nodup_map distinct inOutsToo inOuts sameKey
  have sameState := congrArg OutState.state (isSpent.symm.trans isUnspent)
  exact absurd (show stateUsed = stateUnused from sameState) (by decide)

/-- A block may be added to a book: nothing that is hashed collides, the proofs of the
coinbase slot and of the update actions start at the outs that they replace, update
actions replace no spent out, and the outs that are mounted are new. -/
structure Admissible (strings : Set Bytes) (book : Book) (state : ShardStateManager)
    (block : MsgBlock) (units : List (List OutState)) : Prop where
  hashed : book.Hashed strings (blockEdits block) units
  first : ∀ tx ∈ block.body.transactions.head?, HasProofs tx ∧
    ∀ edit ∈ spends tx, edit.Sound state.tree.root
  rewrites : ∀ action ∈ block.body.updateActions.elems,
    (rewrite action).Sound state.tree.root ∧ action.originOut.state ≠ stateUsed ∧
      ∀ out ∈ spentInputs block.body,
        Codec.outState.decoded action.originOut ≠ Codec.outState.decoded out.toUnspentOutState
  mounts : ∃ headers, state.getBlockHeadersToAppend block.body.ledgerInfo = .ok headers ∧
    Mounts headers units
  distinct : (book.afterBlock block units).Distinct
  small : book.size + units.length < 2 ^ 63

section Accepting

variable {strings : Set Bytes} (collisionFree : CollisionFree strings) {book : Book}
  {units : List (List OutState)}

theorem Verified.sound_blockEdits (verified : Verified env miner visits block)
    (admissible : Admissible strings book miner.state block units) :
    (∀ tx ∈ block.body.transactions, HasProofs tx) ∧
      ∀ edit ∈ blockEdits block, edit.Sound miner.state.tree.root := by
  have all : ∀ tx ∈ block.body.transactions, HasProofs tx ∧
      ∀ edit ∈ spends tx, edit.Sound miner.state.tree.root := by
    intro tx inBody
    cases transactions : block.body.transactions with
    | nil =>
      rw [transactions] at inBody
      cases inBody
    | cons first rest =>
      rw [transactions] at inBody
      rcases List.mem_cons.mp inBody with rfl | later
      · exact admissible.first tx (by rw [transactions]; rfl)
      · exact verified.sound (by rw [normalTxs, transactions]; exact later)
  refine ⟨fun tx inBody => (all tx inBody).1, List.forall_mem_append.mpr ⟨?_, ?_⟩⟩
  · intro edit inSpends
    obtain ⟨tx, inBody, inEdits⟩ := List.mem_flatMap.mp inSpends
    exact (all tx inBody).2 edit inEdits
  · intro edit inRewrites
    obtain ⟨action, inActions, rfl⟩ := List.mem_map.mp inRewrites
    exact (admissible.rewrites action inActions).1

include collisionFree in
/-- A verified block makes the update of the book. -/
theorem Verified.backs (verified : Verified env miner visits block)
    (backs : book.Backs miner.state.tree) (distinct : book.Distinct)
    (admissible : Admissible strings book miner.state block units) :
    ∃ update after, miner.state.getUpdateWithFullBlock block = .ok update ∧
      miner.state.applyUpdate update = .ok after ∧
      (book.afterBlock block units).Backs after.tree ∧
      MerkleTree.Grown (book.afterBlock block units).tree (book.afterBlock block units).size
        update.deltaTree := by
  obtain ⟨enough, sound⟩ := verified.sound_blockEdits admissible
  obtain ⟨headers, found, mounts⟩ := admissible.mounts
  obtain ⟨update, updates, treeOf, grown⟩ := backs.getUpdateWithFullBlock collisionFree distinct
    admissible.hashed enough sound found mounts admissible.small
  obtain ⟨after, applies, afterBacks⟩ := backs.applyUpdate treeOf grown
  exact ⟨update, after, updates, applies, afterBacks, grown⟩

theorem mem_blockEdits {edit : Edit} (inEdits : edit ∈ blockEdits block) :
    (∃ out proof, edit = spend out proof) ∨
      ∃ action ∈ block.body.updateActions.elems, edit = rewrite action := by
  rcases List.mem_append.mp inEdits with inSpends | inRewrites
  · obtain ⟨tx, _, inTx⟩ := List.mem_flatMap.mp inSpends
    rw [spends] at inTx
    split at inTx
    · cases inTx
    · exact .inl (exists_of_mem_inputSpends inTx)
  · obtain ⟨action, inActions, rfl⟩ := List.mem_map.mp inRewrites
    exact .inr ⟨action, inActions, rfl⟩

variable {state : ShardStateManager} {out : OutPoint}

/-- A spent input is in the book as a spent out after the block. -/
theorem Verified.holds_spent (verified : Verified env miner visits block)
    (admissible : Admissible strings book state block units)
    (isSpent : out ∈ spentInputs block.body) (held : Holds book.outs out.toUnspentOutState) :
    Holds (book.afterBlock block units).outs out.toSpentOutState := by
  obtain ⟨entry, inOuts, same⟩ := held
  refine ⟨editOut (blockEdits block) entry, List.mem_append_left _ (List.mem_map_of_mem inOuts), ?_⟩
  rcases editOut_cases (blockEdits block) entry with ⟨_, untouched⟩ | ⟨edit, inEdits, isNew, isOld⟩
  · obtain ⟨tx, inNormal, edit, inSpends, old, _⟩ := verified.exists_edit isSpent
    refine absurd ?_ (untouched edit (List.mem_append_left _
      (List.mem_flatMap_of_mem (List.mem_of_mem_tail inNormal) inSpends)))
    rw [old, same]
  · rcases mem_blockEdits inEdits with ⟨other, proof, rfl⟩ | ⟨action, inActions, rfl⟩
    · have sameOut : Codec.outPoint.decoded other = Codec.outPoint.decoded out :=
        congrArg OutState.outPoint (isOld.trans same)
      rw [isNew]
      exact congrArg (OutState.mk · stateUsed) sameOut
    · exact absurd (isOld.trans same) ((admissible.rewrites action inActions).2.2 out isSpent)

/-- A spent out stays in the book. -/
theorem Admissible.holds_spent (admissible : Admissible strings book state block units)
    (held : Holds book.outs out.toSpentOutState) :
    Holds (book.afterBlock block units).outs out.toSpentOutState := by
  obtain ⟨entry, inOuts, same⟩ := held
  refine ⟨editOut (blockEdits block) entry, List.mem_append_left _ (List.mem_map_of_mem inOuts), ?_⟩
  rcases editOut_cases (blockEdits block) entry with ⟨unchanged, _⟩ | ⟨edit, inEdits, _, isOld⟩
  · rw [unchanged, same]
  · have oldState := congrArg OutState.state (isOld.trans same)
    rw [state_decoded, state_decoded] at oldState
    rcases mem_blockEdits inEdits with ⟨other, proof, rfl⟩ | ⟨action, inActions, rfl⟩
    · exact absurd oldState (show ¬ stateUnused = stateUsed by decide)
    · exact absurd oldState (admissible.rewrites action inActions).2.1

end Accepting

/-! ### Later blocks -/

/-- The outs and the nodes of a book are hashed from some strings. -/
def Book.HashedIn (strings : Set Bytes) (book : Book) : Prop :=
  encodings book.outs ⊆ strings ∧ nodeStrings book.tree ⊆ strings

/-- The inputs of a block after the coinbase slot and their proofs are hashed from some
strings. -/
def InputsHashed (strings : Set Bytes) (block : MsgBlock) : Prop :=
  ∀ tx ∈ normalTxs block.body, ∀ edit ∈ spends tx,
    encodings [edit.old] ⊆ strings ∧ pathStrings edit.path ⊆ strings

theorem inputsHashed_of_hashed {strings : Set Bytes} {book : Book} {units : List (List OutState)}
    (hashed : book.Hashed strings (blockEdits block) units) : InputsHashed strings block := by
  intro tx inNormal edit inSpends
  have inEdits : edit ∈ blockEdits block := List.mem_append_left _
    (List.mem_flatMap_of_mem (List.mem_of_mem_tail inNormal) inSpends)
  exact ⟨encodings_subset_iff.mp hashed.olds _ (List.mem_map_of_mem inEdits),
    hashed.paths edit inEdits⟩

/-- A miner and its book after some calls, of which those that accept a block accept an
admissible one. -/
inductive Evolves (env : Environment) (strings : Set Bytes) : Miner → Book → Miner → Book → Prop where
  | refl (miner : Miner) (book : Book) : Evolves env strings miner book miner book
  | accept {miner next after : Miner} {book afterBook : Book} {surroundings : Surroundings}
      {block : MsgBlock}
      {units : List (List OutState)}
      (accepted : acceptBlock env surroundings miner block = .ok (next, true))
      (admissible : ∀ chain, miner.state.chain.receiveHeader block.header = .ok chain →
        Admissible strings book { miner.state with chain } block units)
      (rest : Evolves env strings next (book.afterBlock block units) after afterBook) :
      Evolves env strings miner book after afterBook
  | refuse {miner next after : Miner} {book afterBook : Book} {surroundings : Surroundings}
      {block : MsgBlock}
      (refused : acceptBlock env surroundings miner block = .ok (next, false))
      (rest : Evolves env strings next book after afterBook) :
      Evolves env strings miner book after afterBook
  | emptyBlock {miner next after : Miner} {book afterBook : Book} {height : Int}
      {returnedNil : Bool}
      (performed : proposeAndAcceptEmptyBlock miner height = .ok (next, returnedNil))
      (rest : Evolves env strings next book after afterBook) :
      Evolves env strings miner book after afterBook

section Later

variable {strings : Set Bytes} (collisionFree : CollisionFree strings) {book : Book}
  {units : List (List OutState)}

theorem Admissible.hashedIn {state : ShardStateManager}
    (admissible : Admissible strings book state block units) :
    Book.HashedIn strings (book.afterBlock block units) :=
  ⟨admissible.hashed.encodings_afterBlock,
    admissible.hashed.visits _ (HashTree.mountAll_mem_mountVisits _ _ _)⟩

/-- The facts about a miner and its book that every call keeps. -/
structure Kept (strings : Set Bytes) (miner : Miner) (book : Book) : Prop where
  backs : book.Backs miner.state.tree
  distinct : book.Distinct
  hashedIn : Book.HashedIn strings book

variable {after : Miner}

include collisionFree in
/-- An accepted block is added to the book. -/
theorem Kept.acceptBlock (kept : Kept strings miner book) {surroundings : Surroundings}
    (accepted : acceptBlock env surroundings miner block = .ok (after, true))
    (admissible : ∀ chain, miner.state.chain.receiveHeader block.header = .ok chain →
      Admissible strings book { miner.state with chain } block units) :
    Kept strings after (book.afterBlock block units) := by
  obtain ⟨chain, received, verified, committed⟩ := acceptBlock_cases accepted
  have isAdmissible := admissible chain received
  obtain ⟨update, state, updated, applied, isState, _⟩ := commitBlock_cases committed
  obtain ⟨_, final, updates, applies, backs, _⟩ :=
    ((verifyBlock_eq_ok_iff _ _ _ _ _).mp verified).backs collisionFree kept.backs kept.distinct
      isAdmissible
  obtain rfl := Except.ok.inj (updated.symm.trans updates)
  obtain rfl := Except.ok.inj (applied.symm.trans applies)
  refine ⟨?_, isAdmissible.distinct, isAdmissible.hashedIn⟩
  rwa [isState]

variable {out : OutPoint}

include collisionFree in
/-- A spent out stays spent through all calls. -/
theorem Evolves.kept {afterBook : Book} (evolves : Evolves env strings miner book after afterBook)
    (kept : Kept strings miner book) (held : Holds book.outs out.toSpentOutState) :
    Kept strings after afterBook ∧ Holds afterBook.outs out.toSpentOutState := by
  induction evolves with
  | refl miner book => exact ⟨kept, held⟩
  | accept accepted admissible _ ih =>
    obtain ⟨chain, received, _⟩ := acceptBlock_cases accepted
    exact ih (kept.acceptBlock collisionFree accepted admissible)
      ((admissible chain received).holds_spent held)
  | refuse refused _ ih =>
    obtain ⟨_, chain, same⟩ := acceptBlock_refused refused
    exact ih ⟨by rw [same]; exact kept.backs, kept.distinct, kept.hashedIn⟩ held
  | emptyBlock performed _ ih =>
    obtain ⟨_, chain, same⟩ := proposeAndAcceptEmptyBlock_same performed
    exact ih ⟨by rw [same]; exact kept.backs, kept.distinct, kept.hashedIn⟩ held

include collisionFree in
/-- The inputs after the coinbase slot are unspent outs of the ledger. -/
theorem Verified.holds_unspent (verified : Verified env miner visits block)
    (treeOf : TreeOf book.tree book.outs) (root : miner.state.tree.root = treeRoot book.tree)
    (hashedIn : Book.HashedIn strings book) (inputsIn : InputsHashed strings block)
    (isSpent : out ∈ spentInputs block.body) : Holds book.outs out.toUnspentOutState := by
  obtain ⟨tx, inNormal, edit, inSpends, old, _⟩ := verified.exists_edit isSpent
  have sound := (verified.sound inNormal).2 edit inSpends
  rw [root] at sound
  obtain ⟨oldIn, pathIn⟩ := inputsIn tx inNormal edit inSpends
  rw [← old]
  exact holds_of_verify collisionFree.injective treeOf hashedIn.1 hashedIn.2 sound.oldEncodable
    oldIn sound.leaf pathIn sound.verified

end Later

/-- The inputs of a verified block after the coinbase slot are unspent outs of the ledger
in this shard, they belong to the key that signed their transaction, and none occurs
twice. After the block is accepted they are in the ledger as spent outs only, and no
later block spends them. -/
theorem spends_authorised_once (env : Environment) (miner : Miner) (visits : Visits)
    (block : MsgBlock) (book : Book) (strings : Set Bytes) (collisionFree : CollisionFree strings)
    (treeOf : TreeOf book.tree book.outs) (root : miner.state.tree.root = treeRoot book.tree)
    (hashedIn : Book.HashedIn strings book) (inputsIn : InputsHashed strings block)
    (verifies : verifyBlock env miner visits block = .ok ()) :
    (∀ tx ∈ normalTxs block.body, tx.tx.isReduceTx = false →
      (∃ message, tx.tx.signedHash = .ok message ∧
        env.platform.ed25519Verify tx.tx.publicKey.elems message.bytes
          tx.tx.signatureScript.elems = true) ∧
      ∀ out ∈ tx.tx.inputs, Holds book.outs out.toUnspentOutState ∧ out.shard = miner.shardIndex ∧
        Address.verifyPublicKey env.platform.toPrimitives out.userAddress tx.tx.publicKey.elems
          .userAddress = .ok ()) ∧
    ((spentInputs block.body).map Codec.outPoint.decoded).Nodup ∧
    ∀ surroundings after units, book.Backs miner.state.tree → book.Distinct →
      acceptBlock env surroundings miner block = .ok (after, true) →
      (∀ chain, miner.state.chain.receiveHeader block.header = .ok chain →
        Admissible strings book { miner.state with chain } block units) →
      (book.afterBlock block units).Backs after.state.tree ∧
      ∀ out ∈ spentInputs block.body, Holds (book.afterBlock block units).outs out.toSpentOutState ∧
        ¬ Holds (book.afterBlock block units).outs out.toUnspentOutState ∧
        ∀ later laterBook, Evolves env strings after (book.afterBlock block units) later laterBook →
          ∀ visits next, InputsHashed strings next → verifyBlock env later visits next = .ok () →
            ∀ other ∈ spentInputs next.body,
              Codec.outPoint.decoded other ≠ Codec.outPoint.decoded out := by
  have verified := (verifyBlock_eq_ok_iff _ _ _ _ _).mp verifies
  refine ⟨?_, ?_, ?_⟩
  · intro tx inNormal ordinary
    obtain ⟨inShard, transaction, _, _⟩ := verified.ordinary inNormal ordinary
    obtain ⟨signed, owned⟩ := MsgTx.of_verifyTransaction transaction ordinary
    refine ⟨signed, fun out inInputs => ⟨?_, (owned out inInputs).1.trans inShard,
      (owned out inInputs).2⟩⟩
    exact verified.holds_unspent collisionFree treeOf root hashedIn inputsIn
      (mem_spentInputs.mpr ⟨tx, inNormal, ordinary, inInputs⟩)
  · exact verified.nodup_inputs.sublist ((spentInputs_sublist block.body).map _)
  · intro surroundings after units backs distinct accepted admissible
    have kept := Kept.acceptBlock collisionFree ⟨backs, distinct, hashedIn⟩ accepted admissible
    obtain ⟨chain, received, verifiesToo, _⟩ := acceptBlock_cases accepted
    have verifiedToo := (verifyBlock_eq_ok_iff _ _ _ _ _).mp verifiesToo
    refine ⟨kept.backs, fun out isSpent => ?_⟩
    have held := verifiedToo.holds_spent (admissible chain received) isSpent
      (verified.holds_unspent collisionFree treeOf root hashedIn inputsIn isSpent)
    refine ⟨held, not_holds_unspent kept.distinct held, ?_⟩
    intro later laterBook evolves visits next nextIn verifiesNext other inNext same
    obtain ⟨laterKept, laterHeld⟩ := evolves.kept collisionFree kept held
    have unspent := ((verifyBlock_eq_ok_iff _ _ _ _ _).mp verifiesNext).holds_unspent collisionFree
      laterKept.backs.treeOf laterKept.backs.root laterKept.hashedIn nextIn inNext
    refine not_holds_unspent laterKept.distinct laterHeld ?_
    obtain ⟨entry, inOuts, isUnspent⟩ := unspent
    exact ⟨entry, inOuts, isUnspent.trans (congrArg (OutState.mk · stateUnused) same)⟩

/-! ### A payment -/

/-- A transfer of most of the caller's coins. -/
def payTx (proof : MerklePath) : MsgTxWithProofs :=
  let params := match encodeToBytes Contract.Codec.transferParams
      { receiver := .of [1], shard := 0, amount := 60 } with
    | .ok bytes => bytes
    | .error _ => []
  let unsigned : MsgTx :=
    { version := txVersion
      shard := 0
      txIn := .of [{ previousOutPoint := callerCoins }]
      contractAddress := sysAPIAddress Platform.plain.toPrimitives
      api := SysAPI.transfer
      params := .of params
      nonce := 0
      publicKey := .of callerKey
      signatureScript := .of []
      storageNodeAddress := .of []
      memo := [] }
  let sig := match unsigned.signedHash with
    | .ok hash => hash.bytes
    | .error _ => []
  { tx := { unsigned with signatureScript := .of sig }, proofs := .of [proof] }

/-- A miner whose ledger holds the coins only. -/
def coinMiner : Miner := .fresh (leafOf callerCoins)

/-- The book of this ledger. -/
def coinBook : Book := ⟨[callerCoins.toUnspentOutState], .leaf (leafOf callerCoins), 1⟩

/-- The path of the coins. -/
def coinPath : MerklePath := { hashes := .of [leafOf callerCoins], proofPath := .of [] }

/-- A block with the payment. -/
def payBlock : MsgBlock := rewardedBlock .plain coinMiner [payTx coinPath]

/-- A ledger of one out. -/
theorem backs_fresh {out : OutState} {leaf : MerkleHash} (hashed : out.merkleHash = .ok leaf) :
    (⟨[out], .leaf leaf, 1⟩ : Book).Backs (Miner.fresh leaf).state.tree where
  treeOf := treeOf_iff.mpr ⟨by simpa using encodable_of_hash hashed, by
    rw [List.map_singleton, digest_eq hashed]
    rfl⟩
  root := rfl
  size := rfl
  positive := Nat.one_pos
  lastPath := by
    have genuine := @genuine_pathOf (.leaf leaf) [] [] rfl
    refine ⟨⟨_, _, genuine⟩, ?_⟩
    have verified : verify (pathOf leaf []) leaf = .ok () := genuine.verified
    simp only [verifyLastNodeMerklePath, bind_eq_ok, Go.require_eq_ok]
    exact ⟨(), verified, (), rfl, rfl⟩

theorem backs_coinBook : coinBook.Backs coinMiner.state.tree := backs_fresh (by
  decide +kernel)

theorem distinct_coinBook : coinBook.Distinct := List.nodup_singleton _

/-- The strings that are hashed around the payment. -/
def payStrings : List Bytes := coinBook.strings (blockEdits payBlock) []

/-- The payment is verified and accepted; its block edits one leaf and mounts nothing. -/
theorem payBlock_runs :
    ((payStrings.dedup.map sha256).Nodup ∧ ∀ bytes ∈ payStrings, sha256 bytes ≠ emptyHash) ∧
      verifyBlock .plain coinMiner .listed payBlock = .ok () ∧
      observe (fun _ => ()) (acceptBlock .plain .calm coinMiner payBlock) = .ok (true, ()) ∧
      callerCoins ∈ spentInputs payBlock.body ∧
      (∀ tx ∈ payBlock.body.transactions.head?, tx.tx.inputs = [] ∧ tx.tx.isReduceTx = false) ∧
      payBlock.body.updateActions.elems = [] ∧ payBlock.body.ledgerInfo = ⟨0, []⟩ ∧
      ((coinBook.afterBlock payBlock []).outs.map outKey).Nodup := by
  decide +kernel

theorem admissible_payBlock (chain : HeaderStore) :
    Admissible {bytes | bytes ∈ payStrings} coinBook { coinMiner.state with chain } payBlock [] := by
  obtain ⟨_, _, _, _, noInputs, noActions, noHeights, distinct⟩ := payBlock_runs
  refine ⟨Book.hashed_of_strings_subset fun _ inStrings => inStrings, ?_, ?_, ?_, distinct,
    by decide⟩
  · intro tx isFirst
    obtain ⟨empty, ordinary⟩ := noInputs tx isFirst
    exact ⟨.inr (by simp [empty]), by simp [spends, inputSpends, ordinary, empty]⟩
  · simp [noActions]
  · exact ⟨[], by rw [noHeights]; rfl, .nil⟩

/-- The payment spends the coins. -/
theorem spends_authorised_once_payBlock :
    callerCoins ∈ spentInputs payBlock.body ∧
      ∃ after, acceptBlock .plain .calm coinMiner payBlock = .ok (after, true) ∧
        (coinBook.afterBlock payBlock []).Backs after.state.tree ∧
        Holds coinBook.outs callerCoins.toUnspentOutState ∧
        Holds (coinBook.afterBlock payBlock []).outs callerCoins.toSpentOutState ∧
        ¬ Holds (coinBook.afterBlock payBlock []).outs callerCoins.toUnspentOutState := by
  obtain ⟨checked, verified, observed, isSpent, _⟩ := payBlock_runs
  have hashed : coinBook.Hashed {bytes | bytes ∈ payStrings} (blockEdits payBlock) [] :=
    Book.hashed_of_strings_subset fun _ inStrings => inStrings
  obtain ⟨after, performed, _⟩ := exists_of_observe observed
  obtain ⟨unspent, _, spent⟩ := spends_authorised_once .plain coinMiner .listed payBlock coinBook _
    (collisionFree_of_list checked) backs_coinBook.treeOf backs_coinBook.root
    ⟨hashed.outs, hashed.tree⟩ (inputsHashed_of_hashed hashed) verified
  obtain ⟨backs, afterwards⟩ := spent .calm after [] backs_coinBook distinct_coinBook performed
    fun chain _ => admissible_payBlock chain
  obtain ⟨tx, inNormal, ordinary, inInputs⟩ := mem_spentInputs.mp isSpent
  obtain ⟨isHeld, notHeld, _⟩ := afterwards callerCoins isSpent
  exact ⟨isSpent, after, performed, backs, ((unspent tx inNormal ordinary).2 _ inInputs).1, isHeld,
    notHeld⟩

/-- A header of another shard that mounts the coins once more. -/
def copyHeader : BlockHeader :=
  { (default : BlockHeader) with
    shardIndex := 1
    height := 1
    outsMerkleRoot := leafOf callerCoins }

/-- A miner that knows this header. -/
def copyMiner : Miner :=
  { coinMiner with state := { coinMiner.state with chain := { headers := [copyHeader] } } }

/-- A block that spends the coins with a given proof, after the header is mounted. -/
def copyBlock (miner : Miner) (proof : MerklePath) : MsgBlock :=
  match rewardedBody .plain miner [payTx proof] with
  | .ok body => sealed .plain miner { body with ledgerInfo := ⟨1, [⟨1, 1⟩]⟩ }
  | .error _ => default

/-- The path of the mounted coins, next to the spent ones. -/
def copyPath : MerklePath where
  hashes := .of [leafOf callerCoins, digest callerCoins.toSpentOutState]
  proofPath := .of [leftSide]

/-- Spend the coins in one block and then again in the next one. -/
def spendTwice : Go Bool := do
  let first := copyBlock copyMiner coinPath
  let (after, returnedNil) ← acceptBlock .plain .calm copyMiner first
  let second := copyBlock after copyPath
  verifyBlock .plain after .listed second
  return returnedNil && decide (callerCoins ∈ spentInputs first.body) &&
    decide (callerCoins ∈ spentInputs second.body)

/-- Coins that another shard mounts once more are spent in two blocks. -/
theorem spendTwice_copyBlock :
    ∃ after, acceptBlock .plain .calm copyMiner (copyBlock copyMiner coinPath) = .ok (after, true) ∧
      callerCoins ∈ spentInputs (copyBlock copyMiner coinPath).body ∧
      ∃ next, verifyBlock .plain after .listed next = .ok () ∧
        callerCoins ∈ spentInputs next.body := by
  have spent : spendTwice = .ok true := by decide +kernel
  simp only [spendTwice, bind_eq_ok, pure_eq_ok, Bool.and_eq_true, decide_eq_true_eq] at spent
  obtain ⟨⟨after, returnedNil⟩, accepted, _, verified, ⟨rfl, isFirst⟩, isSecond⟩ := spent
  exact ⟨after, accepted, isFirst, _, verified, isSecond⟩

end MultiVac.Chain
