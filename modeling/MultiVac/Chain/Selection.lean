import MultiVac.Chain.Spending

/-!
# Transactions from the pool

`GetTopTransactions` marks the inputs of every transaction it looks at, also of those that
it leaves out because an input is locked. What it marks besides the inputs of the
transactions it returns is what makes the new root differ.
-/

namespace MultiVac
namespace Chain

open Lib Wire Merkle Ledger

variable {before after : Update} {pool txs : List MsgTxWithProofs} {height : Int}

/-- The height is past the lock of every input of the transaction. -/
def Unlocked (height : Int) (tx : MsgTxWithProofs) : Prop :=
  ∀ out ∈ tx.tx.inputs, out.isLock height = false

instance (height : Int) (tx : MsgTxWithProofs) : Decidable (Unlocked height tx) :=
  inferInstanceAs (Decidable (∀ out ∈ tx.tx.inputs, out.isLock height = false))

/-- The marks on the inputs of a transaction, which end at the first locked one. -/
def marksUntilLocked (height : Int) : List OutPoint → List MerklePath → List Edit
  | out :: outs, proof :: proofs =>
    spend out proof :: if out.isLock height then [] else marksUntilLocked height outs proofs
  | _, _ => []

/-- What is marked for a transaction of the pool. -/
def marks (height : Int) (tx : MsgTxWithProofs) : List Edit :=
  marksUntilLocked height tx.tx.inputs tx.proofs.elems

/-- The transactions that the loop looks at: it stops behind the last one it wants. -/
def visited (height : Int) : Nat → List MsgTxWithProofs → List MsgTxWithProofs
  | _, [] => []
  | missing, tx :: pool =>
    tx :: if Unlocked height tx then
        if missing ≤ 1 then [] else visited height (missing - 1) pool
      else visited height missing pool

theorem visited_subset (height : Int) (missing : Nat) (pool : List MsgTxWithProofs) :
    visited height missing pool ⊆ pool := by
  induction pool generalizing missing with
  | nil => exact List.Subset.refl _
  | cons tx pool ih =>
    rw [visited]
    refine List.cons_subset_cons _ ?_
    split_ifs
    · exact List.nil_subset _
    · exact ih _
    · exact ih _

variable {inputs : List OutPoint} {proofs : List MerklePath}

theorem marksUntilLocked_subset :
    marksUntilLocked height inputs proofs ⊆ List.zipWith spend inputs proofs := by
  induction inputs generalizing proofs with
  | nil => simp [marksUntilLocked]
  | cons out inputs ih =>
    cases proofs with
    | nil => simp [marksUntilLocked]
    | cons proof proofs =>
      rw [marksUntilLocked, List.zipWith_cons_cons]
      refine List.cons_subset_cons _ ?_
      split
      · exact List.nil_subset _
      · exact ih

/-- One transaction: it is taken when no input is locked, and then every input has been
marked. -/
theorem of_markUntilLocked {taken : Bool}
    (marked : markUntilLocked before height inputs proofs = .ok (after, taken)) :
    (marksUntilLocked height inputs proofs).foldlM Update.write before = .ok after ∧
      (taken = true ↔ ∀ out ∈ inputs, out.isLock height = false) ∧
      (taken = true → inputs.length ≤ proofs.length ∧
        marksUntilLocked height inputs proofs = List.zipWith spend inputs proofs) := by
  induction inputs generalizing before proofs with
  | nil =>
    obtain ⟨rfl, rfl⟩ := Prod.mk.inj (Except.ok.inj marked)
    simp [marksUntilLocked, pure, Except.pure]
  | cons out inputs ih =>
    cases proofs with
    | nil => cases marked
    | cons proof proofs =>
      obtain ⟨next, marks, rest⟩ := bind_eq_ok.mp marked
      rw [marksUntilLocked]
      split at rest
      next locked =>
        obtain ⟨rfl, rfl⟩ := Prod.mk.inj (pure_eq_ok.mp rest)
        rw [if_pos locked]
        exact ⟨bind_eq_ok.mpr ⟨next, marks, rfl⟩, by simp [locked], by simp⟩
      next unlocked =>
        obtain ⟨writes, unlocks, all⟩ := ih rest
        rw [if_neg unlocked]
        refine ⟨bind_eq_ok.mpr ⟨next, marks, writes⟩, by simp [unlocks, unlocked],
          fun isTaken => ?_⟩
        obtain ⟨enough, same⟩ := all isTaken
        exact ⟨Nat.succ_le_succ enough, by rw [same, List.zipWith_cons_cons]⟩

/-- The whole loop: the transactions taken are the unlocked ones among those it looks at. -/
theorem of_getTopTransactions {missing : Nat}
    (gets : getTopTransactions height missing before pool = .ok (after, txs)) :
    txs = (visited height missing pool).filter (Unlocked height ·) ∧
      ((visited height missing pool).flatMap (marks height)).foldlM Update.write before =
        .ok after ∧
      ∀ tx ∈ txs, tx.tx.inputs.length ≤ tx.proofs.elems.length ∧
        marks height tx = inputSpends tx := by
  induction pool generalizing missing before after txs with
  | nil =>
    obtain ⟨rfl, rfl⟩ := Prod.mk.inj (Except.ok.inj gets)
    exact ⟨rfl, rfl, by simp⟩
  | cons tx pool ih =>
    obtain ⟨⟨next, taken⟩, marked, rest⟩ := bind_eq_ok.mp gets
    obtain ⟨writes, unlocks, all⟩ := of_markUntilLocked marked
    dsimp only at rest
    rw [visited, List.flatMap_cons, List.foldlM_append]
    split at rest
    next isTaken =>
      have unlocked : Unlocked height tx := unlocks.mp isTaken
      rw [if_pos unlocked, List.filter_cons_of_pos (by simpa using unlocked)]
      split at rest
      next last =>
        obtain ⟨rfl, rfl⟩ := Prod.mk.inj (pure_eq_ok.mp rest)
        rw [if_pos last]
        exact ⟨rfl, bind_eq_ok.mpr ⟨next, writes, rfl⟩, List.forall_mem_singleton.mpr (all isTaken)⟩
      next more =>
        obtain ⟨⟨final, others⟩, gotten, rest⟩ := bind_eq_ok.mp rest
        obtain ⟨rfl, rfl⟩ := Prod.mk.inj (pure_eq_ok.mp rest)
        obtain ⟨same, writesRest, enough⟩ := ih gotten
        rw [if_neg more, ← same]
        exact ⟨rfl, bind_eq_ok.mpr ⟨next, writes, writesRest⟩,
          List.forall_mem_cons.mpr ⟨all isTaken, enough⟩⟩
    next skipped =>
      have locked : ¬ Unlocked height tx := fun unlocked => skipped (unlocks.mpr unlocked)
      obtain ⟨same, writesRest, enough⟩ := ih rest
      rw [if_neg locked, List.filter_cons_of_neg (by simpa using locked)]
      exact ⟨same, bind_eq_ok.mpr ⟨next, writes, writesRest⟩, enough⟩

theorem taken_subset {missing : Nat}
    (gets : getTopTransactions height missing before pool = .ok (after, txs)) : txs ⊆ pool := by
  intro tx inTxs
  rw [(of_getTopTransactions gets).1] at inTxs
  exact visited_subset height missing pool (List.mem_filter.mp inTxs).1

/-- The loop over the transactions taken marks inputs of transactions of the pool only. -/
theorem exists_writes_of_selectTransactions {miner : Miner}
    (selects : selectTransactions miner before pool = .ok (after, txs)) :
    ∃ edits ⊆ pool.flatMap inputSpends, edits.foldlM Update.write before = .ok after := by
  induction pool generalizing before txs with
  | nil =>
    obtain ⟨rfl, -⟩ := Prod.mk.inj (Except.ok.inj selects)
    exact ⟨[], List.nil_subset _, rfl⟩
  | cons tx pool ih =>
    rw [selectTransactions] at selects
    rw [List.flatMap_cons]
    split at selects
    · obtain ⟨edits, fromPool, writes⟩ := ih selects
      exact ⟨edits, List.subset_append_of_subset_right _ fromPool, writes⟩
    · obtain ⟨verdict, -, rest⟩ := bind_eq_ok.mp selects
      cases verdict with
      | none =>
        obtain ⟨edits, fromPool, writes⟩ := ih rest
        exact ⟨edits, List.subset_append_of_subset_right _ fromPool, writes⟩
      | some _ =>
        obtain ⟨next, marked, rest⟩ := bind_eq_ok.mp rest
        obtain ⟨⟨last, others⟩, selected, rest⟩ := bind_eq_ok.mp rest
        obtain ⟨rfl, -⟩ := Prod.mk.inj (pure_eq_ok.mp rest)
        obtain ⟨edits, fromPool, writes⟩ := ih selected
        refine ⟨inputSpends tx ++ edits, List.append_subset.mpr
          ⟨List.subset_append_left _ _, List.subset_append_of_subset_right _ fromPool⟩, ?_⟩
        rw [List.foldlM_append]
        exact bind_eq_ok.mpr ⟨next, (Update.markInputs_eq_ok_iff.mp marked).2, writes⟩

/-- These are the first unlocked transactions of the pool, at least one of them. -/
theorem filter_visited (height : Int) (missing : Nat) (pool : List MsgTxWithProofs) :
    (visited height missing pool).filter (Unlocked height ·) =
      (pool.filter (Unlocked height ·)).take (max missing 1) := by
  induction pool generalizing missing with
  | nil => simp [visited]
  | cons tx pool ih =>
    rw [visited]
    by_cases unlocked : Unlocked height tx
    · rw [if_pos unlocked, List.filter_cons_of_pos (by simpa using unlocked),
        List.filter_cons_of_pos (by simpa using unlocked)]
      split
      next last => rw [max_eq_right last]; rfl
      next more =>
        rw [ih, max_eq_left (by omega), max_eq_left (by omega),
          ← List.take_succ_cons, Nat.sub_add_cancel (by omega)]
    · rw [if_neg unlocked, List.filter_cons_of_neg (by simpa using unlocked),
        List.filter_cons_of_neg (by simpa using unlocked), ih]

/-- An update of a ledger: the outs of the book have been edited, and the marks to come have
good proofs of unspent outs. Nothing collides in what is hashed for all marks and for a part
of them. -/
structure Marking (strings : Set Bytes) (book : Book) (edits : List Edit) (update : Update)
    (all part : List Edit) : Prop where
  collisionFree : CollisionFree strings
  treeOf : TreeOf book.tree book.outs
  distinct : book.Distinct
  follows : book.Follows edits update.deltaTree
  sound : ∀ edit ∈ edits ++ all, edit.Sound (treeRoot book.tree)
  hashed : book.Hashed strings (edits ++ all) []
  hashedPart : book.Hashed strings (edits ++ part) []

namespace Marking

variable {strings : Set Bytes} {book : Book} {edits all part : List Edit}
  (marking : Marking strings book edits before all part)

include marking

theorem valid {edit : Edit} (inAll : edit ∈ edits ++ all) :
    edit.Valid strings (treeRoot book.tree) :=
  ⟨marking.sound edit inAll,
    encodings_subset_iff.mp marking.hashed.olds _ (List.mem_map_of_mem inAll),
    marking.hashed.paths edit inAll⟩

/-- The marks can be made, and the new root is that of the marked book. -/
theorem writes {more : List Edit} (fromAll : more ⊆ all) :
    ∃ written, more.foldlM Update.write before = .ok written ∧
      written.deltaTree.getMerkleRoot = .ok (treeRoot (book.edit (edits ++ more)).tree) := by
  obtain ⟨written, writes, follows⟩ := marking.follows.writes marking.collisionFree marking.treeOf
    marking.hashed.outs marking.hashed.tree marking.distinct
    fun edit inMore => marking.valid (List.mem_append_right _ (fromAll inMore))
  exact ⟨written, writes, follows.getMerkleRoot⟩

/-- Marks on the same leaf are marks on the same out. -/
theorem decoded_eq {out other : OutPoint} {proof otherProof : MerklePath}
    (inAll : spend out proof ∈ all) (otherIn : spend other otherProof ∈ all)
    (same : digest (spend other otherProof).old = digest (spend out proof).old) :
    Codec.outPoint.decoded other = Codec.outPoint.decoded out := by
  have valid := marking.valid (List.mem_append_right _ inAll)
  have otherValid := marking.valid (List.mem_append_right _ otherIn)
  exact congrArg OutState.outPoint ((marking.collisionFree.digest_eq_iff otherValid.oldIn
    valid.oldIn otherValid.oldEncodable valid.oldEncodable).mp same)

/-- The roots agree when what only the other marks would change has been marked before. -/
theorem treeRoot_eq_iff (spends : ∀ edit ∈ all, ∃ out proof, edit = spend out proof)
    (subset : part ⊆ all) :
    treeRoot (book.edit (edits ++ all)).tree = treeRoot (book.edit (edits ++ part)).tree ↔
      ∀ edit ∈ all, editHash edits (digest edit.old) = digest edit.new ∨
        ∃ other ∈ part, digest other.old = digest edit.old := by
  have agree : ∀ edit ∈ all, ∀ other ∈ all, digest other.old = digest edit.old →
      digest other.new = digest edit.new := by
    intro edit inAll other otherIn same
    obtain ⟨out, proof, rfl⟩ := spends edit inAll
    obtain ⟨otherOut, otherProof, rfl⟩ := spends other otherIn
    have sameOut := marking.decoded_eq inAll otherIn same
    have spent : ∀ out : OutPoint,
        digest out.toSpentOutState = digest (Codec.outPoint.decoded out).toSpentOutState :=
      fun out => by
        rw [digest, digest, OutState.merkleHash, ← hashOf_decoded]
        rfl
    exact (spent otherOut).trans (sameOut ▸ (spent out).symm)
  rw [Book.treeRoot_edit_eq_iff marking.collisionFree marking.treeOf
    (fun edit inAll => marking.valid inAll) (fun edit inPart => marking.valid
      ((List.mem_append.mp inPart).elim (List.mem_append_left _)
        fun later => List.mem_append_right _ (subset later)))
    marking.hashed marking.hashedPart]
  constructor
  · intro same edit inAll
    obtain ⟨_, genuine⟩ := Book.exists_genuine_of_valid marking.collisionFree
      (marking.valid (List.mem_append_right _ inAll)) marking.treeOf marking.hashed.outs
      marking.hashed.tree
    have isLeaf : digest edit.old ∈ book.tree.leaves := by
      rw [← genuine.place, HashTree.leaves_plug]
      simp [HashTree.leaves]
    have here := same (digest edit.old) isLeaf
    rw [editHash_append_of_mem inAll (agree edit inAll)] at here
    by_cases touched : ∃ other ∈ part, digest other.old = digest edit.old
    · exact .inr touched
    · rw [editHash_append_of_forall_ne fun other inPart isLeaf =>
        touched ⟨other, inPart, isLeaf⟩] at here
      exact .inl here.symm
  · intro covered leaf _
    by_cases touched : ∃ edit ∈ part, digest edit.old = leaf
    · obtain ⟨edit, inPart, rfl⟩ := touched
      have inAll := subset inPart
      rw [editHash_append_of_mem inAll (agree edit inAll), editHash_append_of_mem inPart
        fun other otherIn => agree edit inAll other (subset otherIn)]
    · have untouched : editHash (edits ++ part) leaf = editHash edits leaf :=
        editHash_append_of_forall_ne fun other inPart isLeaf => touched ⟨other, inPart, isLeaf⟩
      rw [untouched]
      by_cases stray : ∃ edit ∈ all, digest edit.old = leaf
      · obtain ⟨edit, inAll, rfl⟩ := stray
        rw [editHash_append_of_mem inAll (agree edit inAll)]
        exact ((covered edit inAll).resolve_right touched).symm
      · exact editHash_append_of_forall_ne fun other inAll isLeaf => stray ⟨other, inAll, isLeaf⟩

end Marking

/-- The transactions returned are the first unlocked ones of the pool, `n` of them or one.
When no locked one stands before them, their inputs are all that is marked. In an update of
a ledger the new root is the one that belongs to these transactions exactly when what has
been marked for the locked ones was marked before or is marked for the others too. -/
theorem getTopTransactions_frame {missing : Nat}
    (gets : getTopTransactions height missing before pool = .ok (after, txs)) :
    txs = (pool.filter (Unlocked height ·)).take (max missing 1) ∧
      ((∀ tx ∈ visited height missing pool, Unlocked height tx) → txs.foldlM (fun update tx =>
        update.markInputs tx.tx.inputs tx.proofs.elems) before = .ok after) ∧
      ∀ strings book edits, Marking strings book edits before
          ((visited height missing pool).flatMap (marks height)) (txs.flatMap (marks height)) →
        ∃ framed root framedRoot, txs.foldlM (fun update tx =>
            update.markInputs tx.tx.inputs tx.proofs.elems) before = .ok framed ∧
          after.deltaTree.getMerkleRoot = .ok root ∧
          framed.deltaTree.getMerkleRoot = .ok framedRoot ∧
          (txs.length ≤ missing ∧ root = framedRoot ↔
            (1 ≤ missing ∨ ∀ tx ∈ pool, ¬ Unlocked height tx) ∧
              ∀ tx ∈ visited height missing pool, ¬ Unlocked height tx → ∀ mark ∈ marks height tx,
                editHash edits (digest mark.old) = digest mark.new ∨
                  ∃ other ∈ txs.flatMap (marks height), digest other.old = digest mark.old) := by
  obtain ⟨same, writes, enough⟩ := of_getTopTransactions gets
  have taken := same.trans (filter_visited height missing pool)
  have framing : ∀ framed, txs.foldlM (fun update tx =>
      update.markInputs tx.tx.inputs tx.proofs.elems) before = .ok framed ↔
      (txs.flatMap (marks height)).foldlM Update.write before = .ok framed := by
    intro framed
    have marksOf : ∀ update (tx : MsgTxWithProofs) next,
        update.markInputs tx.tx.inputs tx.proofs.elems = .ok next ↔
          tx.tx.inputs.length ≤ tx.proofs.elems.length ∧
            (inputSpends tx).foldlM Update.write update = .ok next :=
      fun _ _ _ => Update.markInputs_eq_ok_iff
    rw [Update.foldlM_eq_ok_iff marksOf, List.flatMap_congr fun tx inTxs => (enough tx inTxs).2]
    exact and_iff_right fun tx inTxs => (enough tx inTxs).1
  refine ⟨taken, fun unlocked => (framing after).mpr ?_, fun strings book edits marking => ?_⟩
  · rwa [same, List.filter_eq_self.mpr (by simpa using unlocked)]
  have few : txs.length ≤ missing ↔ 1 ≤ missing ∨ ∀ tx ∈ pool, ¬ Unlocked height tx := by
    have none : (pool.filter (Unlocked height ·)).length = 0 ↔ ∀ tx ∈ pool, ¬ Unlocked height tx := by
      simp
    rw [taken, List.length_take, ← none]
    omega
  have subset : txs.flatMap (marks height) ⊆
      (visited height missing pool).flatMap (marks height) := by
    intro mark inMarks
    obtain ⟨tx, inTxs, inMarks⟩ := List.mem_flatMap.mp inMarks
    rw [same] at inTxs
    exact List.mem_flatMap_of_mem (List.mem_filter.mp inTxs).1 inMarks
  obtain ⟨marked, marksAll, isRoot⟩ := marking.writes (List.Subset.refl _)
  obtain rfl := Except.ok.inj (writes.symm.trans marksAll)
  obtain ⟨framed, folds, isFramedRoot⟩ := marking.writes subset
  have roots := marking.treeRoot_eq_iff (fun edit inAll => by
    obtain ⟨tx, -, inMarks⟩ := List.mem_flatMap.mp inAll
    exact exists_of_mem_inputSpends (marksUntilLocked_subset inMarks)) subset
  have covered : treeRoot (book.edit (edits ++ (visited height missing pool).flatMap
      (marks height))).tree = treeRoot (book.edit (edits ++ txs.flatMap (marks height))).tree ↔
      ∀ tx ∈ visited height missing pool, ¬ Unlocked height tx → ∀ mark ∈ marks height tx,
        editHash edits (digest mark.old) = digest mark.new ∨
          ∃ other ∈ txs.flatMap (marks height), digest other.old = digest mark.old := by
    rw [roots]
    refine ⟨fun all tx isVisited _ mark inMarks =>
      all mark (List.mem_flatMap_of_mem isVisited inMarks), fun stray mark inAll => ?_⟩
    obtain ⟨tx, isVisited, inMarks⟩ := List.mem_flatMap.mp inAll
    by_cases unlocked : Unlocked height tx
    · have inTxs : tx ∈ txs := by
        rw [same]
        simpa using ⟨isVisited, unlocked⟩
      exact .inr ⟨mark, List.mem_flatMap_of_mem inTxs inMarks, rfl⟩
    · exact stray tx isVisited unlocked mark inMarks
  exact ⟨framed, _, _, (framing framed).mpr folds, isRoot, isFramedRoot, and_congr few covered⟩

/-- A transaction that spends an out of the given type. -/
def spending (type : UInt8) : MsgTxWithProofs where
  tx := { (default : MsgTx) with txIn := .of [⟨{ (default : OutPoint) with type }⟩] }
  proofs := .of [⟨.of [default], .of []⟩]

/-- An update of a ledger with one leaf. -/
def oneLeaf : Update := ⟨newDeltaMerkleTree default, default⟩

theorem inputs_payTx :
    (payTx coinPath).tx.inputs = [callerCoins] ∧ (payTx coinPath).proofs.elems = [coinPath] := by
  decide +kernel

theorem hashed_payTx :
    coinBook.Hashed {bytes | bytes ∈ payStrings} [spend callerCoins coinPath] [] :=
  Book.hashed_of_strings_subset (show ∀ bytes ∈ coinBook.strings [spend callerCoins coinPath] [],
    bytes ∈ payStrings by decide +kernel)

theorem sound_payTx : (spend callerCoins coinPath).Sound (treeRoot coinBook.tree) := by
  have facts : verify coinPath (treeRoot coinBook.tree) = .ok () ∧
      getLeaf coinPath = .ok (digest callerCoins.toUnspentOutState) ∧
      callerCoins.toUnspentOutState.merkleHash = .ok (digest callerCoins.toUnspentOutState) ∧
      callerCoins.toSpentOutState.merkleHash = .ok (digest callerCoins.toSpentOutState) := by
    decide +kernel
  obtain ⟨verified, leaf, old, new⟩ := facts
  exact ⟨verified, leaf, old, new⟩

/-- The payment is taken, and the locked transaction behind it is not looked at. -/
theorem getTopTransactions_frame_payTx :
    ∃ update after root framed, coinMiner.state.newUpdate = .ok update ∧
      getTopTransactions 9 1 update [payTx coinPath, spending OutType.withdrawOut] =
        .ok (after, [payTx coinPath]) ∧
      update.markInputs [callerCoins] [coinPath] = .ok framed ∧
      after.deltaTree.getMerkleRoot = .ok root ∧ framed.deltaTree.getMerkleRoot = .ok root := by
  let pool := [payTx coinPath, spending OutType.withdrawOut]
  have isVisited : visited 9 1 pool = [payTx coinPath] ∧ Unlocked 9 (payTx coinPath) := by
    decide +kernel
  obtain ⟨isVisited, unlocked⟩ := isVisited
  obtain ⟨inputs, proofs⟩ := inputs_payTx
  have gets : (do
      let update ← coinMiner.state.newUpdate
      let selected ← getTopTransactions 9 1 update pool
      return selected.2) = .ok [payTx coinPath] := by
    decide +kernel
  simp only [bind_eq_ok, pure_eq_ok] at gets
  obtain ⟨update, updates, ⟨after, txs⟩, gets, rfl⟩ := gets
  have isMarked : marks 9 (payTx coinPath) = [spend callerCoins coinPath] := by
    simp [marks, inputs, proofs, marksUntilLocked]
  have collisionFree : CollisionFree {bytes | bytes ∈ payStrings} :=
    collisionFree_of_list payBlock_runs.1
  obtain ⟨start, starts, follows, -⟩ := backs_coinBook.newUpdate collisionFree distinct_coinBook
    hashed_payTx.outs hashed_payTx.tree (by decide)
  obtain rfl := Except.ok.inj (updates.symm.trans starts)
  obtain ⟨-, -, frame⟩ := getTopTransactions_frame gets
  obtain ⟨framed, root, framedRoot, folds, isRoot, isFramedRoot, sameRoot⟩ :=
    frame _ coinBook [] (by
      simp only [pool] at isVisited
      rw [isVisited, List.flatMap_singleton, isMarked]
      exact ⟨collisionFree, backs_coinBook.treeOf, distinct_coinBook, follows,
        List.forall_mem_singleton.mpr sound_payTx, hashed_payTx, hashed_payTx⟩)
  have same := (sameRoot.mpr ⟨.inl (le_refl 1), by
    simp only [pool] at isVisited
    rw [isVisited]
    exact List.forall_mem_singleton.mpr fun locked => absurd unlocked locked⟩).2
  refine ⟨update, after, root, framed, updates, gets, ?_, isRoot, same ▸ isFramedRoot⟩
  simpa [inputs, proofs] using folds

/-- A locked out is marked though its transaction is left out, and one transaction is taken
when none is asked for. -/
theorem getTopTransactions_marks_locked :
    let gets := getTopTransactions 9 1 oneLeaf [spending OutType.withdrawOut]
    gets.map Prod.snd = .ok [] ∧
      gets.bind (·.1.deltaTree.getMerkleRoot) ≠ oneLeaf.deltaTree.getMerkleRoot ∧
      (getTopTransactions 9 0 oneLeaf [spending 0]).map Prod.snd = .ok [spending 0] := by
  decide

end Chain
end MultiVac
