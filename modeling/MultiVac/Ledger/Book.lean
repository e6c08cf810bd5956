import MultiVac.Ledger.Clock
import MultiVac.Ledger.TwoLayer
import MultiVac.Merkle.Mount

/-!
# The ledger as a book of outs

A book lists the outs of a ledger, in the order of the leaves of the ledger tree. A
block writes spent outs and new shard data over outs of the book and mounts lists of
new outs at its end. The update that a miner computes from Merkle paths is the one of
the book, as long as SHA-256 does not collide on what is hashed.
-/

namespace MultiVac.Ledger

open Wire Merkle
open Lib (HashTree)
open Lib.HashTree (Separated Within mountAll mountVisits)

/-- The out of an out state, as the codec reads it. -/
def outKey (out : OutState) : OutPoint := Codec.outPoint.decoded out.outPoint

/-- The tree that is mounted for some outs. -/
def unitTree (outs : List OutState) : Tree :=
  (fullTree (outs.map digest)).getD (.leaf emptyHash)

/-- The outs of a ledger, the tree over their hashes, and how many trees have been
mounted in it. -/
structure Book where
  outs : List OutState
  tree : Tree
  size : Nat

/-- The out that edits leave in the place of an out. -/
def editOut (edits : List Edit) (out : OutState) : OutState :=
  edits.foldl (fun current edit =>
    if Codec.outState.decoded edit.old = Codec.outState.decoded out then edit.new else current) out

/-- The hash that edits leave in the place of a hash. -/
def editHash (edits : List Edit) : MerkleHash → MerkleHash :=
  edits.foldl (fun value edit => Function.update value (digest edit.old) (digest edit.new)) id

namespace Book

/-- Write new outs over outs of the book. -/
def edit (book : Book) (edits : List Edit) : Book where
  outs := book.outs.map (editOut edits)
  tree := book.tree.map (editHash edits)
  size := book.size

/-- Mount lists of outs. -/
def mount (book : Book) (units : List (List OutState)) : Book where
  outs := book.outs ++ units.flatten
  tree := mountAll book.size book.tree (units.map unitTree)
  size := book.size + units.length

/-- No out occurs twice in the book. -/
def Distinct (book : Book) : Prop := (book.outs.map outKey).Nodup

/-- What a miner keeps of the ledger is what the book says. -/
structure Backs (book : Book) (tree : MinimumMerkleTree) : Prop where
  treeOf : TreeOf book.tree book.outs
  root : tree.root = treeRoot book.tree
  size : tree.size = book.size
  positive : 0 < book.size
  lastPath : LastPath book.tree book.size tree.lastPath

end Book

/-! ### Outs and their hashes -/

section Hashes

variable {strings : Set Bytes}

theorem outKey_eq_of_decoded_eq {first second : OutState}
    (same : Codec.outState.decoded first = Codec.outState.decoded second) :
    outKey first = outKey second := congrArg OutState.outPoint same

/-- Different outs have different hashes. -/
theorem CollisionFree.nodup_digests (collisionFree : CollisionFree strings) {outs : List OutState}
    (outsIn : encodings outs ⊆ strings) (encodable : ∀ out ∈ outs, Encodable out)
    (distinct : (outs.map outKey).Nodup) : (outs.map digest).Nodup := by
  refine List.Nodup.map_on ?_ distinct.of_map
  intro first inFirst second inSecond same
  refine List.inj_on_of_nodup_map distinct inFirst inSecond (outKey_eq_of_decoded_eq ?_)
  exact (collisionFree.digest_eq_iff (encodings_subset_iff.mp outsIn first inFirst)
    (encodings_subset_iff.mp outsIn second inSecond) (encodable first inFirst)
    (encodable second inSecond)).mp same

/-! ### Edits -/

/-- An edit whose path leads from the old out to the root, and whose outs can be
encoded. -/
structure Edit.Sound (root : MerkleHash) (edit : Edit) : Prop where
  verified : verify edit.path root = .ok ()
  leaf : getLeaf edit.path = .ok (digest edit.old)
  oldEncodable : Encodable edit.old
  newEncodable : Encodable edit.new

/-- A sound edit whose old out and path are hashed from some strings. -/
structure Edit.Valid (strings : Set Bytes) (root : MerkleHash) (edit : Edit) : Prop
    extends edit.Sound root where
  oldIn : encodings [edit.old] ⊆ strings
  pathIn : pathStrings edit.path ⊆ strings

theorem editOut_append (edits more : List Edit) (out : OutState) :
    editOut (edits ++ more) out = more.foldl (fun current edit =>
      if Codec.outState.decoded edit.old = Codec.outState.decoded out then edit.new
      else current) (editOut edits out) := List.foldl_append

theorem editHash_append_singleton (edits : List Edit) (edit : Edit) :
    editHash (edits ++ [edit]) =
      Function.update (editHash edits) (digest edit.old) (digest edit.new) := List.foldl_append

/-- A hash that no later edit replaces stays as it is. -/
theorem editHash_append_of_forall_ne {edits more : List Edit} {leaf : MerkleHash}
    (others : ∀ edit ∈ more, digest edit.old ≠ leaf) :
    editHash (edits ++ more) leaf = editHash edits leaf := by
  induction more using List.reverseRecOn with
  | nil => rw [List.append_nil]
  | append_singleton more edit ih =>
    obtain ⟨earlier, last⟩ := List.forall_mem_append.mp others
    rw [← List.append_assoc, editHash_append_singleton,
      Function.update_of_ne (last edit (List.mem_singleton_self edit)).symm, ih earlier]

/-- A hash is replaced by an edit, when those of the same hash write the same. -/
theorem editHash_append_of_mem {edits more : List Edit} {edit : Edit} (inMore : edit ∈ more)
    (agree : ∀ other ∈ more, digest other.old = digest edit.old →
      digest other.new = digest edit.new) :
    editHash (edits ++ more) (digest edit.old) = digest edit.new := by
  induction more using List.reverseRecOn with
  | nil => cases inMore
  | append_singleton more last ih =>
    obtain ⟨earlier, agreesLast⟩ := List.forall_mem_append.mp agree
    rw [← List.append_assoc, editHash_append_singleton]
    by_cases same : digest last.old = digest edit.old
    · rw [← same, Function.update_self]
      exact agreesLast last (List.mem_singleton_self last) same
    · rw [Function.update_of_ne (Ne.symm same)]
      refine ih ((List.mem_append.mp inMore).resolve_right fun isLast => same ?_) earlier
      rw [List.mem_singleton.mp isLast]

/-- An out that no edit replaces stays, another one becomes the new out of an edit. -/
theorem editOut_cases (edits : List Edit) (out : OutState) :
    (editOut edits out = out ∧
        ∀ edit ∈ edits, Codec.outState.decoded edit.old ≠ Codec.outState.decoded out) ∨
      ∃ edit ∈ edits, editOut edits out = edit.new ∧
        Codec.outState.decoded edit.old = Codec.outState.decoded out := by
  induction edits using List.reverseRecOn with
  | nil => exact .inl ⟨rfl, by simp⟩
  | append_singleton edits edit ih =>
    rw [editOut_append, List.foldl_cons, List.foldl_nil]
    split
    · next isOld => exact .inr ⟨edit, by simp, rfl, isOld⟩
    · next notOld =>
      rcases ih with ⟨same, others⟩ | ⟨earlier, inEdits, found⟩
      · refine .inl ⟨same, List.forall_mem_append.mpr ⟨others, fun other isEdit => ?_⟩⟩
        rwa [List.mem_singleton.mp isEdit]
      · exact .inr ⟨earlier, List.mem_append_left _ inEdits, found⟩

/-- The hash of an edited out is the edited hash. -/
theorem CollisionFree.digest_editOut (collisionFree : CollisionFree strings) {root : MerkleHash}
    {edits : List Edit} (valid : ∀ edit ∈ edits, edit.Valid strings root) {out : OutState}
    (encodable : Encodable out) (outIn : encodings [out] ⊆ strings) :
    Encodable (editOut edits out) ∧ digest (editOut edits out) = editHash edits (digest out) := by
  induction edits using List.reverseRecOn with
  | nil => exact ⟨encodable, rfl⟩
  | append_singleton edits edit ih =>
    obtain ⟨earlier, last⟩ := List.forall_mem_append.mp valid
    obtain ⟨stillEncodable, sameHash⟩ := ih earlier
    have lastValid := last edit (List.mem_singleton_self edit)
    have same := collisionFree.digest_eq_iff lastValid.oldIn outIn lastValid.oldEncodable encodable
    rw [editOut_append, editHash_append_singleton, List.foldl_cons, List.foldl_nil]
    split
    · next isOld => exact ⟨lastValid.newEncodable, by
        rw [same.mpr isOld, Function.update_self]⟩
    · next notOld =>
      rw [Function.update_of_ne fun isOld => notOld (same.mp isOld.symm)]
      exact ⟨stillEncodable, sameHash⟩

end Hashes

namespace Book

/-- All that is hashed when a block edits the book and mounts outs is among some
strings. -/
structure Hashed (strings : Set Bytes) (book : Book) (edits : List Edit)
    (units : List (List OutState)) : Prop where
  outs : encodings book.outs ⊆ strings
  olds : encodings (edits.map Edit.old) ⊆ strings
  paths : ∀ edit ∈ edits, pathStrings edit.path ⊆ strings
  news : encodings (edits.map Edit.new) ⊆ strings
  mounted : encodings units.flatten ⊆ strings
  tree : nodeStrings book.tree ⊆ strings
  visits : ∀ visit ∈ mountVisits book.size (book.edit edits).tree (units.map unitTree),
    nodeStrings visit ⊆ strings

section Books

variable {strings : Set Bytes} (collisionFree : CollisionFree strings) {book : Book}
  {edits : List Edit} {units : List (List OutState)}

/-- The edited outs are hashed from the same strings. -/
theorem Hashed.encodings_edit (hashed : book.Hashed strings edits units) :
    encodings (book.edit edits).outs ⊆ strings := by
  refine encodings_subset_iff.mpr fun out inEdited => ?_
  obtain ⟨old, inOuts, rfl⟩ := List.mem_map.mp inEdited
  rcases editOut_cases edits old with ⟨same, _⟩ | ⟨edit, inEdits, same, _⟩
  · rw [same]
    exact encodings_subset_iff.mp hashed.outs old inOuts
  · rw [same]
    exact encodings_subset_iff.mp hashed.news _ (List.mem_map_of_mem inEdits)

variable {outs : List OutState}

theorem leaves_unitTree (nonempty : outs ≠ []) : (unitTree outs).leaves = outs.map digest := by
  have whole := leaves_fullTree (outs.map digest)
  rw [if_neg (by simpa using nonempty)] at whole
  obtain ⟨tree, built, leaves⟩ := Option.map_eq_some_iff.mp whole
  rw [unitTree, built]
  exact leaves

include collisionFree in
theorem treeOf_edit {root : MerkleHash} (treeOf : TreeOf book.tree book.outs)
    (outsIn : encodings book.outs ⊆ strings) (valid : ∀ edit ∈ edits, edit.Valid strings root) :
    TreeOf (book.edit edits).tree (book.edit edits).outs := by
  obtain ⟨encodable, leaves⟩ := treeOf_iff.mp treeOf
  have edited := fun out inOuts => collisionFree.digest_editOut valid (encodable out inOuts)
    (encodings_subset_iff.mp outsIn out inOuts)
  refine treeOf_iff.mpr ⟨?_, ?_⟩
  · rintro _ inEdited
    obtain ⟨out, inOuts, rfl⟩ := List.mem_map.mp inEdited
    exact (edited out inOuts).1
  · rw [edit, HashTree.leaves_map, leaves, List.map_map, List.map_map]
    exact List.map_congr_left fun out inOuts => ((edited out inOuts).2).symm

theorem treeOf_mount (treeOf : TreeOf book.tree book.outs)
    (encodable : ∀ out ∈ units.flatten, Encodable out) (nonempty : ∀ unit ∈ units, unit ≠ []) :
    TreeOf (book.mount units).tree (book.mount units).outs := by
  obtain ⟨oldEncodable, leaves⟩ := treeOf_iff.mp treeOf
  refine treeOf_iff.mpr ⟨List.forall_mem_append.mpr ⟨oldEncodable, encodable⟩, ?_⟩
  have unitLeaves : (units.map unitTree).flatMap HashTree.leaves = units.flatten.map digest := by
    rw [List.flatMap_map, List.map_flatten, List.flatMap_def]
    congr 1
    exact List.map_congr_left fun unit inUnits => leaves_unitTree (nonempty unit inUnits)
  rw [mount, HashTree.leaves_mountAll, leaves, unitLeaves, List.map_append]

include collisionFree in
/-- Edits lead to the same root when they leave the same hash in the place of every leaf. -/
theorem treeRoot_edit_eq_iff {root : MerkleHash} (treeOf : TreeOf book.tree book.outs)
    {more : List Edit} (valid : ∀ edit ∈ edits, edit.Valid strings root)
    (validMore : ∀ edit ∈ more, edit.Valid strings root) (hashed : book.Hashed strings edits [])
    (hashedMore : book.Hashed strings more []) :
    treeRoot (book.edit edits).tree = treeRoot (book.edit more).tree ↔
      ∀ leaf ∈ book.tree.leaves, editHash edits leaf = editHash more leaf := by
  constructor
  · intro same
    have sameTree := HashTree.eq_of_digest_eq collisionFree.separated
      ((treeOf_edit collisionFree treeOf hashed.outs valid).within hashed.encodings_edit
        (hashed.visits _ (List.mem_singleton_self _)))
      ((treeOf_edit collisionFree treeOf hashed.outs validMore).within hashedMore.encodings_edit
        (hashedMore.visits _ (List.mem_singleton_self _))) same
    have sameLeaves := congrArg HashTree.leaves sameTree
    rw [edit, edit, HashTree.leaves_map, HashTree.leaves_map] at sameLeaves
    exact List.map_inj_left.mp sameLeaves
  · exact fun same => congrArg treeRoot (HashTree.map_congr same)

include collisionFree in
theorem nodup_leaves (treeOf : TreeOf book.tree book.outs) (outsIn : encodings book.outs ⊆ strings)
    (distinct : book.Distinct) : book.tree.leaves.Nodup := by
  obtain ⟨encodable, leaves⟩ := treeOf_iff.mp treeOf
  rw [leaves]
  exact collisionFree.nodup_digests outsIn encodable distinct

include collisionFree in
theorem subtree_eq_of_treeRoot_eq (treeOf : TreeOf book.tree book.outs)
    (outsIn : encodings book.outs ⊆ strings) (treeIn : nodeStrings book.tree ⊆ strings) :
    ∀ first ∈ book.tree.subtrees, ∀ second ∈ book.tree.subtrees,
      treeRoot first = treeRoot second → first = second := by
  intro first firstIn second secondIn same
  have within := treeOf.within outsIn treeIn
  exact HashTree.eq_of_digest_eq collisionFree.separated (within.subtree firstIn)
    (within.subtree secondIn) same

include collisionFree in
/-- The path of a valid edit belongs to the old out. -/
theorem exists_genuine_of_valid {tree : Tree} {edit : Edit}
    (valid : edit.Valid strings (treeRoot tree)) (treeOf : TreeOf tree outs)
    (outsIn : encodings outs ⊆ strings) (treeIn : nodeStrings tree ⊆ strings) :
    ∃ frames, Genuine tree edit.path (.leaf (digest edit.old)) frames :=
  exists_genuine_leaf collisionFree.separated (treeOf.within outsIn treeIn) valid.verified
    (fun pair inPairs => valid.pathIn ⟨pair, inPairs, rfl⟩) valid.leaf
    (digest_mem_outHashes valid.oldEncodable valid.oldIn)

/-- A delta tree over the tree of the book, after some edits. -/
def Follows (book : Book) (edits : List Edit) (tree : DeltaMerkleTree) : Prop :=
  ∃ sketch part frames, MerkleTree.Tracks book.tree (editHash edits) tree sketch ∧
    MerkleTree.EndsAt tree sketch book.size part frames

/-- `GetMerkleRoot` gives the root of the edited book. -/
theorem Follows.getMerkleRoot {tree : DeltaMerkleTree} (follows : book.Follows edits tree) :
    tree.getMerkleRoot = .ok (treeRoot (book.edit edits).tree) := by
  obtain ⟨sketch, -, -, tracks, -⟩ := follows
  obtain ⟨rootId, isRoot⟩ := Option.ne_none_iff_exists'.mp tracks.known.covers.root
  have rootIn := tracks.known.covers.ids book.tree book.tree.self_mem_subtrees rootId isRoot
  rw [← tracks.merkleRoot] at isRoot
  have newRoot := MerkleTree.getMerkleRoot_stored tracks.known.stored tracks.known.nodup
    tracks.known.bound isRoot rootIn
  rwa [tracks.whole] at newRoot

end Books

end Book

/-! ### The update of a block -/

/-- What a block writes over outs of the ledger. -/
def blockEdits (block : MsgBlock) : List Edit :=
  block.body.transactions.flatMap spends ++ block.body.updateActions.elems.map rewrite

/-- The lists of outs whose roots the headers mount. -/
def Mounts (headers : List BlockHeader) (units : List (List OutState)) : Prop :=
  List.Forall₂ (fun root unit => outsRoot unit = .ok root)
    ((headers.map BlockHeader.outsMerkleRoot).filter (· ≠ emptyHash)) units

namespace Book

section Updates

variable {strings : Set Bytes} (collisionFree : CollisionFree strings) {book : Book}
  (treeOf : TreeOf book.tree book.outs)
  (outsIn : encodings book.outs ⊆ strings)
  (treeIn : nodeStrings book.tree ⊆ strings)
  (distinct : book.Distinct)

include collisionFree treeOf outsIn treeIn distinct

variable {edits : List Edit}

/-- One edit of the update is one of the book. -/
theorem Follows.write {update : Update} (follows : book.Follows edits update.deltaTree)
    {edit : Edit} (valid : edit.Valid strings (treeRoot book.tree)) :
    ∃ written, update.write edit = .ok written ∧
      book.Follows (edits ++ [edit]) written.deltaTree := by
  obtain ⟨sketch, part, frames, tracks, ends⟩ := follows
  obtain ⟨_, genuine⟩ := exists_genuine_of_valid collisionFree valid treeOf outsIn treeIn
  obtain ⟨updated, grown, updates, newTracks, expands, adds⟩ := tracks.updateLeaf
    (subtree_eq_of_treeRoot_eq collisionFree treeOf outsIn treeIn)
    (nodup_leaves collisionFree treeOf outsIn distinct) genuine (digest edit.new)
  obtain ⟨newPart, newFrames, newEnds⟩ := ends.expands expands adds.size adds.lastNodeHash
    adds.nodeMap
  have hashed : edit.new.merkleHash = .ok (digest edit.new) := valid.newEncodable
  refine ⟨{ update with deltaTree := updated }, ?_, grown, newPart, newFrames, ?_, newEnds⟩
  · simp only [Update.write, hashed, updates, bind, Except.bind, Go.orPanic, pure, Except.pure]
  · rwa [editHash_append_singleton]

/-- Edits of the update are those of the book. -/
theorem Follows.writes {update : Update} (follows : book.Follows edits update.deltaTree)
    {more : List Edit} (valid : ∀ edit ∈ more, edit.Valid strings (treeRoot book.tree)) :
    ∃ written, more.foldlM Update.write update = .ok written ∧
      book.Follows (edits ++ more) written.deltaTree := by
  induction more generalizing update edits with
  | nil => exact ⟨update, rfl, by rwa [List.append_nil]⟩
  | cons edit more ih =>
    obtain ⟨first, rest⟩ := List.forall_mem_cons.mp valid
    obtain ⟨next, writes, nextFollows⟩ :=
      follows.write collisionFree treeOf outsIn treeIn distinct first
    obtain ⟨written, writesRest, finalFollows⟩ := ih nextFollows rest
    refine ⟨written, Lib.bind_eq_ok.mpr ⟨next, writes, writesRest⟩, ?_⟩
    rwa [List.append_assoc, List.singleton_append] at finalFollows

end Updates

/-- The book after a block. -/
def afterBlock (book : Book) (block : MsgBlock) (units : List (List OutState)) : Book :=
  (book.edit (blockEdits block)).mount units

theorem unit_of_outsRoot {unit : List OutState} {root : MerkleHash}
    (rooted : outsRoot unit = .ok root) (nonempty : root ≠ emptyHash) :
    unit ≠ [] ∧ (∀ out ∈ unit, Encodable out) ∧ treeRoot (unitTree unit) = root := by
  rcases outsRoot_cases rooted with ⟨_, isEmpty⟩ | ⟨tree, treeOf, built, rfl⟩
  · exact absurd isEmpty nonempty
  · obtain ⟨encodable, leaves⟩ := treeOf_iff.mp treeOf
    refine ⟨?_, encodable, ?_⟩
    · rintro rfl
      exact tree.leaves_ne_nil leaves
    · rw [unitTree, ← leaves, built]
      rfl

variable {headers : List BlockHeader} {units : List (List OutState)}

theorem facts_of_mounts (mounts : Mounts headers units) :
    (∀ unit ∈ units, unit ≠ []) ∧ (∀ out ∈ units.flatten, Encodable out) ∧
      (headers.map BlockHeader.outsMerkleRoot).filter (· ≠ emptyHash) =
        (units.map unitTree).map treeRoot := by
  have nonempty : ∀ root ∈ (headers.map BlockHeader.outsMerkleRoot).filter (· ≠ emptyHash),
      root ≠ emptyHash := by
    intro root inRoots
    simpa using (List.mem_filter.mp inRoots).2
  rw [Mounts] at mounts
  generalize (headers.map BlockHeader.outsMerkleRoot).filter (· ≠ emptyHash) = roots
    at mounts nonempty ⊢
  induction mounts with
  | nil => simp
  | @cons root unit roots units rooted _ ih =>
    obtain ⟨rootNonempty, restNonempty⟩ := List.forall_mem_cons.mp nonempty
    obtain ⟨unitNonempty, encodable, same⟩ := unit_of_outsRoot rooted rootNonempty
    obtain ⟨unitsNonempty, unitsEncodable, sameRest⟩ := ih restNonempty
    refine ⟨List.forall_mem_cons.mpr ⟨unitNonempty, unitsNonempty⟩,
      List.forall_mem_append.mpr ⟨encodable, unitsEncodable⟩, ?_⟩
    rw [List.map_cons, List.map_cons, same, ← sameRest]

/-- The outs after a block are hashed from the same strings. -/
theorem Hashed.encodings_afterBlock {strings : Set Bytes} {book : Book} {block : MsgBlock}
    (hashed : book.Hashed strings (blockEdits block) units) :
    encodings (book.afterBlock block units).outs ⊆ strings :=
  encodings_subset_iff.mpr (List.forall_mem_append.mpr
    ⟨encodings_subset_iff.mp hashed.encodings_edit, encodings_subset_iff.mp hashed.mounted⟩)

variable {update : Update} {units : List Tree}

theorem addHeaders_of_append {newInfo : LedgerInfo}
    (added : Update.addHeights update.newLedgerInfo headers = .ok newInfo)
    (roots : (headers.map BlockHeader.outsMerkleRoot).filter (· ≠ emptyHash) = units.map treeRoot)
    {appended : DeltaMerkleTree} (appends : (if units = [] then pure update.deltaTree
      else update.deltaTree.append (units.map treeRoot)) = .ok appended) :
    update.addHeaders headers = .ok ⟨appended, newInfo⟩ := by
  simp only [Update.addHeaders, added, roots, bind, Except.bind, List.isEmpty_iff,
    List.map_eq_nil_iff]
  split at appends
  · next none =>
    obtain rfl := Lib.pure_eq_ok.mp appends
    rw [if_pos none]
    rfl
  · next some =>
    rw [if_neg some, appends]
    rfl

/-- `ApplyUpdate` after trees have been mounted. -/
theorem applyUpdate_of_grown {whole : Tree} {count : Nat}
    (grown : MerkleTree.Grown whole count update.deltaTree)
    (state : ShardStateManager) :
    ∃ after, state.applyUpdate update = .ok after ∧ after.tree.root = treeRoot whole ∧
      after.tree.size = count ∧ LastPath whole count after.tree.lastPath := by
  obtain ⟨path, isPath, lastPath⟩ := grown.lastPath
  have applied : state.applyUpdate update = .ok { state with
      tree := ⟨treeRoot whole, count, path⟩
      shardHeights := fun index =>
        if index ∈ shardList then getShardHeight update.newLedgerInfo index
        else state.shardHeights index } := by
    simp only [ShardStateManager.applyUpdate, grown.newRoot, isPath, grown.size, lastPath.verified,
      bind, Except.bind, Go.orPanic, pure, Except.pure]
  exact ⟨_, applied, rfl, rfl, lastPath⟩

section Blocks

variable {strings : Set Bytes} (collisionFree : CollisionFree strings) {book : Book}
  {state : ShardStateManager} {block : MsgBlock} {units : List (List OutState)}

include collisionFree in
theorem Backs.newUpdate (backs : book.Backs state.tree) (distinct : book.Distinct)
    (outsIn : encodings book.outs ⊆ strings) (treeIn : nodeStrings book.tree ⊆ strings)
    (small : book.size < 2 ^ 63) :
    ∃ update, state.newUpdate = .ok update ∧ book.Follows [] update.deltaTree ∧
      update.newLedgerInfo = state.ledgerInfo := by
  obtain ⟨sub, frames, genuine⟩ := backs.lastPath.genuine
  obtain ⟨tree, sketch, part, context, sets, tracks, ends⟩ :=
    MerkleTree.setSizeAndLastNodeMerklePath_new
      (subtree_eq_of_treeRoot_eq collisionFree backs.treeOf outsIn treeIn)
      (nodup_leaves collisionFree backs.treeOf outsIn distinct) genuine backs.positive small
      backs.lastPath.verified
  refine ⟨⟨tree, state.ledgerInfo⟩, ?_, ⟨sketch, part, context, tracks, ends⟩, rfl⟩
  simp only [ShardStateManager.newUpdate, backs.root, backs.size, sets, Go.orPanic, bind,
    Except.bind, pure, Except.pure]

include collisionFree in
/-- The update of a block is the one of the book. -/
theorem Backs.getUpdateWithFullBlock (backs : book.Backs state.tree) (distinct : book.Distinct)
    (hashed : book.Hashed strings (blockEdits block) units)
    (enough : ∀ tx ∈ block.body.transactions, HasProofs tx)
    (sound : ∀ edit ∈ blockEdits block, edit.Sound state.tree.root)
    (found : state.getBlockHeadersToAppend block.body.ledgerInfo = .ok headers)
    (mounts : Mounts headers units) (small : book.size + units.length < 2 ^ 63) :
    ∃ update, state.getUpdateWithFullBlock block = .ok update ∧
      TreeOf (book.afterBlock block units).tree (book.afterBlock block units).outs ∧
      MerkleTree.Grown (book.afterBlock block units).tree (book.afterBlock block units).size
        update.deltaTree := by
  rw [backs.root] at sound
  have valid : ∀ edit ∈ blockEdits block, edit.Valid strings (treeRoot book.tree) :=
    fun edit inEdits => ⟨sound edit inEdits,
      encodings_subset_iff.mp hashed.olds _ (List.mem_map_of_mem inEdits),
      hashed.paths edit inEdits⟩
  obtain ⟨spendsValid, rewritesValid⟩ := List.forall_mem_append.mp valid
  obtain ⟨unitsNonempty, unitsEncodable, roots⟩ := facts_of_mounts mounts
  obtain ⟨start, starts, startFollows, startInfo⟩ :=
    backs.newUpdate collisionFree distinct hashed.outs hashed.tree (by omega)
  obtain ⟨marked, marks, markedFollows⟩ := startFollows.writes collisionFree
    backs.treeOf hashed.outs hashed.tree distinct spendsValid
  obtain ⟨written, writes, writtenFollows⟩ := markedFollows.writes collisionFree
    backs.treeOf hashed.outs hashed.tree distinct rewritesValid
  have isInfo : written.newLedgerInfo = state.ledgerInfo :=
    (newLedgerInfo_of_writes writes).trans ((newLedgerInfo_of_writes marks).trans startInfo)
  obtain ⟨newInfo, added⟩ := addHeights_getBlockHeadersToAppend found
  rw [← isInfo] at added
  rw [List.nil_append, ← blockEdits] at writtenFollows
  obtain ⟨sketch, part, frames, tracks, ends⟩ := writtenFollows
  have edited := treeOf_edit collisionFree backs.treeOf hashed.outs valid
  have newTreeOf := treeOf_mount edited unitsEncodable unitsNonempty
  have within : ∀ visit ∈ mountVisits book.size (book.edit (blockEdits block)).tree
      (units.map unitTree), Within nodeHash (nodePairs strings) (outHashes strings) visit := by
    intro visit visited
    refine ⟨fun pair inPairs => hashed.visits visit visited ⟨pair, inPairs, rfl⟩, ?_⟩
    have final := newTreeOf.within hashed.encodings_afterBlock
      (hashed.visits _ (HashTree.mountAll_mem_mountVisits _ _ _))
    intro leaf inVisit
    refine final.leaves leaf ?_
    rw [mount, HashTree.leaves_mountAll]
    exact HashTree.leaves_subset_of_mem_mountVisits visited inVisit
  obtain ⟨appended, appends, grown⟩ := tracks.grown collisionFree.separated ends backs.positive
    (units.map unitTree) (by simpa using small) within
  rw [List.length_map] at grown
  have adds := addHeaders_of_append added roots appends
  refine ⟨⟨appended, newInfo⟩, ?_, newTreeOf, grown⟩
  simp only [ShardStateManager.getUpdateWithFullBlock, starts, Update.applyActions_eq, writes,
    Update.markTransactions_eq_ok_iff.mpr ⟨enough, marks⟩, found, bind, Except.bind, adds]

/-- The state of the ledger after a block is the one of the book. -/
theorem Backs.applyUpdate (backs : book.Backs state.tree)
    (treeOf : TreeOf (book.afterBlock block units).tree (book.afterBlock block units).outs)
    (grown : MerkleTree.Grown (book.afterBlock block units).tree (book.afterBlock block units).size
      update.deltaTree) :
    ∃ after, state.applyUpdate update = .ok after ∧
      (book.afterBlock block units).Backs after.tree := by
  obtain ⟨after, applied, root, size, lastPath⟩ := applyUpdate_of_grown grown state
  exact ⟨after, applied, treeOf, root, size, Nat.lt_of_lt_of_le backs.positive
    (Nat.le_add_right _ _), lastPath⟩

end Blocks

end Book

/-! ### The strings of concrete books -/

/-- The strings that are hashed when a book is edited and outs are mounted. -/
def Book.strings (book : Book) (edits : List Edit) (units : List (List OutState)) : List Bytes :=
  outStrings (book.outs ++ edits.map Edit.old ++ edits.map Edit.new ++ units.flatten) ++
    ((book.tree :: mountVisits book.size (book.edit edits).tree (units.map unitTree)).flatMap
        (fun tree => tree.pairs nodeHash) ++
      edits.flatMap fun edit => climbedPairs edit.path).map pairString

theorem Book.hashed_of_strings_subset {book : Book} {edits : List Edit}
    {units : List (List OutState)} {strings : Set Bytes}
    (subset : ∀ bytes ∈ book.strings edits units, bytes ∈ strings) :
    book.Hashed strings edits units := by
  have outsIn : encodings
      (book.outs ++ edits.map Edit.old ++ edits.map Edit.new ++ units.flatten) ⊆ strings :=
    fun bytes isEncoding => subset bytes (List.mem_append_left _ (mem_outStrings isEncoding))
  have treesIn : ∀ tree ∈ book.tree ::
      mountVisits book.size (book.edit edits).tree (units.map unitTree),
        nodeStrings tree ⊆ strings := by
    rintro tree inTrees bytes ⟨pair, inPairs, rfl⟩
    refine subset _ (List.mem_append_right _ (List.mem_map_of_mem (f := pairString) ?_))
    exact List.mem_append_left _ (List.mem_flatMap_of_mem inTrees inPairs)
  rw [encodings_subset_iff] at outsIn
  simp only [List.forall_mem_append] at outsIn
  obtain ⟨⟨⟨outs, olds⟩, news⟩, mounted⟩ := outsIn
  refine ⟨encodings_subset_iff.mpr outs, encodings_subset_iff.mpr olds, ?_,
    encodings_subset_iff.mpr news, encodings_subset_iff.mpr mounted,
    treesIn _ List.mem_cons_self, fun visit visited => treesIn _ (List.mem_cons_of_mem _ visited)⟩
  rintro edit inEdits bytes ⟨pair, inPairs, rfl⟩
  refine subset _ (List.mem_append_right _ (List.mem_map_of_mem (f := pairString) ?_))
  exact List.mem_append_right _ (List.mem_flatMap_of_mem inEdits inPairs)

end MultiVac.Ledger
