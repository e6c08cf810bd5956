import MultiVac.Merkle.Disk

/-!
# What a tree on disk writes

Every operation of a tree on disk is a sequence of puts and deletions of hashes. So
it does not open or close a record, and what it does to the store below an open
record is known.
-/

namespace MultiVac.Merkle

open Lib
open Database (Reaches)

variable {first db : Database} {disk out : DiskTree}

/-! ### Nodes -/

section

variable (reaches : first.Reaches db)
include reaches

variable (node : DiskNode)

theorem reaches_save : first.Reaches (node.save db) := reaches.put _ _

theorem reaches_write (v : ValueInDB) : first.Reaches (node.write v db).2 := by
  unfold DiskNode.write
  split
  · exact reaches
  · exact reaches_save reaches _

theorem reaches_setParent (parent : Option DiskNode) :
    first.Reaches (node.setParent parent db).2 := reaches_write reaches _ _

theorem reaches_setLeftChild
    (child : Option DiskNode) : first.Reaches (node.setLeftChild child db).2 :=
  reaches_write reaches _ _

theorem reaches_setRightChild
    (child : Option DiskNode) : first.Reaches (node.setRightChild child db).2 :=
  reaches_write reaches _ _

theorem reaches_setIndex (hash : MerkleHash) (node : DiskNode) :
    first.Reaches (setIndex db hash node) := reaches.put _ _

theorem reaches_setHash (hash : MerkleHash) :
    first.Reaches (node.setHash hash db).2 := reaches_save (reaches_setIndex reaches _ _) _

end

theorem reaches_newNode (reaches : first.Reaches disk.db) (hash : MerkleHash) :
    first.Reaches (disk.newNode hash).2.db := reaches_setHash (reaches.put _ _) _ _

namespace DiskTree

theorem reaches_adopt (reaches : first.Reaches db) (node : DiskNode) (child : Option DiskNode) :
    first.Reaches (adopt db node child) := by
  cases child with
  | none => exact reaches
  | some child => exact reaches_setParent reaches _ _

theorem reaches_attach (reaches : first.Reaches db) (node : DiskNode) (isLeftChild : Bool)
    (parent : Option DiskNode) : first.Reaches (attach db node isLeftChild parent) := by
  cases parent with
  | none => exact reaches
  | some parent =>
    cases isLeftChild with
    | false => exact reaches_setRightChild reaches _ _
    | true => exact reaches_setLeftChild reaches _ _

/-! ### New hashes of nodes -/

theorem reaches_onNodeHashChanged (reaches : first.Reaches disk.db) (node : DiskNode)
    (originalHash hash : MerkleHash) :
    first.Reaches (disk.onNodeHashChanged node originalHash hash).db := by
  unfold onNodeHashChanged
  split
  · exact reaches
  · exact (reaches_setIndex reaches _ _).delete _

variable {node object : DiskNode} {hash : MerkleHash}

theorem reaches_setNodeHash
    (changed : disk.setNodeHash node hash = .ok (object, out)) : disk.db.Reaches out.db := by
  obtain ⟨isLeftChild, -, isOut⟩ := bind_eq_ok.mp changed
  obtain ⟨-, rfl⟩ := Prod.mk.inj (pure_eq_ok.mp isOut)
  apply reaches_onNodeHashChanged
  apply reaches_attach
  apply reaches_adopt
  apply reaches_adopt
  exact reaches_setHash .refl node hash

theorem reaches_refreshAbove {fuel : Nat} {target : Option DiskNode}
    (refreshed : refreshAbove fuel disk target = .ok out) : disk.db.Reaches out.db := by
  induction fuel generalizing disk target with
  | zero =>
    cases target with
    | none =>
      cases refreshed
      exact .refl
    | some node => cases refreshed
  | succ fuel ih =>
    cases target with
    | none =>
      cases refreshed
      exact .refl
    | some node =>
      simp only [refreshAbove] at refreshed
      split at refreshed
      · obtain ⟨⟨object, middle⟩, changed, rest⟩ := bind_eq_ok.mp refreshed
        exact (reaches_setNodeHash changed).trans (ih rest)
      · cases refreshed

theorem reaches_updateNode
    (updated : disk.updateNode node hash = .ok out) : disk.db.Reaches out.db := by
  obtain ⟨⟨object, middle⟩, changed, rest⟩ := bind_eq_ok.mp updated
  exact (reaches_setNodeHash changed).trans (reaches_refreshAbove rest)

theorem db_updateMerkleRoot (updated : disk.updateMerkleRoot = .ok out) : out.db = disk.db := by
  unfold updateMerkleRoot at updated
  split at updated
  · cases updated
  · obtain ⟨top, -, isOut⟩ := bind_eq_ok.mp updated
    obtain rfl := pure_eq_ok.mp isOut
    rfl

theorem reaches_updateLeaf {originalHash newHash : MerkleHash}
    (updated : disk.updateLeaf originalHash newHash = .ok out) : disk.db.Reaches out.db := by
  unfold updateLeaf at updated
  split at updated
  · cases updated
  · obtain ⟨middle, changed, rest⟩ := bind_eq_ok.mp updated
    rw [db_updateMerkleRoot rest]
    exact reaches_updateNode changed

/-! ### New nodes -/

theorem reaches_replaceByJoint (reaches : first.Reaches disk.db)
    (nodeToReplace nodeToInsert : DiskNode) (jointHash : MerkleHash) :
    first.Reaches (disk.replaceByJoint nodeToReplace nodeToInsert jointHash).2.db := by
  have joined : first.Reaches (disk.newNode jointHash).2.db := reaches_newNode reaches jointHash
  simp only [replaceByJoint]
  split
  · apply reaches_setParent
    apply reaches_setParent
    apply reaches_setIndex
    apply reaches_setRightChild
    apply reaches_setLeftChild
    exact reaches_setParent joined _ _
  · apply reaches_setRightChild
    apply reaches_setParent
    apply reaches_setParent
    apply reaches_setIndex
    apply reaches_setRightChild
    apply reaches_setLeftChild
    exact reaches_setParent joined _ _

variable {size : Nat}

theorem reaches_appendLeaf {lastNode : DiskNode}
    (appended : disk.appendLeaf size lastNode hash = .ok (object, out)) :
    disk.db.Reaches out.db := by
  simp only [appendLeaf] at appended
  split at appended
  · cases appended
  · obtain ⟨middle, updated, isOut⟩ := bind_eq_ok.mp appended
    obtain ⟨-, rfl⟩ := Prod.mk.inj (pure_eq_ok.mp isOut)
    refine Reaches.trans ?_ (reaches_updateNode updated)
    exact reaches_replaceByJoint (reaches_setIndex (reaches_newNode .refl _) _ _) _ _ _

variable {leaves : List MerkleHash}

theorem reaches_appendAll {lastNode : Option DiskNode} {appended : Option DiskNode × DiskTree}
    (appends : disk.appendAll size lastNode leaves = .ok appended) :
    disk.db.Reaches appended.2.db := by
  induction leaves generalizing disk size lastNode with
  | nil =>
    cases appends
    exact .refl
  | cons hash leaves ih =>
    simp only [appendAll] at appends
    split at appends
    · refine Reaches.trans ?_ (ih appends)
      exact reaches_setIndex (reaches_newNode .refl _) _ _
    · split at appends
      · cases appends
      · obtain ⟨⟨object, middle⟩, step, rest⟩ := bind_eq_ok.mp appends
        exact (reaches_appendLeaf step).trans (ih rest)

theorem reaches_append (appended : disk.append leaves = .ok out) : disk.db.Reaches out.db := by
  simp only [append, bind_eq_ok] at appended
  obtain ⟨-, -, -, -, grown, isGrown, rest⟩ := appended
  split at rest
  · cases rest
  · rw [db_updateMerkleRoot rest]
    exact reaches_appendAll isGrown

/-! ### Trees below a leaf -/

theorem reaches_join (reaches : first.Reaches db) (node left right : DiskNode) :
    first.Reaches (join db node left right).2 :=
  reaches_setParent (reaches_setParent
    (reaches_setRightChild (reaches_setLeftChild reaches _ _) _ _) _ _) _ _

theorem reaches_deepcopyNode (reaches : first.Reaches disk.db) (tree : Tree) :
    first.Reaches (disk.deepcopyNode tree).2.db := by
  induction tree generalizing disk with
  | leaf hash => exact reaches_setIndex (reaches_newNode reaches _) _ _
  | node left right reachesLeft reachesRight =>
    refine reaches_setIndex (reaches_join ?_ _ _ _) _ _
    exact reachesRight (reachesLeft (reaches_newNode reaches _))

theorem reaches_hookSecondLayerTree {subtree : Option Tree}
    (hooked : disk.hookSecondLayerTree subtree = .ok out) : disk.db.Reaches out.db := by
  unfold hookSecondLayerTree at hooked
  split at hooked
  · cases hooked
  · split at hooked
    · cases hooked
    · split at hooked
      · cases hooked
        exact .refl
      · cases hooked
        exact reaches_join (reaches_deepcopyNode (reaches_deepcopyNode .refl _) _) _ _ _

end DiskTree

end MultiVac.Merkle
