import MultiVac.Lib.Outcome
import Mathlib.Data.Set.Function

/-!
# Hash trees

Binary trees whose inner nodes are hashed from their children. The digest of a
tree determines the tree, and a climb from a digest to the root determines the
place of a subtree, as long as no two of the hashed pairs collide and no leaf is
the hash of a pair.
-/

namespace MultiVac.Lib

/-- A binary tree over digests. -/
inductive HashTree (δ : Type) where
  | leaf (digest : δ)
  | node (left right : HashTree δ)
deriving DecidableEq

namespace HashTree

variable {δ : Type} (join : δ → δ → δ)

/-- The digest of the root node. -/
def digest : HashTree δ → δ
  | leaf value => value
  | node left right => join left.digest right.digest

/-- The leaves from left to right. -/
def leaves : HashTree δ → List δ
  | leaf value => [value]
  | node left right => left.leaves ++ right.leaves

/-- The pairs that are hashed for the inner nodes. -/
def pairs : HashTree δ → List (δ × δ)
  | leaf _ => []
  | node left right => (left.digest join, right.digest join) :: (left.pairs ++ right.pairs)

/-- No two of the hashed pairs collide, and none of the atoms is the hash of a pair. -/
structure Separated (hashed : Set (δ × δ)) (atoms : Set δ) : Prop where
  injective : Set.InjOn (fun pair => join pair.1 pair.2) hashed
  disjoint : ∀ pair ∈ hashed, join pair.1 pair.2 ∉ atoms

/-- The pairs and the leaves of a tree are among given ones. -/
structure Within (hashed : Set (δ × δ)) (atoms : Set δ) (tree : HashTree δ) : Prop where
  pairs : ∀ pair ∈ tree.pairs join, pair ∈ hashed
  leaves : ∀ leaf ∈ tree.leaves, leaf ∈ atoms

theorem leaves_ne_nil (tree : HashTree δ) : tree.leaves ≠ [] := by
  induction tree with
  | leaf value => simp [leaves]
  | node left right leftIh _ => simp [leaves, leftIh]

variable {join} {hashed : Set (δ × δ)} {atoms : Set δ}

theorem within_leaf_iff (value : δ) : Within join hashed atoms (leaf value) ↔ value ∈ atoms := by
  constructor
  · intro within
    exact within.leaves value List.mem_cons_self
  · intro inAtoms
    exact ⟨by simp [pairs], by simpa [leaves] using inAtoms⟩

theorem within_node_iff (left right : HashTree δ) :
    Within join hashed atoms (node left right) ↔ (left.digest join, right.digest join) ∈ hashed ∧
        Within join hashed atoms left ∧ Within join hashed atoms right := by
  constructor
  · rintro ⟨inHashed, inAtoms⟩
    simp only [pairs, leaves, List.mem_cons, List.mem_append, forall_eq, or_imp,
      forall_and] at inHashed inAtoms
    exact ⟨inHashed.1, ⟨inHashed.2.1, inAtoms.1⟩, ⟨inHashed.2.2, inAtoms.2⟩⟩
  · rintro ⟨inHashed, withinLeft, withinRight⟩
    constructor
    · simp only [pairs, List.mem_cons, List.mem_append, forall_eq, or_imp, forall_and]
      exact ⟨inHashed, withinLeft.pairs, withinRight.pairs⟩
    · simp only [leaves, List.mem_append, or_imp, forall_and]
      exact ⟨withinLeft.leaves, withinRight.leaves⟩

/-- The digest determines the tree. -/
theorem eq_of_digest_eq (separated : Separated join hashed atoms) {first second : HashTree δ}
    (withinFirst : Within join hashed atoms first) (withinSecond : Within join hashed atoms second)
    (same : first.digest join = second.digest join) : first = second := by
  induction first generalizing second with
  | leaf value =>
    cases second with
    | leaf other => exact congrArg leaf same
    | node left right =>
      have inHashed := ((within_node_iff left right).mp withinSecond).1
      refine absurd ((within_leaf_iff value).mp withinFirst) ?_
      rw [show value = join (left.digest join) (right.digest join) from same]
      exact separated.disjoint _ inHashed
  | node left right leftIh rightIh =>
    obtain ⟨inHashed, withinLeft, withinRight⟩ := (within_node_iff left right).mp withinFirst
    cases second with
    | leaf other =>
      refine absurd ((within_leaf_iff other).mp withinSecond) ?_
      rw [show other = join (left.digest join) (right.digest join) from same.symm]
      exact separated.disjoint _ inHashed
    | node otherLeft otherRight =>
      obtain ⟨inHashedToo, withinOtherLeft, withinOtherRight⟩ :=
        (within_node_iff otherLeft otherRight).mp withinSecond
      obtain ⟨sameLeft, sameRight⟩ := Prod.mk.inj (separated.injective inHashed inHashedToo same)
      rw [leftIh withinLeft withinOtherLeft sameLeft,
        rightIh withinRight withinOtherRight sameRight]

/-! ### Clipped trees -/

variable {clipped whole : HashTree δ}

/-- Where some subtrees of a tree have been replaced by their digests, each leaf stands
for a run of leaves of the tree, and a leaf that is an atom for itself. -/
theorem exists_parts_of_digest_eq (separated : Separated join hashed atoms)
    (clippedPairs : ∀ pair ∈ clipped.pairs join, pair ∈ hashed)
    (within : Within join hashed atoms whole) (same : clipped.digest join = whole.digest join) :
    ∃ parts : List (List δ), whole.leaves = parts.flatten ∧
      List.Forall₂ (fun value part => value ∈ atoms → part = [value]) clipped.leaves parts := by
  induction clipped generalizing whole with
  | leaf value =>
    refine ⟨[whole.leaves], by simp, .cons (fun isAtom => ?_) .nil⟩
    have withinLeaf : Within join hashed atoms (leaf value) := (within_leaf_iff value).mpr isAtom
    rw [← eq_of_digest_eq separated withinLeaf within same]
    rfl
  | node left right leftIh rightIh =>
    simp only [pairs, List.mem_cons, List.mem_append, forall_eq, or_imp, forall_and] at clippedPairs
    obtain ⟨inHashed, leftPairs, rightPairs⟩ := clippedPairs
    cases whole with
    | leaf other =>
      refine absurd ((within_leaf_iff other).mp within) ?_
      rw [show other = join (left.digest join) (right.digest join) from same.symm]
      exact separated.disjoint _ inHashed
    | node otherLeft otherRight =>
      obtain ⟨inHashedToo, withinLeft, withinRight⟩ :=
        (within_node_iff otherLeft otherRight).mp within
      obtain ⟨sameLeft, sameRight⟩ := Prod.mk.inj (separated.injective inHashed inHashedToo same)
      obtain ⟨leftParts, leftLeaves, leftRelated⟩ := leftIh leftPairs withinLeft sameLeft
      obtain ⟨rightParts, rightLeaves, rightRelated⟩ := rightIh rightPairs withinRight sameRight
      refine ⟨leftParts ++ rightParts, ?_, List.rel_append leftRelated rightRelated⟩
      rw [leaves, leftLeaves, rightLeaves, List.flatten_append]

theorem flatten_eq_of_forall₂ {known : List δ} {parts : List (List δ)}
    (related : List.Forall₂ (fun value part => value ∈ atoms → part = [value]) known parts)
    (atomic : ∀ value ∈ known, value ∈ atoms) : parts.flatten = known := by
  induction related with
  | nil => rfl
  | cons part _ ih =>
    rw [List.forall_mem_cons] at atomic
    rw [List.flatten_cons, part atomic.1, ih atomic.2]
    rfl

/-- The atoms among the leaves of a clipped tree that follow each other do so in the
whole tree as well. -/
theorem exists_around_of_digest_eq (separated : Separated join hashed atoms)
    (clippedPairs : ∀ pair ∈ clipped.pairs join, pair ∈ hashed)
    (within : Within join hashed atoms whole) (same : clipped.digest join = whole.digest join)
    {before known after : List δ} (leavesEq : clipped.leaves = before ++ (known ++ after))
    (atomic : ∀ value ∈ known, value ∈ atoms) :
    ∃ earlier later, whole.leaves = earlier ++ (known ++ later) ∧
      (before = [] → earlier = []) ∧ (after = [] → later = []) := by
  obtain ⟨parts, wholeLeaves, related⟩ :=
    exists_parts_of_digest_eq separated clippedPairs within same
  rw [leavesEq] at related
  obtain ⟨beforeParts, rest, rfl, relatedBefore, related⟩ := exists_append_of_forall₂ related
  obtain ⟨knownParts, afterParts, rfl, relatedKnown, relatedAfter⟩ :=
    exists_append_of_forall₂ related
  have knownSame : knownParts.flatten = known := flatten_eq_of_forall₂ relatedKnown atomic
  refine ⟨beforeParts.flatten, afterParts.flatten, ?_, ?_, ?_⟩
  · rw [wholeLeaves, List.flatten_append, List.flatten_append, knownSame]
  · rintro rfl
    cases relatedBefore
    rfl
  · rintro rfl
    cases relatedAfter
    rfl

/-! ### Places in a tree -/

section Places

variable {δ : Type} {join : δ → δ → δ}

/-- One step up in a tree: the sibling, and whether it is the left child. -/
structure Frame (δ : Type) where
  onLeft : Bool
  sibling : HashTree δ

/-- The parent of a tree and its sibling. -/
def up (tree : HashTree δ) (frame : Frame δ) : HashTree δ :=
  if frame.onLeft then node frame.sibling tree else node tree frame.sibling

/-- The tree around a subtree, by the frames from the subtree up to the root. -/
def plug (tree : HashTree δ) (frames : List (Frame δ)) : HashTree δ := frames.foldl up tree

@[simp]
theorem plug_nil (tree : HashTree δ) : tree.plug [] = tree := rfl

@[simp]
theorem plug_cons (tree : HashTree δ) (frame : Frame δ) (frames : List (Frame δ)) :
    tree.plug (frame :: frames) = (tree.up frame).plug frames := rfl

theorem plug_append (tree : HashTree δ) (lower upper : List (Frame δ)) :
    tree.plug (lower ++ upper) = (tree.plug lower).plug upper := List.foldl_append

/-- The digest of a parent, from the digest of a child and its sibling. -/
def ascend (join : δ → δ → δ) (current : δ) (step : Bool × δ) : δ :=
  if step.1 then join step.2 current else join current step.2

/-- The side and the digest of a sibling. -/
def Frame.step (join : δ → δ → δ) (frame : Frame δ) : Bool × δ :=
  (frame.onLeft, frame.sibling.digest join)

theorem digest_up (tree : HashTree δ) (frame : Frame δ) :
    (tree.up frame).digest join = ascend join (tree.digest join) (frame.step join) := by
  cases onLeft : frame.onLeft <;> simp [up, ascend, Frame.step, digest, onLeft]

/-- The leaves to the left of a place. -/
def before : List (Frame δ) → List δ
  | [] => []
  | frame :: frames => before frames ++ if frame.onLeft then frame.sibling.leaves else []

/-- The leaves to the right of a place. -/
def after : List (Frame δ) → List δ
  | [] => []
  | frame :: frames => (if frame.onLeft then [] else frame.sibling.leaves) ++ after frames

theorem leaves_plug (tree : HashTree δ) (frames : List (Frame δ)) :
    (tree.plug frames).leaves = before frames ++ tree.leaves ++ after frames := by
  induction frames generalizing tree with
  | nil => simp [before, after]
  | cons frame frames ih =>
    rw [plug_cons, ih]
    cases onLeft : frame.onLeft <;> simp [before, after, up, leaves, onLeft]

variable {frames : List (Frame δ)} {frame : Frame δ}

theorem mem_leaves_sibling (inFrames : frame ∈ frames) {value : δ}
    (inSibling : value ∈ frame.sibling.leaves) : value ∈ before frames ∨ value ∈ after frames := by
  induction frames with
  | nil => cases inFrames
  | cons first frames ih =>
    rcases List.mem_cons.mp inFrames with rfl | later
    · cases onLeft : frame.onLeft <;> simp [before, after, onLeft, inSibling]
    · rcases ih later with left | right
      · exact .inl (List.mem_append_left _ left)
      · exact .inr (List.mem_append_right _ right)

/-- Where nothing is to the right of a place, all siblings are on the left. -/
theorem onLeft_of_after_eq_nil (nothing : after frames = [])
    (inFrames : frame ∈ frames) : frame.onLeft = true := by
  induction frames with
  | nil => cases inFrames
  | cons first frames ih =>
    obtain ⟨here, later⟩ := List.append_eq_nil_iff.mp nothing
    rcases List.mem_cons.mp inFrames with rfl | inRest
    · by_contra onRight
      rw [if_neg onRight] at here
      exact frame.sibling.leaves_ne_nil here
    · exact ih later inRest

/-- All nodes of a tree, each as the tree below it. -/
def subtrees : HashTree δ → List (HashTree δ)
  | leaf value => [leaf value]
  | node left right => node left right :: (left.subtrees ++ right.subtrees)

theorem self_mem_subtrees (tree : HashTree δ) : tree ∈ tree.subtrees := by
  cases tree <;> simp [subtrees]

theorem left_mem_subtrees (left right : HashTree δ) : left ∈ (node left right).subtrees := by
  simp [subtrees, self_mem_subtrees]

theorem right_mem_subtrees (left right : HashTree δ) : right ∈ (node left right).subtrees := by
  simp [subtrees, self_mem_subtrees]

theorem subtrees_subset_up (tree : HashTree δ) (frame : Frame δ) :
    tree.subtrees ⊆ (tree.up frame).subtrees := by
  intro sub inTree
  cases onLeft : frame.onLeft <;> simp [up, subtrees, onLeft, inTree]

theorem sibling_subset_up (tree : HashTree δ) (frame : Frame δ) :
    frame.sibling.subtrees ⊆ (tree.up frame).subtrees := by
  intro sub inSibling
  cases onLeft : frame.onLeft <;> simp [up, subtrees, onLeft, inSibling]

theorem subtrees_subset_plug (tree : HashTree δ) (frames : List (Frame δ)) :
    tree.subtrees ⊆ (tree.plug frames).subtrees := by
  induction frames generalizing tree with
  | nil => exact List.Subset.refl _
  | cons frame frames ih =>
    exact List.Subset.trans (subtrees_subset_up tree frame) (ih _)

theorem mem_subtrees_iff (sub tree : HashTree δ) :
    sub ∈ tree.subtrees ↔ ∃ frames, sub.plug frames = tree := by
  constructor
  · intro inTree
    induction tree with
    | leaf value => exact ⟨[], List.mem_singleton.mp inTree⟩
    | node left right leftIh rightIh =>
      rcases List.mem_cons.mp inTree with rfl | below
      · exact ⟨[], rfl⟩
      · rcases List.mem_append.mp below with inLeft | inRight
        · obtain ⟨frames, rfl⟩ := leftIh inLeft
          exact ⟨frames ++ [⟨false, right⟩], by simp [plug_append, up]⟩
        · obtain ⟨frames, rfl⟩ := rightIh inRight
          exact ⟨frames ++ [⟨true, left⟩], by simp [plug_append, up]⟩
  · rintro ⟨frames, rfl⟩
    exact subtrees_subset_plug sub frames (self_mem_subtrees sub)

theorem subtrees_trans {sub middle tree : HashTree δ} (inMiddle : sub ∈ middle.subtrees)
    (inTree : middle ∈ tree.subtrees) : sub ∈ tree.subtrees := by
  obtain ⟨frames, rfl⟩ := (mem_subtrees_iff middle tree).mp inTree
  exact subtrees_subset_plug middle frames inMiddle

variable {sub tree : HashTree δ}

theorem leaves_subset_of_mem_subtrees
    (inTree : sub ∈ tree.subtrees) : sub.leaves ⊆ tree.leaves := by
  obtain ⟨frames, rfl⟩ := (mem_subtrees_iff sub tree).mp inTree
  intro value inSub
  simp [leaves_plug, inSub]

theorem leaf_mem_subtrees {tree : HashTree δ} {value : δ} (inLeaves : value ∈ tree.leaves) :
    leaf value ∈ tree.subtrees := by
  induction tree with
  | leaf own =>
    rw [List.mem_singleton.mp inLeaves]
    exact self_mem_subtrees _
  | node left right leftIh rightIh =>
    rcases List.mem_append.mp inLeaves with inLeft | inRight
    · exact subtrees_trans (leftIh inLeft) (left_mem_subtrees left right)
    · exact subtrees_trans (rightIh inRight) (right_mem_subtrees left right)

theorem mem_subtrees_up (sub tree : HashTree δ) (frame : Frame δ) :
    sub ∈ (tree.up frame).subtrees ↔
      sub = tree.up frame ∨ sub ∈ tree.subtrees ∨ sub ∈ frame.sibling.subtrees := by
  cases onLeft : frame.onLeft <;> simp [up, subtrees, onLeft, or_comm]

/-- A subtree is the whole tree or has fewer leaves. -/
theorem eq_or_length_lt_of_mem_subtrees
    (inTree : sub ∈ tree.subtrees) : sub = tree ∨ sub.leaves.length < tree.leaves.length := by
  induction tree with
  | leaf value => exact .inl (List.mem_singleton.mp inTree)
  | node left right leftIh rightIh =>
    have leftPositive := List.length_pos_iff.mpr left.leaves_ne_nil
    have rightPositive := List.length_pos_iff.mpr right.leaves_ne_nil
    rcases List.mem_cons.mp inTree with rfl | below
    · exact .inl rfl
    · rw [leaves, List.length_append]
      rcases List.mem_append.mp below with inLeft | inRight
      · rcases leftIh inLeft with rfl | less
        · exact .inr (by omega)
        · exact .inr (by omega)
      · rcases rightIh inRight with rfl | less
        · exact .inr (by omega)
        · exact .inr (by omega)

theorem subtrees_antisymm {first second : HashTree δ} (inSecond : first ∈ second.subtrees)
    (inFirst : second ∈ first.subtrees) : first = second := by
  rcases eq_or_length_lt_of_mem_subtrees inSecond with same | less
  · exact same
  · rcases eq_or_length_lt_of_mem_subtrees inFirst with same | more
    · exact same.symm
    · omega

/-- The children of a node below a tree are strictly below the tree. -/
theorem children_mem_subtrees {left right tree : HashTree δ}
    (inTree : node left right ∈ tree.subtrees) :
    (left ∈ tree.subtrees ∧ left ≠ tree) ∧ right ∈ tree.subtrees ∧ right ≠ tree := by
  have leftPositive := List.length_pos_iff.mpr left.leaves_ne_nil
  have rightPositive := List.length_pos_iff.mpr right.leaves_ne_nil
  have length : left.leaves.length + right.leaves.length ≤ tree.leaves.length := by
    rw [← List.length_append, ← leaves]
    rcases eq_or_length_lt_of_mem_subtrees inTree with same | less
    · rw [same]
    · exact Nat.le_of_lt less
  refine ⟨⟨subtrees_trans (left_mem_subtrees left right) inTree, ?_⟩,
    subtrees_trans (right_mem_subtrees left right) inTree, ?_⟩
  · rintro rfl
    omega
  · rintro rfl
    omega

variable {sub : HashTree δ}

/-- With distinct leaves, no tree is below both children of a node. -/
theorem not_mem_subtrees_right {left right : HashTree δ} (nodup : (node left right).leaves.Nodup)
    (inLeft : sub ∈ left.subtrees) : sub ∉ right.subtrees := by
  intro inRight
  obtain ⟨value, inSub⟩ := List.exists_mem_of_ne_nil _ sub.leaves_ne_nil
  exact (List.nodup_append.mp nodup).2.2 value (leaves_subset_of_mem_subtrees inLeft inSub) value
    (leaves_subset_of_mem_subtrees inRight inSub) rfl

variable {tree : HashTree δ}

/-- With distinct leaves, the parent of a node strictly below a subtree is below
that subtree. -/
theorem parent_mem_subtrees (nodup : tree.leaves.Nodup) {sub left right child : HashTree δ}
    (inTree : sub ∈ tree.subtrees) (parent : node left right ∈ tree.subtrees)
    (isChild : child = left ∨ child = right) (below : child ∈ sub.subtrees)
    (proper : child ≠ sub) : node left right ∈ sub.subtrees := by
  have childInParent : child ∈ (node left right).subtrees := by
    rcases isChild with rfl | rfl
    · exact left_mem_subtrees child right
    · exact right_mem_subtrees left child
  induction tree with
  | leaf value => cases List.mem_singleton.mp parent
  | node first second firstHypothesis secondHypothesis =>
    obtain ⟨firstNodup, secondNodup, -⟩ := List.nodup_append.mp nodup
    rcases List.mem_cons.mp inTree with rfl | inTree
    · exact parent
    -- Where the subtree is on one side, the parent cannot be on the other one.
    rcases List.mem_append.mp inTree with inFirst | inSecond
    · rcases List.mem_cons.mp parent with isTop | parentBelow
      · obtain ⟨rfl, rfl⟩ := node.inj isTop
        rcases isChild with rfl | rfl
        · exact absurd (subtrees_antisymm below inFirst) proper
        · exact absurd (self_mem_subtrees child)
            (not_mem_subtrees_right nodup (subtrees_trans below inFirst))
      · rcases List.mem_append.mp parentBelow with parentFirst | parentSecond
        · exact firstHypothesis firstNodup inFirst parentFirst
        · exact absurd (subtrees_trans childInParent parentSecond)
            (not_mem_subtrees_right nodup (subtrees_trans below inFirst))
    · rcases List.mem_cons.mp parent with isTop | parentBelow
      · obtain ⟨rfl, rfl⟩ := node.inj isTop
        rcases isChild with rfl | rfl
        · exact absurd (subtrees_trans below inSecond)
            (not_mem_subtrees_right nodup (self_mem_subtrees child))
        · exact absurd (subtrees_antisymm below inSecond) proper
      · rcases List.mem_append.mp parentBelow with parentFirst | parentSecond
        · exact absurd (subtrees_trans below inSecond)
            (not_mem_subtrees_right nodup (subtrees_trans childInParent parentFirst))
        · exact secondHypothesis secondNodup inSecond parentSecond

/-- With distinct leaves, no leaf of a subtree occurs in a sibling above it. -/
theorem not_mem_sibling_of_nodup (nodup : (sub.plug frames).leaves.Nodup) {value : δ}
    (inSub : value ∈ sub.leaves) (inFrames : frame ∈ frames) : value ∉ frame.sibling.leaves := by
  intro inSibling
  rw [leaves_plug, List.nodup_append, List.nodup_append] at nodup
  rcases mem_leaves_sibling inFrames inSibling with before | after
  · exact nodup.1.2.2 value before value inSub rfl
  · exact nodup.2.2 value (List.mem_append_right _ inSub) value after rfl

/-- A subtree is the whole tree only without frames around it. -/
theorem eq_nil_of_plug_eq_self (same : sub.plug frames = sub) : frames = [] := by
  have lengths := congrArg (fun tree => tree.leaves.length) same
  simp only [leaves_plug, List.length_append] at lengths
  refine List.eq_nil_iff_forall_not_mem.mpr fun frame inFrames => ?_
  obtain ⟨value, inSibling⟩ := List.exists_mem_of_ne_nil _ frame.sibling.leaves_ne_nil
  rcases mem_leaves_sibling inFrames inSibling with before | after
  · have := List.length_pos_of_mem before
    omega
  · have := List.length_pos_of_mem after
    omega

/-- With distinct leaves, a subtree has one place. -/
theorem frames_eq_of_plug_eq {first second : List (Frame δ)} (nodup : (sub.plug first).leaves.Nodup)
    (same : sub.plug first = sub.plug second) : first = second := by
  induction first using List.reverseRecOn generalizing second with
  | nil => exact (eq_nil_of_plug_eq_self same.symm).symm
  | append_singleton first last ih =>
    rcases List.eq_nil_or_concat second with rfl | ⟨second, other, rfl⟩
    · exact eq_nil_of_plug_eq_self same
    rw [plug_append] at nodup
    rw [plug_append, List.concat_eq_append, plug_append] at same
    obtain ⟨onLeft, sibling⟩ := last
    obtain ⟨otherOnLeft, otherSibling⟩ := other
    have inFirst : sub ∈ (sub.plug first).subtrees := (mem_subtrees_iff _ _).mpr ⟨first, rfl⟩
    have inSecond : sub ∈ (sub.plug second).subtrees := (mem_subtrees_iff _ _).mpr ⟨second, rfl⟩
    rw [List.concat_eq_append]
    cases onLeft with
    | true =>
      cases otherOnLeft with
      | true =>
        obtain ⟨rfl, sameLower⟩ := node.inj same
        rw [ih (List.nodup_append.mp nodup).2.1 sameLower]
      | false =>
        obtain ⟨rfl, rfl⟩ := node.inj same
        exact absurd inFirst (not_mem_subtrees_right nodup inSecond)
    | false =>
      cases otherOnLeft with
      | true =>
        obtain ⟨rfl, rfl⟩ := node.inj same
        exact absurd inSecond (not_mem_subtrees_right nodup inFirst)
      | false =>
        obtain ⟨sameLower, rfl⟩ := node.inj same
        rw [ih (List.nodup_append.mp nodup).1 sameLower]

variable {hashed : Set (δ × δ)} {atoms : Set δ}

theorem Within.subtree (within : Within join hashed atoms tree)
    (inTree : sub ∈ tree.subtrees) : Within join hashed atoms sub := by
  induction tree with
  | leaf value => rwa [List.mem_singleton.mp inTree]
  | node left right leftIh rightIh =>
    obtain ⟨-, withinLeft, withinRight⟩ := (within_node_iff left right).mp within
    rcases List.mem_cons.mp inTree with rfl | below
    · exact within
    · rcases List.mem_append.mp below with inLeft | inRight
      · exact leftIh withinLeft inLeft
      · exact rightIh withinRight inRight

/-- The pairs that are hashed on a climb. -/
def climbed (join : δ → δ → δ) (current : δ) : List (Bool × δ) → List (δ × δ)
  | [] => []
  | step :: steps =>
    (if step.1 then (step.2, current) else (current, step.2)) ::
      climbed join (ascend join current step) steps

theorem climbed_append (current : δ) (lower upper : List (Bool × δ)) :
    climbed join current (lower ++ upper) =
      climbed join current lower ++ climbed join (lower.foldl (ascend join) current) upper := by
  induction lower generalizing current with
  | nil => rfl
  | cons step lower ih =>
    rw [List.cons_append, climbed, climbed, ih, List.foldl_cons]
    rfl

/-- A climb that ends at the digest of a tree starts at one of its subtrees. -/
theorem exists_plug_of_climb (separated : Separated join hashed atoms)
    (within : Within join hashed atoms tree) {start : δ} {steps : List (Bool × δ)}
    (pairs : ∀ pair ∈ climbed join start steps, pair ∈ hashed)
    (reaches : steps.foldl (ascend join) start = tree.digest join) :
    ∃ (sub : HashTree δ) (frames : List (Frame δ)), sub.plug frames = tree ∧
      sub.digest join = start ∧ frames.map (Frame.step join) = steps := by
  induction steps using List.reverseRecOn generalizing tree with
  | nil => exact ⟨tree, [], rfl, reaches.symm, rfl⟩
  | append_singleton steps last ih =>
    obtain ⟨onLeft, sibling⟩ := last
    rw [climbed_append] at pairs
    rw [List.foldl_append] at reaches
    have lowerPairs := fun pair inLower => pairs pair (List.mem_append_left _ inLower)
    have topPair := pairs _ (List.mem_append_right _ List.mem_cons_self)
    cases tree with
    | leaf value =>
      -- The last hash of the climb would be an atom.
      refine absurd ((within_leaf_iff value).mp within) ?_
      rw [show value = _ from reaches.symm]
      cases onLeft with
      | true => exact separated.disjoint _ topPair
      | false => exact separated.disjoint _ topPair
    | node left right =>
      obtain ⟨inHashed, withinLeft, withinRight⟩ := (within_node_iff left right).mp within
      cases onLeft with
      | true =>
        obtain ⟨rfl, sameRight⟩ := Prod.mk.inj (separated.injective topPair inHashed reaches)
        obtain ⟨sub, frames, rfl, starts, stepsEq⟩ := ih withinRight lowerPairs sameRight
        exact ⟨sub, frames ++ [⟨true, left⟩], by simp [plug_append, up], starts,
          by rw [List.map_append, stepsEq]; rfl⟩
      | false =>
        obtain ⟨sameLeft, rfl⟩ := Prod.mk.inj (separated.injective topPair inHashed reaches)
        obtain ⟨sub, frames, rfl, starts, stepsEq⟩ := ih withinLeft lowerPairs sameLeft
        exact ⟨sub, frames ++ [⟨false, right⟩], by simp [plug_append, up], starts,
          by rw [List.map_append, stepsEq]; rfl⟩

end Places

/-! ### Renamed leaves -/

section Renaming

variable {δ : Type}

/-- The same tree over other leaves. -/
def map (rename : δ → δ) : HashTree δ → HashTree δ
  | leaf value => leaf (rename value)
  | node left right => node (left.map rename) (right.map rename)

theorem leaves_map (rename : δ → δ) (tree : HashTree δ) :
    (tree.map rename).leaves = tree.leaves.map rename := by
  induction tree with
  | leaf value => rfl
  | node left right leftIh rightIh =>
    simp [map, leaves, leftIh, rightIh]

variable {tree : HashTree δ}

theorem map_congr {rename other : δ → δ}
    (same : ∀ value ∈ tree.leaves, rename value = other value) :
    tree.map rename = tree.map other := by
  induction tree with
  | leaf value => simp [map, same value (by simp [leaves])]
  | node left right leftIh rightIh =>
    rw [map, map, leftIh fun value inLeft => same value (by simp [leaves, inLeft]),
      rightIh fun value inRight => same value (by simp [leaves, inRight])]

@[simp]
theorem map_id (tree : HashTree δ) : tree.map id = tree := by
  induction tree with
  | leaf value => rfl
  | node left right leftIh rightIh => simp [map, leftIh, rightIh]

theorem map_eq_self {rename : δ → δ}
    (same : ∀ value ∈ tree.leaves, rename value = value) : tree.map rename = tree :=
  (map_congr same).trans (map_id tree)

/-- The same frame over other leaves. -/
def Frame.map (rename : δ → δ) (frame : Frame δ) : Frame δ :=
  ⟨frame.onLeft, frame.sibling.map rename⟩

theorem map_up (rename : δ → δ) (tree : HashTree δ) (frame : Frame δ) :
    (tree.up frame).map rename = (tree.map rename).up (frame.map rename) := by
  cases onLeft : frame.onLeft <;> simp [up, Frame.map, map, onLeft]

theorem map_plug (rename : δ → δ) (tree : HashTree δ) (frames : List (Frame δ)) :
    (tree.plug frames).map rename = (tree.map rename).plug (frames.map (Frame.map rename)) := by
  induction frames generalizing tree with
  | nil => rfl
  | cons frame frames ih =>
    rw [plug_cons, ih, map_up, List.map_cons, plug_cons]

end Renaming

end HashTree

end MultiVac.Lib
