import Mathlib.Data.Nat.Digits.Lemmas
import MultiVac.Lib.HashTree

/-!
# Compact trees

The shape of a binary tree that grows at its right end: the left child of every
node holds the largest power of two below the number of leaves. The leaves
determine such a tree. A new leaf is joined with the last perfect subtree, which
is found from the exponent of two in the number of leaves.
-/

namespace MultiVac.Lib

/-- The number of one bits. -/
def popcount (number : Nat) : Nat := (Nat.digits 2 number).count 1

theorem popcount_double (number : Nat) : popcount (2 * number) = popcount number := by
  rcases Nat.eq_zero_or_pos number with rfl | positive
  · rfl
  · have digits := Nat.digits_base_mul (b := 2) (by decide) positive
    simp [popcount, digits]

theorem popcount_double_add_one (number : Nat) :
    popcount (2 * number + 1) = popcount number + 1 := by
  have digits := Nat.digits_add 2 (by decide) 1 number (by decide) (.inl one_ne_zero)
  rw [popcount, Nat.add_comm, digits]
  simp [popcount]

variable {exponent number : Nat}

/-- A power of two above a number adds one bit. -/
theorem popcount_two_pow_add (smaller : number < 2 ^ exponent) :
    popcount (2 ^ exponent + number) = popcount number + 1 := by
  induction exponent generalizing number with
  | zero =>
    obtain rfl : number = 0 := by omega
    decide
  | succ exponent ih =>
    rw [pow_succ] at smaller ⊢
    obtain ⟨half, rfl | rfl⟩ := Nat.even_or_odd' number
    · rw [show 2 ^ exponent * 2 + 2 * half = 2 * (2 ^ exponent + half) by ring, popcount_double,
        popcount_double, ih (by omega)]
    · rw [show 2 ^ exponent * 2 + (2 * half + 1) = 2 * (2 ^ exponent + half) + 1 by ring,
        popcount_double_add_one, popcount_double_add_one, ih (by omega)]

theorem popcount_two_pow_sub_one (exponent : Nat) : popcount (2 ^ exponent - 1) = exponent := by
  induction exponent with
  | zero => decide
  | succ exponent ih =>
    have positive := Nat.two_pow_pos exponent
    rw [pow_succ, show 2 ^ exponent * 2 - 1 = 2 * (2 ^ exponent - 1) + 1 by omega,
      popcount_double_add_one, ih]

theorem popcount_pos {number : Nat} (positive : 0 < number) : 0 < popcount number := by
  induction number using Nat.strong_induction_on with
  | h number ih =>
    obtain ⟨half, rfl | rfl⟩ := Nat.even_or_odd' number
    · rw [popcount_double]
      exact ih half (by omega) (by omega)
    · rw [popcount_double_add_one]
      exact Nat.succ_pos _

/-- The bits of the number before, from the exponent of two in a number. -/
theorem popcount_pred (divides : 2 ^ exponent ∣ number) (maximal : ¬ 2 ^ (exponent + 1) ∣ number) :
    popcount (number - 1) + 1 = popcount number + exponent := by
  induction exponent generalizing number with
  | zero =>
    obtain ⟨half, rfl | rfl⟩ := Nat.even_or_odd' number
    · exact absurd (Nat.dvd_mul_right 2 half) maximal
    · rw [Nat.add_sub_cancel, popcount_double, popcount_double_add_one]
  | succ exponent ih =>
    obtain ⟨half, rfl⟩ : 2 ∣ number := (Dvd.intro_left _ rfl).trans divides
    rw [pow_succ', Nat.mul_dvd_mul_iff_left two_pos] at divides maximal
    have positive : 0 < half := Nat.pos_of_ne_zero fun isZero => maximal (isZero ▸ dvd_zero _)
    have lower := ih divides maximal
    rw [show 2 * half - 1 = 2 * (half - 1) + 1 by omega, popcount_double_add_one,
      popcount_double]
    omega

namespace HashTree

variable {δ : Type}

/-- The number of leaves. -/
def count (tree : HashTree δ) : Nat := tree.leaves.length

@[simp]
theorem count_leaf (value : δ) : (leaf value).count = 1 := rfl

@[simp]
theorem count_node (left right : HashTree δ) :
    (node left right).count = left.count + right.count := List.length_append

theorem count_pos (tree : HashTree δ) : 0 < tree.count :=
  List.length_pos_iff.mpr tree.leaves_ne_nil

/-- The tree with other trees in the place of its leaves. -/
def graft : HashTree δ → List (HashTree δ) → HashTree δ
  | leaf value, units => units.headD (leaf value)
  | node left right, units =>
    node (left.graft (units.take left.count)) (right.graft (units.drop left.count))

variable {tree : HashTree δ} {units : List (HashTree δ)} {join : δ → δ → δ}

theorem length_of_map_digest
    (same : units.map (digest join) = tree.leaves) : units.length = tree.count := by
  rw [count, ← same, List.length_map]

/-- The digests of the children of a node, where the digests of trees are its leaves. -/
theorem map_digest_node {left right : HashTree δ}
    (same : units.map (digest join) = (node left right).leaves) :
    (units.take left.count).map (digest join) = left.leaves ∧
      (units.drop left.count).map (digest join) = right.leaves := by
  rw [List.map_take, List.map_drop, same, leaves, count]
  exact ⟨List.take_left, List.drop_left⟩

/-- Trees with the digests of the leaves keep the digest of the tree. -/
theorem digest_graft (same : units.map (digest join) = tree.leaves) :
    (tree.graft units).digest join = tree.digest join := by
  induction tree generalizing units with
  | leaf value =>
    obtain ⟨unit, rfl, isValue⟩ := List.map_eq_singleton_iff.mp same
    exact isValue
  | node left right leftIh rightIh =>
    obtain ⟨sameLeft, sameRight⟩ := map_digest_node same
    rw [graft, digest, leftIh sameLeft, rightIh sameRight, digest]

theorem leaves_graft (enough : units.length = tree.count) :
    (tree.graft units).leaves = units.flatMap leaves := by
  induction tree generalizing units with
  | leaf value =>
    obtain ⟨unit, rfl⟩ := List.length_eq_one_iff.mp enough
    simp [graft]
  | node left right leftIh rightIh =>
    rw [count_node] at enough
    rw [graft, leaves, leftIh (by rw [List.length_take]; omega),
      rightIh (by rw [List.length_drop]; omega), ← List.flatMap_append,
      List.take_append_drop]

/-- The pairs of a tree with other trees in the place of its leaves are those of the
tree and those of the other trees. -/
theorem mem_pairs_graft (same : units.map (digest join) = tree.leaves) {pair : δ × δ}
    (inPairs : pair ∈ (tree.graft units).pairs join) :
    pair ∈ tree.pairs join ∨ ∃ unit ∈ units, pair ∈ unit.pairs join := by
  induction tree generalizing units with
  | leaf value =>
    obtain ⟨unit, rfl, _⟩ := List.map_eq_singleton_iff.mp same
    exact .inr ⟨unit, List.mem_singleton_self unit, inPairs⟩
  | node left right leftIh rightIh =>
    obtain ⟨sameLeft, sameRight⟩ := map_digest_node same
    rw [graft, pairs, digest_graft sameLeft, digest_graft sameRight] at inPairs
    rw [pairs]
    rcases List.mem_cons.mp inPairs with rfl | below
    · exact .inl List.mem_cons_self
    · rcases List.mem_append.mp below with inLeft | inRight
      · rcases leftIh sameLeft inLeft with inTree | ⟨unit, inUnits, inUnit⟩
        · exact .inl (by simp [inTree])
        · exact .inr ⟨unit, List.mem_of_mem_take inUnits, inUnit⟩
      · rcases rightIh sameRight inRight with inTree | ⟨unit, inUnits, inUnit⟩
        · exact .inl (by simp [inTree])
        · exact .inr ⟨unit, List.mem_of_mem_drop inUnits, inUnit⟩

/-- The left child of every node holds the largest power of two below the number
of leaves. -/
def Compact : HashTree δ → Prop
  | leaf _ => True
  | node left right =>
    left.Compact ∧ right.Compact ∧ ∃ exponent, left.count = 2 ^ exponent ∧ right.count ≤ 2 ^ exponent

theorem Compact.map (compact : tree.Compact) (rename : δ → δ) : (tree.map rename).Compact := by
  induction tree with
  | leaf value => trivial
  | node left right leftIh rightIh =>
    obtain ⟨leftCompact, rightCompact, exponent, leftCount, rightCount⟩ := compact
    refine ⟨leftIh leftCompact, rightIh rightCompact, exponent, ?_, ?_⟩
    · rw [count, leaves_map, List.length_map]
      exact leftCount
    · rw [count, leaves_map, List.length_map]
      exact rightCount

/-- A power of two and at most as much again determine each other. -/
theorem two_pow_add_unique {exponent other rest otherRest : Nat}
    (same : 2 ^ exponent + rest = 2 ^ other + otherRest) (positive : 0 < rest)
    (bound : rest ≤ 2 ^ exponent) (otherPositive : 0 < otherRest)
    (otherBound : otherRest ≤ 2 ^ other) : exponent = other := by
  rcases Nat.lt_trichotomy exponent other with less | equal | greater
  · have double : 2 ^ (exponent + 1) ≤ 2 ^ other := Nat.pow_le_pow_right (by decide) less
    rw [pow_succ] at double
    omega
  · exact equal
  · have double : 2 ^ (other + 1) ≤ 2 ^ exponent := Nat.pow_le_pow_right (by decide) greater
    rw [pow_succ] at double
    omega

theorem leaves_node_ne_singleton (left right : HashTree δ) (value : δ) :
    (node left right).leaves ≠ [value] := by
  intro same
  have counts := congrArg List.length same
  have leftPositive := left.count_pos
  have rightPositive := right.count_pos
  simp only [leaves, List.length_append, List.length_singleton] at counts
  simp only [count] at leftPositive rightPositive
  omega

/-- The leaves determine a compact tree. -/
theorem Compact.eq_of_leaves_eq {first second : HashTree δ} (firstCompact : first.Compact)
    (secondCompact : second.Compact) (same : first.leaves = second.leaves) : first = second := by
  induction first generalizing second with
  | leaf value =>
    cases second with
    | leaf other => exact congrArg leaf (List.singleton_inj.mp same)
    | node left right => exact absurd same.symm (leaves_node_ne_singleton left right value)
  | node left right leftIh rightIh =>
    obtain ⟨leftCompact, rightCompact, exponent, leftCount, rightCount⟩ := firstCompact
    cases second with
    | leaf other => exact absurd same (leaves_node_ne_singleton left right other)
    | node otherLeft otherRight =>
      obtain ⟨otherLeftCompact, otherRightCompact, other, otherLeftCount, otherRightCount⟩ :=
        secondCompact
      have counts : (node left right).count = (node otherLeft otherRight).count :=
        congrArg List.length same
      rw [count_node, count_node, leftCount, otherLeftCount] at counts
      obtain rfl := two_pow_add_unique counts right.count_pos rightCount otherRight.count_pos
        otherRightCount
      obtain ⟨sameLeft, sameRight⟩ :=
        List.append_inj same (show left.count = otherLeft.count by rw [leftCount, otherLeftCount])
      rw [leftIh leftCompact otherLeftCompact sameLeft,
        rightIh rightCompact otherRightCompact sameRight]

/-! ### The right spine -/

/-- The value of the last leaf. -/
def lastLeaf : HashTree δ → δ
  | leaf value => value
  | node _ right => right.lastLeaf

/-- The siblings on the way from the last leaf to the root. -/
def spine : HashTree δ → List (HashTree δ)
  | leaf _ => []
  | node left right => right.spine ++ [left]

/-- The frames of a place whose siblings are all on the left. -/
def leftFrames (siblings : List (HashTree δ)) : List (Frame δ) := siblings.map (Frame.mk true)

theorem leftFrames_append (lower upper : List (HashTree δ)) :
    leftFrames (lower ++ upper) = leftFrames lower ++ leftFrames upper := List.map_append

theorem plug_spine (tree : HashTree δ) :
    (leaf tree.lastLeaf).plug (leftFrames tree.spine) = tree := by
  induction tree with
  | leaf value => rfl
  | node left right _ rightIh =>
    rw [lastLeaf, spine, leftFrames_append, plug_append, rightIh]
    rfl

theorem spine_plug (tree : HashTree δ) (siblings : List (HashTree δ)) :
    (tree.plug (leftFrames siblings)).spine = tree.spine ++ siblings := by
  induction siblings generalizing tree with
  | nil => simp [leftFrames]
  | cons sibling siblings ih =>
    have upper : (node sibling tree).spine = tree.spine ++ [sibling] := rfl
    rw [leftFrames, List.map_cons, plug_cons, show tree.up ⟨true, sibling⟩ = node sibling tree
      from rfl, ← leftFrames, ih, upper, List.append_assoc]
    rfl

theorem lastLeaf_plug (tree : HashTree δ) (siblings : List (HashTree δ)) :
    (tree.plug (leftFrames siblings)).lastLeaf = tree.lastLeaf := by
  induction siblings generalizing tree with
  | nil => rfl
  | cons sibling siblings ih => exact ih (node sibling tree)

theorem after_leftFrames (siblings : List (HashTree δ)) : after (leftFrames siblings) = [] := by
  induction siblings with
  | nil => rfl
  | cons sibling siblings ih => simpa [leftFrames, after] using ih

theorem leaves_eq_append_lastLeaf (tree : HashTree δ) :
    ∃ earlier, tree.leaves = earlier ++ [tree.lastLeaf] := by
  refine ⟨before (leftFrames tree.spine), ?_⟩
  conv_lhs => rw [← plug_spine tree, leaves_plug, after_leftFrames, List.append_nil]
  rfl

theorem lastLeaf_eq_of_leaves {earlier : List δ} {value : δ}
    (leavesEq : tree.leaves = earlier ++ [value]) : tree.lastLeaf = value := by
  obtain ⟨others, othersEq⟩ := tree.leaves_eq_append_lastLeaf
  exact List.singleton_inj.mp (List.append_inj_right' (othersEq.symm.trans leavesEq) rfl)

variable {frames : List (Frame δ)}

/-- Nothing is to the right of the last leaf, where leaves are distinct. -/
theorem after_eq_nil_of_lastLeaf (nodup : tree.leaves.Nodup)
    (place : (leaf tree.lastLeaf).plug frames = tree) : after frames = [] := by
  by_contra more
  have parts := leaves_plug (leaf tree.lastLeaf) frames
  rw [place, leaves] at parts
  have last : tree.leaves = (before frames ++ [tree.lastLeaf] ++ (after frames).dropLast) ++
      [(after frames).getLast more] := by
    rw [List.append_assoc _ _ [_], List.dropLast_append_getLast, parts]
  have same := lastLeaf_eq_of_leaves last
  rw [parts] at nodup
  refine (List.nodup_append.mp nodup).2.2 tree.lastLeaf (by simp) tree.lastLeaf ?_ rfl
  conv => arg 2; rw [same]
  exact List.getLast_mem more

/-- The frames around the leaf at an index. -/
def framesAt : HashTree δ → Nat → List (Frame δ)
  | leaf _, _ => []
  | node left right, index =>
    if index < left.count then left.framesAt index ++ [⟨false, right⟩]
    else right.framesAt (index - left.count) ++ [⟨true, left⟩]

theorem plug_framesAt {index : Nat} {value : δ} (isLeaf : tree.leaves[index]? = some value) :
    (leaf value).plug (tree.framesAt index) = tree := by
  induction tree generalizing index with
  | leaf own =>
    obtain rfl : own = value := by
      have := List.mem_of_getElem? isLeaf
      exact (List.mem_singleton.mp this).symm
    rfl
  | node left right leftIh rightIh =>
    rw [leaves] at isLeaf
    rw [framesAt]
    split
    · next inLeft =>
      rw [List.getElem?_append_left inLeft] at isLeaf
      rw [plug_append, leftIh isLeaf]
      rfl
    · next notLeft =>
      rw [List.getElem?_append_right (Nat.le_of_not_lt notLeft), ← count] at isLeaf
      rw [plug_append, rightIh isLeaf]
      rfl

theorem framesAt_last (tree : HashTree δ) :
    tree.framesAt (tree.count - 1) = leftFrames tree.spine := by
  induction tree with
  | leaf value => rfl
  | node left right _ rightIh =>
    have positive := right.count_pos
    rw [framesAt, if_neg (by rw [count_node]; omega), count_node, spine, leftFrames_append,
      show left.count + right.count - 1 - left.count = right.count - 1 by omega, rightIh]
    rfl

theorem getElem?_lastLeaf (tree : HashTree δ) :
    tree.leaves[tree.count - 1]? = some tree.lastLeaf := by
  obtain ⟨earlier, leavesEq⟩ := tree.leaves_eq_append_lastLeaf
  rw [count, leavesEq]
  simp

/-- The last leaf of a compact tree lies as deep as there are one bits in the
number of leaves before it. -/
theorem Compact.length_spine
    (compact : tree.Compact) : tree.spine.length = popcount (tree.count - 1) := by
  induction tree with
  | leaf value => rfl
  | node left right _ rightIh =>
    obtain ⟨-, rightCompact, exponent, leftCount, rightCount⟩ := compact
    have positive := right.count_pos
    rw [spine, List.length_append, rightIh rightCompact, count_node, leftCount,
      show 2 ^ exponent + right.count - 1 = 2 ^ exponent + (right.count - 1) by omega,
      popcount_two_pow_add (by omega)]
    rfl

/-- The tree after one more leaf, which is joined with the subtree of a given
height on the right spine. -/
def grow (tree : HashTree δ) (height : Nat) (value : δ) : HashTree δ :=
  (node ((leaf tree.lastLeaf).plug (leftFrames (tree.spine.take height))) (leaf value)).plug
    (leftFrames (tree.spine.drop height))

theorem leaves_grow (tree : HashTree δ) (height : Nat) (value : δ) :
    (tree.grow height value).leaves = tree.leaves ++ [value] := by
  have parts : tree.leaves = before (leftFrames (tree.spine.drop height)) ++
        ((leaf tree.lastLeaf).plug (leftFrames (tree.spine.take height))).leaves := by
    conv_lhs =>
      rw [← plug_spine tree, ← List.take_append_drop height tree.spine, leftFrames_append,
        plug_append, leaves_plug, after_leftFrames, List.append_nil]
  rw [grow, leaves_plug, after_leftFrames, List.append_nil, parts]
  simp [leaves]

/-- Growing at the exponent of two in the number of leaves keeps a tree compact. -/
theorem Compact.grow (compact : tree.Compact) {height : Nat} (divides : 2 ^ height ∣ tree.count)
    (maximal : ¬ 2 ^ (height + 1) ∣ tree.count)
    (value : δ) : height ≤ tree.spine.length ∧ (tree.grow height value).Compact := by
  induction tree with
  | leaf last =>
    obtain rfl : height = 0 := (Nat.pow_eq_one.mp (Nat.dvd_one.mp divides)).resolve_left (by decide)
    exact ⟨le_refl _, trivial, trivial, 0, rfl, le_refl _⟩
  | node left right _ rightIh =>
    obtain ⟨leftCompact, rightCompact, exponent, leftCount, rightCount⟩ := id compact
    have positive := right.count_pos
    rw [count_node, leftCount] at divides maximal
    rcases Nat.lt_or_eq_of_le rightCount with less | full
    · -- The exponent of two in the whole number is the one in the right part.
      have lower : height < exponent := by
        by_contra notLower
        have wholeDivides : 2 ^ exponent ∣ 2 ^ exponent + right.count :=
          (Nat.pow_dvd_pow 2 (Nat.le_of_not_lt notLower)).trans divides
        have := Nat.le_of_dvd positive ((Nat.dvd_add_right (dvd_refl _)).mp wholeDivides)
        omega
      obtain ⟨inRight, rightGrown⟩ := rightIh rightCompact
        ((Nat.dvd_add_right (Nat.pow_dvd_pow 2 (Nat.le_of_lt lower))).mp divides)
        (fun rightDivides => maximal (Nat.dvd_add (Nat.pow_dvd_pow 2 lower) rightDivides))
      have grown : (node left right).grow height value = node left (right.grow height value) := by
        rw [HashTree.grow, spine, lastLeaf, List.take_append_of_le_length inRight,
          List.drop_append_of_le_length inRight, leftFrames_append, plug_append]
        rfl
      refine ⟨by simp [spine, Nat.le_succ_of_le inRight], ?_⟩
      rw [grown]
      refine ⟨leftCompact, rightGrown, exponent, leftCount, ?_⟩
      rw [count, leaves_grow, List.length_append]
      exact less
    · -- A perfect tree becomes the left child of the new root.
      rw [full, show 2 ^ exponent + 2 ^ exponent = 2 ^ (exponent + 1) by ring] at divides maximal
      have high : height = exponent + 1 := by
        apply Nat.le_antisymm
        · exact (Nat.pow_dvd_pow_iff_le_right (by decide)).mp divides
        · by_contra lower
          exact maximal (Nat.pow_dvd_pow 2 (by omega))
      have depth : (node left right).spine.length = height := by
        rw [compact.length_spine, count_node, leftCount, full,
          show 2 ^ exponent + 2 ^ exponent = 2 ^ (exponent + 1) by ring,
          popcount_two_pow_sub_one, high]
      have grown : (node left right).grow height value = node (node left right) (leaf value) := by
        rw [HashTree.grow, List.take_of_length_le (Nat.le_of_eq depth),
          List.drop_of_length_le (Nat.le_of_eq depth), plug_spine]
        rfl
      refine ⟨Nat.le_of_eq depth.symm, ?_⟩
      rw [grown]
      refine ⟨compact, trivial, height, ?_, Nat.one_le_two_pow⟩
      rw [count_node, leftCount, full, high]
      ring

/-! ### Mounted trees -/

/-- The tree after another one has been joined with the subtree at a given depth on
the right spine. -/
def mount (unit : HashTree δ) : Nat → HashTree δ → HashTree δ
  | depth + 1, node left right => node left (mount unit depth right)
  | _, tree => node tree unit

theorem leaves_mount (unit : HashTree δ) (depth : Nat) (tree : HashTree δ) :
    (mount unit depth tree).leaves = tree.leaves ++ unit.leaves := by
  induction depth generalizing tree with
  | zero => cases tree <;> simp [mount, leaves]
  | succ depth ih =>
    cases tree with
    | leaf value => simp [mount, leaves]
    | node left right => simp [mount, leaves, ih]

theorem mount_plug (left : ∀ frame ∈ frames, frame.onLeft = true) (unit tree : HashTree δ) :
    mount unit frames.length (tree.plug frames) = (node tree unit).plug frames := by
  induction frames using List.reverseRecOn with
  | nil => cases tree <;> rfl
  | append_singleton frames last ih =>
    have lastLeft : last.onLeft = true := left last (by simp)
    have lower := ih fun frame inFrames =>
      left frame (List.mem_append_left _ inFrames)
    rw [plug_append, plug_append, List.length_append]
    simp only [plug_cons, plug_nil, up, lastLeft, if_true, List.length_singleton, mount, lower]

/-- The trees that mounting one tree after the other goes through, from the number of
trees that have been mounted before. -/
def mountVisits : Nat → HashTree δ → List (HashTree δ) → List (HashTree δ)
  | _, tree, [] => [tree]
  | size, tree, unit :: units =>
    tree :: mountVisits (size + 1) (mount unit (popcount size - 1) tree) units

/-- The tree after one tree after the other has been mounted. -/
def mountAll : Nat → HashTree δ → List (HashTree δ) → HashTree δ
  | _, tree, [] => tree
  | size, tree, unit :: units => mountAll (size + 1) (mount unit (popcount size - 1) tree) units

theorem leaves_mountAll (size : Nat) (tree : HashTree δ) (units : List (HashTree δ)) :
    (mountAll size tree units).leaves = tree.leaves ++ units.flatMap leaves := by
  induction units generalizing size tree with
  | nil => simp [mountAll]
  | cons unit units ih =>
    rw [mountAll, ih, leaves_mount, List.flatMap_cons, List.append_assoc]

theorem leaves_subset_of_mem_mountVisits {size : Nat} {tree visit : HashTree δ}
    (visited : visit ∈ mountVisits size tree units) :
    visit.leaves ⊆ tree.leaves ++ units.flatMap leaves := by
  induction units generalizing size tree with
  | nil =>
    obtain rfl := List.mem_singleton.mp visited
    exact List.subset_append_left _ _
  | cons unit units ih =>
    rcases List.mem_cons.mp visited with rfl | later
    · exact List.subset_append_left _ _
    · have below := ih later
      rwa [leaves_mount, List.append_assoc, ← List.flatMap_cons] at below

theorem mountAll_mem_mountVisits (size : Nat) (tree : HashTree δ) (units : List (HashTree δ)) :
    mountAll size tree units ∈ mountVisits size tree units := by
  induction units generalizing size tree with
  | nil => exact List.mem_singleton_self _
  | cons unit units ih => exact List.mem_cons_of_mem _ (ih _ _)

end HashTree

end MultiVac.Lib
