import Mathlib.Tactic

/-!
# Counting and quorums

Counts over disjoint conditions add up, and a list of items with pairwise
different labels supplies as many labels as it has items. Two quorums among
fewer than twice the threshold of members have a member in common.
-/

namespace MultiVac.Lib

variable {α : Type*} {τ : Type*}

/-- Counts of two conditions that exclude each other add up. -/
theorem countP_or_of_disjoint (items : List α) (first second : α → Bool)
    (disjoint : ∀ item, first item = true → second item = false) :
    (items.countP fun item => first item || second item) =
      items.countP first + items.countP second := by
  induction items with
  | nil => rfl
  | cons head tail ih =>
    simp only [List.countP_cons, ih]
    cases firstHolds : first head with
    | false => cases second head <;> simp [Nat.add_assoc]
    | true =>
      rw [disjoint head firstHolds]
      simp
      omega

/-- Counting the fibres of an injective family one by one counts their union. -/
theorem sum_countP_fibres [DecidableEq τ] (items : List α) (keep : α → Bool) (tag : α → τ)
    (fibre : ℕ → τ) (injective : Function.Injective fibre) (bound : ℕ) :
    ((List.range bound).map fun index =>
        items.countP fun item => keep item && decide (tag item = fibre index)).sum =
      items.countP fun item =>
        keep item && decide (∃ index < bound, tag item = fibre index) := by
  induction bound with
  | zero => simp
  | succ bound ih =>
    rw [List.range_succ, List.map_append, List.sum_append, ih,
      List.map_singleton, List.sum_singleton, ← countP_or_of_disjoint]
    · apply List.countP_congr
      intro item _
      simp only [Bool.or_eq_true, Bool.and_eq_true, decide_eq_true_eq,
        Order.lt_add_one_iff, Nat.le_iff_lt_or_eq]
      constructor
      · rintro (⟨kept, index, indexBound, tagEqual⟩ | ⟨kept, tagEqual⟩)
        · exact ⟨kept, index, Or.inl indexBound, tagEqual⟩
        · exact ⟨kept, bound, Or.inr rfl, tagEqual⟩
      · rintro ⟨kept, index, indexBound | rfl, tagEqual⟩
        · exact Or.inl ⟨kept, index, indexBound, tagEqual⟩
        · exact Or.inr ⟨kept, tagEqual⟩
    · intro item inEarlierFibre
      simp only [Bool.and_eq_true, decide_eq_true_eq] at inEarlierFibre
      obtain ⟨-, index, indexBound, tagEqual⟩ := inEarlierFibre
      have notLast : tag item ≠ fibre bound := by
        intro tagLast
        have := injective (tagEqual.symm.trans tagLast)
        omega
      simp [notLast]

/-- Items with pairwise different labels give a label set of the same size. -/
theorem card_labels_of_pairwise [DecidableEq τ] (items : List α) (label : α → τ)
    (different : items.Pairwise fun first second => label first ≠ label second) :
    (items.map label).toFinset.card = items.length := by
  rw [List.toFinset_card_of_nodup, List.length_map]
  exact List.pairwise_map.mpr different

/-- At least `threshold` different voters support something. -/
def Quorum (threshold : Int) (supports : τ → Prop) : Prop :=
  ∃ voters : Finset τ, threshold ≤ voters.card ∧ ∀ voter ∈ voters, supports voter

theorem Quorum.mono {threshold : Int} {weaker stronger : τ → Prop}
    (quorum : Quorum threshold stronger) (implied : ∀ voter, stronger voter → weaker voter) :
    Quorum threshold weaker := by
  obtain ⟨voters, enough, supported⟩ := quorum
  exact ⟨voters, enough, fun voter member => implied _ (supported voter member)⟩

theorem Quorum.exists_common [DecidableEq τ]
    {threshold : Int} {first second : τ → Prop} (members : Finset τ)
    (fewMembers : (members.card : Int) < 2 * threshold) (firstQuorum : Quorum threshold first)
    (secondQuorum : Quorum threshold second) (firstMembers : ∀ voter, first voter → voter ∈ members)
    (secondMembers : ∀ voter, second voter → voter ∈ members) :
    ∃ voter, first voter ∧ second voter := by
  obtain ⟨firstVoters, firstEnough, firstSupported⟩ := firstQuorum
  obtain ⟨secondVoters, secondEnough, secondSupported⟩ := secondQuorum
  obtain ⟨voter, inBoth⟩ := Finset.inter_nonempty_of_card_lt_card_add_card
    (fun voter member => firstMembers _ (firstSupported voter member))
    (fun voter member => secondMembers _ (secondSupported voter member)) (by omega)
  obtain ⟨inFirst, inSecond⟩ := Finset.mem_inter.mp inBoth
  exact ⟨voter, firstSupported voter inFirst, secondSupported voter inSecond⟩

end MultiVac.Lib
