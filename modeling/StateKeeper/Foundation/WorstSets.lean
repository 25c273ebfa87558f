import Mathlib.Algebra.BigOperators.Group.Finset.Piecewise
import Mathlib.Algebra.Order.BigOperators.Group.Finset
import Mathlib.Data.Finset.Max

/-!
# Foundation - Worst sets of a given size

Among the sets of one size, a worst set has the largest total loss.  The first
elements of a list in descending order of loss are one.

Main results:

- Theorem {lit}`worst_of_dominates`: a set no outside element exceeds is worst.
- Theorem {lit}`worst_take`: the first elements of a descending list.
-/

namespace WorstSets

variable {ι α : Type*} [DecidableEq ι] [AddCommMonoid α] [LinearOrder α]
  [IsOrderedAddMonoid α]

/-- No set of as many elements of the universe has a larger total loss. -/
def Worst (loss : ι → α) (univ S : Finset ι) : Prop :=
  S ⊆ univ ∧ ∀ T ⊆ univ, T.card = S.card → ∑ i ∈ T, loss i ≤ ∑ i ∈ S, loss i

variable {loss : ι → α} {univ S : Finset ι}

/-- A set whose elements all lose at least what any outside element does is worst. -/
theorem worst_of_dominates (hsub : S ⊆ univ)
    (h : ∀ i ∈ S, ∀ j ∈ univ, j ∉ S → loss j ≤ loss i) : Worst loss univ S := by
  refine ⟨hsub, ?_⟩
  intro T hT hcard
  have hdiff : (T \ S).card = (S \ T).card := Finset.card_sdiff_comm hcard
  -- outside their intersection, each of S loses at least what each of T does
  have houtside : ∑ i ∈ T \ S, loss i ≤ ∑ i ∈ S \ T, loss i := by
    rcases (S \ T).eq_empty_or_nonempty with hempty | hne
    · rw [hempty, Finset.card_empty, Finset.card_eq_zero] at hdiff
      rw [hempty, hdiff]
    · rcases Finset.exists_min_image (S \ T) loss hne with ⟨i, hi, hmin⟩
      calc ∑ j ∈ T \ S, loss j ≤ (T \ S).card • loss i := by
            apply Finset.sum_le_card_nsmul
            intro j hj
            rw [Finset.mem_sdiff] at hi hj
            exact h i hi.1 j (hT hj.1) hj.2
        _ = (S \ T).card • loss i := by rw [hdiff]
        _ ≤ ∑ j ∈ S \ T, loss j := Finset.card_nsmul_le_sum _ _ _ hmin
  rw [← Finset.sum_inter_add_sum_sdiff T S loss, ← Finset.sum_inter_add_sum_sdiff S T loss,
    Finset.inter_comm S T]
  exact add_le_add_right houtside _

/-- The first elements of a list in descending order of loss are a worst set of it. -/
theorem worst_take {xs : List ι} (hsorted : xs.Pairwise fun i j => loss j ≤ loss i) (m : Nat) :
    Worst loss xs.toFinset (xs.take m).toFinset := by
  apply worst_of_dominates
  · intro i hi
    rw [List.mem_toFinset] at hi ⊢
    exact List.mem_of_mem_take hi
  · intro i hi j hj hout
    rw [List.mem_toFinset] at hi hj hout
    rw [← List.take_append_drop m xs, List.pairwise_append] at hsorted
    have hdrop : j ∈ xs.drop m := by
      rw [← List.take_append_drop m xs, List.mem_append] at hj
      exact hj.resolve_left hout
    exact hsorted.2.2 i hi j hdrop

omit [DecidableEq ι] [IsOrderedAddMonoid α] in
/-- Only the losses within the universe count. -/
theorem Worst.congr {loss' : ι → α} (hS : Worst loss univ S)
    (h : ∀ i ∈ univ, loss i = loss' i) : Worst loss' univ S := by
  refine ⟨hS.1, ?_⟩
  intro T hT hcard
  rw [← Finset.sum_congr rfl fun i hi => h i (hT hi),
    ← Finset.sum_congr rfl fun i hi => h i (hS.1 hi)]
  exact hS.2 T hT hcard

omit [DecidableEq ι] [IsOrderedAddMonoid α] in
/-- Worst sets of one size have one total loss. -/
theorem Worst.sum_eq {T : Finset ι} (hS : Worst loss univ S) (hT : Worst loss univ T)
    (hcard : T.card = S.card) : ∑ i ∈ T, loss i = ∑ i ∈ S, loss i :=
  le_antisymm (hS.2 T hT.1 hcard) (hT.2 S hS.1 hcard.symm)

end WorstSets
