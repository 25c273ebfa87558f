import Mathlib.Algebra.BigOperators.Group.List.Basic
import Mathlib.Tactic.Abel

/-!
# Foundation - Lists changed at one place

What a change of one entry of a list does to a total over its entries.

Main results:

- Theorem {lit}`sum_map_modify`: the total changes by that entry's part.
- Theorem {lit}`map_modify_of_eq`: a part that the change keeps is kept.
-/

namespace ListUpdate

variable {α M : Type}

/-- Changing one entry changes the total by that entry's part. -/
theorem sum_map_modify [AddCommMonoid M] (g : α → M) (f : α → α) {xs : List α} {i : Nat} {x : α}
    (h : xs[i]? = some x) :
    ((xs.modify i f).map g).sum + g x = (xs.map g).sum + g (f x) := by
  induction xs generalizing i with
  | nil => cases h
  | cons y ys ih =>
      cases i with
      | zero =>
          have hy : y = x := Option.some.inj h
          rw [List.modify_zero_cons, List.map_cons, List.map_cons, List.sum_cons, List.sum_cons, hy]
          abel
      | succ i =>
          rw [List.modify_succ_cons, List.map_cons, List.map_cons, List.sum_cons, List.sum_cons,
            add_assoc, add_assoc, ih h]

/-- A change that keeps a part of every entry keeps that part of the list. -/
theorem map_modify_of_eq {β : Type} (g : α → β) (f : α → α) (hf : ∀ x, g (f x) = g x)
    (xs : List α) (i : Nat) : (xs.modify i f).map g = xs.map g := by
  apply List.ext_getElem?
  intro j
  rw [List.getElem?_map, List.getElem?_map, List.getElem?_modify]
  cases xs[j]? with
  | none => rfl
  | some x =>
      by_cases hj : i = j
      · simp [hj, hf]
      · simp [hj]

end ListUpdate
