import StateKeeper.Foundation.SortedKeys

/-!
# Foundation - Binary search by a key

The branchless search of a slice: halve the window, keeping its start below every
element whose key is above the target, and compare once at the end.  What it finds has
the key, on any list; on a list strictly ascending by the key it finds what a linear
search finds.

Main results:

- Theorem {lit}`bisect_eq`: where the search ends on an ascending list.
- Theorem {lit}`searchByKey_eq_find?`: the search against the linear one.
-/

namespace BinarySearch

open SortedKeys

variable {α κ : Type} [LinearOrder κ]

/-- The start of the last window of the search, from the window of {lit}`size` elements at
{lit}`base`.  A round drops half of the window, so fewer rounds than elements are enough. -/
def bisect (key : α → κ) (xs : List α) (k : κ) : Nat → Nat → Nat → Nat
  | 0, base, _ => base
  | fuel + 1, base, size =>
      if size ≤ 1 then base
      else
        let half := size / 2
        let mid := base + half
        let next := if xs[mid]?.any (fun a => k < key a) then base else mid
        bisect key xs k fuel next (size - half)

/-- The index of an element with the key. -/
def binarySearchByKey (key : α → κ) (xs : List α) (k : κ) : Option Nat :=
  let i := bisect key xs k xs.length 0 xs.length
  xs[i]?.bind fun a => if key a = k then some i else none

/-- The element at the index found. -/
def searchByKey (key : α → κ) (xs : List α) (k : κ) : Option α :=
  (binarySearchByKey key xs k).bind fun i => xs[i]?

variable {key : α → κ} {xs : List α} {k : κ}

/-! ## On any list -/

theorem getElem?_of_binarySearchByKey {i : Nat} (h : binarySearchByKey key xs k = some i) :
    ∃ a, xs[i]? = some a ∧ key a = k := by
  obtain ⟨a, ha, hkey⟩ := Option.bind_eq_some_iff.mp h
  by_cases heq : key a = k
  · rw [if_pos heq] at hkey
    cases hkey
    exact ⟨a, ha, heq⟩
  · rw [if_neg heq] at hkey
    cases hkey

/-- What the search finds is in the list and has the key. -/
theorem mem_of_searchByKey {a : α} (h : searchByKey key xs k = some a) :
    a ∈ xs ∧ key a = k := by
  obtain ⟨i, hi, ha⟩ := Option.bind_eq_some_iff.mp h
  obtain ⟨b, hb, hkey⟩ := getElem?_of_binarySearchByKey hi
  rw [ha] at hb
  cases hb
  exact ⟨List.mem_of_getElem? ha, hkey⟩

/-! ## On an ascending list -/

theorem key_lt_of_lt (h : StrictBy key xs) {i j : Nat} {a b : α} (ha : xs[i]? = some a)
    (hb : xs[j]? = some b) (hij : i < j) : key a < key b := by
  obtain ⟨hi, rfl⟩ := List.getElem?_eq_some_iff.mp ha
  obtain ⟨hj, rfl⟩ := List.getElem?_eq_some_iff.mp hb
  exact List.pairwise_iff_getElem.mp h i j hi hj hij

/-- On an ascending list the search ends at the element with the key, if its window has it. -/
theorem bisect_eq (hsorted : StrictBy key xs) {fuel base size j : Nat} {a : α}
    (hfuel : size ≤ fuel + 1) (hwindow : base + size ≤ xs.length) (hlow : base ≤ j)
    (hhigh : j < base + size) (ha : xs[j]? = some a) (hkey : key a = k) :
    bisect key xs k fuel base size = j := by
  induction fuel generalizing base size with
  | zero =>
      rw [bisect]
      omega
  | succ fuel ih =>
      rw [bisect]
      by_cases hsmall : size ≤ 1
      · rw [if_pos hsmall]
        omega
      · rw [if_neg hsmall]
        dsimp only
        have hmid : base + size / 2 < xs.length := by omega
        obtain ⟨b, hb⟩ : ∃ b, xs[base + size / 2]? = some b :=
          ⟨_, List.getElem?_eq_getElem hmid⟩
        rw [hb, Option.any_some]
        by_cases hgreater : k < key b
        · -- the element stands before the middle
          have hbefore : j < base + size / 2 := by
            by_contra hge
            rcases eq_or_lt_of_le (not_lt.mp hge) with heq | hlt
            · rw [heq, ha] at hb
              cases hb
              exact absurd hkey hgreater.ne'
            · have hascending := key_lt_of_lt hsorted hb ha hlt
              rw [hkey] at hascending
              exact lt_asymm hgreater hascending
          rw [if_pos (decide_eq_true hgreater)]
          apply ih <;> omega
        · have hafter : base + size / 2 ≤ j := by
            by_contra hlt
            have hascending := key_lt_of_lt hsorted ha hb (not_le.mp hlt)
            rw [hkey] at hascending
            exact hgreater hascending
          rw [if_neg (by simpa using hgreater)]
          apply ih <;> omega

/-- On an ascending list the binary search finds what a linear search finds. -/
theorem searchByKey_eq_find? (hsorted : StrictBy key xs) :
    searchByKey key xs k = xs.find? fun a => key a = k := by
  cases hfind : xs.find? fun a => decide (key a = k) with
  | none =>
      rw [Option.eq_none_iff_forall_ne_some]
      intro a ha
      obtain ⟨hmem, hkey⟩ := mem_of_searchByKey ha
      exact List.find?_eq_none.mp hfind a hmem (decide_eq_true hkey)
  | some a =>
      have hkey : key a = k := by simpa using List.find?_some hfind
      obtain ⟨j, hj⟩ := List.mem_iff_getElem?.mp (List.mem_of_find?_eq_some hfind)
      have hlt : j < xs.length := (List.getElem?_eq_some_iff.mp hj).1
      have hend : bisect key xs k xs.length 0 xs.length = j := by
        apply bisect_eq hsorted _ _ _ _ hj hkey <;> omega
      unfold searchByKey binarySearchByKey
      dsimp only
      rw [hend, hj, Option.bind_some, if_pos hkey, Option.bind_some]
      exact hj

-- out of order, the search may step over the key
example : searchByKey Prod.fst [(0, 9), (1, 4)] 1 = some (1, 4) ∧
    searchByKey Prod.fst [(1, 4), (0, 9)] 1 = none := by
  decide

end BinarySearch
