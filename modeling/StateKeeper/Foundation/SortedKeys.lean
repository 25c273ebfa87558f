import Mathlib

/-!
# Foundation - Lists sorted by a key

A list sorted by a key that no two of its elements share has exactly one
order.  These are the facts about such lists: when a sort is strict, when two
sorted lists are equal, and what it means that a sorted list has no equal
neighbours.

Main results:

- Theorem {lit}`adjacentDistinct_sort_iff`: no two neighbours of the sorted list
  are equal iff the list has no duplicate.
- Theorem {lit}`sortBy_strict`: sorting by distinct keys gives a strictly
  ascending list.
- Theorem {lit}`eq_of_perm_of_strict`: strictly ascending permutations of each
  other are equal.
-/

namespace SortedKeys

variable {α κ : Type} [LinearOrder κ]

/-- Sort by a key, keeping elements of one key in their order. -/
def sortBy (key : α → κ) (xs : List α) : List α :=
  xs.insertionSort fun a b => key a ≤ key b

/-- Strictly ascending by the key. -/
def StrictBy (key : α → κ) (xs : List α) : Prop :=
  xs.Pairwise fun a b => key a < key b

/-- No two neighbours of the list are equal. -/
def AdjacentDistinct (keys : List κ) : Prop :=
  keys.IsChain (· ≠ ·)

instance (keys : List κ) : Decidable (AdjacentDistinct keys) :=
  inferInstanceAs (Decidable (keys.IsChain (· ≠ ·)))

instance (key : α → κ) (xs : List α) : Decidable (StrictBy key xs) :=
  inferInstanceAs (Decidable (xs.Pairwise fun a b => key a < key b))

theorem sortBy_perm (key : α → κ) (xs : List α) : (sortBy key xs).Perm xs :=
  List.perm_insertionSort _ xs

@[simp]
theorem mem_sortBy {key : α → κ} {xs : List α} {x : α} : x ∈ sortBy key xs ↔ x ∈ xs :=
  (sortBy_perm key xs).mem_iff

@[simp]
theorem sortBy_eq_nil {key : α → κ} {xs : List α} : sortBy key xs = [] ↔ xs = [] := by
  rw [← List.length_eq_zero_iff, (sortBy_perm key xs).length_eq, List.length_eq_zero_iff]

theorem sortBy_pairwise_le (key : α → κ) (xs : List α) :
    (sortBy key xs).Pairwise fun a b => key a ≤ key b := by
  have : Std.Total fun a b : α => key a ≤ key b := ⟨fun a b => le_total _ _⟩
  have : IsTrans α fun a b => key a ≤ key b := ⟨fun a b c => le_trans⟩
  exact List.pairwise_insertionSort _ xs

/-- Sorting by distinct keys gives a strictly ascending list. -/
theorem sortBy_strict {key : α → κ} {xs : List α} (h : (xs.map key).Nodup) :
    StrictBy key (sortBy key xs) := by
  have hnodup : ((sortBy key xs).map key).Nodup :=
    ((sortBy_perm key xs).map key).nodup_iff.mpr h
  have hne : (sortBy key xs).Pairwise fun a b => key a ≠ key b := List.pairwise_map.mp hnodup
  exact ((sortBy_pairwise_le key xs).and hne).imp fun h => lt_of_le_of_ne h.1 h.2

theorem StrictBy.nodup_map {key : α → κ} {xs : List α} (h : StrictBy key xs) :
    (xs.map key).Nodup :=
  List.pairwise_map.mpr (h.imp fun hlt => ne_of_lt hlt)

/-- Two strictly ascending lists that are permutations of each other are equal. -/
theorem eq_of_perm_of_strict {key : α → κ} {xs ys : List α} (hx : StrictBy key xs)
    (hy : StrictBy key ys) (h : xs.Perm ys) : xs = ys := by
  refine h.eq_of_pairwise ?_ hx hy
  intro a b _ _ hab hba
  exact absurd (hab.trans hba) (lt_irrefl _)

/-- Sorting a strictly ascending list changes nothing. -/
theorem sortBy_eq_self {key : α → κ} {xs : List α} (h : StrictBy key xs) :
    sortBy key xs = xs :=
  eq_of_perm_of_strict (sortBy_strict h.nodup_map) h (sortBy_perm key xs)

theorem StrictBy.filter {key : α → κ} {xs : List α} (h : StrictBy key xs) (p : α → Bool) :
    StrictBy key (xs.filter p) :=
  List.Pairwise.filter p h

omit [LinearOrder κ] in
/-- Elements of a list with distinct keys that share a key are one element. -/
theorem eq_of_key_eq {key : α → κ} {xs : List α} (h : (xs.map key).Nodup) {a b : α}
    (ha : a ∈ xs) (hb : b ∈ xs) (hab : key a = key b) : a = b :=
  List.inj_on_of_nodup_map h ha hb hab

/-- A weakly ascending list without equal neighbours is strictly ascending. -/
theorem strict_of_adjacentDistinct {keys : List κ} (hle : keys.Pairwise (· ≤ ·))
    (h : AdjacentDistinct keys) : keys.Pairwise (· < ·) := by
  rw [← List.isChain_iff_pairwise] at hle ⊢
  induction keys with
  | nil => exact .nil
  | cons a keys ih =>
      cases keys with
      | nil => exact .singleton a
      | cons b keys =>
          rw [AdjacentDistinct, List.isChain_cons_cons] at h
          rw [List.isChain_cons_cons] at hle ⊢
          exact ⟨lt_of_le_of_ne hle.1 h.1, ih hle.2 h.2⟩

/-- The sorted list has no equal neighbours iff the list has no duplicate. -/
theorem adjacentDistinct_sort_iff {keys : List κ} :
    AdjacentDistinct (sortBy id keys) ↔ keys.Nodup := by
  have hle : (sortBy id keys).Pairwise (· ≤ ·) := sortBy_pairwise_le id keys
  constructor
  · intro h
    have hlt := strict_of_adjacentDistinct hle h
    exact (sortBy_perm id keys).nodup_iff.mp (hlt.imp fun h => ne_of_lt h)
  · intro h
    have hnodup : (sortBy id keys).Nodup := (sortBy_perm id keys).nodup_iff.mpr h
    exact List.Pairwise.isChain hnodup

/-- Sorting identifies permutations when the keys are distinct. -/
theorem sortBy_congr_perm {key : α → κ} {xs ys : List α} (hnodup : (xs.map key).Nodup)
    (h : xs.Perm ys) : sortBy key xs = sortBy key ys := by
  have hy : (ys.map key).Nodup := (h.map key).nodup_iff.mp hnodup
  exact eq_of_perm_of_strict (sortBy_strict hnodup) (sortBy_strict hy)
    (((sortBy_perm key xs).trans h).trans (sortBy_perm key ys).symm)

/-- Lists of the same elements find the same element when only one can be found. -/
theorem find?_of_mem_iff {p : α → Bool} {xs ys : List α}
    (hmem : ∀ x, x ∈ xs ↔ x ∈ ys)
    (hone : ∀ x ∈ xs, p x = true → ∀ y ∈ xs, p y = true → x = y) : xs.find? p = ys.find? p := by
  cases hx : xs.find? p with
  | none =>
      symm
      rw [List.find?_eq_none] at hx ⊢
      intro y hy
      exact hx y ((hmem y).mpr hy)
  | some x =>
      have hfound := List.find?_some hx
      have hin := List.mem_of_find?_eq_some hx
      have hsome : (ys.find? p).isSome := List.find?_isSome.mpr ⟨x, (hmem x).mp hin, hfound⟩
      obtain ⟨y, hy⟩ := Option.isSome_iff_exists.mp hsome
      rw [hy, hone x hin hfound y ((hmem y).mpr (List.mem_of_find?_eq_some hy))
        (List.find?_some hy)]

omit [LinearOrder κ] in
/-- A search that only one key can satisfy finds the same element in any order. -/
theorem find?_of_perm {key : α → κ} {p : α → Bool} {k : κ} (hp : ∀ x, p x = true → key x = k)
    {xs ys : List α} (hnodup : (xs.map key).Nodup) (h : xs.Perm ys) : ys.find? p = xs.find? p := by
  symm
  apply find?_of_mem_iff
  · intro x
    exact h.mem_iff
  · intro x hx hfound y hy hfound'
    exact eq_of_key_eq hnodup hx hy ((hp x hfound).trans (hp y hfound').symm)

omit [LinearOrder κ] in
/-- A search that only one key can satisfy finds in a longer list what it found in a part. -/
theorem find?_of_subset {key : α → κ} {p : α → Bool} {k : κ} (hp : ∀ x, p x = true → key x = k)
    {xs ys : List α} (hnodup : (ys.map key).Nodup) (h : xs ⊆ ys) {x : α}
    (hx : xs.find? p = some x) : ys.find? p = some x := by
  have hfound := List.find?_some hx
  have hin := h (List.mem_of_find?_eq_some hx)
  have hsome : (ys.find? p).isSome := List.find?_isSome.mpr ⟨x, hin, hfound⟩
  obtain ⟨y, hy⟩ := Option.isSome_iff_exists.mp hsome
  rw [hy, eq_of_key_eq hnodup (List.mem_of_find?_eq_some hy) hin
    ((hp y (List.find?_some hy)).trans (hp x hfound).symm)]

/-- The last element of a list of equal elements is the same in any order. -/
theorem getLast?_of_perm {xs ys : List α} (hsame : ∀ x ∈ xs, ∀ y ∈ xs, x = y) (h : xs.Perm ys) :
    xs.getLast? = ys.getLast? := by
  cases hx : xs.getLast? with
  | none =>
      rw [List.getLast?_eq_none_iff] at hx
      rw [hx] at h
      rw [List.nil_perm.mp h]
      rfl
  | some x =>
      cases hy : ys.getLast? with
      | none =>
          rw [List.getLast?_eq_none_iff] at hy
          rw [hy] at h
          rw [List.perm_nil.mp h] at hx
          cases hx
      | some y =>
          rw [hsame x (List.mem_of_getLast? hx) y (h.mem_iff.mpr (List.mem_of_getLast? hy))]

omit [LinearOrder κ] in
/-- A list of at most one element has one order. -/
theorem eq_of_perm_of_length {xs ys : List α} (h : xs.Perm ys) (hlen : ys.length ≤ 1) :
    xs = ys := by
  match ys with
  | [] => exact h.eq_nil
  | [y] => exact List.perm_singleton.mp h
  | y :: z :: rest => simp at hlen

/-! ## Removing equal neighbours -/

section Dedup

variable {β : Type} [DecidableEq β]

/-- {lit}`Vec::dedup`: drop an element that equals its left neighbour. -/
def dedupAdjacent : List β → List β
  | a :: b :: rest => if a = b then dedupAdjacent (b :: rest) else a :: dedupAdjacent (b :: rest)
  | xs => xs

@[simp]
theorem mem_dedupAdjacent {xs : List β} {x : β} : x ∈ dedupAdjacent xs ↔ x ∈ xs := by
  induction xs using dedupAdjacent.induct with
  | case1 b rest ih =>
      rw [dedupAdjacent, if_pos rfl, ih]
      simp
  | case2 a b rest hab ih =>
      rw [dedupAdjacent, if_neg hab]
      simp only [List.mem_cons] at ih ⊢
      rw [ih]
  | case3 xs h =>
      cases xs with
      | nil => rfl
      | cons a rest =>
          cases rest with
          | nil => rfl
          | cons b rest => exact absurd rfl (h a b rest)

theorem dedupAdjacent_eq_self {xs : List β} (h : xs.IsChain (· ≠ ·)) : dedupAdjacent xs = xs := by
  induction xs using dedupAdjacent.induct with
  | case1 b rest ih => exact absurd rfl (List.isChain_cons_cons.mp h).1
  | case2 a b rest hab ih =>
      rw [dedupAdjacent, if_neg hab, ih (List.isChain_cons_cons.mp h).2]
  | case3 xs h' =>
      cases xs with
      | nil => rfl
      | cons a rest =>
          cases rest with
          | nil => rfl
          | cons b rest => exact absurd rfl (h' a b rest)

/-- A weakly ascending list loses every repeat. -/
theorem dedupAdjacent_nodup [LinearOrder β] {xs : List β} (h : xs.Pairwise (· ≤ ·)) :
    (dedupAdjacent xs).Nodup := by
  induction xs using dedupAdjacent.induct with
  | case1 b rest ih =>
      rw [dedupAdjacent, if_pos rfl]
      exact ih (List.pairwise_cons.mp h).2
  | case2 a b rest hab ih =>
      rcases List.pairwise_cons.mp h with ⟨hfirst, hrest⟩
      rw [dedupAdjacent, if_neg hab, List.nodup_cons, mem_dedupAdjacent]
      refine ⟨?_, ih hrest⟩
      intro hmem
      have hlt : a < b := lt_of_le_of_ne (hfirst b List.mem_cons_self) hab
      rcases List.mem_cons.mp hmem with rfl | hmem
      · exact hab rfl
      · exact absurd ((List.pairwise_cons.mp hrest).1 a hmem) (not_le.mpr hlt)
  | case3 xs h' =>
      cases xs with
      | nil => exact List.nodup_nil
      | cons a rest =>
          cases rest with
          | nil => exact List.nodup_singleton a
          | cons b rest => exact absurd rfl (h' a b rest)

/-- Sorted by a key that no other element shares with it, an element loses every repeat. -/
theorem count_dedupAdjacent_sortBy {key : β → κ} {xs : List β} {x : β}
    (halone : ∀ y ∈ xs, key y = key x → y = x) :
    (dedupAdjacent (sortBy key xs)).count x ≤ 1 := by
  have hmem : ∀ y ∈ sortBy key xs, key y = key x → y = x :=
    fun y hy => halone y (mem_sortBy.mp hy)
  have hle := sortBy_pairwise_le key xs
  generalize sortBy key xs = ys at hmem hle ⊢
  induction ys using dedupAdjacent.induct with
  | case1 b rest ih =>
      rw [dedupAdjacent, if_pos rfl]
      apply ih
      · intro y hy
        exact hmem y (List.mem_cons_of_mem _ hy)
      · exact (List.pairwise_cons.mp hle).2
  | case2 a b rest hab ih =>
      obtain ⟨hfirst, hrest⟩ := List.pairwise_cons.mp hle
      have hlater := ih (fun y hy => hmem y (List.mem_cons_of_mem _ hy)) hrest
      rw [dedupAdjacent, if_neg hab]
      by_cases hax : a = x
      · subst hax
        have hnone : a ∉ dedupAdjacent (b :: rest) := by
          rw [mem_dedupAdjacent]
          intro ha
          -- a repeat further on would force the neighbour's key too
          have hb : key b = key a := by
            apply le_antisymm _ (hfirst b List.mem_cons_self)
            rcases List.mem_cons.mp ha with rfl | ha
            · exact le_rfl
            · exact (List.pairwise_cons.mp hrest).1 a ha
          have hsame := hmem b (List.mem_cons_of_mem _ List.mem_cons_self) hb
          exact hab hsame.symm
        rw [List.count_cons_self, List.count_eq_zero_of_not_mem hnone]
      · rw [List.count_cons_of_ne hax]
        exact hlater
  | case3 ys h' =>
      cases ys with
      | nil => simp [dedupAdjacent]
      | cons a rest =>
          cases rest with
          | nil => exact List.count_le_length
          | cons b rest => exact absurd rfl (h' a b rest)

/-- Sorting by a key that tells the elements apart leaves every repeat to its neighbour. -/
theorem dedupAdjacent_sortBy_nodup {key : β → κ} {xs : List β}
    (hinj : ∀ a ∈ xs, ∀ b ∈ xs, key a = key b → a = b) :
    (dedupAdjacent (sortBy key xs)).Nodup := by
  rw [List.nodup_iff_count_le_one]
  intro x
  by_cases hx : x ∈ xs
  · apply count_dedupAdjacent_sortBy
    intro y hy hkey
    exact hinj y hy x hx hkey
  · rw [List.count_eq_zero_of_not_mem]
    · exact Nat.zero_le 1
    · rw [mem_dedupAdjacent, mem_sortBy]
      exact hx

end Dedup

/-- Lists without duplicates, tagged with distinct keys, concatenate without duplicates. -/
theorem nodup_flatMap_tagged {ι κ : Type} {key : ι → κ} {items : ι → List α} {xs : List ι}
    (hkeys : (xs.map key).Nodup) (hitems : ∀ x ∈ xs, (items x).Nodup) :
    (xs.flatMap fun x => (items x).map fun a => (key x, a)).Nodup := by
  refine List.nodup_flatMap.mpr ⟨fun x hx => ?_, ?_⟩
  · exact (hitems x hx).map fun a b h => (Prod.mk.inj h).2
  · rw [List.Nodup, List.pairwise_map] at hkeys
    refine hkeys.imp fun {x y} hne => ?_
    intro s hsx hsy
    rcases List.mem_map.mp hsx with ⟨a, _, rfl⟩
    rcases List.mem_map.mp hsy with ⟨b, _, hsame⟩
    exact hne (Prod.mk.inj hsame).1.symm

/-! ## Counting -/

/-- Over distinct keys, at most one element has a given key. -/
theorem countP_key_le_one {κ : Type} [DecidableEq κ] {key : α → κ} {xs : List α}
    (h : (xs.map key).Nodup) (k : κ) : xs.countP (fun x => key x = k) ≤ 1 := by
  have hcount := List.nodup_iff_count_le_one.mp h k
  rw [List.count_eq_countP, List.countP_map] at hcount
  refine le_trans (le_of_eq (List.countP_congr fun x _ => ?_)) hcount
  simp

/-- Two different elements that each contribute a hit make two hits. -/
theorem two_le_countP_flatMap {β : Type} {p : β → Bool} {f : α → List β} {xs : List α} {a b : α}
    (ha : a ∈ xs) (hb : b ∈ xs) (hne : a ≠ b) (hfa : ∃ y ∈ f a, p y = true)
    (hfb : ∃ y ∈ f b, p y = true) : 2 ≤ (xs.flatMap f).countP p := by
  rcases List.append_of_mem ha with ⟨front, back, rfl⟩
  have hother : b ∈ front ++ back := by
    simp only [List.mem_append, List.mem_cons] at hb ⊢
    rcases hb with h | rfl | h
    · exact .inl h
    · exact absurd rfl hne
    · exact .inr h
  have hone : 0 < (f a).countP p := List.countP_pos_iff.mpr hfa
  have htwo : 0 < ((front ++ back).flatMap f).countP p := by
    rcases hfb with ⟨y, hy, hp⟩
    exact List.countP_pos_iff.mpr ⟨y, List.mem_flatMap.mpr ⟨b, hother, hy⟩, hp⟩
  rw [List.flatMap_append, List.countP_append] at htwo
  rw [List.flatMap_append, List.flatMap_cons, List.countP_append, List.countP_append]
  omega

end SortedKeys
