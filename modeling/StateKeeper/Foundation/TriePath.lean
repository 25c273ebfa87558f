import StateKeeper.Foundation.CompactTrie

/-!
# Foundation - Paths in a compacted trie

The path of a key through a canonical trie: its siblings, root first, and the
terminal below them.  An update on one key grafts a new terminal onto the
siblings, and the graft is the canonical trie of the updated map.

Main results:

- Theorem {lit}`graft_descend`: a trie is its terminal grafted onto its path.
- Theorem {lit}`canon_graft_join`: grafting with collapse gives a canonical trie.
- Theorem {lit}`graft_join_leaf`: a leaf below a non-empty sibling needs no collapse.
- Theorem {lit}`siblings_fork`: a foreign leaf met on the way may be pushed down
  the path until it leaves it.
- Theorem {lit}`descend_eq_of_graft`: hashes that fold to a trie's hash are those of
  its path.
-/

namespace CompactTrie

open Trie

section Paths

variable {K V : Type} (bit : K → Nat → Bool) (key : K)

/-- Where the path of the key ends and the siblings met on the way, root first. -/
def descend : Nat → Trie K V → Trie K V × List (Trie K V)
  | d, .node l r =>
      if bit key d then ((descend (d + 1) r).1, l :: (descend (d + 1) r).2)
      else ((descend (d + 1) l).1, r :: (descend (d + 1) l).2)
  | _, t => (t, [])

/-- Combine a value with the siblings of a path, root first, from depth {lit}`d` on. -/
def graft {α : Type} (f : α → α → α) : Nat → List α → α → α
  | _, [], t => t
  | d, s :: rest, t =>
      if bit key d then f s (graft f (d + 1) rest t) else f (graft f (d + 1) rest t) s

/-- The entries of the trie go the way of the key at depth {lit}`d`. -/
def Follows (d : Nat) (t : Trie K V) : Prop :=
  ∀ k v, t.Mem k v → bit k d = bit key d

/-- Canonical siblings, each leaving the key's path at its own depth. -/
def Siblings : Nat → List (Trie K V) → Prop
  | _, [] => True
  | d, s :: rest =>
      Canon bit (d + 1) s ∧ (∀ k v, s.Mem k v → bit k d = !bit key d) ∧
        (∀ s' ∈ rest, Follows bit key d s') ∧ Siblings (d + 1) rest

variable {bit key}

theorem graft_append {α : Type} (f : α → α → α) (d : Nat) (xs ys : List α) (t : α) :
    graft bit key f d (xs ++ ys) t =
      graft bit key f d xs (graft bit key f (d + xs.length) ys t) := by
  induction xs generalizing d with
  | nil => rfl
  | cons s rest ih =>
      have hd : d + 1 + rest.length = d + (s :: rest).length := by
        rw [List.length_cons]
        omega
      simp only [List.cons_append, graft, ih, hd]

theorem graft_singleton {α : Type} (f : α → α → α) (d : Nat) (s t : α) :
    graft bit key f d [s] t = if bit key d then f s t else f t s := rfl

/-- Hashing a grafted trie folds the hashes of its parts. -/
theorem hash_graft {D : Type} (H : Hashing K V D) (d : Nat) (sibs : List (Trie K V))
    (t : Trie K V) :
    (graft bit key node d sibs t).hash H =
      graft bit key H.node d (sibs.map (Trie.hash H)) (t.hash H) := by
  induction sibs generalizing d with
  | nil => rfl
  | cons s rest ih =>
      simp only [List.map_cons, graft]
      split <;> simp [Trie.hash, ih]

/-- A trie is its terminal grafted onto the path down to it. -/
theorem graft_descend (bit : K → Nat → Bool) (key : K) (d : Nat) (t : Trie K V) :
    graft bit key node d (descend bit key d t).2 (descend bit key d t).1 = t := by
  induction t generalizing d with
  | empty => rfl
  | leaf k v => rfl
  | node l r ihl ihr =>
      by_cases hbit : bit key d = true
      · simp [descend, graft, hbit, ihr]
      · simp [descend, graft, hbit, ihl]

theorem descend_terminal (d : Nat) (t l r : Trie K V) : (descend bit key d t).1 ≠ node l r := by
  induction t generalizing d with
  | empty => simp [descend]
  | leaf k v => simp [descend]
  | node l r ihl ihr =>
      unfold descend
      split
      · exact ihr (d + 1)
      · exact ihl (d + 1)

/-- The entries of a grafted trie, with or without collapse. -/
theorem mem_graft {f : Trie K V → Trie K V → Trie K V}
    (hf : ∀ l r k v, (f l r).Mem k v ↔ l.Mem k v ∨ r.Mem k v) {d : Nat}
    {sibs : List (Trie K V)} {t : Trie K V} {k : K} {v : V} :
    (graft bit key f d sibs t).Mem k v ↔ (∃ s ∈ sibs, s.Mem k v) ∨ t.Mem k v := by
  induction sibs generalizing d with
  | nil => simp [graft]
  | cons s rest ih =>
      unfold graft
      split
      · rw [hf, ih]
        simp [or_assoc]
      · rw [hf, ih, or_comm]
        simp [or_assoc]

/-- The entries of a trie, along the path of a key. -/
theorem mem_descend {d : Nat} {t : Trie K V} {k : K} {v : V} :
    t.Mem k v ↔ (∃ s ∈ (descend bit key d t).2, s.Mem k v) ∨ (descend bit key d t).1.Mem k v := by
  conv_lhs => rw [← graft_descend bit key d t]
  exact mem_graft fun l r k v => mem_node

theorem siblings_descend {d : Nat} {t : Trie K V} (h : Canon bit d t) :
    Siblings bit key d (descend bit key d t).2 := by
  induction t generalizing d with
  | empty => trivial
  | leaf k v => trivial
  | node l r ihl ihr =>
      by_cases hbit : bit key d = true
      · simp only [descend, hbit, if_true]
        refine ⟨h.1, ?_, ?_, ihr h.2.1⟩
        · intro k v hm
          rw [h.2.2.1 k v hm, hbit]
          rfl
        · intro s hs k v hm
          rw [h.2.2.2.1 k v (mem_descend.mpr (.inl ⟨s, hs, hm⟩)), hbit]
      · simp only [descend, hbit]
        refine ⟨h.2.1, ?_, ?_, ihl h.1⟩
        · intro k v hm
          rw [h.2.2.2.1 k v hm, Bool.eq_false_iff.mpr hbit]
          rfl
        · intro s hs k v hm
          rw [h.2.2.1 k v (mem_descend.mpr (.inl ⟨s, hs, hm⟩)), Bool.eq_false_iff.mpr hbit]

/-- The terminal's entry agrees with the key along the path. -/
theorem descend_follows {d : Nat} {t : Trie K V} (h : Canon bit d t) {i : Nat} (hd : d ≤ i)
    (hi : i < d + (descend bit key d t).2.length) :
    Follows bit key i (descend bit key d t).1 := by
  induction t generalizing d with
  | empty =>
      simp only [descend, List.length_nil] at hi
      omega
  | leaf k v =>
      simp only [descend, List.length_nil] at hi
      omega
  | node l r ihl ihr =>
      intro k v hm
      by_cases hbit : bit key d = true
      · simp only [descend, hbit, if_true, List.length_cons] at hm hi
        rcases Nat.eq_or_lt_of_le hd with rfl | hlt
        · rw [h.2.2.2.1 k v (mem_descend.mpr (.inr hm)), hbit]
        · exact ihr h.2.1 hlt (by omega) k v hm
      · simp only [descend, hbit, Bool.false_eq_true, if_false, List.length_cons] at hm hi
        rcases Nat.eq_or_lt_of_le hd with rfl | hlt
        · rw [h.2.2.1 k v (mem_descend.mpr (.inr hm)), Bool.eq_false_iff.mpr hbit]
        · exact ihl h.1 hlt (by omega) k v hm

/-- No sibling holds the key of the path. -/
theorem Siblings.key_ne {d : Nat} {sibs : List (Trie K V)} (h : Siblings bit key d sibs)
    {s : Trie K V} (hs : s ∈ sibs) {k : K} {v : V} (hm : s.Mem k v) : k ≠ key := by
  induction sibs generalizing d with
  | nil => cases hs
  | cons s' rest ih =>
      rcases List.mem_cons.mp hs with rfl | hs'
      · intro hk
        have hbit := h.2.1 k v hm
        rw [hk] at hbit
        simp at hbit
      · exact ih h.2.2.2 hs'

/-- Each sibling's entries leave the path at some depth of it. -/
theorem Siblings.exists_leaving {d : Nat} {sibs : List (Trie K V)}
    (h : Siblings bit key d sibs) {s : Trie K V} (hs : s ∈ sibs) :
    ∃ i, d ≤ i ∧ i < d + sibs.length ∧ ∀ k v, s.Mem k v → bit k i = !bit key i := by
  induction sibs generalizing d with
  | nil => cases hs
  | cons s' rest ih =>
      rcases List.mem_cons.mp hs with rfl | hs'
      · exact ⟨d, le_rfl, by simp, h.2.1⟩
      · rcases ih h.2.2.2 hs' with ⟨i, hd, hi, hleave⟩
        refine ⟨i, by omega, ?_, hleave⟩
        rw [List.length_cons]
        omega

theorem Siblings.init {d : Nat} {xs ys : List (Trie K V)} (h : Siblings bit key d (xs ++ ys)) :
    Siblings bit key d xs := by
  induction xs generalizing d with
  | nil => trivial
  | cons s rest ih =>
      refine ⟨h.1, h.2.1, ?_, ih h.2.2.2⟩
      intro s' hs'
      exact h.2.2.1 s' (List.mem_append_left ys hs')

/-- The last sibling follows the path down to its own depth and leaves it there. -/
theorem Siblings.last {d : Nat} {init : List (Trie K V)} {s : Trie K V}
    (h : Siblings bit key d (init ++ [s])) :
    Canon bit (d + init.length + 1) s ∧
      (∀ k v, s.Mem k v → bit k (d + init.length) = !bit key (d + init.length)) ∧
      ∀ i, d ≤ i → i < d + init.length → Follows bit key i s := by
  induction init generalizing d with
  | nil =>
      refine ⟨h.1, h.2.1, ?_⟩
      intro i hd hi
      rw [List.length_nil] at hi
      omega
  | cons s' rest ih =>
      have hlen : d + (s' :: rest).length = d + 1 + rest.length := by
        rw [List.length_cons]
        omega
      rcases ih h.2.2.2 with ⟨hcanon, hleave, hfollow⟩
      rw [hlen]
      refine ⟨hcanon, hleave, ?_⟩
      intro i hd hi
      rcases Nat.eq_or_lt_of_le hd with rfl | hlt
      · exact h.2.2.1 s (by simp)
      · exact hfollow i hlt hi

/-- Siblings below a path, when they follow it down to their depth. -/
theorem Siblings.append {d : Nat} {xs ys : List (Trie K V)} (hx : Siblings bit key d xs)
    (hy : Siblings bit key (d + xs.length) ys)
    (h : ∀ s ∈ ys, ∀ i, d ≤ i → i < d + xs.length → Follows bit key i s) :
    Siblings bit key d (xs ++ ys) := by
  induction xs generalizing d with
  | nil => exact hy
  | cons s rest ih =>
      have hlen : d + (s :: rest).length = d + 1 + rest.length := by
        rw [List.length_cons]
        omega
      rw [hlen] at hy h
      refine ⟨hx.1, hx.2.1, ?_, ih hx.2.2.2 hy ?_⟩
      · intro s' hs'
        rcases List.mem_append.mp hs' with hmem | hmem
        · exact hx.2.2.1 s' hmem
        · exact h s' hmem d le_rfl (by omega)
      · intro s' hs' i hd hi
        exact h s' hs' i (by omega) hi

/-! ## Grafting with collapse -/

/-- Grafting canonical parts with collapse gives a canonical trie. -/
theorem canon_graft_join {d : Nat} {sibs : List (Trie K V)} {t : Trie K V}
    (hs : Siblings bit key d sibs) (ht : Canon bit (d + sibs.length) t)
    (hfollow : ∀ i, d ≤ i → i < d + sibs.length → Follows bit key i t) :
    Canon bit d (graft bit key join d sibs t) := by
  induction sibs generalizing d with
  | nil => exact ht
  | cons s rest ih =>
      rcases hs with ⟨hcanon, hside, hrest, hsibs⟩
      have hlen : d + (s :: rest).length = d + 1 + rest.length := by
        rw [List.length_cons]
        omega
      rw [hlen] at ht hfollow
      have hbelow := ih hsibs ht fun i hd hi => hfollow i (by omega) hi
      have hkept : Follows bit key d (graft bit key join (d + 1) rest t) := by
        intro k v hm
        rcases (mem_graft fun l r k v => mem_join).mp hm with ⟨s', hs', hm'⟩ | hm'
        · exact hrest s' hs' k v hm'
        · exact hfollow d le_rfl (by omega) k v hm'
      by_cases hbit : bit key d = true
      · simp only [graft, hbit, if_true]
        refine canon_join hcanon hbelow ?_ ?_
        · intro k v hm
          rw [hside k v hm, hbit]
          rfl
        · intro k v hm
          rw [hkept k v hm, hbit]
      · have hclear : bit key d = false := Bool.eq_false_iff.mpr hbit
        simp only [graft, hclear]
        refine canon_join hbelow hcanon ?_ ?_
        · intro k v hm
          rw [hkept k v hm, hclear]
        · intro k v hm
          rw [hside k v hm, hclear]
          rfl

/-- No collapse happens above a node. -/
theorem graft_join_node {d : Nat} {sibs : List (Trie K V)} {l r : Trie K V} :
    graft bit key join d sibs (node l r) = graft bit key node d sibs (node l r) ∧
      ∃ l' r', graft bit key node d sibs (node l r) = node l' r' := by
  induction sibs generalizing d with
  | nil => exact ⟨rfl, l, r, rfl⟩
  | cons s rest ih =>
      rcases ih (d := d + 1) with ⟨heq, l', r', hnode⟩
      unfold graft
      rw [heq, hnode]
      split
      · exact ⟨join_node_right, _, _, rfl⟩
      · exact ⟨join_node_left, _, _, rfl⟩

/-- A leaf below a non-empty sibling needs no collapse. -/
theorem graft_join_leaf {d : Nat} {sibs : List (Trie K V)} {k : K} {v : V}
    (h : sibs.getLast? ≠ some empty) :
    graft bit key join d sibs (leaf k v) = graft bit key node d sibs (leaf k v) := by
  rcases List.eq_nil_or_concat sibs with rfl | ⟨init, s, rfl⟩
  · rfl
  · have hs : s ≠ empty := by
      intro hs
      simp [hs] at h
    rw [List.concat_eq_append, graft_append, graft_append, graft_singleton, graft_singleton]
    split
    · rw [join_eq_node hs (by simp)]
      exact graft_join_node.1
    · rw [join_eq_node (by simp) hs]
      exact graft_join_node.1

/-- Above empty siblings a leaf rises unchanged. -/
theorem graft_join_empty {d n : Nat} {t : Trie K V} (ht : ∀ l r, t ≠ node l r) :
    graft bit key join d (List.replicate n empty) t = t := by
  induction n generalizing d with
  | zero => rfl
  | succ n ih =>
      rw [List.replicate_succ, graft, ih]
      cases t with
      | empty => split <;> rfl
      | leaf k v => split <;> rfl
      | node l r => exact absurd rfl (ht l r)

/-- A list ends in a run of empty tries below one that is not. -/
theorem exists_trailing_empty (sibs : List (Trie K V)) :
    ∃ init n, sibs = init ++ List.replicate n empty ∧ init.getLast? ≠ some empty := by
  induction sibs using List.reverseRecOn with
  | nil => exact ⟨[], 0, rfl, by simp⟩
  | append_singleton init s ih =>
      by_cases hs : s = empty
      · rcases ih with ⟨init', n, rfl, hlast⟩
        refine ⟨init', n + 1, ?_, hlast⟩
        rw [hs, List.replicate_succ', List.append_assoc]
      · refine ⟨init ++ [s], 0, by simp, ?_⟩
        simpa using hs

/-- The last sibling above a terminal that is no node is not empty. -/
theorem getLast?_of_canon {d : Nat} {sibs : List (Trie K V)} {t : Trie K V}
    (h : Canon bit d (graft bit key node d sibs t)) (ht : ∀ l r, t ≠ node l r) :
    sibs.getLast? ≠ some empty := by
  induction sibs generalizing d with
  | nil => simp
  | cons s rest ih =>
      cases rest with
      | nil =>
          rw [graft_singleton] at h
          intro hs
          have hs : s = empty := by simpa using hs
          split at h
          · have hjoin := h.2.2.2.2
            cases t with
            | empty => simp [hs, join] at hjoin
            | leaf k v => simp [hs, join] at hjoin
            | node l r => exact ht l r rfl
          · have hjoin := h.2.2.2.2
            cases t with
            | empty => simp [hs, join] at hjoin
            | leaf k v => simp [hs, join] at hjoin
            | node l r => exact ht l r rfl
      | cons s' rest =>
          rw [List.getLast?_cons_cons]
          unfold graft at h
          split at h
          · exact ih h.2.1
          · exact ih h.1

/-- A lone sibling leaf rises above the empty siblings over it. -/
theorem graft_join_lone_leaf {d n : Nat} {init : List (Trie K V)} {k : K} {v : V}
    (h : init.getLast? ≠ some empty) :
    graft bit key join d (init ++ List.replicate n empty ++ [leaf k v]) empty =
      graft bit key node d init (leaf k v) := by
  rw [List.append_assoc, graft_append, graft_append, graft_singleton]
  have hrise : (if bit key (d + init.length + (List.replicate n (empty : Trie K V)).length) then
      join (leaf k v) empty else join empty (leaf k v)) = leaf k v := by
    split <;> rfl
  rw [hrise, graft_join_empty (by simp), graft_join_leaf h]

/-- Below a sibling node an emptied path keeps its shape. -/
theorem graft_join_below_node {d : Nat} {init : List (Trie K V)} {l r : Trie K V} :
    graft bit key join d (init ++ [node l r]) empty =
      graft bit key node d (init ++ [node l r]) empty := by
  rw [graft_append, graft_append, graft_singleton, graft_singleton]
  split
  · exact graft_join_node.1
  · exact graft_join_node.1

/-! ## Forking a foreign leaf off the path -/

/-- A foreign leaf met at depth {lit}`d`, pushed down to the depth {lit}`j` of the
first bit on which it leaves the path. -/
theorem siblings_fork {d j : Nat} (hd : d ≤ j) {k : K} {v : V}
    (hsame : ∀ i, d ≤ i → i < j → bit k i = bit key i) (hdiff : bit k j = !bit key j) :
    Siblings bit key d (List.replicate (j - d) empty ++ [leaf k v]) := by
  refine Siblings.append ?_ ?_ ?_
  · generalize j - d = n
    clear hsame hdiff hd
    induction n generalizing d with
    | zero => trivial
    | succ n ih =>
        refine ⟨trivial, fun k v hm => absurd hm mem_empty, ?_, ih⟩
        intro s hs k v hm
        rw [List.eq_of_mem_replicate hs] at hm
        exact absurd hm mem_empty
  · rw [List.length_replicate, Nat.add_sub_cancel' hd]
    refine ⟨trivial, ?_, by simp, trivial⟩
    intro k' v' hm
    rw [hm.1]
    exact hdiff
  · intro s hs i hi hij k' v' hm
    rw [List.mem_singleton.mp hs] at hm
    rw [List.length_replicate, Nat.add_sub_cancel' hd] at hij
    rw [hm.1]
    exact hsame i hi hij

/-! ## A folded path is the trie's path -/

section Binding

variable {D : Type}

/-- The pairs that folding a path's sibling hashes over a start hash hashes. -/
def graftPairs (bit : K → Nat → Bool) (key : K) (f : D → D → D) : Nat → List D → D → List (D × D)
  | _, [], _ => []
  | d, s :: rest, start =>
      (if bit key d then (s, graft bit key f (d + 1) rest start)
        else (graft bit key f (d + 1) rest start, s)) :: graftPairs bit key f (d + 1) rest start

/-- What a sibling of a path holds and hashes, the trie holds and hashes. -/
theorem subset_of_mem_descend (H : Hashing K V D) {d : Nat} {t s : Trie K V}
    (hs : s ∈ (descend bit key d t).2) :
    s.entries ⊆ t.entries ∧ s.nodePairs H ⊆ t.nodePairs H := by
  induction t generalizing d with
  | empty => simp [descend] at hs
  | leaf k v => simp [descend] at hs
  | node l r ihl ihr =>
      have hside : s ∈ [l, r] ∨ s ∈ (descend bit key (d + 1) l).2 ∨
          s ∈ (descend bit key (d + 1) r).2 := by
        by_cases hbit : bit key d = true
        · simp only [descend, hbit, if_true, List.mem_cons] at hs
          rcases hs with rfl | hs
          · exact .inl (by simp)
          · exact .inr (.inr hs)
        · simp only [descend, hbit, Bool.false_eq_true, if_false, List.mem_cons] at hs
          rcases hs with rfl | hs
          · exact .inl (by simp)
          · exact .inr (.inl hs)
      have hleft : l.entries ⊆ (node l r).entries ∧ l.nodePairs H ⊆ (node l r).nodePairs H := by
        constructor
        · exact List.subset_append_left _ _
        · exact List.subset_cons_of_subset _ (List.subset_append_left _ _)
      have hright : r.entries ⊆ (node l r).entries ∧ r.nodePairs H ⊆ (node l r).nodePairs H := by
        constructor
        · exact List.subset_append_right _ _
        · exact List.subset_cons_of_subset _ (List.subset_append_right _ _)
      rcases hside with hs | hs | hs
      · simp only [List.mem_cons, List.not_mem_nil, or_false] at hs
        rcases hs with rfl | rfl
        · exact hleft
        · exact hright
      · exact ⟨List.Subset.trans (ihl hs).1 hleft.1, List.Subset.trans (ihl hs).2 hleft.2⟩
      · exact ⟨List.Subset.trans (ihr hs).1 hright.1, List.Subset.trans (ihr hs).2 hright.2⟩

/-- Sibling hashes that fold from an end's hash to a trie's are those of the trie's path,
and the path has that end. -/
theorem descend_eq_of_graft {H : Hashing K V D} {d : Nat} {t u : Trie K V} {ds : List D}
    (ht : ∀ l r, t ≠ node l r)
    (hs : H.Separates t.entries u.entries (graftPairs bit key H.node d ds (t.hash H))
      (u.nodePairs H))
    (h : graft bit key H.node d ds (t.hash H) = u.hash H) :
    (descend bit key d u).1 = t ∧ (descend bit key d u).2.map (Trie.hash H) = ds := by
  induction ds generalizing d u with
  | nil =>
      have htu : t = u := by
        refine Trie.eq_of_hash_eq (hs.mono (List.Subset.refl _) (List.Subset.refl _) ?_
          (List.Subset.refl _)) h
        cases t with
        | empty => exact List.Subset.refl _
        | leaf k v => exact List.Subset.refl _
        | node l r => exact absurd rfl (ht l r)
      rw [← htu]
      cases t with
      | empty => exact ⟨rfl, rfl⟩
      | leaf k v => exact ⟨rfl, rfl⟩
      | node l r => exact absurd rfl (ht l r)
  | cons s rest ih =>
      -- the outermost pair folded is one the trie's root node hashes
      have hpair : ∀ p ∈ graftPairs bit key H.node d (s :: rest) (t.hash H),
          H.node p.1 p.2 = u.hash H → ∃ l r, u = node l r ∧ p = (l.hash H, r.hash H) := by
        intro p hp heq
        cases u with
        | empty => exact absurd heq (hs.node_empty p (List.mem_append_left _ hp))
        | leaf k v => exact absurd heq (hs.node_leaf p hp (k, v) List.mem_cons_self)
        | node l r =>
            exact ⟨l, r, rfl, hs.node p hp (l.hash H, r.hash H) List.mem_cons_self heq⟩
      by_cases hbit : bit key d = true
      · simp only [graft, graftPairs, hbit, if_true] at h hpair hs
        rcases hpair _ List.mem_cons_self h with ⟨l, r, rfl, hsides⟩
        rcases Prod.mk.inj hsides with ⟨hl, hr⟩
        have hbelow := ih (hs.mono (List.Subset.refl _) (List.subset_append_right _ _)
          (List.subset_cons_self _ _)
          (List.subset_cons_of_subset _ (List.subset_append_right _ _))) hr
        simp only [descend, hbit, if_true, List.map_cons]
        exact ⟨hbelow.1, by rw [hbelow.2, hl]⟩
      · simp only [graft, graftPairs, hbit, Bool.false_eq_true, if_false] at h hpair hs
        rcases hpair _ List.mem_cons_self h with ⟨l, r, rfl, hsides⟩
        rcases Prod.mk.inj hsides with ⟨hl, hr⟩
        have hbelow := ih (hs.mono (List.Subset.refl _) (List.subset_append_left _ _)
          (List.subset_cons_self _ _)
          (List.subset_cons_of_subset _ (List.subset_append_left _ _))) hl
        simp only [descend, hbit, Bool.false_eq_true, if_false, List.map_cons]
        exact ⟨hbelow.1, by rw [hbelow.2, hr]⟩

end Binding

end Paths

end CompactTrie
