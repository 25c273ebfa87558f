import Mathlib

/-!
# Foundation - Prefix-compacted binary tries

A finite map whose keys are read bit by bit, as a binary trie in which a subtree
with one entry is that entry's leaf.  Such a trie is determined by its entries,
so an update may be computed on one path and compared with the trie of the
updated map.

Main results:

- Theorem {lit}`Canon.eq_of_mem_iff`: canonical tries with the same entries are equal.
- Theorem {lit}`build_canon`: splitting sorted entries bit by bit gives the
  canonical trie of those entries.
-/

namespace CompactTrie

/-- A binary trie with entries at its leaves. -/
inductive Trie (K V : Type) where
  | empty
  | leaf (key : K) (value : V)
  | node (left right : Trie K V)
deriving DecidableEq

namespace Trie

variable {K V : Type}

/-- The trie holds the entry. -/
def Mem (k : K) (v : V) : Trie K V → Prop
  | .empty => False
  | .leaf key value => k = key ∧ v = value
  | .node left right => left.Mem k v ∨ right.Mem k v

@[simp]
theorem mem_empty {k : K} {v : V} : ¬ (empty : Trie K V).Mem k v := id

@[simp]
theorem mem_leaf {k key : K} {v value : V} :
    (leaf key value).Mem k v ↔ k = key ∧ v = value := Iff.rfl

@[simp]
theorem mem_node {k : K} {v : V} {l r : Trie K V} :
    (node l r).Mem k v ↔ l.Mem k v ∨ r.Mem k v := Iff.rfl

/-- A node, or the lone leaf below it. -/
def join : Trie K V → Trie K V → Trie K V
  | .empty, .empty => .empty
  | .empty, .leaf k v => .leaf k v
  | .leaf k v, .empty => .leaf k v
  | l, r => .node l r

@[simp]
theorem mem_join {k : K} {v : V} {l r : Trie K V} :
    (join l r).Mem k v ↔ l.Mem k v ∨ r.Mem k v := by
  cases l <;> cases r <;> simp [join]

@[simp]
theorem join_node_right {s l r : Trie K V} : join s (node l r) = node s (node l r) := by
  cases s <;> rfl

@[simp]
theorem join_node_left {s l r : Trie K V} : join (node l r) s = node (node l r) s := by
  cases s <;> rfl

theorem join_eq_node {l r : Trie K V} (hl : l ≠ empty) (hr : r ≠ empty) :
    join l r = node l r := by
  cases l <;> cases r <;> first | rfl | contradiction

/-- Two entries below a node keep it from collapsing. -/
theorem join_eq_node_of_mem {l r : Trie K V} {k k' : K} {v v' : V} (hne : (k, v) ≠ (k', v'))
    (h : (node l r).Mem k v) (h' : (node l r).Mem k' v') : join l r = node l r := by
  cases l <;> cases r <;> simp_all [join]

end Trie

open Trie

/-- The hashes of the three shapes. -/
structure Hashing (K V D : Type) where
  empty : D
  leaf : K → V → D
  node : D → D → D

/-- The root hash of a trie. -/
def Trie.hash {K V D : Type} (H : Hashing K V D) : Trie K V → D
  | .empty => H.empty
  | .leaf k v => H.leaf k v
  | .node l r => H.node (l.hash H) (r.hash H)

section Canonical

variable {K V : Type} (bit : K → Nat → Bool)

/-- At depth {lit}`d` every node splits on the bit of its depth and no subtree
holds a lone leaf below a node. -/
def Canon : Nat → Trie K V → Prop
  | _, .empty => True
  | _, .leaf _ _ => True
  | d, .node l r =>
      Canon (d + 1) l ∧ Canon (d + 1) r ∧ (∀ k v, l.Mem k v → bit k d = false) ∧
        (∀ k v, r.Mem k v → bit k d = true) ∧ join l r = node l r

variable {bit}

theorem canon_join {d : Nat} {l r : Trie K V} (hl : Canon bit (d + 1) l)
    (hr : Canon bit (d + 1) r) (hleft : ∀ k v, l.Mem k v → bit k d = false)
    (hright : ∀ k v, r.Mem k v → bit k d = true) : Canon bit d (join l r) := by
  by_cases hnode : join l r = node l r
  · rw [hnode]
    exact ⟨hl, hr, hleft, hright, hnode⟩
  · cases l <;> cases r <;> simp_all [join, Canon]

theorem Canon.exists_mem {d : Nat} {t : Trie K V} (h : Canon bit d t) (hne : t ≠ empty) :
    ∃ k v, t.Mem k v := by
  induction t generalizing d with
  | empty => exact absurd rfl hne
  | leaf k v => exact ⟨k, v, rfl, rfl⟩
  | node l r ihl ihr =>
      by_cases hl : l = empty
      · have hr : r ≠ empty := by
          intro hr
          have hjoin := h.2.2.2.2
          simp [hl, hr, join] at hjoin
        rcases ihr h.2.1 hr with ⟨k, v, hm⟩
        exact ⟨k, v, .inr hm⟩
      · rcases ihl h.1 hl with ⟨k, v, hm⟩
        exact ⟨k, v, .inl hm⟩

/-- A canonical node holds two keys. -/
theorem Canon.exists_two_mem {d : Nat} {l r : Trie K V} (h : Canon bit d (node l r)) :
    ∃ k v k' v', (node l r).Mem k v ∧ (node l r).Mem k' v' ∧ k ≠ k' := by
  have hshape : ∀ (t : Trie K V) (d : Nat), Canon bit d t → t ≠ empty →
      (∀ k v, t ≠ leaf k v) → ∃ k v k' v', t.Mem k v ∧ t.Mem k' v' ∧ k ≠ k' := by
    intro t
    induction t with
    | empty => exact fun _ _ hne => absurd rfl hne
    | leaf k v => exact fun _ _ _ hleaf => absurd rfl (hleaf k v)
    | node l r ihl ihr =>
        intro d hc _ _
        have hjoin := hc.2.2.2.2
        by_cases hl : l = empty
        · have hr : r ≠ empty := by
            intro hr
            simp [hl, hr, join] at hjoin
          have hrl : ∀ k v, r ≠ leaf k v := by
            intro k v hr
            simp [hl, hr, join] at hjoin
          rcases ihr (d + 1) hc.2.1 hr hrl with ⟨k, v, k', v', hm, hm', hne⟩
          exact ⟨k, v, k', v', .inr hm, .inr hm', hne⟩
        · by_cases hr : r = empty
          · have hll : ∀ k v, l ≠ leaf k v := by
              intro k v hl
              simp [hl, hr, join] at hjoin
            rcases ihl (d + 1) hc.1 hl hll with ⟨k, v, k', v', hm, hm', hne⟩
            exact ⟨k, v, k', v', .inl hm, .inl hm', hne⟩
          · -- an entry on either side, told apart by the bit of this depth
            rcases hc.1.exists_mem hl with ⟨k, v, hm⟩
            rcases hc.2.1.exists_mem hr with ⟨k', v', hm'⟩
            refine ⟨k, v, k', v', .inl hm, .inr hm', ?_⟩
            intro hk
            have hbit := hc.2.2.1 k v hm
            rw [hk, hc.2.2.2.1 k' v' hm'] at hbit
            cases hbit
  exact hshape (node l r) d h (by simp) (by simp)

/-- Canonical tries with the same entries are equal. -/
theorem Canon.eq_of_mem_iff {d : Nat} {t u : Trie K V} (ht : Canon bit d t) (hu : Canon bit d u)
    (h : ∀ k v, t.Mem k v ↔ u.Mem k v) : t = u := by
  induction t generalizing d u with
  | empty =>
      by_cases hne : u = empty
      · exact hne.symm
      · rcases hu.exists_mem hne with ⟨k, v, hm⟩
        exact absurd ((h k v).mpr hm) mem_empty
  | leaf k v =>
      cases u with
      | empty => exact absurd ((h k v).mp ⟨rfl, rfl⟩) mem_empty
      | leaf k' v' =>
          have hm : k = k' ∧ v = v' := (h k v).mp ⟨rfl, rfl⟩
          rw [hm.1, hm.2]
      | node l r =>
          rcases hu.exists_two_mem with ⟨k₁, v₁, k₂, v₂, hm₁, hm₂, hne⟩
          have h₁ : k₁ = k := ((h k₁ v₁).mpr hm₁).1
          have h₂ : k₂ = k := ((h k₂ v₂).mpr hm₂).1
          exact absurd (h₁.trans h₂.symm) hne
  | node l r ihl ihr =>
      cases u with
      | empty =>
          rcases ht.exists_mem (by simp) with ⟨k, v, hm⟩
          exact absurd ((h k v).mp hm) mem_empty
      | leaf k v =>
          rcases ht.exists_two_mem with ⟨k₁, v₁, k₂, v₂, hm₁, hm₂, hne⟩
          have h₁ : k₁ = k := ((h k₁ v₁).mp hm₁).1
          have h₂ : k₂ = k := ((h k₂ v₂).mp hm₂).1
          exact absurd (h₁.trans h₂.symm) hne
      | node l' r' =>
          -- the bit of this depth sends an entry to the same side of both
          have hl : ∀ k v, l.Mem k v ↔ l'.Mem k v := by
            intro k v
            have hboth := h k v
            simp only [mem_node] at hboth
            constructor
            · intro hm
              rcases hboth.mp (.inl hm) with hm' | hm'
              · exact hm'
              · have hbit := ht.2.2.1 k v hm
                rw [hu.2.2.2.1 k v hm'] at hbit
                cases hbit
            · intro hm
              rcases hboth.mpr (.inl hm) with hm' | hm'
              · exact hm'
              · have hbit := hu.2.2.1 k v hm
                rw [ht.2.2.2.1 k v hm'] at hbit
                cases hbit
          have hr : ∀ k v, r.Mem k v ↔ r'.Mem k v := by
            intro k v
            have hboth := h k v
            simp only [mem_node] at hboth
            constructor
            · intro hm
              rcases hboth.mp (.inr hm) with hm' | hm'
              · have hbit := hu.2.2.1 k v hm'
                rw [ht.2.2.2.1 k v hm] at hbit
                cases hbit
              · exact hm'
            · intro hm
              rcases hboth.mpr (.inr hm) with hm' | hm'
              · have hbit := ht.2.2.1 k v hm'
                rw [hu.2.2.2.1 k v hm] at hbit
                cases hbit
              · exact hm'
          rw [ihl ht.1 hu.1 hl, ihr ht.2.1 hu.2.1 hr]

end Canonical

/-! ## Building from sorted entries -/

section Build

variable {K V : Type} (bit : K → Nat → Bool)

/-- The keys first differ at a bit from {lit}`d` on and before {lit}`n`, which is
clear in the first of them. -/
def BitLt (d n : Nat) (a b : K) : Prop :=
  ∃ i, d ≤ i ∧ i < n ∧ (∀ j, d ≤ j → j < i → bit a j = bit b j) ∧ bit a i = false ∧ bit b i = true

/-- Split the entries at each depth into the run with the bit clear and the rest. -/
def build : (levels : Nat) → List (K × V) → (depth : Nat) → Trie K V
  | _, [], _ => .empty
  | _, [(k, v)], _ => .leaf k v
  | 0, _ :: _ :: _, _ => .empty
  | levels + 1, entries, depth =>
      .node (build levels (entries.takeWhile fun e => !bit e.1 depth) (depth + 1))
        (build levels (entries.dropWhile fun e => !bit e.1 depth) (depth + 1))

variable {bit}

@[simp]
theorem build_nil (levels d : Nat) : build bit levels ([] : List (K × V)) d = .empty := by
  cases levels <;> rfl

@[simp]
theorem build_singleton (levels d : Nat) (e : K × V) :
    build bit levels [e] d = .leaf e.1 e.2 := by
  cases levels <;> rfl

theorem BitLt.ne {d n : Nat} {a b : K} (h : BitLt bit d n a b) : a ≠ b := by
  rcases h with ⟨i, _, _, _, ha, hb⟩
  intro hab
  rw [hab, hb] at ha
  cases ha

/-- Two keys that agree down to a depth differ below it. -/
theorem BitLt.below {d m n : Nat} {a b : K} (h : BitLt bit d n a b) (hdm : d ≤ m)
    (hagree : ∀ i, d ≤ i → i < m → bit a i = bit b i) : BitLt bit m n a b := by
  rcases h with ⟨i, hd, hn, hsame, ha, hb⟩
  have hi : m ≤ i := by
    by_contra hlt
    have hbit := hagree i hd (by omega)
    rw [ha, hb] at hbit
    cases hbit
  refine ⟨i, hi, hn, ?_, ha, hb⟩
  intro j hj hji
  exact hsame j (by omega) hji

/-- The bit of this depth never falls along the entries. -/
theorem BitLt.bit_mono {d n : Nat} {a b : K} (h : BitLt bit d n a b) (ha : bit a d = true) :
    bit b d = true := by
  rcases h with ⟨i, hd, _, hsame, hai, hbi⟩
  by_cases hi : i = d
  · rw [← hi]
    exact hbi
  · rw [← hsame d le_rfl (by omega)]
    exact ha

/-- Entries sorted on the bits from {lit}`d` on and before {lit}`n`. -/
abbrev BitSorted (bit : K → Nat → Bool) (d n : Nat) (entries : List (K × V)) : Prop :=
  entries.Pairwise fun a b => BitLt bit d n a.1 b.1

theorem takeWhile_eq_filter {d n : Nat} {entries : List (K × V)} (h : BitSorted bit d n entries) :
    (entries.takeWhile fun e => !bit e.1 d) = entries.filter fun e => !bit e.1 d := by
  induction entries with
  | nil => rfl
  | cons e rest ih =>
      rcases List.pairwise_cons.mp h with ⟨he, hrest⟩
      by_cases hbit : bit e.1 d = true
      · have hnone : ∀ x ∈ rest, bit x.1 d = true := fun x hx => (he x hx).bit_mono hbit
        simp only [List.takeWhile_cons, List.filter_cons, hbit]
        symm
        simp only [Bool.not_true, Bool.false_eq_true, if_false, List.filter_eq_nil_iff]
        intro x hx
        simp [hnone x hx]
      · simp only [List.takeWhile_cons, List.filter_cons, hbit]
        simp [ih hrest]

theorem dropWhile_eq_filter {d n : Nat} {entries : List (K × V)} (h : BitSorted bit d n entries) :
    (entries.dropWhile fun e => !bit e.1 d) = entries.filter fun e => bit e.1 d := by
  induction entries with
  | nil => rfl
  | cons e rest ih =>
      rcases List.pairwise_cons.mp h with ⟨he, hrest⟩
      by_cases hbit : bit e.1 d = true
      · have hall : ∀ x ∈ rest, bit x.1 d = true := fun x hx => (he x hx).bit_mono hbit
        simp only [List.dropWhile_cons, List.filter_cons, hbit]
        simp only [Bool.not_true, Bool.false_eq_true, if_false, if_true]
        rw [List.filter_eq_self.mpr hall]
      · simp only [List.dropWhile_cons, List.filter_cons, hbit]
        simp [ih hrest]

/-- A part of the entries with one value of the bit is sorted one level down. -/
theorem BitSorted.filter {d n : Nat} {entries : List (K × V)} (h : BitSorted bit d n entries)
    (c : Bool) : BitSorted bit (d + 1) n (entries.filter fun e => bit e.1 d == c) := by
  refine List.Pairwise.imp_of_mem ?_ (List.Pairwise.filter _ h)
  intro a b ha hb hlt
  have hac : bit a.1 d = c := by simpa using (List.mem_filter.mp ha).2
  have hbc : bit b.1 d = c := by simpa using (List.mem_filter.mp hb).2
  refine hlt.below (Nat.le_succ d) ?_
  intro i hd hi
  have heq : i = d := by omega
  rw [heq, hac, hbc]

/-- One step of the build on two or more sorted entries. -/
theorem build_succ {levels d n : Nat} {entries : List (K × V)} (h : BitSorted bit d n entries)
    (hlen : 2 ≤ entries.length) :
    build bit (levels + 1) entries d =
      .node (build bit levels (entries.filter fun e => bit e.1 d == false) (d + 1))
        (build bit levels (entries.filter fun e => bit e.1 d == true) (d + 1)) := by
  rcases entries with _ | ⟨a, _ | ⟨b, rest⟩⟩
  · simp at hlen
  · simp at hlen
  · rw [build, takeWhile_eq_filter h, dropWhile_eq_filter h]
    · simp
    · simp
    · simp

/-- The built trie holds the entries it was built from. -/
theorem mem_build {levels d : Nat} {entries : List (K × V)}
    (h : BitSorted bit d (d + levels) entries) {k : K} {v : V} :
    (build bit levels entries d).Mem k v ↔ (k, v) ∈ entries := by
  induction levels generalizing entries d with
  | zero =>
      rcases entries with _ | ⟨a, _ | ⟨b, rest⟩⟩
      · simp [build]
      · simp [build, Prod.ext_iff]
      · -- no bit is left on which two keys could differ
        rcases (List.pairwise_cons.mp h).1 b (by simp) with ⟨i, hd, hn, _⟩
        omega
  | succ levels ih =>
      rcases entries with _ | ⟨a, _ | ⟨b, rest⟩⟩
      · simp [build]
      · simp [build, Prod.ext_iff]
      · have hsplit : ∀ c, BitSorted bit (d + 1) (d + 1 + levels)
            ((a :: b :: rest).filter fun e => bit e.1 d == c) := by
          intro c
          rw [Nat.add_assoc, Nat.add_comm 1 levels]
          exact h.filter c
        rw [build_succ h (by simp), mem_node, ih (hsplit false), ih (hsplit true)]
        simp only [List.mem_filter, beq_iff_eq]
        cases bit k d <;> simp

theorem build_canon {levels d : Nat} {entries : List (K × V)}
    (h : BitSorted bit d (d + levels) entries) : Canon bit d (build bit levels entries d) := by
  induction levels generalizing entries d with
  | zero =>
      rcases entries with _ | ⟨a, _ | ⟨b, rest⟩⟩
      · trivial
      · trivial
      · trivial
  | succ levels ih =>
      rcases entries with _ | ⟨a, _ | ⟨b, rest⟩⟩
      · trivial
      · trivial
      · have hsplit : ∀ c, BitSorted bit (d + 1) (d + 1 + levels)
            ((a :: b :: rest).filter fun e => bit e.1 d == c) := by
          intro c
          rw [Nat.add_assoc, Nat.add_comm 1 levels]
          exact h.filter c
        have hmem : ∀ k v, (k, v) ∈ a :: b :: rest →
            (build bit (levels + 1) (a :: b :: rest) d).Mem k v :=
          fun k v => (mem_build h).mpr
        have hne : (a.1, a.2) ≠ (b.1, b.2) := by
          intro hab
          exact ((List.pairwise_cons.mp h).1 b (by simp)).ne (Prod.ext_iff.mp hab).1
        rw [build_succ h (by simp)] at hmem ⊢
        refine ⟨ih (hsplit false), ih (hsplit true), ?_, ?_, ?_⟩
        · intro k v hm
          rw [mem_build (hsplit false), List.mem_filter] at hm
          simpa using hm.2
        · intro k v hm
          rw [mem_build (hsplit true), List.mem_filter] at hm
          simpa using hm.2
        · exact join_eq_node_of_mem hne (hmem a.1 a.2 (by simp)) (hmem b.1 b.2 (by simp))

end Build

/-! ## The hash fixes the trie -/

section Binding

variable {K V D : Type}

/-- The entries of a trie, left to right. -/
def Trie.entries : Trie K V → List (K × V)
  | .empty => []
  | .leaf k v => [(k, v)]
  | .node l r => l.entries ++ r.entries

/-- The pairs of hashes that the nodes of a trie hash. -/
def Trie.nodePairs (H : Hashing K V D) : Trie K V → List (D × D)
  | .empty => []
  | .leaf _ _ => []
  | .node l r => (l.hash H, r.hash H) :: (l.nodePairs H ++ r.nodePairs H)

/-- Between two lists of entries and two lists of node pairs no two different shapes have
one hash, nor two different leaves or nodes. -/
structure Hashing.Separates (H : Hashing K V D) (es fs : List (K × V)) (ps qs : List (D × D)) :
    Prop where
  leaf : ∀ e ∈ es, ∀ f ∈ fs, H.leaf e.1 e.2 = H.leaf f.1 f.2 → e = f
  node : ∀ p ∈ ps, ∀ q ∈ qs, H.node p.1 p.2 = H.node q.1 q.2 → p = q
  leaf_node : ∀ e ∈ es, ∀ q ∈ qs, H.leaf e.1 e.2 ≠ H.node q.1 q.2
  node_leaf : ∀ p ∈ ps, ∀ f ∈ fs, H.node p.1 p.2 ≠ H.leaf f.1 f.2
  leaf_empty : ∀ e ∈ es ++ fs, H.leaf e.1 e.2 ≠ H.empty
  node_empty : ∀ p ∈ ps ++ qs, H.node p.1 p.2 ≠ H.empty

theorem Hashing.Separates.mono {H : Hashing K V D} {es es' fs fs' : List (K × V)}
    {ps ps' qs qs' : List (D × D)} (hs : H.Separates es fs ps qs) (hes : es' ⊆ es)
    (hfs : fs' ⊆ fs) (hps : ps' ⊆ ps) (hqs : qs' ⊆ qs) : H.Separates es' fs' ps' qs' where
  leaf e he f hf := hs.leaf e (hes he) f (hfs hf)
  node p hp q hq := hs.node p (hps hp) q (hqs hq)
  leaf_node e he q hq := hs.leaf_node e (hes he) q (hqs hq)
  node_leaf p hp f hf := hs.node_leaf p (hps hp) f (hfs hf)
  leaf_empty e he := hs.leaf_empty e (List.append_subset.mpr
    ⟨List.subset_append_of_subset_left _ hes, List.subset_append_of_subset_right _ hfs⟩ he)
  node_empty p hp := hs.node_empty p (List.append_subset.mpr
    ⟨List.subset_append_of_subset_left _ hps, List.subset_append_of_subset_right _ hqs⟩ hp)

/-- Tries with one hash are equal. -/
theorem Trie.eq_of_hash_eq {H : Hashing K V D} {t u : Trie K V}
    (hs : H.Separates t.entries u.entries (t.nodePairs H) (u.nodePairs H))
    (hhash : t.hash H = u.hash H) : t = u := by
  induction t generalizing u with
  | empty =>
      cases u with
      | empty => rfl
      | leaf k v =>
          have hne := hs.leaf_empty (k, v) (by simp [entries])
          exact absurd hhash.symm hne
      | node l r =>
          have hne := hs.node_empty (l.hash H, r.hash H) (by simp [nodePairs])
          exact absurd hhash.symm hne
  | leaf k v =>
      cases u with
      | empty =>
          have hne := hs.leaf_empty (k, v) (by simp [entries])
          exact absurd hhash hne
      | leaf k' v' =>
          have hentry := hs.leaf (k, v) List.mem_cons_self (k', v') List.mem_cons_self hhash
          cases hentry
          rfl
      | node l r =>
          have hne := hs.leaf_node (k, v) List.mem_cons_self (l.hash H, r.hash H)
            List.mem_cons_self
          exact absurd hhash hne
  | node a b iha ihb =>
      cases u with
      | empty =>
          have hne := hs.node_empty (a.hash H, b.hash H) (by simp [nodePairs])
          exact absurd hhash hne
      | leaf k v =>
          have hne := hs.node_leaf (a.hash H, b.hash H) List.mem_cons_self (k, v)
            List.mem_cons_self
          exact absurd hhash hne
      | node l r =>
          have hsides := hs.node (a.hash H, b.hash H) List.mem_cons_self (l.hash H, r.hash H)
            List.mem_cons_self hhash
          rcases Prod.mk.inj hsides with ⟨hl, hr⟩
          have hleft : a = l := iha (hs.mono (by simp [entries]) (by simp [entries])
            (by simp [nodePairs]) (by simp [nodePairs])) hl
          have hright : b = r := ihb (hs.mono (by simp [entries]) (by simp [entries])
            (by simp [nodePairs]) (by simp [nodePairs])) hr
          rw [hleft, hright]

end Binding

end CompactTrie
