import Mathlib

/-!
# Foundation - Merkle roots over unordered pairs

A root over a list of digests pairs neighbours level by level and promotes an odd
last node.  The pair hash forgets the order of its arguments, so a root can fix
its leaves only up to order; it fixes them up to order, and their number with
them, as soon as no two of the hashed pairs collide and no leaf is the hash of a
pair.

Main results:

- Theorem {lit}`PairTree.perm_of_root_eq`: two trees with one root have the same
  leaves up to order.
- Theorem {lit}`perm_of_rootLevels_eq`: so do two lists of digests.
-/

namespace MerkleTree

variable {D : Type}

/-! ## Trees -/

/-- A Merkle tree: the promotion of odd nodes makes its leaves lie at different depths. -/
inductive PairTree (D : Type) where
  | leaf (d : D)
  | pair (l r : PairTree D)

namespace PairTree

/-- The digest of a tree. -/
def root (h : D → D → D) : PairTree D → D
  | leaf d => d
  | pair l r => h (l.root h) (r.root h)

/-- The leaves, left to right. -/
def leaves : PairTree D → List D
  | leaf d => [d]
  | pair l r => l.leaves ++ r.leaves

/-- The pairs of digests hashed on the way to the root. -/
def pairs (h : D → D → D) : PairTree D → List (D × D)
  | leaf _ => []
  | pair l r => (l.root h, r.root h) :: (l.pairs h ++ r.pairs h)

end PairTree

/-- Between two lists of leaves and two lists of hashed pairs there is no collision, up to
the order inside a pair. -/
structure Binding (h : D → D → D) (ds es : List D) (ps qs : List (D × D)) : Prop where
  pair : ∀ p ∈ ps, ∀ q ∈ qs, h p.1 p.2 = h q.1 q.2 → p = q ∨ p = q.swap
  left : ∀ d ∈ ds, ∀ q ∈ qs, d ≠ h q.1 q.2
  right : ∀ p ∈ ps, ∀ e ∈ es, h p.1 p.2 ≠ e

theorem Binding.mono {h : D → D → D} {ds ds' es es' : List D} {ps ps' qs qs' : List (D × D)}
    (hb : Binding h ds es ps qs) (hds : ds' ⊆ ds) (hes : es' ⊆ es) (hps : ps' ⊆ ps)
    (hqs : qs' ⊆ qs) : Binding h ds' es' ps' qs' where
  pair p hp q hq := hb.pair p (hps hp) q (hqs hq)
  left d hd q hq := hb.left d (hds hd) q (hqs hq)
  right p hp e he := hb.right p (hps hp) e (hes he)

namespace PairTree

/-- Two trees with one root have the same leaves up to order. -/
theorem perm_of_root_eq {h : D → D → D} {x y : PairTree D}
    (hb : Binding h x.leaves y.leaves (x.pairs h) (y.pairs h)) (hroot : x.root h = y.root h) :
    x.leaves.Perm y.leaves := by
  induction x generalizing y with
  | leaf d =>
      cases y with
      | leaf e =>
          change d = e at hroot
          rw [hroot]
      | pair l r =>
          have hne := hb.left d List.mem_cons_self (l.root h, r.root h) List.mem_cons_self
          exact absurd hroot hne
  | pair a b iha ihb =>
      cases y with
      | leaf e =>
          have hne := hb.right (a.root h, b.root h) List.mem_cons_self e List.mem_cons_self
          exact absurd hroot hne
      | pair l r =>
          have hsides := hb.pair (a.root h, b.root h) List.mem_cons_self (l.root h, r.root h)
            List.mem_cons_self hroot
          rcases hsides with hsame | hswap
          · rcases Prod.mk.inj hsame with ⟨hl, hr⟩
            have hleft := iha (y := l) (hb.mono (by simp [leaves]) (by simp [leaves])
              (by simp [pairs]) (by simp [pairs])) hl
            have hright := ihb (y := r) (hb.mono (by simp [leaves]) (by simp [leaves])
              (by simp [pairs]) (by simp [pairs])) hr
            exact hleft.append hright
          · rcases Prod.mk.inj hswap with ⟨hr, hl⟩
            have hleft := iha (y := r) (hb.mono (by simp [leaves]) (by simp [leaves])
              (by simp [pairs]) (by simp [pairs])) hr
            have hright := ihb (y := l) (hb.mono (by simp [leaves]) (by simp [leaves])
              (by simp [pairs]) (by simp [pairs])) hl
            exact (hleft.append hright).trans List.perm_append_comm

end PairTree

/-! ## Levels -/

section Levels

variable {α : Type}

/-- One level up: neighbours paired, an odd last node promoted. -/
def level (f : α → α → α) : List α → List α
  | a :: b :: rest => f a b :: level f rest
  | [a] => [a]
  | [] => []

/-- The pairs one level up hashes. -/
def levelPairs : List α → List (α × α)
  | a :: b :: rest => (a, b) :: levelPairs rest
  | [_] => []
  | [] => []

/-- The node left after enough levels; {lit}`z` for the empty list. -/
def rootLevels (f : α → α → α) (z : α) : Nat → List α → α
  | _, [] => z
  | _, [a] => a
  | 0, a :: _ :: _ => a
  | fuel + 1, xs => rootLevels f z fuel (level f xs)

/-- The pairs hashed on the way to the root. -/
def hashedPairs (f : α → α → α) : Nat → List α → List (α × α)
  | _, [] => []
  | _, [_] => []
  | 0, _ :: _ :: _ => []
  | fuel + 1, xs => levelPairs xs ++ hashedPairs f fuel (level f xs)

theorem level_map {β : Type} {f : α → α → α} {f' : β → β → β} {g : α → β}
    (hg : ∀ a b, g (f a b) = f' (g a) (g b)) (xs : List α) :
    (level f xs).map g = level f' (xs.map g) := by
  induction xs using level.induct with
  | case1 a b rest ih => simp [level, hg, ih]
  | case2 a => rfl
  | case3 => rfl

theorem level_length_le (f : α → α → α) (xs : List α) : (level f xs).length ≤ xs.length := by
  induction xs using level.induct with
  | case1 a b rest ih =>
      simp only [level, List.length_cons]
      omega
  | case2 a => simp [level]
  | case3 => simp [level]

theorem level_length_lt (f : α → α → α) (a b : α) (rest : List α) :
    (level f (a :: b :: rest)).length < (a :: b :: rest).length := by
  have hrest := level_length_le f rest
  simp only [level, List.length_cons]
  omega

/-- A node one level up is a node of the level or one of its hashed pairs. -/
theorem mem_level {f : α → α → α} {xs : List α} {x : α} (hx : x ∈ level f xs) :
    x ∈ xs ∨ ∃ p ∈ levelPairs xs, x = f p.1 p.2 := by
  induction xs using level.induct with
  | case1 a b rest ih =>
      rcases List.mem_cons.mp hx with rfl | hx
      · exact Or.inr ⟨(a, b), List.mem_cons_self, rfl⟩
      · rcases ih hx with hmem | ⟨p, hp, hpair⟩
        · exact Or.inl (by simp [hmem])
        · exact Or.inr ⟨p, List.mem_cons_of_mem _ hp, hpair⟩
  | case2 a => exact Or.inl hx
  | case3 => cases hx

/-- The root of a non-empty list is one of its nodes or a hashed pair. -/
theorem rootLevels_cases (f : α → α → α) (z : α) (fuel : Nat) {xs : List α} (hne : xs ≠ []) :
    rootLevels f z fuel xs ∈ xs ∨
      ∃ p ∈ hashedPairs f fuel xs, rootLevels f z fuel xs = f p.1 p.2 := by
  induction fuel generalizing xs with
  | zero =>
      rcases xs with _ | ⟨a, _ | ⟨b, rest⟩⟩
      · exact absurd rfl hne
      · exact Or.inl List.mem_cons_self
      · exact Or.inl List.mem_cons_self
  | succ fuel ih =>
      rcases xs with _ | ⟨a, _ | ⟨b, rest⟩⟩
      · exact absurd rfl hne
      · exact Or.inl List.mem_cons_self
      · have hlevel : level f (a :: b :: rest) ≠ [] := by simp [level]
        rcases ih hlevel with hmem | ⟨p, hp, hpair⟩
        · rcases mem_level hmem with hnode | ⟨p, hp, hpair⟩
          · exact Or.inl hnode
          · exact Or.inr ⟨p, List.mem_append_left _ hp, hpair⟩
        · exact Or.inr ⟨p, List.mem_append_right _ hp, hpair⟩

/-- The trees one level up have the same leaves. -/
theorem flatMap_leaves_level (ts : List (PairTree α)) :
    (level PairTree.pair ts).flatMap PairTree.leaves = ts.flatMap PairTree.leaves := by
  induction ts using level.induct with
  | case1 a b rest ih => simp [level, PairTree.leaves, ih]
  | case2 a => rfl
  | case3 => rfl

/-- A tree one level up hashes a pair of the level, or what a tree of the level hashes. -/
theorem pairs_of_mem_level {h : α → α → α} {ts : List (PairTree α)} {t : PairTree α}
    (ht : t ∈ level PairTree.pair ts) {p : α × α} (hp : p ∈ t.pairs h) :
    p ∈ levelPairs (ts.map (PairTree.root h)) ∨ ∃ s ∈ ts, p ∈ s.pairs h := by
  induction ts using level.induct with
  | case1 a b rest ih =>
      rcases List.mem_cons.mp ht with rfl | ht
      · simp only [PairTree.pairs, List.mem_cons, List.mem_append] at hp
        rcases hp with rfl | hp | hp
        · exact Or.inl List.mem_cons_self
        · exact Or.inr ⟨a, by simp, hp⟩
        · exact Or.inr ⟨b, by simp, hp⟩
      · rcases ih ht with hpair | ⟨s, hs, hp⟩
        · exact Or.inl (List.mem_cons_of_mem _ hpair)
        · exact Or.inr ⟨s, by simp [hs], hp⟩
  | case2 a =>
      right
      exact ⟨t, ht, hp⟩
  | case3 => cases ht

/-- The root of a list of trees is the root of one tree over all their leaves. -/
theorem exists_tree (h : α → α → α) (z : α) (fuel : Nat) (ts : List (PairTree α)) (hne : ts ≠ [])
    (hfuel : ts.length ≤ fuel + 1) :
    ∃ t : PairTree α, rootLevels h z fuel (ts.map (PairTree.root h)) = t.root h ∧
      t.leaves = ts.flatMap PairTree.leaves ∧
      ∀ p ∈ t.pairs h, p ∈ hashedPairs h fuel (ts.map (PairTree.root h)) ∨
        ∃ s ∈ ts, p ∈ s.pairs h := by
  induction fuel generalizing ts with
  | zero =>
      rcases ts with _ | ⟨a, _ | ⟨b, rest⟩⟩
      · exact absurd rfl hne
      · exact ⟨a, rfl, by simp, fun p hp => Or.inr ⟨a, by simp, hp⟩⟩
      · simp only [List.length_cons] at hfuel
        omega
  | succ fuel ih =>
      rcases ts with _ | ⟨a, _ | ⟨b, rest⟩⟩
      · exact absurd rfl hne
      · exact ⟨a, rfl, by simp, fun p hp => Or.inr ⟨a, by simp, hp⟩⟩
      · have hlt := level_length_lt PairTree.pair a b rest
        rcases ih (level PairTree.pair (a :: b :: rest)) (by simp [level]) (by omega) with
          ⟨t, hroot, hleaves, hpairs⟩
        have hmap : (level PairTree.pair (a :: b :: rest)).map (PairTree.root h) =
            level h ((a :: b :: rest).map (PairTree.root h)) :=
          level_map (fun _ _ => rfl) _
        rw [hmap] at hroot hpairs
        refine ⟨t, hroot, hleaves.trans (flatMap_leaves_level _), ?_⟩
        intro p hp
        rcases hpairs p hp with hhashed | ⟨s, hs, hp⟩
        · exact Or.inl (List.mem_append_right _ hhashed)
        · rcases pairs_of_mem_level hs hp with hlevel | hbelow
          · exact Or.inl (List.mem_append_left _ hlevel)
          · exact Or.inr hbelow

/-- Two non-empty lists of digests with one root are equal up to order. -/
theorem perm_of_rootLevels_eq {h : α → α → α} {z : α} {xs ys : List α} (hx : xs ≠ [])
    (hy : ys ≠ [])
    (hb : Binding h xs ys (hashedPairs h xs.length xs) (hashedPairs h ys.length ys))
    (hroot : rootLevels h z xs.length xs = rootLevels h z ys.length ys) : xs.Perm ys := by
  have hroots : ∀ ds : List α, (ds.map PairTree.leaf).map (PairTree.root h) = ds := by
    intro ds
    simp [PairTree.root, Function.comp_def]
  have hleaves : ∀ ds : List α, (ds.map PairTree.leaf).flatMap PairTree.leaves = ds := by
    intro ds
    simp [List.flatMap_map, PairTree.leaves]
  have hnone : ∀ (ds : List α) (p : α × α), ¬∃ s ∈ ds.map PairTree.leaf, p ∈ s.pairs h := by
    intro ds p hex
    rcases hex with ⟨s, hs, hp⟩
    rcases List.mem_map.mp hs with ⟨d, _, rfl⟩
    cases hp
  rcases exists_tree h z xs.length (xs.map .leaf) (by simpa using hx) (by simp) with
    ⟨x, hxroot, hxleaves, hxpairs⟩
  rcases exists_tree h z ys.length (ys.map .leaf) (by simpa using hy) (by simp) with
    ⟨y, hyroot, hyleaves, hypairs⟩
  rw [hroots] at hxroot hyroot hxpairs hypairs
  rw [hleaves] at hxleaves hyleaves
  rw [← hxleaves, ← hyleaves]
  apply PairTree.perm_of_root_eq
  · rw [hxleaves, hyleaves]
    apply hb.mono (List.Subset.refl _) (List.Subset.refl _)
    · intro p hp
      exact (hxpairs p hp).resolve_right (hnone xs p)
    · intro p hp
      exact (hypairs p hp).resolve_right (hnone ys p)
  · rw [← hxroot, ← hyroot]
    exact hroot

end Levels

end MerkleTree
