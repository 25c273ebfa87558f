import StateKeeper.Engine.Smt2
import StateKeeper.Foundation.KeyedMap
import StateKeeper.Foundation.TriePath

/-!
# Engine - The tree's root and its honest witnesses

The root of a map is the hash of the canonical trie of its entries, and the
witness of a key is that trie's path.  So the guest's step on an honest witness
is the hash of the updated map's trie.

Main results:

- Theorem {lit}`root_eq_hash`: the root is the hash of the map's trie.
- Theorem {lit}`applyStep_witness`: every step of the map on an honest witness is
  accepted and returns the root of the stepped map.
-/

namespace StateKeeper

open Words Fallible CompactTrie SortedKeys

/-! ## Key bits -/

/-- Different keys first differ on some bit. -/
theorem exists_diverging {a b : Bytes32} (h : a ≠ b) :
    ∃ i, i < 256 ∧ keyBit a i ≠ keyBit b i ∧ ∀ j, j < i → keyBit a j = keyBit b j := by
  have hne : ∃ i, i < 256 ∧ keyBit a i ≠ keyBit b i := by
    by_contra hall
    apply h
    refine BitVec.eq_of_getMsbD_eq fun i hi => ?_
    by_contra hbit
    exact hall ⟨i, hi, hbit⟩
  refine ⟨Nat.find hne, (Nat.find_spec hne).1, (Nat.find_spec hne).2, ?_⟩
  intro j hj
  have hfound : Nat.find hne < 256 := (Nat.find_spec hne).1
  by_contra hbit
  exact Nat.find_min hne hj ⟨by omega, hbit⟩

/-- The key with the clear bit is the smaller one. -/
theorem lt_of_keyBit {a b : Bytes32} {i : Nat} (hi : i < 256) (ha : keyBit a i = false)
    (hb : keyBit b i = true) (hsame : ∀ j, j < i → keyBit a j = keyBit b j) : a < b := by
  have hmsb : ∀ (x : Bytes32) (j : Nat), j < 256 → x.toNat.testBit j = keyBit x (255 - j) := by
    intro x j hj
    have hback : 255 - (255 - j) = j := by omega
    have hlt : 255 - j < 256 := by omega
    rw [keyBit, BitVec.getMsbD_eq_getLsbD]
    simp only [hlt, decide_true, Bool.true_and, Nat.reduceSub, hback]
    rfl
  refine BitVec.lt_def.mpr (Nat.lt_of_testBit (255 - i) ?_ ?_ ?_)
  · rw [hmsb a _ (by omega), Nat.sub_sub_self (by omega), ha]
  · rw [hmsb b _ (by omega), Nat.sub_sub_self (by omega), hb]
  · intro j hj
    by_cases hwide : j < 256
    · rw [hmsb a j hwide, hmsb b j hwide]
      exact hsame _ (by omega)
    · have hzero : ∀ x : Bytes32, x.toNat.testBit j = false := by
        intro x
        refine Nat.testBit_lt_two_pow (lt_of_lt_of_le x.isLt ?_)
        exact Nat.pow_le_pow_right (by omega) (by omega)
      rw [hzero a, hzero b]

/-- The unsigned order is the order of the first differing bit. -/
theorem bitLt_of_lt {a b : Bytes32} (h : a < b) : BitLt keyBit 0 256 a b := by
  rcases exists_diverging (ne_of_lt h) with ⟨i, hi, hdiff, hsame⟩
  refine ⟨i, Nat.zero_le i, hi, fun j _ hj => hsame j hj, ?_⟩
  cases ha : keyBit a i with
  | false =>
      cases hb : keyBit b i with
      | false => exact absurd (ha.trans hb.symm) hdiff
      | true => exact ⟨rfl, rfl⟩
  | true =>
      cases hb : keyBit b i with
      | false =>
          have hlt := lt_of_keyBit hi hb ha fun j hj => (hsame j hj).symm
          exact absurd (h.trans hlt) (lt_irrefl a)
      | true => exact absurd (ha.trans hb.symm) hdiff

/-- The bit on which a foreign key leaves the path. -/
theorem firstDivergingBit_eq_ok {a b : Bytes32} (h : a ≠ b) :
    ∃ j, firstDivergingBit a b = .ok j ∧ keyBit b j = !keyBit a j ∧
      ∀ i, i < j → keyBit b i = keyBit a i := by
  rcases exists_diverging h with ⟨i, hi, hdiff, hsame⟩
  refine ⟨i, ?_, ?_, fun j hj => (hsame j hj).symm⟩
  · rw [firstDivergingBit, expect_eq_ok, List.find?_range_eq_some]
    refine ⟨by simpa using hdiff, List.mem_range.mpr hi, ?_⟩
    intro j hj
    simpa using hsame j hj
  · cases ha : keyBit a i <;> cases hb : keyBit b i <;> simp_all

/-! ## The trie of a map -/

/-- The canonical trie of a map's entries. -/
def Smt2.trie (t : Smt2) : Trie Bytes32 Bytes32 :=
  build keyBit 256 t.leaves.toList 0

theorem Smt2.bitSorted (t : Smt2) : BitSorted keyBit 0 (0 + 256) t.leaves.toList :=
  (KeyedMap.toList_strict t.leaves).imp fun h => bitLt_of_lt h

theorem Smt2.trie_canon (t : Smt2) : Canon keyBit 0 t.trie :=
  build_canon t.bitSorted

theorem Smt2.mem_trie {t : Smt2} {k v : Bytes32} : t.trie.Mem k v ↔ t.get k = some v := by
  rw [Smt2.trie, mem_build t.bitSorted, KeyedMap.mem_toList]
  rfl

theorem Smt2.get_assign {t : Smt2} {key k : Bytes32} {new : Option Bytes32} :
    (t.assign key new).get k = if key = k then new else t.get k := by
  cases new with
  | some v => exact KeyedMap.getElem?_insert_eq
  | none => exact KeyedMap.getElem?_erase_eq

/-- What stands at the end of a key's path once it is assigned. -/
def assignedTerminal (key : Bytes32) : Option Bytes32 → Trie Bytes32 Bytes32
  | some v => .leaf key v
  | none => .empty

theorem mem_assignedTerminal {key k v : Bytes32} {new : Option Bytes32} :
    (assignedTerminal key new).Mem k v ↔ k = key ∧ new = some v := by
  cases new with
  | some w => simp [assignedTerminal, eq_comm]
  | none => simp [assignedTerminal]

/-- Assigning a key grafts its new terminal onto siblings that hold the rest. -/
theorem Smt2.trie_assign {t : Smt2} {key : Bytes32} {new : Option Bytes32}
    {sibs : List (Trie Bytes32 Bytes32)} (hsibs : Siblings keyBit key 0 sibs)
    (hrest : ∀ k v, k ≠ key → ((∃ s ∈ sibs, s.Mem k v) ↔ t.get k = some v)) :
    (t.assign key new).trie = graft keyBit key Trie.join 0 sibs (assignedTerminal key new) := by
  have hcanon : Canon keyBit 0 (graft keyBit key Trie.join 0 sibs (assignedTerminal key new)) := by
    refine canon_graft_join hsibs ?_ ?_
    · cases new <;> trivial
    · intro i _ _ k v hm
      rw [(mem_assignedTerminal.mp hm).1]
  refine (t.assign key new).trie_canon.eq_of_mem_iff hcanon ?_
  intro k v
  rw [Smt2.mem_trie, Smt2.get_assign, mem_graft fun l r k v => Trie.mem_join,
    mem_assignedTerminal]
  by_cases hk : k = key
  · rw [if_pos hk.symm]
    constructor
    · intro hnew
      exact .inr ⟨hk, hnew⟩
    · intro h
      rcases h with ⟨s, hs, hm⟩ | ⟨_, hnew⟩
      · exact absurd hk (hsibs.key_ne hs hm)
      · exact hnew
  · rw [if_neg (Ne.symm hk), ← hrest k v hk]
    constructor
    · exact .inl
    · intro h
      rcases h with h | ⟨heq, _⟩
      · exact h
      · exact absurd heq hk

section Hashes

variable [Primitives]

/-- No input hashes to the empty root. -/
def KeccakNonzero : Prop :=
  ∀ bs, Primitives.keccak256 bs ≠ 0

/-- No string of the list hashes to the empty root. -/
def NonzeroOn (xs : List Bytes) : Prop :=
  ∀ bs ∈ xs, Primitives.keccak256 bs ≠ 0

theorem KeccakNonzero.on (hk : KeccakNonzero) {xs : List Bytes} : NonzeroOn xs :=
  fun bs _ => hk bs

theorem NonzeroOn.mono {xs ys : List Bytes} (h : NonzeroOn ys) (hsub : xs ⊆ ys) :
    NonzeroOn xs :=
  fun bs hbs => h bs (hsub hbs)

/-- What a leaf of the state tree hashes. -/
def smt2LeafBytes (e : Bytes32 × Bytes32) : Bytes :=
  [0x00] ++ beBytes 32 e.1 ++ beBytes 32 e.2

/-- What an inner node of the state tree hashes. -/
def smt2NodeBytes (p : Bytes32 × Bytes32) : Bytes :=
  [0x01] ++ beBytes 32 p.1 ++ beBytes 32 p.2

theorem keccak_singleton (bs : Bytes) : keccak [bs] = Primitives.keccak256 bs := by
  simp [keccak]

theorem smt2Leaf_eq (k v : Bytes32) :
    smt2Leaf k v = Primitives.keccak256 (smt2LeafBytes (k, v)) := by
  simp [smt2Leaf, smt2LeafBytes, keccak]

theorem smt2Node_eq (l r : Bytes32) :
    smt2Node l r = Primitives.keccak256 (smt2NodeBytes (l, r)) := by
  simp [smt2Node, smt2NodeBytes, keccak]

/-- The tree's three hashes. -/
def smt2Hashing : Hashing Bytes32 Bytes32 Bytes32 where
  empty := EMPTY
  leaf := smt2Leaf
  node := smt2Node

/-- The hash of a subtrie. -/
def trieHash (t : Trie Bytes32 Bytes32) : Bytes32 :=
  t.hash smt2Hashing

@[simp]
theorem trieHash_empty : trieHash .empty = EMPTY := rfl

@[simp]
theorem trieHash_leaf (k v : Bytes32) : trieHash (.leaf k v) = smt2Leaf k v := rfl

@[simp]
theorem trieHash_node (l r : Trie Bytes32 Bytes32) :
    trieHash (.node l r) = smt2Node (trieHash l) (trieHash r) := rfl

/-- The strings hashed for a trie. -/
def triePreimages (t : Trie Bytes32 Bytes32) : List Bytes :=
  t.entries.map smt2LeafBytes ++ (t.nodePairs smt2Hashing).map smt2NodeBytes

/-- The strings hashed for a map's root. -/
def Smt2.preimages (t : Smt2) : List Bytes :=
  triePreimages t.trie

/-- Only the empty trie hashes to the empty root. -/
theorem trieHash_eq_empty {t : Trie Bytes32 Bytes32} (hz : NonzeroOn (triePreimages t)) :
    trieHash t = EMPTY ↔ t = .empty := by
  cases t with
  | empty => simp
  | leaf k v =>
      have hne := hz (smt2LeafBytes (k, v)) (by simp [triePreimages, Trie.entries])
      rw [← smt2Leaf_eq] at hne
      exact iff_of_false hne (by simp)
  | node l r =>
      have hne := hz (smt2NodeBytes (trieHash l, trieHash r))
        (List.mem_append_right _ (List.mem_map_of_mem List.mem_cons_self))
      rw [← smt2Node_eq] at hne
      exact iff_of_false hne (by simp)

theorem trieHash_graft (key : Bytes32) (d : Nat) (sibs : List (Trie Bytes32 Bytes32))
    (t : Trie Bytes32 Bytes32) :
    trieHash (graft keyBit key Trie.node d sibs t) =
      graft keyBit key smt2Node d (sibs.map trieHash) (trieHash t) :=
  hash_graft smt2Hashing d sibs t

theorem subtreeRoot_eq_hash (levels : Nat) (entries : List (Bytes32 × Bytes32)) (d : Nat) :
    subtreeRoot levels entries d = trieHash (build keyBit levels entries d) := by
  induction levels generalizing entries d with
  | zero =>
      rcases entries with _ | ⟨a, _ | ⟨b, rest⟩⟩
      · rfl
      · rfl
      · rfl
  | succ levels ih =>
      rcases entries with _ | ⟨a, _ | ⟨b, rest⟩⟩
      · rfl
      · rfl
      · change smt2Node (subtreeRoot levels _ (d + 1)) (subtreeRoot levels _ (d + 1)) = _
        rw [ih, ih]
        rfl

/-- The root is the hash of the map's trie. -/
theorem Smt2.root_eq_hash (t : Smt2) : t.root = trieHash t.trie :=
  subtreeRoot_eq_hash 256 t.leaves.toList 0

/-! ## The honest path -/

/-- The terminal a witness reports. -/
def terminalOf (key : Bytes32) : Trie Bytes32 Bytes32 → SmtTerminal
  | .leaf k v => if k = key then .leaf v else .otherLeaf k v
  | _ => .empty

/-- The witness's descent is the trie's path. -/
theorem witnessDescent_eq (key : Bytes32) (levels : Nat) (entries : List (Bytes32 × Bytes32))
    (d : Nat) :
    witnessDescent key levels entries d =
      (terminalOf key (descend keyBit key d (build keyBit levels entries d)).1,
        (descend keyBit key d (build keyBit levels entries d)).2.map trieHash) := by
  induction levels generalizing entries d with
  | zero =>
      rcases entries with _ | ⟨a, _ | ⟨b, rest⟩⟩
      · rfl
      · rfl
      · rfl
  | succ levels ih =>
      rcases entries with _ | ⟨a, _ | ⟨b, rest⟩⟩
      · rfl
      · rfl
      · rw [witnessDescent, build]
        · by_cases hbit : keyBit key d = true
          · simp only [hbit, if_true, descend, ih, subtreeRoot_eq_hash]
            rfl
          · simp only [hbit, descend, ih, subtreeRoot_eq_hash]
            rfl
        all_goals simp

omit [Primitives] in
/-- A path is no longer than the levels left below it. -/
theorem descend_build_length {key : Bytes32} {levels : Nat} {entries : List (Bytes32 × Bytes32)}
    {d : Nat} : (descend keyBit key d (build keyBit levels entries d)).2.length ≤ levels := by
  induction levels generalizing entries d with
  | zero =>
      rcases entries with _ | ⟨a, _ | ⟨b, rest⟩⟩
      · exact Nat.zero_le _
      · exact Nat.zero_le _
      · exact Nat.zero_le _
  | succ levels ih =>
      rcases entries with _ | ⟨a, _ | ⟨b, rest⟩⟩
      · exact Nat.zero_le _
      · exact Nat.zero_le _
      · rw [build]
        · by_cases hbit : keyBit key d = true
          · simp only [descend, hbit, if_true, List.length_cons]
            exact Nat.succ_le_succ ih
          · simp only [descend, hbit]
            exact Nat.succ_le_succ ih
        all_goals simp

/-- The upward loop over a reversed path is a graft. -/
theorem climb_reverse (key : Bytes32) (xs : List Bytes32) (idx : Nat) (cur : Bytes32) :
    climb key (xs.length + idx) idx xs.reverse cur = graft keyBit key smt2Node 0 xs cur := by
  induction xs using List.reverseRecOn generalizing idx cur with
  | nil => rfl
  | append_singleton init last ih =>
      have hdepth : (init ++ [last]).length + idx = init.length + (idx + 1) := by
        rw [List.length_append, List.length_singleton]
        omega
      have hlevel : init.length + (idx + 1) - 1 - idx = init.length := by omega
      rw [hdepth, List.reverse_append, List.reverse_singleton, List.singleton_append, climb, ih,
        graft_append, graft_singleton, hlevel, Nat.zero_add]
      rfl

/-- The path of a key through the map's trie. -/
def Smt2.path (t : Smt2) (key : Bytes32) : Trie Bytes32 Bytes32 × List (Trie Bytes32 Bytes32) :=
  descend keyBit key 0 t.trie

omit [Primitives] in
theorem Smt2.mem_path {t : Smt2} (key : Bytes32) {k v : Bytes32} :
    t.get k = some v ↔ (∃ s ∈ (t.path key).2, s.Mem k v) ∨ (t.path key).1.Mem k v := by
  rw [← Smt2.mem_trie]
  exact mem_descend

omit [Primitives] in
/-- The terminal's entry follows the key along the path. -/
theorem Smt2.path_follows (t : Smt2) (key : Bytes32) {i : Nat}
    (hi : i < (t.path key).2.length) : Follows keyBit key i (t.path key).1 := by
  refine descend_follows t.trie_canon (Nat.zero_le i) ?_
  rw [Nat.zero_add]
  exact hi

omit [Primitives] in
/-- The path ends at the key's leaf, at a foreign leaf, or nowhere. -/
theorem Smt2.path_cases (t : Smt2) (key : Bytes32) :
    (∃ v, (t.path key).1 = .leaf key v ∧ t.get key = some v) ∨
      (t.get key = none ∧ ((t.path key).1 = .empty ∨
        ∃ k v, k ≠ key ∧ (t.path key).1 = .leaf k v)) := by
  have hget : ∀ v, t.get key = some v ↔ (t.path key).1.Mem key v := by
    intro v
    rw [Smt2.mem_path key]
    constructor
    · intro h
      rcases h with ⟨s, hs, hm⟩ | hm
      · exact absurd rfl ((siblings_descend t.trie_canon).key_ne hs hm)
      · exact hm
    · exact .inr
  have habsent : (∀ v, ¬ (t.path key).1.Mem key v) → t.get key = none := by
    intro h
    by_contra hne
    rcases Option.ne_none_iff_exists'.mp hne with ⟨v, hv⟩
    exact h v ((hget v).mp hv)
  cases hterm : (t.path key).1 with
  | empty =>
      refine .inr ⟨habsent ?_, .inl rfl⟩
      intro v
      rw [hterm]
      exact Trie.mem_empty
  | leaf k v =>
      by_cases hk : k = key
      · subst hk
        refine .inl ⟨v, rfl, (hget v).mpr ?_⟩
        rw [hterm]
        exact ⟨rfl, rfl⟩
      · refine .inr ⟨habsent ?_, .inr ⟨k, v, hk, rfl⟩⟩
        intro v' hm
        rw [hterm] at hm
        exact hk hm.1.symm
  | node l r => exact absurd hterm (descend_terminal 0 t.trie l r)

@[simp]
theorem Smt2.witness_key (t : Smt2) (key : Bytes32) : (t.witness key).key = key := rfl

theorem Smt2.witness_siblings (t : Smt2) (key : Bytes32) :
    (t.witness key).siblings = ((t.path key).2.map trieHash).reverse := by
  rw [Smt2.witness, witnessDescent_eq]
  rfl

theorem Smt2.witness_terminal (t : Smt2) (key : Bytes32) :
    (t.witness key).terminal = terminalOf key (t.path key).1 := by
  rw [Smt2.witness, witnessDescent_eq]
  rfl

theorem Smt2.witness_depth (t : Smt2) (key : Bytes32) :
    (t.witness key).siblings.length = (t.path key).2.length := by
  rw [t.witness_siblings, List.length_reverse, List.length_map]

/-- Folding an honest witness is grafting onto the path's hashes. -/
theorem Smt2.foldUp_witness (t : Smt2) (key start : Bytes32) :
    foldUp (t.witness key) start =
      graft keyBit key smt2Node 0 ((t.path key).2.map trieHash) start := by
  have hclimb := climb_reverse key ((t.path key).2.map trieHash) 0 start
  rw [Nat.add_zero, List.length_map] at hclimb
  rw [foldUp, t.witness_depth, t.witness_siblings]
  exact hclimb

/-- An honest witness starts at its terminal's hash. -/
theorem Smt2.terminalStart_witness (t : Smt2) (key : Bytes32) :
    terminalStart (t.witness key) = .ok (trieHash (t.path key).1) := by
  rw [terminalStart, t.witness_terminal, t.witness_depth]
  rcases t.path_cases key with ⟨v, hterm, _⟩ | ⟨_, hterm | ⟨k, v, hne, hterm⟩⟩
  · simp only [hterm, terminalOf, if_true, trieHash_leaf]
    rfl
  · simp only [hterm, terminalOf, trieHash_empty]
  · have hprefix : ((List.range (t.path key).2.length).all fun b => keyBit k b == keyBit key b) =
        true := by
      rw [List.all_eq_true]
      intro b hb
      have hmem : (t.path key).1.Mem k v := by
        rw [hterm]
        exact ⟨rfl, rfl⟩
      simpa using t.path_follows key (List.mem_range.mp hb) k v hmem
    simp only [hterm, terminalOf, if_neg hne, trieHash_leaf, Smt2.witness_key]
    exact bind_eq_ok.mpr ⟨(), ensure_of hne, bind_eq_ok.mpr ⟨(), ensure_of hprefix, rfl⟩⟩

/-- An honest witness folds to the root. -/
theorem Smt2.foldUp_root (t : Smt2) (key : Bytes32) :
    foldUp (t.witness key) (trieHash (t.path key).1) = t.root := by
  rw [t.foldUp_witness, ← trieHash_graft, t.root_eq_hash, Smt2.path, graft_descend]

/-! ## The three branches of a step -/

omit [Primitives] in
/-- The siblings of a path are canonical and leave it at their depths. -/
theorem Smt2.path_siblings (t : Smt2) (key : Bytes32) :
    Siblings keyBit key 0 (t.path key).2 :=
  siblings_descend t.trie_canon

omit [Primitives] in
/-- The last sibling of a path is not empty. -/
theorem Smt2.path_getLast? (t : Smt2) (key : Bytes32) : (t.path key).2.getLast? ≠ some .empty := by
  have hcanon := t.trie_canon
  rw [← graft_descend keyBit key 0 t.trie] at hcanon
  exact getLast?_of_canon hcanon (descend_terminal 0 t.trie)

omit [Primitives] in
/-- The siblings hold every other entry, unless a foreign leaf ends the path. -/
theorem Smt2.path_rest {t : Smt2} {key : Bytes32}
    (hterm : ∀ k v, (t.path key).1.Mem k v → k = key) (k v : Bytes32) (hk : k ≠ key) :
    (∃ s ∈ (t.path key).2, s.Mem k v) ↔ t.get k = some v := by
  rw [Smt2.mem_path key]
  constructor
  · exact .inl
  · intro h
    rcases h with h | hm
    · exact h
    · exact absurd (hterm k v hm) hk

/-- A new leaf below the siblings of its path is the root of the assigned map. -/
theorem Smt2.root_assign_leaf {t : Smt2} {key n : Bytes32} {sibs : List (Trie Bytes32 Bytes32)}
    (hsibs : Siblings keyBit key 0 sibs)
    (hrest : ∀ k v, k ≠ key → ((∃ s ∈ sibs, s.Mem k v) ↔ t.get k = some v))
    (hlast : sibs.getLast? ≠ some .empty) :
    (t.assign key (some n)).root =
      graft keyBit key smt2Node 0 (sibs.map trieHash) (smt2Leaf key n) := by
  rw [Smt2.root_eq_hash, Smt2.trie_assign hsibs hrest, ← trieHash_leaf, ← trieHash_graft]
  exact congrArg trieHash (graft_join_leaf hlast)

/-- The padding of the insert branch grafts onto empty siblings. -/
theorem padWithEmpty_eq_graft (key : Bytes32) (depth n : Nat) (cur : Bytes32) :
    padWithEmpty key depth (depth + n) cur =
      graft keyBit key smt2Node depth (List.replicate n EMPTY) cur := by
  rw [padWithEmpty, Nat.add_sub_cancel_left]
  induction n generalizing depth with
  | zero => rfl
  | succ n ih =>
      rw [List.range'_succ, List.foldr_cons, ih, List.replicate_succ]
      rfl

/-- An update on an honest witness. -/
theorem Smt2.foldUp_update {t : Smt2} {key v : Bytes32} (h : t.get key = some v) (n : Bytes32) :
    foldUp (t.witness key) (smt2Leaf key n) = (t.assign key (some n)).root := by
  have hterm : ∀ k v, (t.path key).1.Mem k v → k = key := by
    intro k v' hm
    rcases t.path_cases key with ⟨w, hleaf, _⟩ | ⟨hget, _⟩
    · rw [hleaf] at hm
      exact hm.1
    · rw [h] at hget
      cases hget
  rw [t.foldUp_witness, Smt2.root_assign_leaf (t.path_siblings key) (Smt2.path_rest hterm)
    (t.path_getLast? key)]

/-- An insertion on an honest witness. -/
theorem Smt2.applyInsert_witness {t : Smt2} {key : Bytes32} (h : t.get key = none) (n : Bytes32) :
    applyInsert (t.witness key) n = .ok (t.assign key (some n)).root := by
  rw [applyInsert, t.witness_terminal]
  rcases t.path_cases key with ⟨v, _, hget⟩ | ⟨_, hterm | ⟨k, v, hne, hterm⟩⟩
  · rw [h] at hget
    cases hget
  · have hends : ∀ k v, (t.path key).1.Mem k v → k = key := by
      intro k v hm
      rw [hterm] at hm
      exact absurd hm Trie.mem_empty
    rw [hterm, Smt2.root_assign_leaf (t.path_siblings key) (Smt2.path_rest hends)
      (t.path_getLast? key), ← t.foldUp_witness]
    rfl
  · rcases firstDivergingBit_eq_ok (Ne.symm hne) with ⟨j, hj, hdiff, hsame⟩
    have hmem : (t.path key).1.Mem k v := by
      rw [hterm]
      exact ⟨rfl, rfl⟩
    -- the foreign leaf leaves the path below its terminal
    have hdepth : (t.path key).2.length ≤ j := by
      by_contra hlt
      have hbit := t.path_follows key (not_le.mp hlt) k v hmem
      rw [hdiff] at hbit
      simp at hbit
    obtain ⟨pad, rfl⟩ := Nat.exists_eq_add_of_le hdepth
    let fork : List (Trie Bytes32 Bytes32) := List.replicate pad .empty ++ [.leaf k v]
    have hfork : Siblings keyBit key (0 + (t.path key).2.length) fork := by
      have hpad : Siblings keyBit key (t.path key).2.length
          (List.replicate ((t.path key).2.length + pad - (t.path key).2.length) Trie.empty ++
            [.leaf k v]) :=
        siblings_fork (Nat.le_add_right _ pad) (fun i _ hi => hsame i hi) hdiff
      rwa [Nat.add_sub_cancel_left, ← Nat.zero_add (t.path key).2.length] at hpad
    have hsibs : Siblings keyBit key 0 ((t.path key).2 ++ fork) := by
      refine (t.path_siblings key).append hfork ?_
      intro s hs i _ hi k' v' hm
      rw [Nat.zero_add] at hi
      rcases List.mem_append.mp hs with hpad | hleaf
      · rw [List.eq_of_mem_replicate hpad] at hm
        exact absurd hm Trie.mem_empty
      · rw [List.mem_singleton.mp hleaf] at hm
        rw [hm.1]
        exact hsame i (by omega)
    have hrest : ∀ k' v', k' ≠ key →
        ((∃ s ∈ (t.path key).2 ++ fork, s.Mem k' v') ↔ t.get k' = some v') := by
      intro k' v' _
      rw [Smt2.mem_path key, hterm]
      simp [fork, or_and_right, exists_or, List.mem_replicate]
    rw [hterm, Smt2.root_assign_leaf hsibs hrest (by simp [fork])]
    simp only [terminalOf, if_neg hne]
    refine bind_eq_ok.mpr ⟨_, hj, congrArg Except.ok ?_⟩
    rw [t.foldUp_witness, t.witness_depth]
    simp only [Smt2.witness_key, padWithEmpty_eq_graft, fork, List.map_append, List.map_replicate,
      graft_append, List.map_singleton, graft_singleton, List.length_map, List.length_replicate,
      Nat.zero_add, trieHash_empty, trieHash_leaf]
    rfl

/-- The kind-proof of a subtrie. -/
def kindOf : Trie Bytes32 Bytes32 → Option SiblingKind
  | .empty => none
  | .leaf k v => some (.leaf k v)
  | .node l r => some (.node (trieHash l) (trieHash r))

omit [Primitives] in
/-- The sibling next to a present key holds the entries that part from it there. -/
theorem Smt2.mem_last_sibling {t : Smt2} {key v : Bytes32} (h : t.get key = some v)
    {init : List (Trie Bytes32 Bytes32)} {s : Trie Bytes32 Bytes32}
    (hpath : (t.path key).2 = init ++ [s]) {k w : Bytes32} :
    s.Mem k w ↔ t.get k = some w ∧ (∀ i, i < init.length → keyBit k i = keyBit key i) ∧
      keyBit k init.length ≠ keyBit key init.length := by
  have hsibs := t.path_siblings key
  rw [hpath] at hsibs
  rcases hsibs.last with ⟨_, hleave, hfollow⟩
  rw [Nat.zero_add] at hleave hfollow
  rw [Smt2.mem_path key, hpath]
  constructor
  · intro hm
    refine ⟨.inl ⟨s, by simp, hm⟩, fun i hi => hfollow i (Nat.zero_le i) hi k w hm, ?_⟩
    rw [hleave k w hm]
    simp
  · intro hm
    rcases hm with ⟨⟨s', hs', hm'⟩ | hterm, hagree, hdiff⟩
    · rcases List.mem_append.mp hs' with hinit | hlast
      · -- an earlier sibling would part from the key too early
        rcases hsibs.init.exists_leaving hinit with ⟨i, _, hi, hpart⟩
        rw [Nat.zero_add] at hi
        have hbit := hpart k w hm'
        rw [hagree i hi] at hbit
        simp at hbit
      · rw [← List.mem_singleton.mp hlast]
        exact hm'
    · rcases t.path_cases key with ⟨u, hleaf, _⟩ | ⟨hnone, _⟩
      · rw [hleaf] at hterm
        rw [hterm.1] at hdiff
        exact absurd rfl hdiff
      · rw [h] at hnone
        cases hnone

/-- The entries that part from the key at a level, as the host filters them. -/
def Smt2.parting (t : Smt2) (key : Bytes32) (lvl : Nat) : List (Bytes32 × Bytes32) :=
  t.leaves.toList.filter fun e =>
    (List.range lvl).all (fun b => keyBit e.1 b == keyBit key b) &&
      keyBit e.1 lvl != keyBit key lvl

omit [Primitives] in
theorem Smt2.mem_parting {t : Smt2} {key : Bytes32} {lvl : Nat} {k w : Bytes32} :
    (k, w) ∈ t.parting key lvl ↔ t.get k = some w ∧
      (∀ i, i < lvl → keyBit k i = keyBit key i) ∧ keyBit k lvl ≠ keyBit key lvl := by
  simp only [Smt2.parting, List.mem_filter, KeyedMap.mem_toList, Bool.and_eq_true,
    List.all_eq_true, List.mem_range, beq_iff_eq, bne_iff_ne]
  rfl

omit [Primitives] in
theorem Smt2.parting_sorted (t : Smt2) (key : Bytes32) {lvl : Nat} (hlvl : lvl < 256) :
    BitSorted keyBit (lvl + 1) (lvl + 1 + (256 - (lvl + 1))) (t.parting key lvl) := by
  refine List.Pairwise.imp_of_mem ?_ (List.Pairwise.filter _ t.bitSorted)
  intro a b ha hb hlt
  rw [Nat.zero_add] at hlt
  rw [Nat.add_sub_cancel' hlvl]
  refine hlt.below (Nat.zero_le _) ?_
  intro i _ hi
  have ha' := (Smt2.mem_parting.mp ha).2
  have hb' := (Smt2.mem_parting.mp hb).2
  rcases Nat.eq_or_lt_of_le (Nat.le_of_lt_succ hi) with rfl | hlt'
  · rw [Bool.eq_not.mpr ha'.2, Bool.eq_not.mpr hb'.2]
  · rw [ha'.1 i hlt', hb'.1 i hlt']

omit [Primitives] in
/-- The sibling next to a present key is the trie of the entries that part there. -/
theorem Smt2.last_sibling_eq {t : Smt2} {key v : Bytes32} (h : t.get key = some v)
    {init : List (Trie Bytes32 Bytes32)} {s : Trie Bytes32 Bytes32}
    (hpath : (t.path key).2 = init ++ [s]) (hlvl : init.length < 256) :
    s = build keyBit (256 - (init.length + 1)) (t.parting key init.length) (init.length + 1) := by
  have hsibs := t.path_siblings key
  rw [hpath] at hsibs
  have hcanon := hsibs.last.1
  rw [Nat.zero_add] at hcanon
  refine hcanon.eq_of_mem_iff (build_canon (t.parting_sorted key hlvl)) ?_
  intro k w
  rw [mem_build (t.parting_sorted key hlvl), Smt2.mem_parting, Smt2.mem_last_sibling h hpath]

theorem Smt2.deleteKind_eq {t : Smt2} {key v : Bytes32} (h : t.get key = some v) :
    (t.witness key).deleteKind = t.firstNonemptySiblingKind key (t.witness key).siblings := by
  rcases t.path_cases key with ⟨u, hleaf, _⟩ | ⟨hnone, _⟩
  · have hterm := t.witness_terminal key
    rw [hleaf, terminalOf, if_pos rfl] at hterm
    have hend : (witnessDescent key 256 t.leaves.toList 0).1 = .leaf u := hterm
    unfold Smt2.witness
    simp only [hend]
  · rw [h] at hnone
    cases hnone

/-- The siblings of an honest witness, the one next to the key first. -/
theorem Smt2.witness_siblings_cons {t : Smt2} {key : Bytes32}
    {init : List (Trie Bytes32 Bytes32)} {s : Trie Bytes32 Bytes32}
    (hpath : (t.path key).2 = init ++ [s]) :
    (t.witness key).siblings = trieHash s :: (init.map trieHash).reverse := by
  rw [t.witness_siblings, hpath, List.map_append, List.reverse_append]
  rfl

/-- The strings of a sibling are the map's. -/
theorem Smt2.sibling_preimages {t : Smt2} {key : Bytes32} {s : Trie Bytes32 Bytes32}
    (hs : s ∈ (t.path key).2) : triePreimages s ⊆ t.preimages := by
  have hsub := subset_of_mem_descend smt2Hashing hs
  apply List.append_subset.mpr
  constructor
  · exact List.subset_append_of_subset_left _ (List.map_subset _ hsub.1)
  · exact List.subset_append_of_subset_right _ (List.map_subset _ hsub.2)

/-- A sibling that holds anything does not hash to the empty root. -/
theorem Smt2.sibling_ne_empty {t : Smt2} (hz : NonzeroOn t.preimages) {key : Bytes32}
    {s : Trie Bytes32 Bytes32} (hs : s ∈ (t.path key).2) (hne : s ≠ .empty) :
    trieHash s ≠ EMPTY := by
  intro heq
  exact hne ((trieHash_eq_empty (hz.mono (Smt2.sibling_preimages hs))).mp heq)

/-- The kind-proof an honest witness carries is its last sibling's. -/
theorem Smt2.deleteKind_witness {t : Smt2} (hz : NonzeroOn t.preimages) {key v : Bytes32}
    (h : t.get key = some v) {init : List (Trie Bytes32 Bytes32)} {s : Trie Bytes32 Bytes32}
    (hpath : (t.path key).2 = init ++ [s]) (hne : s ≠ .empty) :
    (t.witness key).deleteKind = kindOf s := by
  have hlvl : init.length < 256 := by
    have hlen : (t.path key).2.length ≤ 256 := descend_build_length
    rwa [hpath, List.length_append, List.length_singleton] at hlen
  have hs := Smt2.last_sibling_eq h hpath hlvl
  have hfirst : (trieHash s :: (init.map trieHash).reverse).findIdx? (· ≠ EMPTY) = some 0 := by
    have hs' : s ∈ (t.path key).2 := by simp [hpath]
    have hhash := Smt2.sibling_ne_empty hz hs' hne
    simp [List.findIdx?_cons, hhash]
  have hlen : (trieHash s :: (init.map trieHash).reverse).length - 1 - 0 = init.length := by
    simp
  rw [Smt2.deleteKind_eq h, Smt2.firstNonemptySiblingKind, Smt2.witness_siblings_cons hpath, hfirst]
  dsimp only
  rw [hlen]
  have hentries : (t.leaves.toList.filter fun e =>
      (List.range init.length).all (fun b => keyBit e.1 b == keyBit key b) &&
        keyBit e.1 init.length != keyBit key init.length) = t.parting key init.length := rfl
  rw [hentries]
  rcases hparting : t.parting key init.length with _ | ⟨a, _ | ⟨b, rest⟩⟩
  · rw [hparting, build_nil] at hs
    exact absurd hs hne
  · rw [hparting, build_singleton] at hs
    rw [hs]
    rfl
  · rw [hparting] at hs
    cases hbelow : 256 - (init.length + 1) with
    | zero =>
        rw [hbelow] at hs
        exact absurd hs hne
    | succ below =>
        have hnext : 256 - (init.length + 2) = below := by omega
        rw [hbelow] at hs
        rw [hs, hnext]
        simp only [subtreeRoot_eq_hash]
        rfl

/-- No hash next to a path's end is empty. -/
theorem takeWhile_hashes {upper : List (Trie Bytes32 Bytes32)}
    (hz : ∀ s ∈ upper, s ≠ .empty → trieHash s ≠ EMPTY) (hlast : upper.getLast? ≠ some .empty) :
    (upper.map trieHash).reverse.takeWhile (fun x => x = EMPTY) = [] := by
  rcases List.eq_nil_or_concat upper with rfl | ⟨init, s, rfl⟩
  · rfl
  · have hs : trieHash s ≠ EMPTY := by
      apply hz s (by simp)
      rintro rfl
      simp at hlast
    simp [hs]

/-- A deletion on an honest witness. -/
theorem Smt2.applyDelete_witness {t : Smt2} (hz : NonzeroOn t.preimages) {key v : Bytes32}
    (h : t.get key = some v) : applyDelete (t.witness key) = .ok (t.assign key none).root := by
  have hterm : ∀ k v, (t.path key).1.Mem k v → k = key := by
    intro k v' hm
    rcases t.path_cases key with ⟨w, hleaf, _⟩ | ⟨hget, _⟩
    · rw [hleaf] at hm
      exact hm.1
    · rw [h] at hget
      cases hget
  have hroot : (t.assign key none).root =
      trieHash (graft keyBit key Trie.join 0 (t.path key).2 .empty) := by
    rw [Smt2.root_eq_hash, Smt2.trie_assign (t.path_siblings key) (Smt2.path_rest hterm)]
    rfl
  rcases List.eq_nil_or_concat (t.path key).2 with hpath | ⟨init, s, hpath⟩
  · rw [hroot, applyDelete, t.witness_siblings, hpath]
    rfl
  · rw [List.concat_eq_append] at hpath
    have hne : s ≠ .empty := by
      intro hs
      have hlast := t.path_getLast? key
      rw [hpath, List.getLast?_concat, hs] at hlast
      exact hlast rfl
    have hs : s ∈ (t.path key).2 := by simp [hpath]
    have hhash := Smt2.sibling_ne_empty hz hs hne
    have hfirst : (trieHash s :: (init.map trieHash).reverse).findIdx? (· ≠ EMPTY) = some 0 := by
      simp [List.findIdx?_cons, hhash]
    rw [hroot, hpath, applyDelete, Smt2.deleteKind_witness hz h hpath hne,
      Smt2.witness_siblings_cons hpath, hfirst]
    cases s with
    | empty => exact absurd rfl hne
    | leaf sk sv =>
        rcases exists_trailing_empty init with ⟨upper, n, rfl, hlast⟩
        refine bind_eq_ok.mpr ⟨_, rfl, bind_eq_ok.mpr ⟨(), ensure_of rfl, congrArg Except.ok ?_⟩⟩
        have hbelow : ((upper ++ List.replicate n Trie.empty).map trieHash).reverse =
            List.replicate n EMPTY ++ (upper.map trieHash).reverse := by
          simp
        have hskipped : ((List.replicate n EMPTY ++ (upper.map trieHash).reverse).takeWhile
            fun x => x = EMPTY).length = n := by
          have hupper : ∀ s ∈ upper, s ≠ .empty → trieHash s ≠ EMPTY := by
            intro u hu
            have hsib : u ∈ (t.path key).2 := by simp [hpath, hu]
            exact Smt2.sibling_ne_empty hz hsib
          rw [List.takeWhile_append_of_pos (by simp), takeWhile_hashes hupper hlast,
            List.append_nil, List.length_replicate]
        have hclimb := climb_reverse key (upper.map trieHash) (0 + 1 + n) (smt2Leaf sk sv)
        rw [graft_join_lone_leaf hlast, trieHash_graft, trieHash_leaf, ← hclimb]
        simp only [Smt2.witness_key, List.drop_succ_cons, List.drop_zero, hbelow, hskipped,
          Nat.zero_add]
        have hlength : (smt2Leaf sk sv :: (List.replicate n EMPTY ++
            (upper.map trieHash).reverse)).length = (upper.map trieHash).length + (1 + n) := by
          simp
          omega
        have hdrop : (smt2Leaf sk sv :: (List.replicate n EMPTY ++
            (upper.map trieHash).reverse)).drop (1 + n) = (upper.map trieHash).reverse := by
          rw [Nat.add_comm, List.drop_succ_cons]
          exact List.drop_left' List.length_replicate
        rw [hlength, hdrop]
        rfl
    | node l r =>
        refine bind_eq_ok.mpr ⟨_, rfl, bind_eq_ok.mpr ⟨(), ensure_of rfl, congrArg Except.ok ?_⟩⟩
        have hfold := t.foldUp_witness key EMPTY
        rw [foldUp, Smt2.witness_siblings_cons hpath, hpath, ← trieHash_empty,
          ← trieHash_graft] at hfold
        rw [graft_join_below_node]
        exact hfold

/-! ## The whole step -/

/-- The terminal says what the caller claims. -/
def Claims : SmtTerminal → Option Bytes32 → Prop
  | .leaf v, some o => v = o
  | .empty, none => True
  | .otherLeaf _ _, none => True
  | _, _ => False

/-- The root a step returns once its witness is accepted. -/
def stepResult (w : SmtWitness) : Option Bytes32 → Option Bytes32 → Run Bytes32
  | some _, some n => pure (foldUp w (smt2Leaf w.key n))
  | none, some n => applyInsert w n
  | some _, none => applyDelete w
  | none, none => .error (.panic "smt2: a no-op step (absent → absent) is not a step")

/-- A step is accepted exactly when its terminal bears the claim out and its
witness folds to the running root. -/
theorem applyStep_eq_ok_iff {running root : Bytes32} {w : SmtWitness} {old new : Option Bytes32} :
    applyStep running w old new = .ok root ↔
      w.siblings.length ≤ 256 ∧ Claims w.terminal old ∧
        (∃ start, terminalStart w = .ok start ∧ foldUp w start = running) ∧
          stepResult w old new = .ok root := by
  have hresult : (do
      let start ← terminalStart w
      ensure (foldUp w start = running)
        "smt2: stale path — witness does not fold to the running root"
      match old, new with
      | some _, some n => pure (foldUp w (smt2Leaf w.key n))
      | none, some n => applyInsert w n
      | some _, none => applyDelete w
      | none, none => .error (.panic "smt2: a no-op step (absent → absent) is not a step")) =
        .ok root ↔ (∃ start, terminalStart w = .ok start ∧ foldUp w start = running) ∧
          stepResult w old new = .ok root := by
    rw [bind_eq_ok]
    constructor
    · intro h
      rcases h with ⟨start, hstart, hrest⟩
      rcases ensure_bind_eq_ok.mp hrest with ⟨hfold, hres⟩
      refine ⟨⟨start, hstart, hfold⟩, ?_⟩
      cases old <;> cases new <;> exact hres
    · intro h
      rcases h with ⟨⟨start, hstart, hfold⟩, hres⟩
      refine ⟨start, hstart, ensure_bind_eq_ok.mpr ⟨hfold, ?_⟩⟩
      cases old <;> cases new <;> exact hres
  unfold applyStep
  rw [ensure_bind_eq_ok]
  refine and_congr_right fun _ => ?_
  cases hterm : w.terminal with
  | leaf v =>
      cases old with
      | none => exact iff_of_false (fun h => nomatch h) fun h => h.1
      | some o =>
          change (ensure (v = o) _ >>= _) = _ ↔ _
          rw [ensure_bind_eq_ok]
          exact and_congr_right fun _ => hresult
  | empty =>
      cases old with
      | none => exact hresult.trans (and_iff_right trivial).symm
      | some o => exact iff_of_false (fun h => nomatch h) fun h => h.1
  | otherLeaf ok ov =>
      cases old with
      | none => exact hresult.trans (and_iff_right trivial).symm
      | some o => exact iff_of_false (fun h => nomatch h) fun h => h.1

/-- Every step of the map on an honest witness is accepted and returns the root of
the stepped map. -/
theorem Smt2.applyStep_witness {t : Smt2} (hz : NonzeroOn t.preimages) {key : Bytes32}
    {old new : Option Bytes32} (hold : t.get key = old) (h : old.isSome ∨ new.isSome) :
    applyStep t.root (t.witness key) old new = .ok (t.assign key new).root := by
  refine applyStep_eq_ok_iff.mpr ⟨?_, ?_, ⟨_, t.terminalStart_witness key, t.foldUp_root key⟩, ?_⟩
  · rw [t.witness_depth]
    exact descend_build_length
  · rw [t.witness_terminal]
    rcases t.path_cases key with ⟨v, hterm, hget⟩ | ⟨hget, hterm | ⟨k, v, hne, hterm⟩⟩
    · rw [← hold, hget, hterm, terminalOf, if_pos rfl]
      rfl
    · rw [← hold, hget, hterm]
      trivial
    · rw [← hold, hget, hterm, terminalOf, if_neg hne]
      trivial
  · cases old with
    | some v =>
        cases new with
        | some n => exact congrArg Except.ok (Smt2.foldUp_update hold n)
        | none => exact Smt2.applyDelete_witness hz hold
    | none =>
        cases new with
        | some n => exact Smt2.applyInsert_witness hold n
        | none => simp at h

end Hashes

end StateKeeper
