import StateKeeper.Engine.Smt2Binding
import StateKeeper.Foundation.MerkleTree
import StateKeeper.Tree.FramesSpec

/-!
# Tree - The root pins the tree

A root is the hash of a trie whose leaves hash accounts, each of which hashes a
Merkle root over position hashes.  Keccak cannot be injective on all byte
strings, so the assumption is about the strings two given trees hash: no two of
them collide.

Main results:

- Theorem {lit}`positions_eq_of_root_eq`: a positions root fixes the book.
- Theorem {lit}`account_eq_of_leaf_eq`: a leaf fixes the account.
- Theorem {lit}`TreeState.eq_of_root_eq`: a root fixes the tree.
-/

namespace StateKeeper

open Words Fallible SortedKeys KeyedMap CompactTrie MerkleTree

section Binding

variable [Primitives]

/-! ## The strings a tree hashes -/

/-- What a pair of the Merkle tree hashes, the smaller digest first. -/
def ozPairBytes (p : Bytes32 × Bytes32) : Bytes :=
  if p.1 ≤ p.2 then beBytes 32 p.1 ++ beBytes 32 p.2 else beBytes 32 p.2 ++ beBytes 32 p.1

/-- The two strings a position's leaf hashes. -/
def PositionRecord.preimages (b : PositionRecord) : List Bytes :=
  [positionLeafBytes b, beBytes 32 (keccak [positionLeafBytes b])]

/-- The leaves of an account's positions root. -/
def AccountState.positionLeaves (a : AccountState) : List Bytes32 :=
  (sortBy PositionRecord.termsId a.positions).map positionLeaf

/-- The strings hashed for one account. -/
def AccountState.preimages (a : AccountState) (aid : Bytes32) : List Bytes :=
  [zeros 12 ++ beBytes 20 a.owner,
      accountLeafBytes aid a.vmEquity (positionsRoot a.positions),
      beBytes 32 (keccak [accountLeafBytes aid a.vmEquity (positionsRoot a.positions)])] ++
    a.positions.flatMap PositionRecord.preimages ++
    (hashedPairs ozHashPair a.positionLeaves.length a.positionLeaves).map ozPairBytes

/-- The trie under a tree's root. -/
def TreeState.trie (t : TreeState) : Trie Bytes32 Bytes32 :=
  (Smt2.fromLeaves t.leaves).trie

/-- The strings hashed for a tree's root and keys. -/
def TreeState.preimages (t : TreeState) : List Bytes :=
  t.trie.entries.map smt2LeafBytes ++ (t.trie.nodePairs smt2Hashing).map smt2NodeBytes ++
    t.accounts.toList.flatMap fun e => e.2.preimages e.1

theorem ozHashPair_eq (a b : Bytes32) :
    ozHashPair a b = Primitives.keccak256 (ozPairBytes (a, b)) := by
  unfold ozHashPair ozPairBytes keccakPair
  by_cases hle : a ≤ b
  · simp [hle, keccak]
  · simp [hle, keccak]

/-! ## The encoders are injective -/

omit [Primitives] in
theorem ozPairBytes_length (p : Bytes32 × Bytes32) : (ozPairBytes p).length = 64 := by
  unfold ozPairBytes
  split <;> simp

omit [Primitives] in
/-- A pair's string fixes the pair up to order. -/
theorem ozPairBytes_injective {p q : Bytes32 × Bytes32} (h : ozPairBytes p = ozPairBytes q) :
    p = q ∨ p = q.swap := by
  obtain ⟨a, b⟩ := p
  obtain ⟨c, d⟩ := q
  have hwords : ∀ {x y z w : Bytes32},
      beBytes 32 x ++ beBytes 32 y = beBytes 32 z ++ beBytes 32 w → x = z ∧ y = w := by
    intro x y z w hbytes
    rcases append_inj_of_length (by simp) hbytes with ⟨hfirst, hlast⟩
    exact ⟨beBytes32_injective hfirst, beBytes32_injective hlast⟩
  unfold ozPairBytes at h
  by_cases hab : a ≤ b <;> by_cases hcd : c ≤ d
  · simp only [if_pos hab, if_pos hcd] at h
    rcases hwords h with ⟨rfl, rfl⟩
    exact Or.inl rfl
  · simp only [if_pos hab, if_neg hcd] at h
    rcases hwords h with ⟨rfl, rfl⟩
    exact Or.inr rfl
  · simp only [if_neg hab, if_pos hcd] at h
    rcases hwords h with ⟨rfl, rfl⟩
    exact Or.inr rfl
  · simp only [if_neg hab, if_neg hcd] at h
    rcases hwords h with ⟨rfl, rfl⟩
    exact Or.inl rfl

omit [Primitives] in
theorem accountLeafBytes_injective {aid aid' root root' : Bytes32} {vm vm' : I128}
    (h : accountLeafBytes aid vm root = accountLeafBytes aid' vm' root') :
    vm = vm' ∧ root = root' := by
  rcases List.append_inj' h (by simp) with ⟨hfront, hroot⟩
  rcases List.append_inj' hfront (by simp) with ⟨_, hvm⟩
  rcases List.append_inj' hvm (by simp) with ⟨_, hlow⟩
  exact ⟨beBytes_injective (by omega) hlow, beBytes32_injective hroot⟩

omit [Primitives] in
/-- A position's nine words fix each of its fields. -/
theorem positionLeafBytes_injective {b c : PositionRecord}
    (h : positionLeafBytes b = positionLeafBytes c) : b = c := by
  rcases List.append_inj' h (by simp) with ⟨h, hmarketKey⟩
  rcases List.append_inj' h (by simp) with ⟨h, hpushedIm⟩
  rcases List.append_inj' h (by simp) with ⟨h, hexpiry⟩
  rcases List.append_inj' h (by simp) with ⟨h, hside⟩
  rcases List.append_inj' h (by simp) with ⟨h, hentryRate⟩
  rcases List.append_inj' h (by simp) with ⟨h, hnotional⟩
  rcases List.append_inj' h (by simp) with ⟨h, horacle⟩
  rcases List.append_inj' h (by simp) with ⟨htermsId, hcounterparty⟩
  -- each word ends in its field
  have hfield : ∀ {w n m : Nat} {x y : BitVec w}, w ≤ 8 * n →
      zeros m ++ beBytes n x = zeros m ++ beBytes n y → x = y := by
    intro w n m x y hw hbytes
    exact beBytes_injective hw (List.append_cancel_left hbytes)
  have hpolar : b.side = c.side := by
    rcases List.append_inj' hside (by simp) with ⟨_, hlow⟩
    exact (List.cons.inj hlow).1
  obtain ⟨_, _, _, _, _, _, _, _, _⟩ := b
  obtain ⟨_, _, _, _, _, _, _, _, _⟩ := c
  simp only [PositionRecord.mk.injEq]
  exact ⟨beBytes32_injective htermsId, hfield (by omega) hcounterparty, hfield (by omega) horacle,
    hfield (by omega) hnotional, hfield (by omega) hentryRate, hpolar, hfield (by omega) hexpiry,
    hfield (by omega) hpushedIm, beBytes32_injective hmarketKey⟩

/-! ## A positions root fixes the book -/

theorem merkleLevel_eq (xs : List Bytes32) : merkleLevel xs = level ozHashPair xs := by
  induction xs using level.induct with
  | case1 a b rest ih => simp [merkleLevel, level, ih]
  | case2 a => rfl
  | case3 => rfl

theorem merkleRootLevels_eq (fuel : Nat) (xs : List Bytes32) :
    merkleRootLevels fuel xs = rootLevels ozHashPair 0 fuel xs := by
  induction fuel generalizing xs with
  | zero => rcases xs with _ | ⟨a, _ | ⟨b, rest⟩⟩ <;> rfl
  | succ fuel ih =>
      rcases xs with _ | ⟨a, _ | ⟨b, rest⟩⟩
      · rfl
      · rfl
      · simp only [merkleRootLevels, rootLevels, merkleLevel_eq, ih]

theorem positionsRoot_eq {a : AccountState} (hne : a.positions ≠ []) :
    positionsRoot a.positions =
      rootLevels ozHashPair 0 a.positionLeaves.length a.positionLeaves := by
  rw [positionsRoot, if_neg (by simpa using hne), merkleRoot, merkleRootLevels_eq]
  rfl

theorem positionLeaf_eq (b : PositionRecord) :
    positionLeaf b = Primitives.keccak256 (beBytes 32 (keccak [positionLeafBytes b])) := by
  rw [positionLeaf, keccak_singleton]

variable {a b : AccountState} {aid bid : Bytes32}

theorem mem_positionLeaves {d : Bytes32} :
    d ∈ a.positionLeaves ↔ ∃ p ∈ a.positions, positionLeaf p = d := by
  simp [AccountState.positionLeaves, mem_sortBy]

theorem mem_preimages_of_position {p : PositionRecord} (hp : p ∈ a.positions) {bs : Bytes}
    (hbs : bs ∈ p.preimages) : bs ∈ a.preimages aid := by
  simp only [AccountState.preimages, List.mem_append, List.mem_flatMap]
  exact Or.inl (Or.inr ⟨p, hp, hbs⟩)

theorem mem_preimages_of_pair {p : Bytes32 × Bytes32}
    (hp : p ∈ hashedPairs ozHashPair a.positionLeaves.length a.positionLeaves) :
    ozPairBytes p ∈ a.preimages aid := by
  simp only [AccountState.preimages, List.mem_append]
  exact Or.inr (List.mem_map_of_mem hp)

/-- Positions with one leaf are equal. -/
theorem eq_of_positionLeaf_eq (hc : NoCollision (a.preimages aid ++ b.preimages bid))
    {p q : PositionRecord} (hp : p ∈ a.positions) (hq : q ∈ b.positions)
    (h : positionLeaf p = positionLeaf q) : p = q := by
  have hmemp : ∀ bs ∈ p.preimages, bs ∈ a.preimages aid ++ b.preimages bid := fun bs hbs =>
    List.mem_append_left _ (mem_preimages_of_position hp hbs)
  have hmemq : ∀ bs ∈ q.preimages, bs ∈ a.preimages aid ++ b.preimages bid := fun bs hbs =>
    List.mem_append_right _ (mem_preimages_of_position hq hbs)
  rw [positionLeaf_eq, positionLeaf_eq] at h
  have houter := beBytes32_injective (hc _ (hmemp _ (by simp [PositionRecord.preimages])) _
    (hmemq _ (by simp [PositionRecord.preimages])) h)
  rw [keccak_singleton, keccak_singleton] at houter
  exact positionLeafBytes_injective (hc _ (hmemp _ (by simp [PositionRecord.preimages])) _
    (hmemq _ (by simp [PositionRecord.preimages])) houter)

/-- A leaf hashes one word, a pair two, so neither is taken for the other. -/
theorem positionLeaves_binding (hc : NoCollision (a.preimages aid ++ b.preimages bid)) :
    MerkleTree.Binding ozHashPair a.positionLeaves b.positionLeaves
      (hashedPairs ozHashPair a.positionLeaves.length a.positionLeaves)
      (hashedPairs ozHashPair b.positionLeaves.length b.positionLeaves) where
  pair p hp q hq h := by
    rw [ozHashPair_eq, ozHashPair_eq] at h
    exact ozPairBytes_injective (hc _ (List.mem_append_left _ (mem_preimages_of_pair hp)) _
      (List.mem_append_right _ (mem_preimages_of_pair hq)) h)
  left d hd q hq h := by
    rcases mem_positionLeaves.mp hd with ⟨p, hp, rfl⟩
    rw [positionLeaf_eq, ozHashPair_eq] at h
    have hbytes := hc _ (List.mem_append_left _ (mem_preimages_of_position hp
      (by simp [PositionRecord.preimages]))) _
      (List.mem_append_right _ (mem_preimages_of_pair hq)) h
    have hlength := congrArg List.length hbytes
    rw [ozPairBytes_length, beBytes_length] at hlength
    omega
  right p hp d hd h := by
    rcases mem_positionLeaves.mp hd with ⟨q, hq, rfl⟩
    rw [positionLeaf_eq, ozHashPair_eq] at h
    have hbytes := hc _ (List.mem_append_left _ (mem_preimages_of_pair hp)) _
      (List.mem_append_right _ (mem_preimages_of_position hq
        (by simp [PositionRecord.preimages]))) h
    have hlength := congrArg List.length hbytes
    rw [ozPairBytes_length, beBytes_length] at hlength
    omega

/-- Non-empty books with one root have the same leaves up to order. -/
theorem positionLeaves_perm_of_root_eq (hc : NoCollision (a.preimages aid ++ b.preimages bid))
    (ha : a.positions ≠ []) (hb : b.positions ≠ [])
    (h : positionsRoot a.positions = positionsRoot b.positions) :
    a.positionLeaves.Perm b.positionLeaves := by
  have hne : ∀ {c : AccountState}, c.positions ≠ [] → c.positionLeaves ≠ [] := by
    intro c hc hnil
    apply hc
    rw [AccountState.positionLeaves, List.map_eq_nil_iff, sortBy_eq_nil] at hnil
    exact hnil
  rw [positionsRoot_eq ha, positionsRoot_eq hb] at h
  exact perm_of_rootLevels_eq (hne ha) (hne hb) (positionLeaves_binding hc) h

/-- Non-empty books with one root hold the same positions. -/
theorem mem_positions_of_root_eq (hc : NoCollision (a.preimages aid ++ b.preimages bid))
    (ha : a.positions ≠ []) (hb : b.positions ≠ [])
    (h : positionsRoot a.positions = positionsRoot b.positions) (p : PositionRecord) :
    p ∈ a.positions ↔ p ∈ b.positions := by
  have hleaves := positionLeaves_perm_of_root_eq hc ha hb h
  constructor
  · intro hp
    rcases mem_positionLeaves.mp (hleaves.mem_iff.mp (mem_positionLeaves.mpr ⟨p, hp, rfl⟩)) with
      ⟨q, hq, hleaf⟩
    rw [eq_of_positionLeaf_eq hc hp hq hleaf.symm]
    exact hq
  · intro hp
    rcases mem_positionLeaves.mp (hleaves.mem_iff.mpr (mem_positionLeaves.mpr ⟨p, hp, rfl⟩)) with
      ⟨q, hq, hleaf⟩
    rw [← eq_of_positionLeaf_eq hc hq hp hleaf]
    exact hq

/-- Non-empty ascending books with one root are equal. -/
theorem positions_eq_of_root_eq (hc : NoCollision (a.preimages aid ++ b.preimages bid))
    (ha : a.positions ≠ []) (hb : b.positions ≠ [])
    (hsa : StrictBy PositionRecord.termsId a.positions)
    (hsb : StrictBy PositionRecord.termsId b.positions)
    (h : positionsRoot a.positions = positionsRoot b.positions) : a.positions = b.positions := by
  apply eq_of_perm_of_strict hsa hsb
  rw [List.perm_ext_iff_of_nodup (List.Nodup.of_map _ hsa.nodup_map)
    (List.Nodup.of_map _ hsb.nodup_map)]
  exact mem_positions_of_root_eq hc ha hb h

/-! ## A leaf fixes the account -/

theorem AccountState.leaf_eq (a : AccountState) (aid : Bytes32) :
    a.leaf aid = Primitives.keccak256
      (beBytes 32 (keccak [accountLeafBytes aid a.vmEquity (positionsRoot a.positions)])) := by
  rw [AccountState.leaf, accountLeaf, keccak_singleton]

/-- Accounts of one aid with one leaf have one owner, one value and one positions root. -/
theorem leaf_injective (hc : NoCollision (a.preimages aid ++ b.preimages aid))
    (howner : accountIdSingle a.owner = accountIdSingle b.owner)
    (h : a.leaf aid = b.leaf aid) :
    a.owner = b.owner ∧ a.vmEquity = b.vmEquity ∧
      positionsRoot a.positions = positionsRoot b.positions := by
  have hmem : ∀ {x y : Bytes}, x ∈ a.preimages aid → y ∈ b.preimages aid →
      Primitives.keccak256 x = Primitives.keccak256 y → x = y := by
    intro x y hx hy
    exact hc x (List.mem_append_left _ hx) y (List.mem_append_right _ hy)
  have hsame : a.owner = b.owner := by
    rw [accountIdSingle, accountIdSingle, keccak_singleton, keccak_singleton] at howner
    have hbytes := hmem (by simp [AccountState.preimages]) (by simp [AccountState.preimages]) howner
    exact beBytes_injective (by omega) (List.append_cancel_left hbytes)
  rw [AccountState.leaf_eq, AccountState.leaf_eq] at h
  have hinner := beBytes32_injective
    (hmem (by simp [AccountState.preimages]) (by simp [AccountState.preimages]) h)
  rw [keccak_singleton, keccak_singleton] at hinner
  exact ⟨hsame, accountLeafBytes_injective
    (hmem (by simp [AccountState.preimages]) (by simp [AccountState.preimages]) hinner)⟩

/-- Accounts of one aid with one leaf are equal. -/
theorem account_eq_of_leaf_eq (hc : NoCollision (a.preimages aid ++ b.preimages aid))
    (howner : accountIdSingle a.owner = accountIdSingle b.owner)
    (ha : a.positions ≠ []) (hb : b.positions ≠ [])
    (hsa : StrictBy PositionRecord.termsId a.positions)
    (hsb : StrictBy PositionRecord.termsId b.positions)
    (h : a.leaf aid = b.leaf aid) : a = b := by
  rcases leaf_injective hc howner h with ⟨hsame, hvm, hroot⟩
  have hbook := positions_eq_of_root_eq hc ha hb hsa hsb hroot
  obtain ⟨_, _, _⟩ := a
  obtain ⟨_, _, _⟩ := b
  simp only [AccountState.mk.injEq]
  exact ⟨hsame, hvm, hbook⟩

/-! ## A root fixes the tree -/

/-- The tagged strings of two trees are told apart by their digests. -/
theorem tries_separate {s t : TreeState} (hz : NonzeroOn (s.preimages ++ t.preimages))
    (hc : NoCollision (s.preimages ++ t.preimages)) :
    smt2Hashing.Separates s.trie.entries t.trie.entries (s.trie.nodePairs smt2Hashing)
      (t.trie.nodePairs smt2Hashing) := by
  have hleaf : ∀ {u : TreeState} {e}, e ∈ u.trie.entries → smt2LeafBytes e ∈ u.preimages := by
    intro u e he
    simp only [TreeState.preimages, List.mem_append]
    exact Or.inl (Or.inl (List.mem_map_of_mem he))
  have hnode : ∀ {u : TreeState} {p}, p ∈ u.trie.nodePairs smt2Hashing →
      smt2NodeBytes p ∈ u.preimages := by
    intro u p hp
    simp only [TreeState.preimages, List.mem_append]
    exact Or.inl (Or.inr (List.mem_map_of_mem hp))
  apply smt2Hashing_separates hz hc
  · exact fun e he => List.mem_append_left _ (hleaf he)
  · exact fun f hf => List.mem_append_right _ (hleaf hf)
  · exact fun p hp => List.mem_append_left _ (hnode hp)
  · exact fun q hq => List.mem_append_right _ (hnode hq)

theorem TreeState.mem_trie (t : TreeState) {aid leaf : Bytes32} :
    t.trie.Mem aid leaf ↔ t.leafAt aid = some leaf := by
  rw [TreeState.trie, Smt2.mem_trie, t.get_leaves]

/-- Trees with one root have one leaf at each aid. -/
theorem leafAt_of_root_eq {s t : TreeState} (hz : NonzeroOn (s.preimages ++ t.preimages))
    (hc : NoCollision (s.preimages ++ t.preimages)) (h : s.root = t.root) (aid : Bytes32) :
    s.leafAt aid = t.leafAt aid := by
  rw [TreeState.root, TreeState.root, Smt2.root_eq_hash, Smt2.root_eq_hash] at h
  have htrie : s.trie = t.trie := Trie.eq_of_hash_eq (tries_separate hz hc) h
  apply Option.ext
  intro leaf
  rw [← s.mem_trie, ← t.mem_trie, htrie]

/-- Well-formed trees with one root are equal. -/
theorem TreeState.eq_of_root_eq {s t : TreeState} (hs : s.WellFormed) (ht : t.WellFormed)
    (hz : NonzeroOn (s.preimages ++ t.preimages)) (hc : NoCollision (s.preimages ++ t.preimages))
    (h : s.root = t.root) : s = t := by
  have hpreimages : ∀ {u : TreeState} {aid : Bytes32} {c : AccountState},
      u.accounts[aid]? = some c → c.preimages aid ⊆ u.preimages := by
    intro u aid c hget bs hbs
    simp only [TreeState.preimages, List.mem_append, List.mem_flatMap]
    exact Or.inr ⟨(aid, c), mem_toList.mpr hget, hbs⟩
  have haccount : ∀ aid : Bytes32, s.accounts[aid]? = t.accounts[aid]? := by
    intro aid
    have hleaf := leafAt_of_root_eq hz hc h aid
    unfold TreeState.leafAt at hleaf
    cases ha : s.accounts[aid]? with
    | none =>
        rw [ha] at hleaf
        exact (Option.map_eq_none_iff.mp hleaf.symm).symm
    | some a =>
        rw [ha] at hleaf
        rcases Option.map_eq_some_iff.mp hleaf.symm with ⟨b, hb, hsame⟩
        rw [hb]
        congr 1
        refine account_eq_of_leaf_eq ?_ ?_ (hs.nonempty aid a ha) (ht.nonempty aid b hb)
          (hs.ascending aid a ha) (ht.ascending aid b hb) hsame.symm
        · apply hc.mono
          exact List.append_subset.mpr ⟨fun bs hbs => List.mem_append_left _ (hpreimages ha hbs),
            fun bs hbs => List.mem_append_right _ (hpreimages hb hbs)⟩
        · rw [hs.key aid a ha, ht.key aid b hb]
  obtain ⟨sa⟩ := s
  obtain ⟨ta⟩ := t
  congr 1
  apply Std.ExtTreeMap.ext_getElem?
  exact haccount

end Binding

end StateKeeper
