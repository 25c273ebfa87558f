import StateKeeper.Engine.Concrete
import StateKeeper.Engine.Smt2Spec

/-!
# Engine - A witness is bound by the root

The guest trusts no host: a witness is a list of siblings and a terminal of the
host's making.  When keccak does not collide on the strings the map and the
witness hash, a witness that folds to the map's root is the honest one, so a step
it is accepted for reads the map's own value and returns the root of the map with
the new value.

Main results:

- Theorem {lit}`Smt2.path_of_foldUp`: a witness that folds to the root carries the
  path of its key.
- Theorem {lit}`Smt2.applyStep_sound`: an accepted step is a step of the map.
- Theorem {lit}`applySteps_exact`: the guest's chain of steps accepts the host's
  witnesses, and computes on the map whatever witnesses it accepts.
-/

namespace StateKeeper

open Words Fallible CompactTrie

section Strings

variable [Primitives]

/-- No two different strings of the list have one digest. -/
def NoCollision (xs : List Bytes) : Prop :=
  ∀ x ∈ xs, ∀ y ∈ xs, Primitives.keccak256 x = Primitives.keccak256 y → x = y

/-- Digests without a repeat do not collide. -/
theorem NoCollision.of_nodup {xs : List Bytes} (h : (xs.map Primitives.keccak256).Nodup) :
    NoCollision xs :=
  fun _ hx _ hy heq => List.inj_on_of_nodup_map h hx hy heq

/-- Repeats of one string do not count. -/
theorem NoCollision.of_dedup {xs : List Bytes}
    (h : (xs.dedup.map Primitives.keccak256).Nodup) : NoCollision xs := by
  intro x hx y hy
  exact NoCollision.of_nodup h x (List.mem_dedup.mpr hx) y (List.mem_dedup.mpr hy)

theorem NoCollision.mono {xs ys : List Bytes} (h : NoCollision ys) (hsub : xs ⊆ ys) :
    NoCollision xs :=
  fun x hx y hy => h x (hsub hx) y (hsub hy)

/-! ## The tagged strings are injective -/

omit [Primitives] in
theorem beBytes32_injective {x y : Bytes32} (h : beBytes 32 x = beBytes 32 y) : x = y :=
  beBytes_injective (by omega) h

omit [Primitives] in
/-- Two equal tagged pairs of words. -/
theorem taggedPair_injective {tag : U8} {a b c d : Bytes32}
    (h : [tag] ++ beBytes 32 a ++ beBytes 32 b = [tag] ++ beBytes 32 c ++ beBytes 32 d) :
    (a, b) = (c, d) := by
  rcases List.append_inj' h (by simp) with ⟨hfirst, hlast⟩
  rcases List.append_inj' hfirst (by simp) with ⟨_, hmid⟩
  rw [beBytes32_injective hmid, beBytes32_injective hlast]

omit [Primitives] in
theorem smt2LeafBytes_injective {e f : Bytes32 × Bytes32}
    (h : smt2LeafBytes e = smt2LeafBytes f) : e = f :=
  taggedPair_injective h

omit [Primitives] in
theorem smt2NodeBytes_injective {p q : Bytes32 × Bytes32}
    (h : smt2NodeBytes p = smt2NodeBytes q) : p = q :=
  taggedPair_injective h

omit [Primitives] in
/-- The tag keeps leaves and inner nodes apart. -/
theorem smt2LeafBytes_ne (e p : Bytes32 × Bytes32) : smt2LeafBytes e ≠ smt2NodeBytes p := by
  intro h
  have htag := congrArg (fun bs => bs.head?) h
  simp [smt2LeafBytes, smt2NodeBytes] at htag

/-- Entries and node pairs whose strings do not collide have hashes told apart. -/
theorem smt2Hashing_separates {xs : List Bytes} (hz : NonzeroOn xs) (hc : NoCollision xs)
    {es fs ps qs : List (Bytes32 × Bytes32)} (hes : ∀ e ∈ es, smt2LeafBytes e ∈ xs)
    (hfs : ∀ f ∈ fs, smt2LeafBytes f ∈ xs) (hps : ∀ p ∈ ps, smt2NodeBytes p ∈ xs)
    (hqs : ∀ q ∈ qs, smt2NodeBytes q ∈ xs) : smt2Hashing.Separates es fs ps qs := by
  constructor
  · intro e he f hf h
    apply smt2LeafBytes_injective
    apply hc _ (hes e he) _ (hfs f hf)
    rw [← smt2Leaf_eq, ← smt2Leaf_eq]
    exact h
  · intro p hp q hq h
    apply smt2NodeBytes_injective
    apply hc _ (hps p hp) _ (hqs q hq)
    rw [← smt2Node_eq, ← smt2Node_eq]
    exact h
  · intro e he q hq h
    apply smt2LeafBytes_ne e q
    apply hc _ (hes e he) _ (hqs q hq)
    rw [← smt2Leaf_eq, ← smt2Node_eq]
    exact h
  · intro p hp f hf h
    apply (smt2LeafBytes_ne f p).symm
    apply hc _ (hps p hp) _ (hfs f hf)
    rw [← smt2Node_eq, ← smt2Leaf_eq]
    exact h
  · intro e he
    have hmem : smt2LeafBytes e ∈ xs := by
      rcases List.mem_append.mp he with he | he
      · exact hes e he
      · exact hfs e he
    have hne := hz _ hmem
    rw [← smt2Leaf_eq] at hne
    exact hne
  · intro p hp
    have hmem : smt2NodeBytes p ∈ xs := by
      rcases List.mem_append.mp hp with hp | hp
      · exact hps p hp
      · exact hqs p hp
    have hne := hz _ hmem
    rw [← smt2Node_eq] at hne
    exact hne

end Strings

/-! ## What a map and a witness hash -/

/-- The end of the path a witness claims for its key. -/
def SmtTerminal.trie (key : Bytes32) : SmtTerminal → Trie Bytes32 Bytes32
  | .leaf v => .leaf key v
  | .empty => .empty
  | .otherLeaf k v => .leaf k v

/-- What a kind-proof hashes. -/
def SiblingKind.preimage : SiblingKind → Bytes
  | .leaf k v => smt2LeafBytes (k, v)
  | .node l r => smt2NodeBytes (l, r)

section Binding

variable [Primitives]

/-- The strings hashed when a witness is folded and its kind-proof checked. -/
def SmtWitness.preimages (w : SmtWitness) : List Bytes :=
  (w.terminal.trie w.key).entries.map smt2LeafBytes ++
    (graftPairs keyBit w.key smt2Node 0 w.siblings.reverse
      (trieHash (w.terminal.trie w.key))).map smt2NodeBytes ++
    w.deleteKind.toList.map SiblingKind.preimage

omit [Primitives] in
theorem SmtTerminal.trie_ne_node (key : Bytes32) (term : SmtTerminal) (l r : Trie Bytes32 Bytes32) :
    term.trie key ≠ .node l r := by
  cases term <;> simp [SmtTerminal.trie]

/-- Folding any witness is grafting onto its siblings, the last of them first. -/
theorem foldUp_eq_graft (w : SmtWitness) (start : Bytes32) :
    foldUp w start = graft keyBit w.key smt2Node 0 w.siblings.reverse start := by
  have hclimb := climb_reverse w.key w.siblings.reverse 0 start
  rw [List.reverse_reverse, List.length_reverse] at hclimb
  exact hclimb

/-- An accepted terminal starts at its hash, and a foreign leaf is another key's. -/
theorem terminalStart_eq_ok {w : SmtWitness} {start : Bytes32} (h : terminalStart w = .ok start) :
    start = trieHash (w.terminal.trie w.key) ∧
      ∀ k v, w.terminal = .otherLeaf k v → k ≠ w.key := by
  unfold terminalStart at h
  cases hterm : w.terminal with
  | leaf v =>
      rw [hterm] at h
      cases h
      exact ⟨rfl, fun k v hother => nomatch hother⟩
  | empty =>
      rw [hterm] at h
      cases h
      exact ⟨rfl, fun k v hother => nomatch hother⟩
  | otherLeaf ok ov =>
      rw [hterm] at h
      rcases ensure_bind_eq_ok.mp h with ⟨hne, h⟩
      rcases ensure_bind_eq_ok.mp h with ⟨_, h⟩
      cases h
      refine ⟨rfl, ?_⟩
      intro k v hother
      cases hother
      exact hne

/-! ## The witness is the honest one -/

variable {t : Smt2} {w : SmtWitness}

/-- Between a map and a witness no two strings collide. -/
theorem SmtWitness.separates (hz : NonzeroOn (t.preimages ++ w.preimages))
    (hc : NoCollision (t.preimages ++ w.preimages)) :
    smt2Hashing.Separates (w.terminal.trie w.key).entries t.trie.entries
      (graftPairs keyBit w.key smt2Node 0 w.siblings.reverse (trieHash (w.terminal.trie w.key)))
      (t.trie.nodePairs smt2Hashing) := by
  apply smt2Hashing_separates hz hc
  · intro e he
    have hmem := List.mem_map_of_mem (f := smt2LeafBytes) he
    simp [SmtWitness.preimages, hmem]
  · intro f hf
    have hmem := List.mem_map_of_mem (f := smt2LeafBytes) hf
    simp [Smt2.preimages, triePreimages, hmem]
  · intro p hp
    have hmem := List.mem_map_of_mem (f := smt2NodeBytes) hp
    simp [SmtWitness.preimages, hmem]
  · intro q hq
    have hmem := List.mem_map_of_mem (f := smt2NodeBytes) hq
    simp [Smt2.preimages, triePreimages, hmem]

/-- A witness that folds to the root carries the path of its key. -/
theorem Smt2.path_of_foldUp (hz : NonzeroOn (t.preimages ++ w.preimages))
    (hc : NoCollision (t.preimages ++ w.preimages))
    (h : foldUp w (trieHash (w.terminal.trie w.key)) = t.root) :
    (t.path w.key).1 = w.terminal.trie w.key ∧
      w.siblings = (t.witness w.key).siblings := by
  rw [foldUp_eq_graft, t.root_eq_hash] at h
  rcases descend_eq_of_graft (H := smt2Hashing) (w.terminal.trie_ne_node w.key)
    (SmtWitness.separates hz hc) h with ⟨hterm, hsibs⟩
  refine ⟨hterm, ?_⟩
  have hhashes : (t.path w.key).2.map trieHash = w.siblings.reverse := hsibs
  rw [t.witness_siblings, hhashes, List.reverse_reverse]

/-- A claimed terminal that is the path's end is the one an honest witness reports. -/
theorem Smt2.terminal_of_path
    (hother : ∀ k v, w.terminal = .otherLeaf k v → k ≠ w.key)
    (hpath : (t.path w.key).1 = w.terminal.trie w.key) :
    w.terminal = (t.witness w.key).terminal := by
  rw [t.witness_terminal, hpath]
  cases hterm : w.terminal with
  | leaf v => exact (if_pos rfl).symm
  | empty => rfl
  | otherLeaf k v => exact (if_neg (hother k v hterm)).symm

omit [Primitives] in
/-- The old value a path's end bears out is the map's. -/
theorem Smt2.get_of_claims {old : Option Bytes32}
    (hother : ∀ k v, w.terminal = .otherLeaf k v → k ≠ w.key)
    (hpath : (t.path w.key).1 = w.terminal.trie w.key) (hclaim : Claims w.terminal old) :
    t.get w.key = old := by
  rcases t.path_cases w.key with ⟨v, hleaf, hget⟩ | ⟨hget, hend⟩
  · rw [hget]
    rw [hleaf] at hpath
    cases hterm : w.terminal with
    | leaf u =>
        rw [hterm] at hpath hclaim
        cases old with
        | none => exact absurd hclaim id
        | some o =>
            have hvalue : v = u := (Trie.leaf.inj hpath).2
            have hclaimed : u = o := hclaim
            rw [hvalue, hclaimed]
    | empty =>
        rw [hterm] at hpath
        cases hpath
    | otherLeaf k u =>
        rw [hterm] at hpath
        exact absurd (Trie.leaf.inj hpath).1.symm (hother k u hterm)
  · rw [hget]
    cases hterm : w.terminal with
    | leaf u =>
        rw [hterm] at hpath
        rcases hend with hempty | ⟨k, v, hne, hleaf⟩
        · rw [hempty] at hpath
          cases hpath
        · rw [hleaf] at hpath
          exact absurd (Trie.leaf.inj hpath).1 hne
    | empty =>
        rw [hterm] at hclaim
        cases old with
        | none => rfl
        | some o => exact absurd hclaim id
    | otherLeaf k u =>
        rw [hterm] at hclaim
        cases old with
        | none => rfl
        | some o => exact absurd hclaim id

/-- A kind-proof that hashes to a sibling is the sibling's own. -/
theorem kindOf_of_hash {xs : List Bytes} (hz : NonzeroOn xs) (hc : NoCollision xs)
    {s : Trie Bytes32 Bytes32} (hentries : ∀ e ∈ s.entries, smt2LeafBytes e ∈ xs)
    (hpairs : ∀ p ∈ s.nodePairs smt2Hashing, smt2NodeBytes p ∈ xs) {kind : SiblingKind}
    (hkind : kind.preimage ∈ xs) (h : Primitives.keccak256 kind.preimage = trieHash s) :
    kindOf s = some kind := by
  cases kind with
  | leaf k v =>
      have hsep : smt2Hashing.Separates (Trie.leaf k v).entries s.entries
          ((Trie.leaf k v).nodePairs smt2Hashing) (s.nodePairs smt2Hashing) := by
        apply smt2Hashing_separates hz hc
        · intro e he
          rw [List.mem_singleton.mp he]
          exact hkind
        · exact hentries
        · intro p hp
          cases hp
        · exact hpairs
      have hhash : (Trie.leaf k v).hash smt2Hashing = s.hash smt2Hashing :=
        (smt2Leaf_eq k v).trans h
      rw [← Trie.eq_of_hash_eq hsep hhash]
      rfl
  | node l r =>
      have hhash : smt2Node l r = trieHash s := (smt2Node_eq l r).trans h
      cases s with
      | empty =>
          have hne := hz _ hkind
          rw [SiblingKind.preimage, ← smt2Node_eq] at hne
          exact absurd hhash hne
      | leaf k v =>
          rw [trieHash_leaf, smt2Node_eq, smt2Leaf_eq] at hhash
          have hbytes := hc _ hkind _ (hentries (k, v) List.mem_cons_self) hhash
          exact absurd hbytes.symm (smt2LeafBytes_ne _ _)
      | node a b =>
          rw [trieHash_node, smt2Node_eq, smt2Node_eq] at hhash
          have hbytes := hc _ hkind _ (hpairs (trieHash a, trieHash b) List.mem_cons_self) hhash
          cases smt2NodeBytes_injective hbytes
          rfl

/-- The first non-empty sibling of a present key's path is its last. -/
theorem Smt2.applyDelete_of_path (hz : NonzeroOn (t.preimages ++ w.preimages))
    (hc : NoCollision (t.preimages ++ w.preimages)) {v root : Bytes32}
    (hget : t.get w.key = some v) (hsibs : w.siblings = (t.witness w.key).siblings)
    (h : applyDelete w = .ok root) : applyDelete w = applyDelete (t.witness w.key) := by
  rcases List.eq_nil_or_concat (t.path w.key).2 with hpath | ⟨init, s, hpath⟩
  · have hnil : (t.witness w.key).siblings = [] := by
      rw [t.witness_siblings, hpath]
      rfl
    rw [applyDelete, applyDelete, hsibs, hnil]
    rfl
  · rw [List.concat_eq_append] at hpath
    have hne : s ≠ .empty := by
      intro hs
      have hlast := t.path_getLast? w.key
      rw [hpath, List.getLast?_concat, hs] at hlast
      exact hlast rfl
    have hmap : NonzeroOn t.preimages := hz.mono (List.subset_append_left _ _)
    have hmem : s ∈ (t.path w.key).2 := by simp [hpath]
    have hhash := Smt2.sibling_ne_empty hmap hmem hne
    have hcons := Smt2.witness_siblings_cons hpath
    have hfirst : (trieHash s :: (init.map trieHash).reverse).findIdx? (· ≠ EMPTY) = some 0 := by
      simp [List.findIdx?_cons, hhash]
    -- the accepted kind-proof hashes to the last sibling, so it is that sibling's
    have hkind : ∃ kind, w.deleteKind = some kind ∧
        Primitives.keccak256 kind.preimage = trieHash s := by
      rw [applyDelete, hsibs, hcons, hfirst] at h
      rcases bind_eq_ok.mp h with ⟨kind, hsome, h⟩
      refine ⟨kind, expect_eq_ok.mp hsome, ?_⟩
      cases kind with
      | leaf sk sv =>
          rcases ensure_bind_eq_ok.mp h with ⟨heq, _⟩
          exact (smt2Leaf_eq sk sv).symm.trans heq
      | node l r =>
          rcases ensure_bind_eq_ok.mp h with ⟨heq, _⟩
          exact (smt2Node_eq l r).symm.trans heq
    rcases hkind with ⟨kind, hsome, hpre⟩
    have hsub := subset_of_mem_descend smt2Hashing hmem
    have hown : kindOf s = some kind := by
      apply kindOf_of_hash hz hc _ _ _ hpre
      · intro e he
        have hbytes : smt2LeafBytes e ∈ t.trie.entries.map smt2LeafBytes :=
          List.mem_map_of_mem (hsub.1 he)
        simp [Smt2.preimages, triePreimages, hbytes]
      · intro p hp
        have hbytes : smt2NodeBytes p ∈ (t.trie.nodePairs smt2Hashing).map smt2NodeBytes :=
          List.mem_map_of_mem (hsub.2 hp)
        simp [Smt2.preimages, triePreimages, hbytes]
      · simp [SmtWitness.preimages, hsome]
    have hsame : w.deleteKind = (t.witness w.key).deleteKind := by
      rw [hsome, Smt2.deleteKind_witness hmap hget hpath hne, hown]
    rw [applyDelete, applyDelete, hsibs, hsame]
    rfl

/-- An accepted step is a step of the map: the old value is the map's, and the root
returned is that of the map with the new value. -/
theorem Smt2.applyStep_sound (hz : NonzeroOn (t.preimages ++ w.preimages))
    (hc : NoCollision (t.preimages ++ w.preimages)) {old new : Option Bytes32} {root : Bytes32}
    (h : applyStep t.root w old new = .ok root) :
    t.get w.key = old ∧ root = (t.assign w.key new).root := by
  rcases applyStep_eq_ok_iff.mp h with ⟨_, hclaim, ⟨start, hstart, hfold⟩, hresult⟩
  rcases terminalStart_eq_ok hstart with ⟨rfl, hother⟩
  rcases Smt2.path_of_foldUp hz hc hfold with ⟨hpath, hsibs⟩
  have hget := Smt2.get_of_claims hother hpath hclaim
  have hterm := Smt2.terminal_of_path hother hpath
  refine ⟨hget, ?_⟩
  have hmoved : old.isSome ∨ new.isSome := by
    cases old with
    | some o => exact .inl rfl
    | none =>
        cases new with
        | some n => exact .inr rfl
        | none => cases hresult
  have hhonest := Smt2.applyStep_witness (hz.mono (List.subset_append_left _ _)) hget hmoved
  rcases applyStep_eq_ok_iff.mp hhonest with ⟨_, _, _, hours⟩
  -- on the same path the two witnesses give one result
  have hsame : stepResult w old new = stepResult (t.witness w.key) old new := by
    cases old with
    | some o =>
        cases new with
        | some n =>
            rw [stepResult, stepResult, foldUp, foldUp, hsibs]
            rfl
        | none => exact Smt2.applyDelete_of_path hz hc hget hsibs hresult
    | none =>
        cases new with
        | some n =>
            rw [stepResult, stepResult, applyInsert, applyInsert, ← hterm]
            simp only [foldUp, hsibs, Smt2.witness_key]
            cases w.terminal <;> rfl
        | none => cases hresult
  rw [hsame, hours] at hresult
  exact (Except.ok.inj hresult).symm

/-! ## Chains of steps -/

/-- One step a host claims: its witness, the old value and the new. -/
structure ClaimedStep where
  witness : SmtWitness
  old : Option Bytes32
  new : Option Bytes32

/-- The guest's chain of steps, each on the root the one before returned. -/
def applySteps (running : Bytes32) (steps : List ClaimedStep) : Run Bytes32 :=
  steps.foldlM (fun root s => applyStep root s.witness s.old s.new) running

omit [Primitives] in
/-- The map after the claimed assignments. -/
def Smt2.assigned (t : Smt2) (steps : List ClaimedStep) : Smt2 :=
  steps.foldl (fun t s => t.assign s.witness.key s.new) t

omit [Primitives] in
/-- Each step's old value is the map's when its turn comes. -/
def Smt2.Reads : Smt2 → List ClaimedStep → Prop
  | _, [] => True
  | t, s :: rest => t.get s.witness.key = s.old ∧ (t.assign s.witness.key s.new).Reads rest

/-- The strings hashed for the running maps and their witnesses. -/
def Smt2.stepPreimages : Smt2 → List ClaimedStep → List Bytes
  | _, [] => []
  | t, s :: rest =>
      t.preimages ++ s.witness.preimages ++ (t.assign s.witness.key s.new).stepPreimages rest

/-- An accepted chain reads the running map and returns the root of the map assigned. -/
theorem Smt2.applySteps_sound {t : Smt2} {steps : List ClaimedStep}
    (hz : NonzeroOn (t.stepPreimages steps)) (hc : NoCollision (t.stepPreimages steps)) {root : Bytes32}
    (h : applySteps t.root steps = .ok root) : t.Reads steps ∧ root = (t.assigned steps).root := by
  induction steps generalizing t with
  | nil => exact ⟨trivial, (Except.ok.inj h).symm⟩
  | cons s rest ih =>
      rcases bind_eq_ok.mp h with ⟨mid, hstep, hrest⟩
      have hhead : NoCollision (t.preimages ++ s.witness.preimages) :=
        hc.mono (List.subset_append_left _ _)
      rcases Smt2.applyStep_sound (hz.mono (List.subset_append_left _ _)) hhead hstep with
        ⟨hget, rfl⟩
      rcases ih (hz.mono (List.subset_append_right _ _)) (hc.mono (List.subset_append_right _ _)) hrest with ⟨hreads, hroot⟩
      exact ⟨⟨hget, hreads⟩, hroot⟩

/-- The host's own steps for a list of assignments: each with the value it replaces. -/
def Smt2.threaded : Smt2 → List (Bytes32 × Option Bytes32) → List ClaimedStep
  | _, [] => []
  | t, e :: rest =>
      { witness := t.witness e.1, old := t.get e.1, new := e.2 } :: (t.assign e.1 e.2).threaded rest

theorem witnessSequence_eq (prior : List (Bytes32 × Bytes32))
    (moves : List (Bytes32 × Option Bytes32)) :
    witnessSequence prior moves =
      (((Smt2.fromLeaves prior).threaded moves).map ClaimedStep.witness,
        ((Smt2.fromLeaves prior).assigned ((Smt2.fromLeaves prior).threaded moves)).root) := by
  have hloop : ∀ (t : Smt2) (ws : List SmtWitness),
      moves.foldl (fun acc e => ((acc.1.step e.1 e.2).2, acc.2 ++ [(acc.1.step e.1 e.2).1])) (t, ws) =
        (t.assigned (t.threaded moves), ws ++ (t.threaded moves).map ClaimedStep.witness) := by
    induction moves with
    | nil => simp [Smt2.assigned, Smt2.threaded]
    | cons e rest ih =>
        intro t ws
        rw [List.foldl_cons, ih]
        simp [Smt2.step, Smt2.assigned, Smt2.threaded]
  rw [witnessSequence, hloop, List.nil_append]

/-- The host's own steps are accepted when each of them sets or deletes a value. -/
theorem Smt2.applySteps_threaded {t : Smt2} {moves : List (Bytes32 × Option Bytes32)}
    (hz : NonzeroOn (t.stepPreimages (t.threaded moves)))
    (h : ∀ s ∈ t.threaded moves, s.old.isSome ∨ s.new.isSome) :
    applySteps t.root (t.threaded moves) = .ok (t.assigned (t.threaded moves)).root := by
  induction moves generalizing t with
  | nil => rfl
  | cons e rest ih =>
      have hstep : applyStep t.root (t.witness e.1) (t.get e.1) e.2 =
          .ok (t.assign e.1 e.2).root :=
        Smt2.applyStep_witness (hz.mono fun bs hbs => by simp [threaded, stepPreimages, hbs]) rfl
          (h _ List.mem_cons_self)
      refine bind_eq_ok.mpr ⟨_, hstep, ih (hz.mono ?_) ?_⟩
      · exact List.subset_append_right _ _
      · exact fun s hs => h s (List.mem_cons_of_mem _ hs)

/-- The guest's chain accepts the host's witnesses with the host's root when each step sets or
deletes a value, and whatever witnesses it accepts, the values it read were the running
map's and the root it returns is that of the map with the same assignments.  Of the strings
hashed for the running maps and the witnesses none hashes to the empty root; in the second
part they do not collide. -/
theorem applySteps_exact :
    (∀ (prior : List (Bytes32 × Bytes32)) (moves : List (Bytes32 × Option Bytes32)),
      NonzeroOn ((Smt2.fromLeaves prior).stepPreimages
        ((Smt2.fromLeaves prior).threaded moves)) →
      (∀ s ∈ (Smt2.fromLeaves prior).threaded moves, s.old.isSome ∨ s.new.isSome) →
        ((Smt2.fromLeaves prior).threaded moves).map ClaimedStep.witness =
            (witnessSequence prior moves).1 ∧
          applySteps (Smt2.fromLeaves prior).root ((Smt2.fromLeaves prior).threaded moves) =
            .ok (witnessSequence prior moves).2) ∧
      ∀ (t : Smt2) (steps : List ClaimedStep) (root : Bytes32),
        NonzeroOn (t.stepPreimages steps) → NoCollision (t.stepPreimages steps) →
          applySteps t.root steps = .ok root →
            t.Reads steps ∧ root = (t.assigned steps).root := by
  constructor
  · intro prior moves hz h
    rw [witnessSequence_eq]
    exact ⟨rfl, Smt2.applySteps_threaded hz h⟩
  · intro t steps root hz hc h
    exact Smt2.applySteps_sound hz hc h

end Binding

section Concrete

attribute [local instance] concretePrimitives

/-- An insert that splits a leaf, an update and a delete that promotes the other leaf. -/
def splitMoves : List (Bytes32 × Option Bytes32) :=
  [(BitVec.ofNat 256 (2 ^ 255), some 7), (BitVec.ofNat 256 (2 ^ 255), some 9), (1, none)]

theorem splitMoves_strings :
    ((((Smt2.fromLeaves [(1, 5)]).stepPreimages
      ((Smt2.fromLeaves [(1, 5)]).threaded splitMoves)).dedup).map Primitives.keccak256).Nodup ∧
      ((Smt2.fromLeaves [(1, 5)]).threaded splitMoves).all
        (fun s => s.old.isSome || s.new.isSome) = true := by
  decide +kernel

/-- The three steps on a map of one entry, by the host's witnesses. -/
theorem applySteps_exact_split :
    applySteps (Smt2.fromLeaves [(1, 5)]).root ((Smt2.fromLeaves [(1, 5)]).threaded splitMoves) =
        .ok (witnessSequence [(1, 5)] splitMoves).2 ∧
      (Smt2.fromLeaves [(1, 5)]).Reads ((Smt2.fromLeaves [(1, 5)]).threaded splitMoves) ∧
      (witnessSequence [(1, 5)] splitMoves).2 =
        ((Smt2.fromLeaves [(1, 5)]).assigned
          ((Smt2.fromLeaves [(1, 5)]).threaded splitMoves)).root := by
  rcases splitMoves_strings with ⟨hnodup, hall⟩
  have hk : KeccakNonzero := Keccak.positiveKeccak256_ne_zero
  rcases applySteps_exact with ⟨hcomplete, hsound⟩
  have hmoves : ∀ s ∈ (Smt2.fromLeaves [(1, 5)]).threaded splitMoves, s.old.isSome ∨ s.new.isSome := by
    intro s hs
    simpa using List.all_eq_true.mp hall s hs
  have haccepted := (hcomplete _ _ hk.on hmoves).2
  exact ⟨haccepted, hsound _ _ _ hk.on (NoCollision.of_dedup hnodup) haccepted⟩

end Concrete

end StateKeeper
