import StateKeeper.Engine.HandoffSpec
import StateKeeper.Foundation.Runs
import StateKeeper.Tree.Concrete
import StateKeeper.Tree.RootBinding

/-!
# Tree - Landed folds keep one tree

The guest sees two roots, and rows a host hands it with witnesses of the host's
making.  Behind the two roots of a landed fold stands one tree: every row the
guest accepts is the account that tree holds, and the roots it commits are those
of the tree with the fold's post rows put in.

Main results:

- Theorem {lit}`foldRow_sound`: an accepted row is a step of the tree.
- Theorem {lit}`Stages.Completed.lands`: an accepted fold is a step of the tree.
- Theorem {lit}`landed_folds`: every run of landed folds keeps one tree.
-/

namespace StateKeeper

open Words Fallible SortedKeys KeyedMap MerkleTree Runs

/-- The account a post row leaves, if any position is left in it. -/
def AccountPost.account (p : AccountPost) : Option AccountState :=
  if p.positions.isEmpty then none
  else some { owner := p.owner, vmEquity := p.vm, positions := p.positions }

/-- The tree with a post row's account put in, or taken out. -/
def TreeState.put (t : TreeState) (p : AccountPost) : TreeState where
  accounts :=
    match p.account with
    | some a => t.accounts.insert p.aid a
    | none => t.accounts.erase p.aid

/-- The tree with every post row put in, in order. -/
def TreeState.putAll (t : TreeState) (posts : List AccountPost) : TreeState :=
  posts.foldl TreeState.put t

/-- The account a touched row claims. -/
def TouchedAccount.claimed (ta : TouchedAccount) : AccountState where
  owner := ta.account.accountOwner
  vmEquity := ta.account.prevVmEquity
  positions := ta.risk.positions

/-- A touched row is the account held: its presence, its owner, its value and, in any
order, its positions. -/
structure TouchedAccount.Reads (ta : TouchedAccount) (held : Option AccountState) : Prop where
  present : ta.present = held.isSome
  absent : held = none → ta.risk.positions = [] ∧ ta.account.prevVmEquity = 0
  account : ∀ a ∈ held, a.owner = ta.account.accountOwner ∧
    a.vmEquity = ta.account.prevVmEquity ∧ ta.risk.positions.Perm a.positions

theorem TreeState.getElem?_put (t : TreeState) (p : AccountPost) (k : Bytes32) :
    (t.put p).accounts[k]? = if p.aid = k then p.account else t.accounts[k]? := by
  unfold TreeState.put
  cases p.account with
  | some a => exact getElem?_insert_eq
  | none => exact getElem?_erase_eq

/-- A row of another account leaves an account as it is. -/
theorem TreeState.getElem?_putAll (t : TreeState) {posts : List AccountPost} {k : Bytes32}
    (h : k ∉ posts.map AccountPost.aid) : (t.putAll posts).accounts[k]? = t.accounts[k]? := by
  induction posts generalizing t with
  | nil => rfl
  | cons p posts ih =>
      rw [List.map_cons, List.mem_cons, not_or] at h
      have hput := t.getElem?_put p k
      rw [if_neg (Ne.symm h.1)] at hput
      exact (ih (t.put p) h.2).trans hput

/-- Every account stands under its owner's key and holds a position. -/
structure TreeState.Keyed (t : TreeState) [Primitives] : Prop where
  key : ∀ (aid : Bytes32) (a : AccountState), t.accounts[aid]? = some a →
    accountIdSingle a.owner = aid
  nonempty : ∀ (aid : Bytes32) (a : AccountState), t.accounts[aid]? = some a → a.positions ≠ []

section Landing

variable [Primitives]

theorem TreeState.default_keyed : TreeState.default.Keyed where
  key := by simp [TreeState.default]
  nonempty := by simp [TreeState.default]

/-- A row under its owner's key keeps a tree keyed. -/
theorem TreeState.Keyed.put {t : TreeState} (h : t.Keyed) {p : AccountPost}
    (hp : p.aid = accountIdSingle p.owner) : (t.put p).Keyed := by
  have hnew : ∀ a, p.account = some a → a.owner = p.owner ∧ a.positions ≠ [] := by
    intro a ha
    unfold AccountPost.account at ha
    by_cases hempty : p.positions.isEmpty
    · rw [if_pos hempty] at ha
      cases ha
    · rw [if_neg hempty] at ha
      cases ha
      exact ⟨rfl, by simpa using hempty⟩
  constructor
  · intro aid a ha
    rw [t.getElem?_put] at ha
    by_cases hk : p.aid = aid
    · rw [if_pos hk] at ha
      rw [(hnew a ha).1, ← hp, hk]
    · rw [if_neg hk] at ha
      exact h.key aid a ha
  · intro aid a ha
    rw [t.getElem?_put] at ha
    by_cases hk : p.aid = aid
    · rw [if_pos hk] at ha
      exact (hnew a ha).2
    · rw [if_neg hk] at ha
      exact h.nonempty aid a ha

theorem TreeState.leafAt_put (t : TreeState) (p : AccountPost) :
    (t.put p).leafAt = Function.update t.leafAt p.aid p.newLeaf := by
  funext k
  rw [TreeState.leafAt, t.getElem?_put, Function.update_apply]
  by_cases hk : p.aid = k
  · rw [if_pos hk, if_pos hk.symm, ← hk]
    unfold AccountPost.account AccountPost.newLeaf
    cases p.positions.isEmpty <;> rfl
  · rw [if_neg hk, if_neg (Ne.symm hk)]
    rfl

/-! ## One row -/

/-- The strings hashed to check one row. -/
def TouchedAccount.preimages (ta : TouchedAccount) : List Bytes :=
  ta.stateWitness.preimages ++ ta.registryWitness.toList.flatMap SmtWitness.preimages ++
    ta.claimed.preimages ta.aid

/-- The strings hashed for a tree's two roots. -/
def TreeState.allPreimages (t : TreeState) : List Bytes :=
  t.preimages ++ (registryOf (t.leaves.map Prod.fst)).preimages

theorem memberLeaf_congr {x y : Option Bytes32} (h : x.isSome = y.isSome) :
    memberLeaf x = memberLeaf y := by
  cases x with
  | none =>
      cases y with
      | none => rfl
      | some w => cases h
  | some v =>
      cases y with
      | none => cases h
      | some w => rfl

variable {t : TreeState} {p : AccountPost} {ta : TouchedAccount}

/-- The two maps assigned a row's leaf have the roots of the tree with the row put in. -/
theorem TreeState.put_roots (t : TreeState) (p : AccountPost) :
    (t.staging.smt.assign p.aid p.newLeaf).root = (t.put p).root ∧
      (t.staging.registry.assign p.aid (memberLeaf p.newLeaf)).root = (t.put p).accountsRoot := by
  have hat := t.staging_at.assign p.aid p.newLeaf []
  rw [← t.leafAt_put] at hat
  exact hat.roots

/-- An accepted state step reads the tree's leaf and returns the new state root. -/
theorem stateStep_sound (hstate : ta.stateWitness.key = p.aid)
    (hz : NonzeroOn (t.allPreimages ++ ta.preimages))
    (hc : NoCollision (t.allPreimages ++ ta.preimages)) {root : Bytes32}
    (h : applyStep t.root ta.stateWitness p.priorLeaf p.newLeaf = .ok root) :
    t.leafAt p.aid = p.priorLeaf ∧ root = (t.put p).root := by
  have hsub : t.staging.smt.preimages ++ ta.stateWitness.preimages ⊆
      t.allPreimages ++ ta.preimages := by
    intro bs hbs
    rcases List.mem_append.mp hbs with hbs | hbs
    · have htree : bs ∈ t.preimages := List.mem_append_left _ hbs
      simp [TreeState.allPreimages, htree]
    · simp [TouchedAccount.preimages, hbs]
  rcases Smt2.applyStep_sound (hz.mono hsub) (hc.mono hsub) h with ⟨hget, hroot⟩
  rw [hstate] at hget hroot
  constructor
  · rw [← t.get_leaves]
    exact hget
  · rw [← (t.put_roots p).1]
    exact hroot

/-- An accepted registry step to a row's member leaf returns the new registry root. -/
theorem registryStep_sound {rw : SmtWitness} (hrw : ta.registryWitness = some rw)
    (hkey : rw.key = p.aid) (hz : NonzeroOn (t.allPreimages ++ ta.preimages))
    (hc : NoCollision (t.allPreimages ++ ta.preimages))
    {old : Option Bytes32} {root : Bytes32}
    (h : applyStep t.accountsRoot rw old (memberLeaf p.newLeaf) = .ok root) :
    root = (t.put p).accountsRoot := by
  have hsub : t.staging.registry.preimages ++ rw.preimages ⊆ t.allPreimages ++ ta.preimages := by
    intro bs hbs
    rcases List.mem_append.mp hbs with hbs | hbs
    · have htree : bs ∈ t.allPreimages := List.mem_append_right _ hbs
      simp [htree]
    · simp [TouchedAccount.preimages, hrw, hbs]
  rw [t.accountsRoot_eq] at h
  have hroot := (Smt2.applyStep_sound (hz.mono hsub) (hc.mono hsub) h).2
  rw [hkey] at hroot
  exact hroot.trans (t.put_roots p).2

/-- A row that keeps its membership keeps the registry root. -/
theorem TreeState.accountsRoot_put (h : t.leafAt p.aid = p.priorLeaf)
    (hsame : p.priorLeaf.isSome = p.newLeaf.isSome) : (t.put p).accountsRoot = t.accountsRoot := by
  have hmember : t.staging.registry.get p.aid = memberLeaf p.newLeaf := by
    rw [t.staging_at.registry, h]
    exact memberLeaf_congr hsame
  rw [← (t.put_roots p).2, Smt2.assign_self hmember, t.accountsRoot_eq]
  rfl

/-- An accepted row reads the tree's leaf and takes both roots to those of the tree with
the row put in. -/
theorem foldRow_sound (hstate : ta.stateWitness.key = p.aid)
    (hmember : ∀ rw ∈ ta.registryWitness, rw.key = p.aid)
    (hz : NonzeroOn (t.allPreimages ++ ta.preimages))
    (hc : NoCollision (t.allPreimages ++ ta.preimages)) {roots : Bytes32 × Bytes32}
    (h : foldRow (t.root, t.accountsRoot) (p, ta) = .ok roots) :
    t.leafAt p.aid = p.priorLeaf ∧ roots = ((t.put p).root, (t.put p).accountsRoot) := by
  unfold foldRow at h
  rcases bind_eq_ok.mp h with ⟨root, hroot, h⟩
  rcases stateStep_sound hstate hz hc hroot with ⟨hleaf, hnewRoot⟩
  dsimp only at h
  have hkept := p.newLeaf_isSome
  rw [← hkept] at h
  refine ⟨hleaf, ?_⟩
  rw [hnewRoot] at h
  cases hprior : p.priorLeaf.isSome with
  | false =>
      cases hnew : p.newLeaf with
      | some v =>
          rw [hprior, hnew] at h
          rcases bind_eq_ok.mp h with ⟨rw, hrw, h⟩
          rcases bind_eq_ok.mp h with ⟨member, hstep, h⟩
          have hrw := expect_eq_ok.mp hrw
          have hroots := registryStep_sound (p := p) hrw (hmember rw hrw) hz hc
            (by rw [hnew]; exact hstep)
          rw [← hroots]
          exact (Except.ok.inj h).symm
      | none =>
          rw [hprior, hnew] at h
          rcases ensure_bind_eq_ok.mp h with ⟨_, h⟩
          rw [TreeState.accountsRoot_put hleaf (by rw [hprior, hnew]; rfl)]
          exact (Except.ok.inj h).symm
  | true =>
      cases hnew : p.newLeaf with
      | some v =>
          rw [hprior, hnew] at h
          rcases ensure_bind_eq_ok.mp h with ⟨_, h⟩
          rw [TreeState.accountsRoot_put hleaf (by rw [hprior, hnew]; rfl)]
          exact (Except.ok.inj h).symm
      | none =>
          rw [hprior, hnew] at h
          rcases bind_eq_ok.mp h with ⟨rw, hrw, h⟩
          rcases bind_eq_ok.mp h with ⟨member, hstep, h⟩
          have hrw := expect_eq_ok.mp hrw
          have hroots := registryStep_sound (p := p) hrw (hmember rw hrw) hz hc
            (by rw [hnew]; exact hstep)
          rw [← hroots]
          exact (Except.ok.inj h).symm

/-! ## What a row claims -/

theorem positionLeaf_ne_zero {b : PositionRecord} (hz : NonzeroOn b.preimages) :
    positionLeaf b ≠ 0 := by
  rw [positionLeaf_eq]
  apply hz
  simp [PositionRecord.preimages]

theorem positionsRoot_ne_zero {a : AccountState} {aid : Bytes32}
    (hz : NonzeroOn (a.preimages aid)) (hne : a.positions ≠ []) : positionsRoot a.positions ≠ 0 := by
  have hleaves : a.positionLeaves ≠ [] := by
    intro hnil
    apply hne
    rw [AccountState.positionLeaves, List.map_eq_nil_iff, sortBy_eq_nil] at hnil
    exact hnil
  rw [positionsRoot_eq hne]
  rcases rootLevels_cases ozHashPair 0 a.positionLeaves.length hleaves with
    hleaf | ⟨p, hmem, hpair⟩
  · rcases mem_positionLeaves.mp hleaf with ⟨b, hmem, hb⟩
    rw [← hb]
    exact positionLeaf_ne_zero (hz.mono fun bs hbs => mem_preimages_of_position hmem hbs)
  · rw [hpair, ozHashPair_eq]
    exact hz _ (mem_preimages_of_pair hmem)

/-- A row bound to the leaf its tree holds claims that account. -/
theorem reads_of_leafAt (hkeyed : t.Keyed) {paused : List Bytes32} {proofTime : U64}
    (hbinds : ta.Binds paused proofTime) (hz : NonzeroOn (t.allPreimages ++ ta.preimages))
    (hc : NoCollision (t.allPreimages ++ ta.preimages)) (h : t.leafAt ta.aid = ta.boundLeaf) :
    ta.Reads t.accounts[ta.aid]? := by
  unfold TreeState.leafAt TouchedAccount.boundLeaf at h
  cases ha : t.accounts[ta.aid]? with
  | none =>
      rw [ha] at h
      have hpresent : ta.present = false := by
        by_cases hp : ta.present = true
        · rw [if_pos hp] at h
          cases h
        · simpa using hp
      constructor
      · exact hpresent
      · intro _
        exact ⟨(hbinds.absentRisk.resolve_left (by simp [hpresent])).1,
          (hbinds.absentAccount.resolve_left (by simp [hpresent])).2.1⟩
      · intro a hnone
        cases hnone
  | some a =>
      rw [ha] at h
      by_cases hp : ta.present = true
      · rw [if_pos hp] at h
        have hleaf : a.leaf ta.aid = ta.claimed.leaf ta.aid := by
          have heq : a.leaf ta.aid = accountLeaf (accountIdSingle ta.account.accountOwner)
              ta.account.prevVmEquity ta.account.positionsRoot := Option.some.inj h
          rw [heq, ← hbinds.opens]
          rfl
        have hsub : a.preimages ta.aid ++ ta.claimed.preimages ta.aid ⊆
            t.allPreimages ++ ta.preimages := by
          intro bs hbs
          rcases List.mem_append.mp hbs with hbs | hbs
          · have htree : bs ∈ t.preimages := by
              simp only [TreeState.preimages, List.mem_append, List.mem_flatMap]
              exact Or.inr ⟨(ta.aid, a), mem_toList.mpr ha, hbs⟩
            simp [TreeState.allPreimages, htree]
          · simp [TouchedAccount.preimages, hbs]
        have hpair := hc.mono hsub
        have hown := (hz.mono hsub).mono (List.subset_append_left _ _)
        have hheld := hkeyed.nonempty _ a ha
        rcases leaf_injective hpair (hkeyed.key _ a ha) hleaf with ⟨howner, hvm, hroot⟩
        have hclaimed : ta.claimed.positions ≠ [] := by
          intro hnil
          apply positionsRoot_ne_zero hown hheld
          rw [hroot, hnil]
          rfl
        have hsubset : ta.risk.positions ⊆ a.positions := by
          intro b hb
          exact (mem_positions_of_root_eq hpair hheld hclaimed hroot b).mpr hb
        have hlength := (positionLeaves_perm_of_root_eq hpair hheld hclaimed hroot).length_eq
        simp only [AccountState.positionLeaves, List.length_map, (sortBy_perm _ _).length_eq]
          at hlength
        have hperm : ta.risk.positions.Perm a.positions := by
          apply List.Subperm.perm_of_length_le
          · exact List.Nodup.subperm (List.Nodup.of_map _ hbinds.distinct) hsubset
          · exact hlength.le
        constructor
        · exact hp
        · intro hnone
          cases hnone
        · intro a' ha'
          cases ha'
          exact ⟨howner, hvm, hperm⟩
      · rw [if_neg hp] at h
        cases h

/-! ## One fold -/

/-- The strings hashed to check the rows of a fold, each on the tree the rows before it
leave. -/
def TreeState.rowsPreimages : TreeState → List (AccountPost × TouchedAccount) → List Bytes
  | _, [] => []
  | t, e :: rest => t.allPreimages ++ e.2.preimages ++ (t.put e.1).rowsPreimages rest

/-- Accepted rows claim the accounts of the tree they start from, and take both roots to
those of the tree with all of them put in. -/
theorem foldRows_sound {paused : List Bytes32} {proofTime : U64}
    {es : List (AccountPost × TouchedAccount)} {t : TreeState} (hkeyed : t.Keyed)
    (hown : ∀ e ∈ es, e.1.Of e.2 ∧ e.2.Binds paused proofTime)
    (hnodup : (es.map fun e => e.2.aid).Nodup) 
    (hz : NonzeroOn (t.rowsPreimages es)) (hc : NoCollision (t.rowsPreimages es))
    {roots : Bytes32 × Bytes32} (h : es.foldlM foldRow (t.root, t.accountsRoot) = .ok roots) :
    (∀ e ∈ es, e.2.Reads t.accounts[e.2.aid]?) ∧ (t.putAll (es.map Prod.fst)).Keyed ∧
      roots = ((t.putAll (es.map Prod.fst)).root, (t.putAll (es.map Prod.fst)).accountsRoot) := by
  induction es generalizing t with
  | nil =>
      cases h
      exact ⟨fun e he => (nomatch he), hkeyed, rfl⟩
  | cons e es ih =>
      rcases bind_eq_ok.mp h with ⟨mid, hrow, hrest⟩
      rcases hown e List.mem_cons_self with ⟨hof, hbinds⟩
      rw [List.map_cons, List.nodup_cons] at hnodup
      have hhead : NoCollision (t.allPreimages ++ e.2.preimages) :=
        hc.mono (List.subset_append_left _ _)
      have hnonzero : NonzeroOn (t.allPreimages ++ e.2.preimages) :=
        hz.mono (List.subset_append_left _ _)
      have hmember : ∀ rw ∈ e.2.registryWitness, rw.key = e.1.aid := by
        intro rw hrw
        rw [hof.aid]
        exact hbinds.registryKey rw hrw
      rcases foldRow_sound (hbinds.stateKey.trans hof.aid.symm) hmember hnonzero hhead hrow with
        ⟨hleaf, rfl⟩
      have hput : (t.put e.1).Keyed := by
        apply hkeyed.put
        rw [hof.aid, hof.owner]
        rfl
      rcases ih hput (fun f hf => hown f (List.mem_cons_of_mem _ hf)) hnodup.2
        (hz.mono (List.subset_append_right _ _)) (hc.mono (List.subset_append_right _ _)) hrest with ⟨hreads, hafter, hroots⟩
      refine ⟨?_, hafter, hroots⟩
      rw [List.forall_mem_cons]
      constructor
      · apply reads_of_leafAt hkeyed hbinds hnonzero hhead
        rw [← hof.aid, hleaf, hof.priorLeaf]
      · intro f hf
        have hother : e.1.aid ≠ f.2.aid := by
          intro heq
          apply hnodup.1
          rw [← hof.aid, heq]
          exact List.mem_map_of_mem hf
        have hread := hreads f hf
        rw [t.getElem?_put, if_neg hother] at hread
        exact hread

variable {inp : StateTransitionInputs} {st : Stages}

/-- An accepted fold on a tree's roots claims the accounts of the tree, and commits the
roots of the tree with its post rows put in. -/
theorem Stages.Completed.lands {t : TreeState} (hkeyed : t.Keyed)
    (h : st.Completed inp) (hroot : inp.book.rootPrev = t.root)
    (haccounts : inp.book.accountsRootPrev = t.accountsRoot)
    (hz : NonzeroOn (t.rowsPreimages (st.closed.posts.zip inp.book.touched)))
    (hc : NoCollision (t.rowsPreimages (st.closed.posts.zip inp.book.touched))) :
    (∀ ta ∈ inp.book.touched, ta.Reads t.accounts[ta.aid]?) ∧
      (t.putAll st.closed.posts).Keyed ∧
      st.roots = ((t.putAll st.closed.posts).root, (t.putAll st.closed.posts).accountsRoot) := by
  rcases bindRows_ok_iff.mp h.bound with ⟨hascending, hbinds, _⟩
  have hof := h.posts_of
  have hlength := hof.length_eq
  have hposts : (st.closed.posts.zip inp.book.touched).map Prod.fst = st.closed.posts :=
    List.map_fst_zip hlength.le
  have htouched : (st.closed.posts.zip inp.book.touched).map Prod.snd = inp.book.touched :=
    List.map_snd_zip hlength.ge
  have hown : ∀ e ∈ st.closed.posts.zip inp.book.touched,
      e.1.Of e.2 ∧ e.2.Binds inp.pausedPairs inp.proofNow := by
    intro e he
    exact ⟨List.forall₂_zip hof he, hbinds _ (List.of_mem_zip he).2⟩
  have hnodup : ((st.closed.posts.zip inp.book.touched).map fun e => e.2.aid).Nodup := by
    have hkeys : ((st.closed.posts.zip inp.book.touched).map fun e => e.2.aid) =
        inp.book.touched.map TouchedAccount.aid := by
      conv_rhs => rw [← htouched, List.map_map]
      rfl
    rw [hkeys]
    exact (List.isChain_iff_pairwise.mp hascending).imp fun hlt => ne_of_lt hlt
  have hfolded := h.folded
  rw [hroot, haccounts] at hfolded
  rcases foldRows_sound hkeyed hown hnodup hz hc hfolded with ⟨hreads, hafter, hroots⟩
  rw [hposts] at hafter hroots
  refine ⟨?_, hafter, hroots⟩
  intro ta hta
  rw [← htouched] at hta
  rcases List.mem_map.mp hta with ⟨e, he, rfl⟩
  exact hreads e he

/-! ## Runs of folds -/

/-- The core's two roots, with the folds landed so far. -/
structure Ledger where
  root : Bytes32
  accountsRoot : Bytes32
  folds : List (StateTransitionInputs × Stages)

/-- The core before its first fold. -/
structure Ledger.Genesis (s : Ledger) : Prop where
  root : s.root = TreeState.default.root
  accountsRoot : s.accountsRoot = TreeState.default.accountsRoot
  folds : s.folds = []

/-- A fold lands when its guest completed on the core's own roots; the core takes the
roots it commits. -/
inductive Ledger.Step (s : Ledger) : Ledger → Prop where
  | land (inp : StateTransitionInputs) (st : Stages) (completed : st.Completed inp)
      (root : inp.book.rootPrev = s.root)
      (accountsRoot : inp.book.accountsRootPrev = s.accountsRoot) :
      Ledger.Step s
        { root := (st.outputs inp).roots.rootNew
          accountsRoot := (st.outputs inp).roots.accountsRootNew
          folds := s.folds ++ [(inp, st)] }

omit [Primitives] in
/-- The tree the folds leave. -/
def treeOf (folds : List (StateTransitionInputs × Stages)) : TreeState :=
  folds.foldl (fun t f => t.putAll f.2.closed.posts) TreeState.default

/-- The strings hashed to check the folds, each from the tree the folds before it leave. -/
def foldsPreimages : TreeState → List (StateTransitionInputs × Stages) → List Bytes
  | _, [] => []
  | t, f :: rest =>
      t.rowsPreimages (f.2.closed.posts.zip f.1.book.touched) ++
        foldsPreimages (t.putAll f.2.closed.posts) rest

theorem foldsPreimages_concat (t : TreeState) (folds : List (StateTransitionInputs × Stages))
    (f : StateTransitionInputs × Stages) :
    foldsPreimages t (folds ++ [f]) = foldsPreimages t folds ++
      (folds.foldl (fun t f => t.putAll f.2.closed.posts) t).rowsPreimages
        (f.2.closed.posts.zip f.1.book.touched) := by
  induction folds generalizing t with
  | nil => simp [foldsPreimages]
  | cons g folds ih =>
      rw [List.cons_append, foldsPreimages, ih, foldsPreimages, List.append_assoc]
      rfl

/-- The strings hashed in a run. -/
def Ledger.preimages (s : Ledger) : List Bytes :=
  foldsPreimages TreeState.default s.folds

/-- One keyed tree stands behind both roots, and every landed fold read the tree before it. -/
structure Ledger.Good (s : Ledger) : Prop where
  root : s.root = (treeOf s.folds).root
  accountsRoot : s.accountsRoot = (treeOf s.folds).accountsRoot
  keyed : (treeOf s.folds).Keyed
  reads : ∀ front f rest, s.folds = front ++ f :: rest →
    ∀ ta ∈ f.1.book.touched, ta.Reads (treeOf front).accounts[ta.aid]?

/-- A landing fold hashes all that the folds before it did. -/
theorem Ledger.Step.preimages_subset {s s' : Ledger} (hstep : Ledger.Step s s') :
    s.preimages ⊆ s'.preimages := by
  cases hstep with
  | land inp st _ _ _ =>
      unfold Ledger.preimages
      rw [foldsPreimages_concat]
      exact List.subset_append_left _ _

/-- A landing fold keeps one tree behind the roots. -/
theorem Ledger.Good.step {s s' : Ledger} (h : s.Good) (hstep : Ledger.Step s s')
    (hz : NonzeroOn s'.preimages) (hc : NoCollision s'.preimages) : s'.Good := by
  cases hstep with
  | land inp st completed root accountsRoot =>
      have hsub : (treeOf s.folds).rowsPreimages (st.closed.posts.zip inp.book.touched) ⊆
          foldsPreimages TreeState.default (s.folds ++ [(inp, st)]) := by
        rw [foldsPreimages_concat]
        exact List.subset_append_right _ _
      rcases completed.lands h.keyed (root.trans h.root) (accountsRoot.trans h.accountsRoot)
        (hz.mono hsub) (hc.mono hsub) with ⟨hreads, hkeyed, hroots⟩
      have htree : treeOf (s.folds ++ [(inp, st)]) = (treeOf s.folds).putAll st.closed.posts := by
        rw [treeOf, List.foldl_append]
        rfl
      constructor
      · rw [htree]
        exact congrArg Prod.fst hroots
      · rw [htree]
        exact congrArg Prod.snd hroots
      · rw [htree]
        exact hkeyed
      · intro front f rest hsplit
        rcases List.eq_nil_or_concat rest with rfl | ⟨rest, last, rfl⟩
        · rcases List.append_inj' hsplit (by simp) with ⟨rfl, hlast⟩
          cases hlast
          exact hreads
        · rw [List.concat_eq_append, ← List.cons_append, ← List.append_assoc] at hsplit
          exact h.reads front f rest (List.append_inj' hsplit (by simp)).1

/-- Every run of landed folds whose strings do not collide keeps one tree. -/
theorem Ledger.good_of_reachable {s : Ledger} (h : Reachable Ledger.Genesis Ledger.Step s)
    (hz : NonzeroOn s.preimages) (hc : NoCollision s.preimages) : s.Good := by
  induction h with
  | start hs =>
      constructor
      · rw [hs.folds, hs.root]
        rfl
      · rw [hs.folds, hs.accountsRoot]
        rfl
      · rw [hs.folds]
        exact TreeState.default_keyed
      · intro front f rest hsplit
        rw [hs.folds] at hsplit
        simp at hsplit
  | next _ hstep ih =>
      have hsub := hstep.preimages_subset
      exact (ih (hz.mono hsub) (hc.mono hsub)).step hstep hz hc

/-- The guest completed on every landed fold. -/
theorem Ledger.completed_of_reachable {s : Ledger} (h : Reachable Ledger.Genesis Ledger.Step s) :
    ∀ f ∈ s.folds, f.2.Completed f.1 := by
  induction h with
  | start hs =>
      rw [hs.folds]
      exact fun f hf => absurd hf List.not_mem_nil
  | next _ hstep ih =>
      cases hstep with
      | land inp st completed _ _ =>
          intro f hf
          rcases List.mem_append.mp hf with hf | hf
          · exact ih f hf
          · rw [List.mem_singleton.mp hf]
            exact completed

/-- Whatever rows and witnesses the hosts supplied, with handoffs and unwinds or without:
in every run of landed folds whose strings do not collide, the core's two roots are the
state root and the registry root of one tree, in which every account stands under its
owner's key and holds a position, and every row a landed fold accepted was the account
the tree before it held. -/
theorem landed_folds {s : Ledger} (h : Reachable Ledger.Genesis Ledger.Step s)
    (hz : NonzeroOn s.preimages) (hc : NoCollision s.preimages) :
    s.root = (treeOf s.folds).root ∧ s.accountsRoot = (treeOf s.folds).accountsRoot ∧
      (treeOf s.folds).Keyed ∧
      ∀ front f rest, s.folds = front ++ f :: rest →
        ∀ ta ∈ f.1.book.touched, ta.Reads (treeOf front).accounts[ta.aid]? := by
  have hgood := Ledger.good_of_reachable h hz hc
  exact ⟨hgood.root, hgood.accountsRoot, hgood.keyed, hgood.reads⟩

end Landing

/-! ## A leg opened, then taken over -/

section Concrete

attribute [local instance] signingPrimitives

/-- The unit trade between the maker and the taker, under both their signatures. -/
def signedOpen : NewPosition :=
  { unitTerms 200 1 with
    partyA := maker
    partyB := taker
    sigA := makerOpen.sig
    sigB := takerOpen.sig }

/-- An epoch at clock 100 that opens it. -/
def signedEpoch : EpochInputs :=
  { singleOpenEpoch 200 with newPositions := [signedOpen.bound] }

/-- The first fold of a book: that epoch, as the host frames it. -/
def openingFold : StateTransitionInputs :=
  match advanceRun TreeState.default signedEpoch flatTable TreeState.default.accountsRoot with
  | .ok r => r.2.1
  | .error _ => untouchedFold signedEpoch

/-- The tree it leaves. -/
def signedTree : TreeState :=
  treeAfter TreeState.default signedEpoch flatTable

def makerLeg : PositionRecord :=
  signedOpen.bound.seatA

/-- The maker's leg, once the successor has it. -/
def passedLeg : PositionRecord :=
  movedPosition makerLeg (novationNewId makerLeg.termsId successor) 120000

/-- The second fold: the successor, which the tree does not hold, takes over the leg of the
maker, which it does. -/
def passingFold : StateTransitionInputs :=
  let aidA := accountIdSingle maker
  let aidC := accountIdSingle successor
  let state := Smt2.fromLeaves signedTree.leaves
  let registry := registryOf (signedTree.leaves.map Prod.fst)
  let leafC := accountLeaf aidC 0 (positionsRoot [passedLeg])
  { handoffFold with
    book :=
      { rootPrev := state.root
        accountsRootPrev := registry.root
        touched :=
          [{ account := { Account.default with accountOwner := successor }
             risk := emptyRisk []
             stateWitness := state.witness aidC
             registryWitness := some (registry.witness aidC) },
           { account := { Account.default with
               accountOwner := maker
               positionsRoot := positionsRoot [makerLeg] }
             risk := emptyRisk [makerLeg]
             stateWitness := (state.assign aidC (some leafC)).witness aidA
             registryWitness := some ((registry.assign aidC (some registryLeaf)).witness aidA) }] }
    novations := [takenOverBy makerLeg maker successor]
    novationWitnesses := [takeoverBy makerLeg maker successor successorTakeover.sig] }

/-- The first fold starts from the empty tree, and the guest accepts the second on the roots
the first commits. -/
theorem openingFold_commits :
    openingFold.book.rootPrev = TreeState.default.root ∧
      openingFold.book.accountsRootPrev = TreeState.default.accountsRoot ∧
      (fun out => (out.roots.rootNew, out.roots.accountsRootNew)) <$>
          stateTransition openingFold =
        .ok (passingFold.book.rootPrev, passingFold.book.accountsRootPrev) ∧
      (stateTransition passingFold).isOk = true := by
  decide +kernel

/-- The rows the two folds leave. -/
def openingPosts : List AccountPost :=
  (postsOf openingFold).toOption.getD []

@[inherit_doc openingPosts]
def passingPosts : List AccountPost :=
  (postsOf passingFold).toOption.getD []

theorem passing_strings :
    ((TreeState.default.rowsPreimages (openingPosts.zip openingFold.book.touched) ++
      (TreeState.default.putAll openingPosts).rowsPreimages
        (passingPosts.zip passingFold.book.touched)).dedup.map Primitives.keccak256).Nodup := by
  decide +kernel

/-- A fold the guest accepts on a ledger's roots lands. -/
theorem exists_landed {s : Ledger} (h : Reachable Ledger.Genesis Ledger.Step s)
    {inp : StateTransitionInputs} {out : StateTransitionOutputs}
    (hrun : stateTransition inp = .ok out) (hroot : inp.book.rootPrev = s.root)
    (haccounts : inp.book.accountsRootPrev = s.accountsRoot) :
    ∃ st : Stages, (postsOf inp).toOption.getD [] = st.closed.posts ∧
      Reachable Ledger.Genesis Ledger.Step
        { root := out.roots.rootNew
          accountsRoot := out.roots.accountsRootNew
          folds := s.folds ++ [(inp, st)] } := by
  obtain ⟨st, hst, rfl⟩ := stateTransition_ok_iff.mp hrun
  refine ⟨st, ?_, h.next (.land inp st hst hroot haccounts)⟩
  rw [hst.postsOf_eq]
  rfl

/-- The two folds land, one after the other. -/
theorem exists_passedLedger :
    ∃ (s : Ledger) (st st' : Stages), Reachable Ledger.Genesis Ledger.Step s ∧
      NoCollision s.preimages ∧ s.folds = [(openingFold, st), (passingFold, st')] ∧
      st.closed.posts = openingPosts ∧ st'.closed.posts = passingPosts := by
  obtain ⟨hroot, haccounts, hcommits, haccepted⟩ := openingFold_commits
  have hstrings := passing_strings
  unfold openingPosts passingPosts at hstrings ⊢
  generalize openingFold = first at hroot haccounts hcommits hstrings ⊢
  generalize passingFold = second at hcommits haccepted hstrings ⊢
  obtain ⟨out, hrun, hroots⟩ := map_eq_ok.mp hcommits
  simp only [Prod.mk.injEq] at hroots
  obtain ⟨st, hposts, hfirst⟩ := exists_landed (s := ⟨_, _, []⟩) (.start ⟨rfl, rfl, rfl⟩) hrun
    hroot haccounts
  cases hrun' : stateTransition second with
  | error e =>
      rw [hrun'] at haccepted
      cases haccepted
  | ok out' =>
      obtain ⟨st', hposts', hsecond⟩ := exists_landed hfirst hrun' hroots.1.symm hroots.2.symm
      rw [hposts, hposts'] at hstrings
      refine ⟨_, st, st', hsecond, ?_, rfl, hposts.symm, hposts'.symm⟩
      apply NoCollision.of_dedup
      simpa [Ledger.preimages, foldsPreimages] using hstrings

/-- The run of the two: the second fold read the maker's row from the tree the first left. -/
theorem landed_folds_passed :
    ∃ s : Ledger, s.folds.map Prod.fst = [openingFold, passingFold] ∧
      s.root = (treeOf s.folds).root ∧ s.accountsRoot = (treeOf s.folds).accountsRoot ∧
      (treeOf s.folds).Keyed ∧
      (∀ ta ∈ passingFold.book.touched,
        ta.Reads (TreeState.default.putAll openingPosts).accounts[ta.aid]?) ∧
      passingFold.book.touched.map TouchedAccount.present = [false, true] := by
  obtain ⟨s, st, st', hreach, hc, hfolds, hposts, _⟩ := exists_passedLedger
  obtain ⟨hstate, hregistry, hkeyed, hreads⟩ :=
    landed_folds hreach (KeccakNonzero.on Keccak.positiveKeccak256_ne_zero) hc
  have hpresent : passingFold.book.touched.map TouchedAccount.present = [false, true] := by
    decide +kernel
  generalize openingFold = first at hfolds ⊢
  generalize passingFold = second at hfolds hpresent ⊢
  refine ⟨s, by rw [hfolds]; rfl, hstate, hregistry, hkeyed, ?_, hpresent⟩
  have hread := hreads [(first, st)] (second, st') [] hfolds
  rw [← hposts]
  exact hread

end Concrete

end StateKeeper
