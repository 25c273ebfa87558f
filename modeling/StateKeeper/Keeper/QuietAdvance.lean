import StateKeeper.Keeper.Concrete
import StateKeeper.Tree.Coverage
import StateKeeper.Tree.RebuildSpec
import StateKeeper.Tree.RootBinding

/-!
# Keeper - Nothing to advance

The keeper exits without proving when the predicted root is the prior one.  Since a
root fixes the tree, such an epoch opens no seat, retires none and moves no VM.  A
retired seat cannot hide behind one opened in the same epoch: a price that retires a
new seat was handed to the row for a seat of its prior book, which it retires too.

Main results:

- Theorem {lit}`quiet_of_post_eq`: an epoch that leaves its tree is quiet.
- Theorem {lit}`root_pins_tree`: one tree to a root, to a fold's committed root, and
  to a prediction of the prior root.
-/

namespace StateKeeper

open Words Fallible SortedKeys KeyedMap

section Quiet

variable [Primitives]

/-- The epoch opens no seat, retires none and changes no VM. -/
structure QuietEpoch (prior : TreeState) (inputs : EpochInputs) (outcome : EpochOutcome) :
    Prop where
  opens : ∀ nb ∈ inputs.newPositions,
    ¬nb.locks inputs.proofNow (ownersIn (epochRows prior inputs))
  retires : ∀ owner p, ¬RetiredIn inputs.pausedPairs
    ((touchedOf prior inputs).map (openedRow prior inputs)) owner p
  vm : ∀ aid : Bytes32, outcome.post.vm aid = prior.vm aid

variable {prior : TreeState} {inputs : EpochInputs} {table : ScenarioTable}
  {outcome : EpochOutcome}

/-- Seats of one oracle and expiry are retired together. -/
theorem retires_of_priced {paused : List Bytes32} {provenTwaps : List ProvenTwap}
    {p q : PositionRecord} (horacle : q.oracle = p.oracle) (hexpiry : q.expiry = p.expiry) :
    retires paused provenTwaps q = retires paused provenTwaps p := by
  have hbinds : positionTwapBindingOk q = positionTwapBindingOk p := by
    funext tw
    rw [positionTwapBindingOk, positionTwapBindingOk, horacle, hexpiry]
  rw [retires, retires, boundTwap, boundTwap, hbinds, positionPaused, positionPaused, horacle]

/-- A seat of the prior book is retired by its row or still held afterwards, never both. -/
theorem not_retires_of_post (hwf : prior.WellFormed)
    (h : resolveEpoch prior inputs table = .ok outcome) (hpost : outcome.post = prior)
    {e : Bytes32 × Address} {q : PositionRecord} (hq : q ∈ prior.book e.1) :
    retires inputs.pausedPairs (openedRow prior inputs e).2.provenTwaps q = false := by
  unfold TreeState.book at hq
  cases ha : prior.accounts[e.1]? with
  | none =>
      rw [ha] at hq
      cases hq
  | some a =>
      rw [ha] at hq
      have hafter : outcome.post.accounts[e.1]? = some a := by
        rw [hpost]
        exact ha
      rcases post_account hwf h hafter with ⟨owner, _, _, _, _, hpositions⟩
      change q ∈ a.positions at hq
      rw [hpositions, mem_sortBy] at hq
      have hstays := (mem_unretired.mp hq).2
      rw [openedRow_provenTwaps] at hstays ⊢
      exact hstays

/-- An epoch that leaves its tree is quiet. -/
theorem quiet_of_post_eq (hwf : prior.WellFormed)
    (h : resolveEpoch prior inputs table = .ok outcome) (hpost : outcome.post = prior) :
    QuietEpoch prior inputs outcome := by
  have hids := ((resolveEpoch_ok_iff hwf).mp h).2.1
  have hstays : ∀ e ∈ touchedOf prior inputs, ∀ p,
      ¬(openedRow prior inputs e).Retires inputs.pausedPairs p := by
    intro e he p hretires
    have hown := ((Row.retires_iff (hids e he) (openedRow_settles hwf h he)).mp hretires).2
    -- the price was handed to the row for a seat of the prior book
    have hbound : (boundTwap (openedRow prior inputs e).2.provenTwaps p).isSome := by
      rw [retires, Bool.and_eq_true] at hown
      exact hown.2
    rcases exists_priced_of_openedRow hbound with ⟨q, hq, horacle, hexpiry, _⟩
    have hheld := not_retires_of_post hwf h hpost hq
    rw [retires_of_priced horacle hexpiry, hown] at hheld
    cases hheld
  constructor
  · intro nb hnb hlock
    rcases exists_openedRow hlock.2.1 with ⟨e, he, howner⟩
    have hnew : nb.seatA ∈ newSeats inputs.proofNow (ownersIn (epochRows prior inputs))
        inputs.newPositions (openedRow prior inputs e).owner := by
      apply mem_newSeats.mpr
      exact ⟨nb, hnb, hlock, Or.inl ⟨howner.symm, rfl⟩⟩
    have hmem : nb.seatA ∈ (openedRow prior inputs e).2.positions := by
      rw [openedRow_positions]
      exact List.mem_append_right _ hnew
    have hkept : nb.seatA ∈ keptSeats prior inputs e := by
      apply mem_unretired.mpr
      refine ⟨hmem, ?_⟩
      rw [Bool.eq_false_iff]
      intro hretires
      apply hstays e he nb.seatA
      exact (Row.retires_iff (hids e he) (openedRow_settles hwf h he)).mpr ⟨hmem, hretires⟩
    -- the seat is held afterwards, so it was held before and its id stands twice
    have hheld := holds_of_kept hwf h he hkept
    rw [hpost] at hheld
    have hbook : nb.seatA ∈ prior.book e.1 := by
      rcases hheld with ⟨a, ha, _, hseat⟩
      rw [accountId_of_openedRow hwf he] at ha
      rw [TreeState.book, ha]
      exact hseat
    have hnodup := hids e he
    rw [openedRow_positions, List.map_append, List.nodup_append] at hnodup
    exact hnodup.2.2 _ (List.mem_map_of_mem hbook) _ (List.mem_map_of_mem hnew) rfl
  · intro owner p hretired
    rcases hretired with ⟨row, hrow, _, hretires⟩
    rcases List.mem_map.mp hrow with ⟨e, he, rfl⟩
    exact hstays e he p hretires
  · intro aid
    rw [hpost]

/-- The root pins the tree.  Two well-formed trees with one root are equal; a well-formed
tree with the root that a replayed fold committed is the replayed one; and an epoch whose
predicted root is the prior root leaves its tree and is quiet.  The strings hashed for
the two trees do not collide, and nothing hashes to the empty root. -/
theorem root_pins_tree (hk : KeccakNonzero) :
    (∀ s t : TreeState, s.WellFormed → t.WellFormed → NoCollision (s.preimages ++ t.preimages) →
      s.root = t.root → s = t) ∧
    (∀ (history : ChainHistory) (table : ScenarioTable) (front rest : List (FoldRecord × Nat))
        (e : FoldRecord × Nat) (prior post : TreeState),
      history.folds.zipIdx 1 = front ++ e :: rest →
      front.foldlM (rebuildStep history table) TreeState.default = .ok prior →
      rebuildStep history table prior e = .ok post →
      ∀ t : TreeState, t.WellFormed → NoCollision (post.preimages ++ t.preimages) →
        t.root = e.1.pv.roots.rootNew → t = post) ∧
    ∀ (prior : TreeState) (inputs : EpochInputs) (table : ScenarioTable)
        (chainAccountsRoot : Bytes32) (frames : AdvanceFrames) (outcome : EpochOutcome),
      prior.WellFormed →
      buildAdvanceFrames prior inputs table chainAccountsRoot = .ok frames →
      resolveEpoch prior inputs table = .ok outcome →
      NoCollision (outcome.post.preimages ++ prior.preimages) →
      frames.predictedRoot = frames.rootPrev →
        outcome.post = prior ∧ QuietEpoch prior inputs outcome := by
  refine ⟨?_, ?_, ?_⟩
  · intro s t hs ht hc hroot
    exact TreeState.eq_of_root_eq hs ht hk.on hc hroot
  · intro history table front rest e prior post _ hfront hstep t ht hc hroot
    have hprior : prior.WellFormed := by
      refine foldlM_invariant TreeState.WellFormed ?_ TreeState.default_wellFormed hfront
      intro before e' after _ hwf hstep'
      rcases rebuildStep_ok_iff.mp hstep' with ⟨_, outcome, _, hresolve, _, rfl⟩
      exact wellFormed_after hwf hresolve
    rcases rebuildStep_ok_iff.mp hstep with ⟨_, outcome, _, hresolve, hsame, rfl⟩
    have hpost := wellFormed_after hprior hresolve
    exact (TreeState.eq_of_root_eq hpost ht hk.on hc (hsame.rootNew.trans hroot.symm)).symm
  · intro prior inputs table chainAccountsRoot frames outcome hwf hbuild hresolve hc hroot
    rcases buildAdvanceFrames_ok hbuild with ⟨_, _, outcome', hresolve', _, hprev, hpredicted, _⟩
    rw [ok_unique hresolve' hresolve] at hpredicted
    rw [hpredicted, (stagedFor_at hwf hresolve).roots.1, hprev] at hroot
    have hpost := TreeState.eq_of_root_eq (wellFormed_after hwf hresolve) hwf hk.on hc hroot
    exact ⟨hpost, quiet_of_post_eq hwf hresolve hpost⟩

end Quiet

/-! ## A folded trade with nothing due -/

section Concrete

attribute [local instance] concretePrimitives

/-- A chain whose one trade is folded. -/
def foldedHistory : ChainHistory :=
  { openedHistory [(unitTerms 200 1).record] with folds := unitFold }

/-- Before the trade expires its tree predicts its own root, and the strings of both trees
have distinct digests. -/
theorem foldedHistory_prepared :
    unitFold.length = 1 ∧
    (fun p => (decide (p.frames.predictedRoot = p.frames.rootPrev), p.state.accounts.size,
      decide (p.state.preimages.map Primitives.keccak256).Nodup,
      (resolveEpoch p.state p.inputs flatTable).toOption.map fun o =>
        decide (o.post.preimages = p.state.preimages))) <$>
        prepare foldedHistory flatTable 92 150 = .ok (true, 2, true, some true) := by
  decide +kernel

/-- The one fold of the chain commits to the tree of its trade alone, and the keeper exits
before the trade expires. -/
theorem root_pins_tree_folded :
    ∃ p e outcome, prepare foldedHistory flatTable 92 150 = .ok p ∧ p.state.accounts.size = 2 ∧
      foldedHistory.folds.zipIdx 1 = [e] ∧ p.state.WellFormed ∧
      NoCollision (p.state.preimages ++ p.state.preimages) ∧
      p.state.root = e.1.pv.roots.rootNew ∧
      (∀ t : TreeState, t.WellFormed → NoCollision (p.state.preimages ++ t.preimages) →
        t.root = e.1.pv.roots.rootNew → t = p.state) ∧
      resolveEpoch p.state p.inputs flatTable = .ok outcome ∧
      p.frames.predictedRoot = p.frames.rootPrev ∧ outcome.post = p.state ∧
      QuietEpoch p.state p.inputs outcome := by
  rcases foldedHistory_prepared with ⟨hlength, hrun⟩
  rcases map_eq_ok.mp hrun with ⟨p, hp, hresult⟩
  simp only [Prod.mk.injEq, decide_eq_true_eq] at hresult
  rcases hresult with ⟨hroot, hsize, hnodup, hstrings⟩
  rcases prepare_ok hp with ⟨hstate, _, hframes, _⟩
  rcases buildAdvanceFrames_ok hframes with ⟨_, _, outcome, hresolve, _⟩
  have hk : KeccakNonzero := Keccak.positiveKeccak256_ne_zero
  have hwf := rebuild_wellFormed hstate
  have hself : NoCollision (p.state.preimages ++ p.state.preimages) :=
    (NoCollision.of_nodup hnodup).mono
      (List.append_subset.mpr ⟨List.Subset.refl _, List.Subset.refl _⟩)
  have hboth : NoCollision (outcome.post.preimages ++ p.state.preimages) := by
    rw [hresolve, Except.toOption, Option.map_some, Option.some.injEq, decide_eq_true_eq]
      at hstrings
    rw [hstrings]
    exact hself
  rcases List.length_eq_one_iff.mp hlength with ⟨fold, hfold⟩
  have hfolds : foldedHistory.folds.zipIdx 1 = [(fold, 1)] := by
    rw [foldedHistory, hfold]
    rfl
  have hstep : rebuildStep foldedHistory flatTable TreeState.default (fold, 1) = .ok p.state := by
    rw [rebuild, hfolds, List.foldlM_cons] at hstate
    rcases bind_eq_ok.mp hstate with ⟨state, hstep, hrest⟩
    rw [hstep, ← Except.ok.inj hrest]
  have hcommitted : p.state.root = fold.pv.roots.rootNew := by
    rcases rebuildStep_ok_iff.mp hstep with ⟨_, replayed, _, _, hsame, hpost⟩
    rw [hpost]
    exact hsame.rootNew
  rcases root_pins_tree hk with ⟨_, hfolded, hadvance⟩
  rcases hadvance p.state p.inputs flatTable _ p.frames outcome hwf hframes hresolve hboth hroot
    with ⟨hpost, hquiet⟩
  exact ⟨p, (fold, 1), outcome, hp, hsize, hfolds, hwf, hself, hcommitted,
    hfolded foldedHistory flatTable [] [] (fold, 1) TreeState.default p.state hfolds rfl hstep,
    hresolve, hroot, hpost, hquiet⟩

end Concrete

end StateKeeper
