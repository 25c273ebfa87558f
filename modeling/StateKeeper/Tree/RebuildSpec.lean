import StateKeeper.Tree.Invariant

/-!
# Tree - What a rebuild checks

A rebuild replays the scanned folds from empty; each step is an epoch of the
replay whose committed values match.

Main results:

- Theorem {lit}`rebuildStep_ok_iff`: when one fold replays.
- Theorem {lit}`rebuild_wellFormed`: a rebuilt tree is well formed.
-/

namespace StateKeeper

open Words Fallible SortedKeys

section Rebuild

variable [Primitives]

/-- The values of a fold that its replay reproduces. -/
structure FoldRecord.Reproduced (fold : FoldRecord) (table : ScenarioTable) (prior : TreeState)
    (outcome : EpochOutcome) : Prop where
  scenarioRoot : table.scenarioRoot = .ok fold.pv.scenarioRoot
  rootPrev : prior.root = fold.pv.roots.rootPrev
  openSet : sortBy id outcome.processedOpenIds = sortBy id fold.pv.openedPositionIds
  rootNew : outcome.post.root = fold.pv.roots.rootNew
  accountsRootNew : outcome.post.accountsRoot = fold.pv.roots.accountsRootNew

/-- A fold replays when its recovered inputs resolve to the values it committed. -/
theorem rebuildStep_ok_iff {history : ChainHistory} {table : ScenarioTable} {prior post : TreeState}
    {e : FoldRecord × Nat} :
    rebuildStep history table prior e = .ok post ↔
      ∃ inputs outcome, foldInputs e.1 history = .ok inputs ∧
        resolveEpoch prior inputs table = .ok outcome ∧ e.1.Reproduced table prior outcome ∧
        post = outcome.post := by
  unfold rebuildStep
  constructor
  · intro h
    rcases bind_eq_ok.mp h with ⟨inputs, hinputs, h⟩
    rcases bind_eq_ok.mp h with ⟨tableRoot, htable, h⟩
    split at h
    · cases h
    · rename_i hscenario
      split at h
      · cases h
      · rename_i hprev
        rcases bind_eq_ok.mp h with ⟨outcome, hresolve, h⟩
        split at h
        · cases h
        · rename_i hopens
          split at h
          · cases h
          · rename_i hnew
            split at h
            · cases h
            · rename_i haccounts
              cases h
              rw [not_not] at hscenario hprev hopens hnew haccounts
              subst hscenario
              exact ⟨inputs, outcome, hinputs, hresolve,
                ⟨htable, hprev, hopens, hnew, haccounts⟩, rfl⟩
  · intro h
    rcases h with ⟨inputs, outcome, hinputs, hresolve, hsame, rfl⟩
    refine bind_eq_ok.mpr ⟨inputs, hinputs, bind_eq_ok.mpr ⟨_, hsame.scenarioRoot, ?_⟩⟩
    rw [if_neg (not_not.mpr rfl), if_neg (not_not.mpr hsame.rootPrev)]
    refine bind_eq_ok.mpr ⟨outcome, hresolve, ?_⟩
    rw [if_neg (not_not.mpr hsame.openSet), if_neg (not_not.mpr hsame.rootNew),
      if_neg (not_not.mpr hsame.accountsRootNew)]
    rfl

/-- A rebuilt tree is well formed. -/
theorem rebuild_wellFormed {history : ChainHistory} {table : ScenarioTable} {t : TreeState}
    (h : rebuild history table = .ok t) : t.WellFormed := by
  refine foldlM_invariant TreeState.WellFormed ?_ TreeState.default_wellFormed h
  intro prior e post _ hwf hstep
  rcases rebuildStep_ok_iff.mp hstep with ⟨_, outcome, _, hresolve, _, rfl⟩
  exact wellFormed_after hwf hresolve

end Rebuild

end StateKeeper
