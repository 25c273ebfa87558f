import StateKeeper.Engine.CompletenessSpec
import StateKeeper.Tree.Concrete

/-!
# Tree - Recovering the open set

The rebuild compares the ids its own pre-pass processed with the ids the fold
committed.  The replay concatenates the opened and the rejected ids, although
every rejected id is opened too; the guest commits each id once.

Main results:

- Theorem {lit}`openSet_recovered_iff`: the two lists agree exactly when no open
  of the epoch is rejected.
-/

namespace StateKeeper

open Words Fallible SortedKeys

/-- Canonical ids of distinct ids are the sorted ids. -/
theorem canonicalIds_of_nodup {ids : List Bytes32} (h : ids.Nodup) :
    canonicalIds ids = sortBy id ids := by
  have hstrict : StrictBy id (sortBy id ids) := sortBy_strict (by simpa using h)
  exact dedupAdjacent_eq_self (List.Pairwise.isChain (hstrict.imp fun hlt => ne_of_lt hlt))

/-- Sorting forgets nothing but the order. -/
theorem sortBy_eq_iff_perm {xs ys : List Bytes32} : sortBy id xs = sortBy id ys ↔ xs.Perm ys := by
  constructor
  · intro h
    exact (sortBy_perm id xs).symm.trans (h ▸ sortBy_perm id ys)
  · intro h
    have hperm : (sortBy id xs).Perm (sortBy id ys) :=
      ((sortBy_perm id xs).trans h).trans (sortBy_perm id ys).symm
    refine hperm.eq_of_pairwise ?_ (sortBy_pairwise_le id xs) (sortBy_pairwise_le id ys)
    intro a b _ _ hab hba
    exact le_antisymm hab hba

section Recovery

variable [Primitives]

/-- What a completed epoch reports as processed. -/
theorem resolveEpoch_processed {prior : TreeState} {inputs : EpochInputs} {table : ScenarioTable}
    {outcome : EpochOutcome} (h : resolveEpoch prior inputs table = .ok outcome) :
    outcome.processedOpenIds = inputs.newPositions.map NewPosition.termsId ++
      rejectedIds inputs.proofNow (ownersIn (epochRows prior inputs)) inputs.newPositions := by
  unfold resolveEpoch at h
  obtain ⟨⟨rows, opens⟩, hopens, hrest⟩ := bind_eq_ok.mp h
  obtain ⟨resolved, -, houtcome⟩ := bind_eq_ok.mp hrest
  obtain ⟨-, -, hresult⟩ := applyNewBoxesToBook_ok_iff.mp hopens
  cases hresult
  cases houtcome
  rfl

/-- Over distinct ids, the replay's list and the committed list agree exactly when
nothing is rejected. -/
theorem processed_eq_canonical_iff {proofTime : U64} {owners : List Address}
    {nbs : List NewPosition} (hnodup : (nbs.map NewPosition.termsId).Nodup) :
    sortBy id (nbs.map NewPosition.termsId ++ rejectedIds proofTime owners nbs) =
        sortBy id (canonicalIds (nbs.map NewPosition.termsId)) ↔
      ∀ nb ∈ nbs, nb.locks proofTime owners := by
  have hcanonical : (canonicalIds (nbs.map NewPosition.termsId)).Perm
      (nbs.map NewPosition.termsId) := by
    rw [canonicalIds_of_nodup hnodup]
    exact sortBy_perm id _
  rw [sortBy_eq_iff_perm]
  constructor
  · intro h nb hnb
    by_contra hlock
    have hlength := (h.trans hcanonical).length_eq
    have hrejected : (rejectedIds proofTime owners nbs).length = 0 := by
      rw [List.length_append] at hlength
      omega
    have hmem : nb.termsId ∈ rejectedIds proofTime owners nbs :=
      List.mem_map_of_mem (List.mem_filter.mpr ⟨hnb, by simpa using hlock⟩)
    rw [List.length_eq_zero_iff.mp hrejected] at hmem
    cases hmem
  · intro h
    have hnone : rejectedIds proofTime owners nbs = [] := by
      rw [rejectedIds, List.map_eq_nil_iff, List.filter_eq_nil_iff]
      intro nb hnb
      simpa using h nb hnb
    rw [hnone, List.append_nil]
    exact hcanonical.symm

/-- The replay's open check passes exactly when no open of the epoch is rejected: with
the pre-pass completed on the touched rows, the ids it processed and the ids a guest
commits for the same opens agree iff every open locks. -/
theorem openSet_recovered_iff {prior : TreeState} {inputs : EpochInputs} {rows : List Row}
    {opens : BookOpenOutcome}
    (hprepass : applyNewBoxesToBook (epochRows prior inputs) inputs.newPositions inputs.proofNow =
      .ok (rows, opens))
    (hdistinct : (inputs.newPositions.map NewPosition.termsId).Nodup) :
    (sortBy id (opens.opened ++ opens.rejected) = sortBy id (canonicalIds opens.opened) ↔
      ∀ nb ∈ inputs.newPositions, nb.locks inputs.proofNow (ownersIn (epochRows prior inputs))) ∧
    ∀ table outcome inp out, resolveEpoch prior inputs table = .ok outcome →
      stateTransition inp = .ok out → inp.newPositions = inputs.newPositions →
      (sortBy id outcome.processedOpenIds = sortBy id out.openedPositionIds ↔
        ∀ nb ∈ inputs.newPositions,
          nb.locks inputs.proofNow (ownersIn (epochRows prior inputs))) := by
  obtain ⟨-, -, hresult⟩ := applyNewBoxesToBook_ok_iff.mp hprepass
  cases hresult
  refine ⟨processed_eq_canonical_iff hdistinct, ?_⟩
  intro table outcome inp out hresolve htransition hopens
  rw [resolveEpoch_processed hresolve, stateTransition_opened htransition, hopens]
  exact processed_eq_canonical_iff hdistinct

end Recovery

/-! ## A live open and an expired one -/

section Concrete

attribute [local instance] concretePrimitives

theorem openSet_recovered_live :
    sortBy id ([(unitTerms 200 1).recomputedId] ++ []) =
      sortBy id (canonicalIds [(unitTerms 200 1).recomputedId]) := by
  have hprepass : applyNewBoxesToBook (epochRows TreeState.default (singleOpenEpoch 200))
      (singleOpenEpoch 200).newPositions (singleOpenEpoch 200).proofNow =
      .ok (rowsAfter 100 (epochRows TreeState.default (singleOpenEpoch 200))
        (singleOpenEpoch 200).newPositions,
        { rejected := [], opened := [(unitTerms 200 1).recomputedId] }) := by
    decide +kernel
  exact (openSet_recovered_iff hprepass (by decide +kernel)).1.mpr (by decide +kernel)

/-- The replay lists an expired open's id twice, the guest once. -/
theorem openSet_not_recovered :
    ((singleOpenEpoch 100).newPositions.map NewPosition.termsId).Nodup ∧
    (fun outcome => sortBy id outcome.processedOpenIds) <$>
        resolveEpoch TreeState.default (singleOpenEpoch 100) flatTable =
      .ok [(unitTerms 100 1).recomputedId, (unitTerms 100 1).recomputedId] ∧
    (fun out => sortBy id out.openedPositionIds) <$>
        stateTransition (untouchedFold (singleOpenEpoch 100)) =
      .ok [(unitTerms 100 1).recomputedId] := by
  decide +kernel

end Concrete

end StateKeeper
