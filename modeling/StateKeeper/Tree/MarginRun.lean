import StateKeeper.Engine.MarginSpec
import StateKeeper.Foundation.Runs
import StateKeeper.Tree.Provenance

/-!
# Tree - The margin never stops a replay

An open writes a notional of at most {lit}`(2^128 - 1) / 10^6` however large its
quantity and rate, since their product saturates before it is scaled.  Half a
million such positions sum below {lit}`2^127`, the bound under which the margin
kernel completes.

Main results:

- Theorem {lit}`grossNotional_le`: the largest notional.
- Theorem {lit}`margin_completes`: no account of a reachable tree stops its margin.
-/

namespace StateKeeper

open Words Fallible SortedKeys KeyedMap Runs

/-- The largest notional an open writes. -/
def notionalMax : Nat :=
  (2 ^ 128 - 1) / 10 ^ 6

/-- The largest book the margin kernel is shown to take. -/
def bookMax : Nat :=
  500000

/-- A position as the engine binds it: long or short, its notional scaled down. -/
structure PositionRecord.Sized (p : PositionRecord) : Prop where
  polar : p.Polar
  notional : p.notional.toNat ≤ notionalMax

theorem grossNotional_le (quantity rate : U128) :
    (grossNotional quantity rate).toNat ≤ notionalMax := by
  have hscale : PRICE_SCALE.toNat = 10 ^ 6 := rfl
  have hmax : u128Max = 2 ^ 128 - 1 := rfl
  rw [grossNotional, BitVec.toNat_udiv, satMul_toNat, hscale, notionalMax, ← hmax]
  exact Nat.div_le_div_right (min_le_right _ _)

/-- A book of at most half a million sized positions is margined. -/
theorem bookMass_lt {positions : List PositionRecord} (hsized : ∀ p ∈ positions, p.Sized)
    (hlength : positions.length ≤ bookMax) : bookMass positions < 2 ^ 127 := by
  have hproduct : bookMax * notionalMax < 2 ^ 127 := by decide
  calc bookMass positions ≤ positions.length * notionalMax :=
        bookMass_le fun p hp => (hsized p hp).notional
    _ ≤ bookMax * notionalMax := Nat.mul_le_mul_right _ hlength
    _ < 2 ^ 127 := hproduct

theorem margin_of_sized {positions : List PositionRecord} {table : ScenarioTable}
    (htable : table.validate = .ok ()) (hsized : ∀ p ∈ positions, p.Sized)
    (hlength : positions.length ≤ bookMax) :
    (∀ acct, Finished (imRequirementsFor acct positions table)) ∧
      ∀ cp, Finished
        (positionImFloor (positions.filter fun b => decide (b.counterparty = cp)) table) := by
  have hpriced := ScenarioTable.priced_of_validate htable
  have hmass := bookMass_lt hsized hlength
  constructor
  · intro acct
    exact imRequirementsFor_finished hpriced (fun p hp => (hsized p hp).polar) hmass acct
  · intro cp
    apply positionImFloor_finished hpriced
    · intro p hp
      exact (hsized p (List.mem_filter.mp hp).1).polar
    · exact lt_of_le_of_lt (bookMass_filter _ _) hmass

section Run

variable [Primitives]

/-- Both seats of a bound open are sized. -/
theorem NewPosition.Seats.sized {nb : NewPosition} {owner : Address} {p : PositionRecord}
    (h : nb.Seats owner p) (hbound : assertNewPositionBound nb = .ok ()) : p.Sized := by
  have hside : nb.sideA = 1 ∨ nb.sideA = -1 :=
    (assertNewPositionBound_ok_iff.mp hbound).2.2.2.2
  have hnegated : -nb.sideA = 1 ∨ -nb.sideA = -1 := by
    rcases hside with hlong | hshort
    · right
      rw [hlong]
    · left
      rw [hshort]
      rfl
  rcases h with ⟨_, rfl⟩ | ⟨_, rfl⟩
  · exact ⟨hside, grossNotional_le _ _⟩
  · exact ⟨hnegated, grossNotional_le _ _⟩

/-- Every position of the tree is sized. -/
def TreeState.AllSized (t : TreeState) : Prop :=
  ∀ owner p, t.Holds owner p → p.Sized

/-- Some epoch resolves the one tree to the other. -/
def TreeState.ResolveStep (t u : TreeState) : Prop :=
  ∃ inputs table outcome, resolveEpoch t inputs table = .ok outcome ∧ u = outcome.post

variable {prior : TreeState} {inputs : EpochInputs} {table : ScenarioTable}

/-- The seats of a touched row are sized when its opens are bound. -/
theorem TreeState.AllSized.openedRow (hsized : prior.AllSized) (hwf : prior.WellFormed)
    (hbound : ∀ nb ∈ inputs.newPositions, assertNewPositionBound nb = .ok ())
    {e : Bytes32 × Address} {p : PositionRecord}
    (hp : p ∈ (openedRow prior inputs e).2.positions) : p.Sized := by
  rcases seat_of_openedRow hwf hp with hprior | ⟨nb, hnb, _, hseat⟩
  · exact hsized _ p hprior
  · exact hseat.sized (hbound nb hnb)

/-- An epoch keeps every position sized. -/
theorem TreeState.AllSized.step {u : TreeState} (hwf : prior.WellFormed)
    (hsized : prior.AllSized) (h : prior.ResolveStep u) : u.AllSized := by
  rcases h with ⟨inputs, table, outcome, hresolve, rfl⟩
  have hbound := ((resolveEpoch_ok_iff hwf).mp hresolve).1
  intro owner p hp
  rcases kept_of_holds hwf hresolve hp with ⟨e, _, _, hkept⟩
  exact hsized.openedRow hwf hbound (mem_unretired.mp hkept).1

theorem wellFormed_sized_of_reachable {t : TreeState}
    (h : Reachable (· = TreeState.default) TreeState.ResolveStep t) :
    t.WellFormed ∧ t.AllSized := by
  have hinit : ∀ s, s = TreeState.default → s.WellFormed ∧ s.AllSized := by
    intro s hs
    rw [hs]
    exact ⟨TreeState.default_wellFormed, fun owner p hp => absurd hp TreeState.not_holds_default⟩
  have hstep : ∀ s s' : TreeState, s.WellFormed ∧ s.AllSized → s.ResolveStep s' →
      s'.WellFormed ∧ s'.AllSized := by
    intro s s' hs hresolves
    refine ⟨?_, hs.2.step hs.1 hresolves⟩
    rcases hresolves with ⟨inputs, table, outcome, hresolve, rfl⟩
    exact wellFormed_after hs.1 hresolve
  exact h.invariant hinit hstep

/-- The margin never stops a replay.  In a tree that epochs reach from empty, whatever
their opens, every notional is at most {lit}`(2^128 - 1) / 10^6`, and against every
validated table an account of at most half a million positions is margined, as is each
of its counterparty sets; so is, in any next epoch with bound opens, every row that keeps
as many. -/
theorem margin_completes {t : TreeState}
    (h : Reachable (· = TreeState.default) TreeState.ResolveStep t) {table : ScenarioTable}
    (htable : table.validate = .ok ()) :
    (∀ (aid : Bytes32) (a : AccountState), t.accounts[aid]? = some a →
      (∀ p ∈ a.positions, p.notional.toNat ≤ (2 ^ 128 - 1) / 10 ^ 6) ∧
      (a.positions.length ≤ 500000 →
        Finished (imRequirementsFor a.owner a.positions table) ∧
        ∀ cp, Finished
          (positionImFloor (a.positions.filter fun b => decide (b.counterparty = cp)) table))) ∧
    ∀ inputs : EpochInputs, (∀ nb ∈ inputs.newPositions, assertNewPositionBound nb = .ok ()) →
      ∀ e ∈ touchedOf t inputs, (keptSeats t inputs e).length ≤ 500000 →
        Finished (imRequirementsFor (openedRow t inputs e).owner
          (sortBy PositionRecord.termsId (keptSeats t inputs e)) table) := by
  rcases wellFormed_sized_of_reachable h with ⟨hwf, hsized⟩
  constructor
  · intro aid a ha
    have hbook : ∀ p ∈ a.positions, p.Sized := by
      intro p hp
      apply hsized a.owner p
      exact ⟨a, by rw [hwf.key aid a ha, ha], rfl, hp⟩
    refine ⟨fun p hp => (hbook p hp).notional, ?_⟩
    intro hlength
    rcases margin_of_sized htable hbook hlength with ⟨hall, hsets⟩
    exact ⟨hall a.owner, hsets⟩
  · intro inputs hbound e _ hlength
    have hbook : ∀ p ∈ sortBy PositionRecord.termsId (keptSeats t inputs e), p.Sized := by
      intro p hp
      exact hsized.openedRow hwf hbound (mem_unretired.mp (mem_sortBy.mp hp)).1
    apply (margin_of_sized htable hbook _).1
    rw [(sortBy_perm _ _).length_eq]
    exact hlength

end Run

/-! ## Three trades on a listed market -/

section Concrete

attribute [local instance] concretePrimitives

/-- A table of one market, which falls by a tenth or rises by half as much. -/
def listedTable : ScenarioTable where
  version := 1
  k := 2
  m := 1
  marketKeys := [marketKey 1 7]
  rows := [[(0, -100000000000000000)], [(0, 50000000000000000)]]

/-- An epoch at clock 100 with three opens between two parties, the second the other way. -/
def threeOpensEpoch : EpochInputs :=
  { singleOpenEpoch 200 with
    newPositions := [(unitTerms 200 1).bound, { unitTerms 300 2 with sideA := -1 }.bound,
      (unitTerms 400 3).bound] }

/-- The tree it leaves. -/
def threeTree : TreeState :=
  treeAfter TreeState.default threeOpensEpoch listedTable

/-- Both accounts hold three seats of the listed market against one counterparty. -/
theorem threeTree_opened :
    (resolveEpoch TreeState.default threeOpensEpoch listedTable).isOk = true ∧
      threeTree.accounts.size = 2 ∧ listedTable.validate = .ok () ∧
      ∀ e ∈ threeTree.accounts.toList, e.2.positions.length = 3 ∧
        ∀ p ∈ e.2.positions, p.counterparty = (if e.2.owner = 10 then 11 else 10) ∧
          p.marketKey ∈ listedTable.marketKeys := by
  decide +kernel

/-- Both accounts are margined, and so is each one's set of three seats. -/
theorem margin_completes_threeTree :
    threeTree.accounts.size = 2 ∧ ∀ (aid : Bytes32) (a : AccountState),
      threeTree.accounts[aid]? = some a →
        a.positions.length = 3 ∧
        (∃ cp, ∀ p ∈ a.positions, p.counterparty = cp ∧ p.marketKey ∈ listedTable.marketKeys) ∧
        (∀ p ∈ a.positions, p.notional.toNat ≤ (2 ^ 128 - 1) / 10 ^ 6) ∧
        Finished (imRequirementsFor a.owner a.positions listedTable) ∧
        ∀ cp, Finished (positionImFloor
          (a.positions.filter fun b => decide (b.counterparty = cp)) listedTable) := by
  rcases threeTree_opened with ⟨hopened, hsize, htable, hbooks⟩
  rcases treeAfter_eq hopened with ⟨outcome, hresolve, hpost⟩
  have hreach : Reachable (· = TreeState.default) TreeState.ResolveStep threeTree :=
    .next (.start rfl) ⟨_, _, outcome, hresolve, hpost.symm⟩
  refine ⟨hsize, ?_⟩
  intro aid a ha
  rcases hbooks (aid, a) (mem_toList.mpr ha) with ⟨hlength, hfacing⟩
  dsimp only at hlength hfacing
  rcases (margin_completes hreach htable).1 aid a ha with ⟨hnotional, hmargin⟩
  exact ⟨hlength, ⟨_, hfacing⟩, hnotional, hmargin (by omega)⟩

end Concrete

end StateKeeper
