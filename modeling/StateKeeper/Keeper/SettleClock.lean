import StateKeeper.Keeper.EpochInputsSpec
import StateKeeper.Keeper.PauseRecovery
import StateKeeper.Keeper.SettleRecovery

/-!
# Keeper - Settling before the clock

A mark is compared with the clock, a settle price is not: a bound price whose
close time is a held position's expiry settles the position whatever the keeper's
clock says.

Main results:

- Theorem {lit}`freshEpoch_settles_due_iff`: when an epoch settles due seats only.
-/

namespace StateKeeper

open Words Fallible SortedKeys KeyedMap

section Clock

variable [Primitives]

/-- A seat of the epoch: the tree holds it, or an open of the epoch locks it. -/
def TreeState.Seated (state : TreeState) (inputs : EpochInputs) (owner : Address)
    (p : PositionRecord) : Prop :=
  state.Holds owner p ∨ ∃ nb ∈ inputs.newPositions,
    nb.locks inputs.proofNow (ownersIn (epochRows state inputs)) ∧
      (nb.partyA = owner ∧ p = nb.seatA ∨ nb.partyB = owner ∧ p = nb.seatB)

/-- Every seat of the epoch that the tree after it no longer holds has expired by the epoch's
clock. -/
def SettlesDue (state : TreeState) (inputs : EpochInputs) (post : TreeState) : Prop :=
  ∀ owner p, state.Seated inputs owner p → ¬post.Holds owner p → p.expiry ≤ inputs.proofNow

/-- The chain has bound a non-negative price of the position's oracle at its expiry. -/
def ChainHistory.Prices (h : ChainHistory) (p : PositionRecord) : Prop :=
  ∃ t ∈ h.twaps, feedIdOracle t.feedId = p.oracle ∧ t.closeTime = p.expiry ∧ 0 ≤ t.twap.toInt

variable {history : ChainHistory} {state : TreeState} {domain : Bytes32} {now : U64}
  {inputs : EpochInputs} {table : ScenarioTable} {outcome : EpochOutcome}

omit [Primitives] in
/-- The parts of a fresh epoch that come straight from the scan and the clock. -/
theorem freshEpochInputs_ok [Primitives] (h : freshEpochInputs history state domain now = .ok inputs) :
    inputs.provenTwaps = dueTwaps history.twaps state ∧
      inputs.pausedPairs = history.pausedPairsAt u64Max ∧ inputs.proofNow = now := by
  rcases bind_eq_ok.mp h with ⟨newPositions, _, hpure⟩
  cases hpure
  exact ⟨rfl, rfl, rfl⟩

/-- A held position's close key is among the open positions' close keys. -/
theorem TreeState.Holds.mem_expiries {owner : Address} {p : PositionRecord}
    (hp : state.Holds owner p) : (p.expiry, p.oracle) ∈ state.expiries := by
  rcases hp with ⟨a, ha, _, hmem⟩
  refine List.mem_flatMap.mpr ⟨(accountIdSingle owner, a), mem_toList.mpr ha, ?_⟩
  exact List.mem_map.mpr ⟨p, hmem, rfl⟩

/-- The fresh epoch prices a held position exactly when the chain does, at any clock. -/
theorem pricesPosition_fresh_iff (h : freshEpochInputs history state domain now = .ok inputs)
    {owner : Address} {p : PositionRecord} (hp : state.Holds owner p) :
    inputs.PricesPosition p ↔ history.Prices p := by
  unfold EpochInputs.PricesPosition
  rw [(freshEpochInputs_ok h).1]
  constructor
  · intro hpriced
    rcases hpriced with ⟨tw, htw, hbinds⟩
    rcases List.mem_map.mp htw with ⟨t, ht, rfl⟩
    rcases List.mem_filter.mp ht with ⟨hmem, hdue⟩
    simp only [positionTwapBindingOk, TwapBoundRecord.provenTwap, Bool.and_eq_true,
      beq_iff_eq] at hbinds
    simp only [Bool.and_eq_true, decide_eq_true_eq] at hdue
    exact ⟨t, hmem, hbinds.1, hbinds.2.symm, hdue.1⟩
  · intro hprices
    rcases hprices with ⟨t, hmem, hfeed, hclose, hsign⟩
    refine ⟨t.provenTwap, List.mem_map_of_mem (List.mem_filter.mpr ⟨hmem, ?_⟩), ?_⟩
    · rw [hclose, hfeed]
      simp [hsign, hp.mem_expiries]
    · simp [positionTwapBindingOk, TwapBoundRecord.provenTwap, hfeed, hclose]

/-- A seat of the epoch is in its owner's touched row after the opens. -/
theorem TreeState.Seated.touched {owner : Address} {p : PositionRecord}
    (hp : state.Seated inputs owner p) :
    ∃ e ∈ touchedOf state inputs, (openedRow state inputs e).owner = owner ∧
      p ∈ (openedRow state inputs e).2.positions := by
  rcases hp with hheld | hnew
  · obtain ⟨e, he, howner, hbook⟩ := touched_of_holds inputs hheld
    refine ⟨e, he, howner, ?_⟩
    rw [openedRow_positions]
    exact List.mem_append_left _ hbook
  · have hrow : owner ∈ ownersIn (epochRows state inputs) := by
      obtain ⟨nb, _, hlock, ⟨rfl, _⟩ | ⟨rfl, _⟩⟩ := hnew
      · exact hlock.2.1
      · exact hlock.2.2.1
    obtain ⟨e, he, howner⟩ := exists_openedRow hrow
    refine ⟨e, he, howner, ?_⟩
    rw [openedRow_positions, howner]
    exact List.mem_append_right _ (mem_newSeats.mpr hnew)

/-- A seat that the epoch takes off the tree is priced through a held, un-paused position of
its oracle and expiry. -/
theorem exists_held_of_left (hwf : state.WellFormed)
    (h : resolveEpoch state inputs table = .ok outcome) {owner : Address} {p : PositionRecord}
    (hp : state.Seated inputs owner p) (hleft : ¬outcome.post.Holds owner p) :
    ∃ holder q, state.Holds holder q ∧ q.expiry = p.expiry ∧
      positionPaused inputs.pausedPairs q = false ∧ inputs.PricesPosition q := by
  obtain ⟨e, he, rfl, hmem⟩ := hp.touched
  have hretires : retires inputs.pausedPairs (openedRow state inputs e).2.provenTwaps p = true := by
    by_contra hstays
    apply hleft
    apply holds_of_kept hwf h he
    exact mem_unretired.mpr ⟨hmem, Bool.eq_false_iff.mpr hstays⟩
  obtain ⟨hpaused, hbound⟩ := retires_eq_true.mp hretires
  obtain ⟨q, hq, horacle, hexpiry, hpriced⟩ :=
    exists_priced_of_openedRow (boundTwap_isSome.mpr hbound)
  refine ⟨_, q, holds_of_book inputs hwf hq, hexpiry, ?_, hpriced⟩
  rw [positionPaused, horacle]
  exact hpaused

/-- A held position of an un-paused pair that the epoch prices is no longer held after it. -/
theorem not_holds_of_priced (hwf : state.WellFormed)
    (h : resolveEpoch state inputs table = .ok outcome) {owner : Address} {p : PositionRecord}
    (hp : state.Holds owner p) (hopen : positionPaused inputs.pausedPairs p = false)
    (hpriced : inputs.PricesPosition p) : ¬outcome.post.Holds owner p := by
  intro hheld
  obtain ⟨e, he, howner, hkept⟩ := kept_of_holds hwf h hheld
  obtain ⟨e', he', howner', hbook⟩ := touched_of_holds inputs hp
  -- the two rows are the owner's
  have hsame : e.1 = e'.1 := by
    rw [← accountId_of_openedRow hwf he, ← accountId_of_openedRow hwf he', howner, howner']
  rw [← hsame] at hbook
  have hstays := (mem_unretired.mp hkept).2
  rw [openedRow_provenTwaps, retires_twapsFor hbook] at hstays
  rw [retires_eq_true.mpr ⟨hopen, hpriced⟩] at hstays
  cases hstays

/-- A fresh epoch takes only due seats off the tree, exactly when the chain has bound no
non-negative price at the expiry of a held, un-paused position that expires later than the
clock. -/
theorem freshEpoch_settles_due_iff (hwf : state.WellFormed)
    (hfresh : freshEpochInputs history state domain now = .ok inputs)
    (h : resolveEpoch state inputs table = .ok outcome) :
    SettlesDue state inputs outcome.post ↔ ∀ owner p, state.Holds owner p → now < p.expiry →
      positionPaused (history.pausedPairsAt u64Max) p = false → ¬history.Prices p := by
  obtain ⟨_, hpaused, hnow⟩ := freshEpochInputs_ok hfresh
  constructor
  · intro hdue owner p hp hlater hopen hprices
    have hpriced := (pricesPosition_fresh_iff hfresh hp).mpr hprices
    rw [← hpaused] at hopen
    have hexpired := hdue owner p (Or.inl hp) (not_holds_of_priced hwf h hp hopen hpriced)
    rw [hnow] at hexpired
    exact absurd hlater (not_lt.mpr hexpired)
  · intro hnone owner p hp hleft
    obtain ⟨holder, q, hq, hexpiry, hopen, hpriced⟩ := exists_held_of_left hwf h hp hleft
    rw [hnow, ← hexpiry]
    apply not_lt.mp
    intro hlater
    rw [hpaused] at hopen
    exact hnone holder q hq hlater hopen ((pricesPosition_fresh_iff hfresh hq).mp hpriced)

end Clock

section Samples

attribute [local instance] concretePrimitives

/-- The chain has bound the price of the unit trade at its expiry. -/
def boundHistory : ChainHistory :=
  { openedHistory [] with
    twaps := [{ feedId := 3, closeTime := 200, twap := 1000000, expo := -6, block := 3 }] }

/-- The price settles the unit trade at clock 250 and at clock 150. -/
theorem boundHistory_resolves :
    (do
      let inputs ← freshEpochInputs boundHistory unitTree 92 250
      resolveEpoch unitTree inputs flatTable).isOk = true ∧
    (do
      let inputs ← freshEpochInputs boundHistory unitTree 92 150
      resolveEpoch unitTree inputs flatTable).isOk = true := by
  decide +kernel

/-- The price is one of a held, un-paused seat, at any clock. -/
theorem boundHistory_prices {now : U64} {inputs : EpochInputs}
    (hfresh : freshEpochInputs boundHistory unitTree 92 now = .ok inputs) :
    ∃ owner p, unitTree.Holds owner p ∧ positionPaused inputs.pausedPairs p = false ∧
      inputs.PricesPosition p := by
  obtain ⟨owner, p, hp, horacle, hexpiry⟩ := exists_holds_unitTree
  refine ⟨owner, p, hp, ?_, (pricesPosition_fresh_iff hfresh hp).mpr ?_⟩
  · rw [(freshEpochInputs_ok hfresh).2.1]
    rfl
  · refine ⟨_, List.mem_cons_self, ?_, hexpiry.symm, by decide⟩
    rw [horacle]
    decide

/-- At clock 250 the unit trade settles, and it is due. -/
theorem freshEpoch_settles_due_at_expiry :
    ∃ inputs outcome, freshEpochInputs boundHistory unitTree 92 250 = .ok inputs ∧
      resolveEpoch unitTree inputs flatTable = .ok outcome ∧
      (∃ owner p, unitTree.Holds owner p ∧ ¬outcome.post.Holds owner p) ∧
      SettlesDue unitTree inputs outcome.post := by
  have hrun := boundHistory_resolves.1
  have hwf := unitTree_reachable.wellFormed_matched.1
  cases hr : (do
      let inputs ← freshEpochInputs boundHistory unitTree 92 250
      resolveEpoch unitTree inputs flatTable) with
  | error e =>
      rw [hr] at hrun
      cases hrun
  | ok outcome =>
      obtain ⟨inputs, hfresh, hresolve⟩ := bind_eq_ok.mp hr
      refine ⟨inputs, outcome, hfresh, hresolve, ?_, ?_⟩
      · obtain ⟨owner, p, hp, hopen, hpriced⟩ := boundHistory_prices hfresh
        exact ⟨owner, p, hp, not_holds_of_priced hwf hresolve hp hopen hpriced⟩
      · apply (freshEpoch_settles_due_iff hwf hfresh hresolve).mpr
        intro owner p hp hlater
        rw [unitTree_expiry hp] at hlater
        exact absurd hlater (by decide)

/-- At a clock of 150 the same price takes the trade, which expires at 200, off the tree. -/
theorem freshEpoch_settles_early :
    unitTree.Reachable ∧ ∃ inputs outcome,
      freshEpochInputs boundHistory unitTree 92 150 = .ok inputs ∧
      resolveEpoch unitTree inputs flatTable = .ok outcome ∧
      ¬SettlesDue unitTree inputs outcome.post := by
  have hrun := boundHistory_resolves.2
  have hwf := unitTree_reachable.wellFormed_matched.1
  refine ⟨unitTree_reachable, ?_⟩
  cases hr : (do
      let inputs ← freshEpochInputs boundHistory unitTree 92 150
      resolveEpoch unitTree inputs flatTable) with
  | error e =>
      rw [hr] at hrun
      cases hrun
  | ok outcome =>
      obtain ⟨inputs, hfresh, hresolve⟩ := bind_eq_ok.mp hr
      refine ⟨inputs, outcome, hfresh, hresolve, ?_⟩
      intro hdue
      obtain ⟨owner, p, hp, hopen, hpriced⟩ := boundHistory_prices hfresh
      have hexpired := hdue owner p (Or.inl hp) (not_holds_of_priced hwf hresolve hp hopen hpriced)
      rw [unitTree_expiry hp, (freshEpochInputs_ok hfresh).2.2] at hexpired
      exact absurd hexpired (by decide)

end Samples

end StateKeeper
