import StateKeeper.Engine.MarkSpec
import StateKeeper.Tree.Coverage

/-!
# Tree - When an account resolves, and to what

A touched account resolves when its row passes each of the engine's checks.  What
it leaves depends on its kept seats alone, and on their order only through the
clamped sum of their values.

Main results:

- Theorem {lit}`accountAfter_finished_iff`: the checks of a row.
- Theorem {lit}`accountAfter_vm`: the VM a row leaves.
- Theorem {lit}`resolveEpoch_finished_iff`: the checks of an epoch.
-/

namespace StateKeeper

open Words Fallible SortedKeys KeyedMap SaturatingSum

section Account

variable [Primitives] {prior : TreeState} {inputs : EpochInputs} {table : ScenarioTable}

/-- Each check of the engine on a touched row. -/
structure RowResolves (prior : TreeState) (inputs : EpochInputs) (table : ScenarioTable)
    (e : Bytes32 × Address) : Prop where
  ids : ((openedRow prior inputs e).2.positions.map PositionRecord.termsId).Nodup
  prices : ((openedRow prior inputs e).2.provenTwaps.map ProvenTwap.bindingKey).Nodup
  settles : ∀ s ∈ boundSeats (openedRow prior inputs e).2.provenTwaps
    (openedRow prior inputs e).2.positions, Finished (settleSeat s)
  marks : markingEpochOf (epochRows prior inputs) = true →
    Finished (accountVmFromMarks (keptSeats prior inputs e) (openedRow prior inputs e).2.provenMarks)
  margin : Finished (imRequirementsFor (openedRow prior inputs e).owner
    (sortBy PositionRecord.termsId (keptSeats prior inputs e)) table)

/-- The values of the row's kept seats at the row's marks, as integers. -/
def keptValues (prior : TreeState) (inputs : EpochInputs) (e : Bytes32 × Address) : List Int :=
  markValues (openedRow prior inputs e).2.provenMarks (keptSeats prior inputs e)

/-- A touched account resolves exactly when its row passes every check. -/
theorem accountAfter_finished_iff {e : Bytes32 × Address} :
    Finished (accountAfter prior inputs table e) ↔ RowResolves prior inputs table e := by
  constructor
  · intro h
    rcases h with ⟨account, haccount⟩
    rcases bind_eq_ok.mp haccount with ⟨r, hr, _⟩
    rcases replayRow_ok_iff.mp hr with ⟨settled, vm, hsettled, hvm, hresolve⟩
    rcases positionSettlements_ok_iff.mp hsettled with ⟨hprices, hss, _⟩
    rcases resolveAccount_ok_iff.mp hresolve with ⟨hids, hmargin, _⟩
    rw [survivorsForVm_eq hids hss] at hvm
    rw [survivingOf_eq hids hss] at hmargin
    refine ⟨hids, hprices, fun s hs => ?_, fun hmarking => ?_, ⟨_, hmargin⟩⟩
    · rcases exists_of_mapM hss hs with ⟨settlement, _, hsettlement⟩
      exact ⟨settlement, hsettlement⟩
    · rw [hmarking] at hvm
      exact ⟨vm, hvm⟩
  · intro h
    rcases mapM_finished h.settles with ⟨ss, hss⟩
    have hsettled := positionSettlements_ok_iff.mpr
      (show _ ∧ _ ∧ (ss, (boundSeats (openedRow prior inputs e).2.provenTwaps
        (openedRow prior inputs e).2.positions).map fun s => s.2.consumed).2 = _ from
        ⟨h.prices, hss, rfl⟩)
    have hvm : Finished (newVmOf (markingEpochOf (epochRows prior inputs))
        (openedRow prior inputs e).1
        (survivorsForVm inputs.pausedPairs ss (openedRow prior inputs e).2.positions)
        (openedRow prior inputs e).2.provenMarks) := by
      rw [survivorsForVm_eq h.ids hss]
      cases hmarking : markingEpochOf (epochRows prior inputs) with
      | false => exact ⟨_, rfl⟩
      | true => exact h.marks hmarking
    rcases hvm with ⟨vm, hvm⟩
    have hmargin : Finished (imRequirementsFor (openedRow prior inputs e).owner
        (survivingOf inputs.pausedPairs ss (openedRow prior inputs e).2.positions) table) := by
      rw [survivingOf_eq h.ids hss]
      exact h.margin
    rcases resolveAccount_finished h.ids hmargin with ⟨r, hr⟩
    exact ⟨_, bind_eq_ok.mpr ⟨r, replayRow_ok_iff.mpr ⟨_, vm, hsettled, hvm, hr⟩, rfl⟩⟩

/-- The VM a row leaves: the clamped sum of the kept values on a marking epoch, the
carried VM otherwise. -/
theorem accountAfter_vm {e : Bytes32 × Address} {account : Option AccountState}
    (h : accountAfter prior inputs table e = .ok account) :
    ∃ vm : I128, account = accountOf (openedRow prior inputs e).owner vm (keptSeats prior inputs e) ∧
      vm.toInt =
        if markingEpochOf (epochRows prior inputs) then
          satSum i128Min i128Max 0 (keptValues prior inputs e)
        else (prior.vm e.1).toInt := by
  rcases accountAfter_eq e h with ⟨_, vm, hvm, haccount⟩
  refine ⟨vm.1, haccount, ?_⟩
  cases hmarking : markingEpochOf (epochRows prior inputs) with
  | true =>
      rw [hmarking] at hvm
      exact accountVm_toInt hvm
  | false =>
      rw [hmarking] at hvm
      rw [← Except.ok.inj hvm]
      change (openedRow prior inputs e).1.prevVmEquity.toInt = _
      have hcarried : (openedRow prior inputs e).1.prevVmEquity = prior.vm e.1 :=
        priorRow_prevVmEquity prior inputs e.1 e.2
      rw [hcarried]
      rfl

/-- Every open of the epoch is bound, and every touched row passes its checks. -/
def TreeState.Resolves (prior : TreeState) (inputs : EpochInputs) (table : ScenarioTable) :
    Prop :=
  (∀ nb ∈ inputs.newPositions, assertNewPositionBound nb = .ok ()) ∧
    ∀ e ∈ touchedOf prior inputs, RowResolves prior inputs table e

/-- An epoch resolves exactly when its opens and its rows pass every check. -/
theorem resolveEpoch_finished_iff (hwf : prior.WellFormed) :
    Finished (resolveEpoch prior inputs table) ↔ prior.Resolves inputs table := by
  constructor
  · intro h
    rcases h with ⟨outcome, houtcome⟩
    rcases (resolveEpoch_ok_iff hwf).mp houtcome with ⟨hbound, _, accounts, haccounts, _⟩
    refine ⟨hbound, fun e he => ?_⟩
    rcases exists_of_mapM haccounts he with ⟨account, _, haccount⟩
    exact accountAfter_finished_iff.mp ⟨account, haccount⟩
  · intro h
    rcases mapM_finished fun e he => accountAfter_finished_iff.mpr (h.2 e he) with
      ⟨accounts, haccounts⟩
    have hids := fun e he => (h.2 e he).ids
    exact ⟨_, (resolveEpoch_ok_iff hwf).mpr ⟨h.1, hids, accounts, haccounts, rfl⟩⟩

end Account

end StateKeeper
