import StateKeeper.Keeper.EpochInputs
import StateKeeper.Tree.Concrete

/-!
# Keeper - Concrete chain histories

The histories a small chain scans to, over Keccak-256 itself, and one step of
the keeper on them.
-/

namespace StateKeeper

open Words Fallible

/-- What the keeper works out of a scan before it proves: the tree, the epoch, its
frames and what the guest reads from them. -/
structure Prepared where
  state : TreeState
  inputs : EpochInputs
  frames : AdvanceFrames
  guest : StateTransitionInputs

/-- One step of the keeper on a scan. -/
def prepare [Primitives] (history : ChainHistory) (table : ScenarioTable) (domain : Bytes32)
    (now : U64) : Run Prepared := do
  let state ← rebuild history table
  let inputs ← freshEpochInputs history state domain now
  let frames ← buildAdvanceFrames state inputs table state.accountsRoot
  let guest ← expect (readFrames frames.frames) "the frames carry the guest's inputs"
  pure { state := state, inputs := inputs, frames := frames, guest := guest }

/-- A prepared epoch is a rebuilt tree with built frames. -/
theorem prepare_ok [Primitives] {history : ChainHistory} {table : ScenarioTable}
    {domain : Bytes32} {now : U64} {p : Prepared} (h : prepare history table domain now = .ok p) :
    rebuild history table = .ok p.state ∧
      freshEpochInputs history p.state domain now = .ok p.inputs ∧
      buildAdvanceFrames p.state p.inputs table p.state.accountsRoot = .ok p.frames ∧
      readFrames p.frames.frames = some p.guest := by
  rcases bind_eq_ok.mp h with ⟨state, hstate, h⟩
  rcases bind_eq_ok.mp h with ⟨inputs, hinputs, h⟩
  rcases bind_eq_ok.mp h with ⟨frames, hframes, h⟩
  rcases bind_eq_ok.mp h with ⟨guest, hguest, h⟩
  cases h
  exact ⟨hstate, hinputs, hframes, expect_eq_ok.mp hguest⟩

/-- The fold record of a step whose guest completes. -/
def landed [Primitives] (block : U64) (step : Run Prepared) : List FoldRecord :=
  match step.bind fun p => stateTransition p.guest with
  | .ok out => [{ block := block, pv := out.decoded }]
  | .error _ => []

/-- The chain's record of an open with these terms. -/
def NewPosition.record [Primitives] (nb : NewPosition) : OpenRecord where
  ident := nb.recomputedId
  terms :=
    { partyA := nb.partyA
      partyB := nb.partyB
      oracle := nb.oracle
      pairTag := nb.pairTag
      quantity := nb.quantity.setWidth 256
      imBpsA := nb.imBpsA
      imBpsB := nb.imBpsB
      mmPct := nb.mmPct
      expiry := nb.expiry.setWidth 40
      nonce := nb.nonce
      cureWindow := nb.cureWindow
      payoutPrefA := nb.payoutPrefA
      payoutPrefB := nb.payoutPrefB
      data := nb.data
      instrument := nb.instrument
      side := nb.sideA }
  sigA := nb.sigA
  sigB := nb.sigB
  block := 1

/-- A chain with these opens and nothing else. -/
def openedHistory (opens : List OpenRecord) : ChainHistory where
  opens := opens
  folds := []
  twaps := []
  marketSets := []
  head := 1

section Samples

attribute [local instance] concretePrimitives

/-- The fold of the unit trade that expires at 200, proved at clock 100. -/
def unitFold : List FoldRecord :=
  landed 2 (prepare (openedHistory [(unitTerms 200 1).record]) flatTable 92 100)

/-- A chain whose unit trade is folded and whose second open, expiring at 300, is not. -/
def dueHistory : ChainHistory :=
  { openedHistory [(unitTerms 200 1).record, (unitTerms 300 2).record] with folds := unitFold }

end Samples

end StateKeeper
