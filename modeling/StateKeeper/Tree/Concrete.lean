import StateKeeper.Engine.Concrete
import StateKeeper.Tree.Frames

/-!
# Tree - Concrete epochs

The smallest epochs and trees, over Keccak-256 itself: one open between two
parties, on the empty tree or on the tree it leaves.

Main results:

- Theorem {lit}`treeAfter_eq`: the tree named after an epoch is the one the epoch
  resolves to.
-/

namespace StateKeeper

open Words Fallible

/-- The tree an epoch leaves; the prior tree when it does not resolve. -/
def treeAfter [Primitives] (prior : TreeState) (inputs : EpochInputs) (table : ScenarioTable) :
    TreeState :=
  match resolveEpoch prior inputs table with
  | .ok outcome => outcome.post
  | .error _ => prior

/-- The tree named after an epoch is the one the epoch resolves to. -/
theorem treeAfter_eq [Primitives] {prior : TreeState} {inputs : EpochInputs}
    {table : ScenarioTable} (h : (resolveEpoch prior inputs table).isOk = true) :
    ∃ outcome, resolveEpoch prior inputs table = .ok outcome ∧
      outcome.post = treeAfter prior inputs table := by
  unfold treeAfter
  cases hresolve : resolveEpoch prior inputs table with
  | ok outcome => exact ⟨outcome, rfl, rfl⟩
  | error e =>
      rw [hresolve] at h
      cases h

/-- One advance: build the frames, read them back, and run the guest on them. -/
def advanceRun [Primitives] (prior : TreeState) (inputs : EpochInputs) (table : ScenarioTable)
    (chainAccountsRoot : Bytes32) :
    Run (AdvanceFrames × StateTransitionInputs × StateTransitionOutputs) := do
  let frames ← buildAdvanceFrames prior inputs table chainAccountsRoot
  let inp ← expect (readFrames frames.frames) "the frames carry the guest's inputs"
  let out ← stateTransition inp
  pure (frames, inp, out)

/-- A finished advance is a built one whose guest completes. -/
theorem advanceRun_ok [Primitives] {prior : TreeState} {inputs : EpochInputs}
    {table : ScenarioTable} {chainAccountsRoot : Bytes32}
    {r : AdvanceFrames × StateTransitionInputs × StateTransitionOutputs}
    (h : advanceRun prior inputs table chainAccountsRoot = .ok r) :
    buildAdvanceFrames prior inputs table chainAccountsRoot = .ok r.1 ∧
      readFrames r.1.frames = some r.2.1 ∧ stateTransition r.2.1 = .ok r.2.2 := by
  rcases bind_eq_ok.mp h with ⟨frames, hframes, h⟩
  rcases bind_eq_ok.mp h with ⟨inp, hinp, h⟩
  rcases bind_eq_ok.mp h with ⟨out, hout, h⟩
  cases h
  exact ⟨hframes, expect_eq_ok.mp hinp, hout⟩

section Samples

attribute [local instance] concretePrimitives

/-- An epoch at clock 100 with one open. -/
def singleOpenEpoch (expiry : U64) : EpochInputs where
  newPositions := [(unitTerms expiry 1).bound]
  provenMarks := []
  provenTwaps := []
  pausedPairs := []
  proofNow := 100
  domainSeparator := 92

/-- The guest's inputs for that epoch on the empty tree when both parties are dropped. -/
def untouchedFold (inputs : EpochInputs) : StateTransitionInputs where
  book := { rootPrev := 0, accountsRootPrev := 0, touched := [] }
  marks := []
  pausedPairs := inputs.pausedPairs
  novations := []
  newPositions := inputs.newPositions
  novationWitnesses := []
  closeoutNovations := []
  closeoutNovationWitnesses := []
  proofNow := inputs.proofNow
  domainSeparator := inputs.domainSeparator
  scenarioTable := flatTable
  unwinds := []
  unwindWitnesses := []

/-- The tree after one open that expires at 200. -/
def unitTree : TreeState :=
  treeAfter TreeState.default (singleOpenEpoch 200) flatTable

end Samples

end StateKeeper
