import StateKeeper.Tree.Replay

/-!
# Tree - The 13 guest frames

The guest's stdin for one advance, in its exact read order, with the predicted
roots.  A frame carries one value; the guest reads the values back by position.
-/

namespace StateKeeper

open Words Fallible

/-- One encoded value of the guest's stdin. -/
inductive Frame where
  | book (value : TouchedBook)
  | marks (value : List Mark)
  | pausedPairs (value : List Bytes32)
  | novations (value : List Novation)
  | newPositions (value : List NewPosition)
  | novationWitnesses (value : List NovationWitness)
  | closeoutNovations (value : List CloseoutNovation)
  | closeoutNovationWitnesses (value : List CloseoutNovationWitness)
  | proofNow (value : U64)
  | domainSeparator (value : Bytes32)
  | scenarioTable (value : ScenarioTable)
  | unwinds (value : List Unwind)
  | unwindWitnesses (value : List UnwindWitness)
deriving DecidableEq

/-- The guest's reads, in order. -/
def readFrames : List Frame → Option StateTransitionInputs
  | [.book book, .marks marks, .pausedPairs pausedPairs, .novations novations,
      .newPositions newPositions, .novationWitnesses novationWitnesses,
      .closeoutNovations closeoutNovations,
      .closeoutNovationWitnesses closeoutNovationWitnesses, .proofNow proofNow,
      .domainSeparator domainSeparator, .scenarioTable scenarioTable, .unwinds unwinds,
      .unwindWitnesses unwindWitnesses] =>
      some
        { book := book
          marks := marks
          pausedPairs := pausedPairs
          novations := novations
          newPositions := newPositions
          novationWitnesses := novationWitnesses
          closeoutNovations := closeoutNovations
          closeoutNovationWitnesses := closeoutNovationWitnesses
          proofNow := proofNow
          domainSeparator := domainSeparator
          scenarioTable := scenarioTable
          unwinds := unwinds
          unwindWitnesses := unwindWitnesses }
  | _ => none

/-- The 13 frames plus the predicted advance. -/
structure AdvanceFrames where
  frames : List Frame
  predictedRoot : Bytes32
  predictedAccountsRoot : Bytes32
  rootPrev : Bytes32

/-- The two sequential trees and the touched rows built so far. -/
structure Staging where
  smt : Smt2
  registry : Smt2
  touched : List TouchedAccount

variable [Primitives]

/-- Stage one touched account: witness and step both trees, or drop it when it is
absent before and after. -/
def stageAccount (priorKeys : List Bytes32) (s : Staging)
    (e : (Bytes32 × Option Bytes32) × Row) : Staging :=
  let aid := e.1.1
  let post := e.1.2
  match decide (aid ∈ priorKeys), post.isSome with
  | false, false => s
  | wasPresent, finalPresent =>
      let stateStep := s.smt.step aid post
      let registryStep := match wasPresent, finalPresent with
        | false, true => some (s.registry.step aid (some registryLeaf))
        | true, false => some (s.registry.step aid none)
        | _, _ => none
      { smt := stateStep.2
        registry := (registryStep.map Prod.snd).getD s.registry
        touched := s.touched ++
          [{ account := e.2.1
             risk := e.2.2
             stateWitness := stateStep.1
             registryWitness := registryStep.map Prod.fst }] }

/-- Build the 13 frames for one epoch. -/
def buildAdvanceFrames (state : TreeState) (inputs : EpochInputs) (table : ScenarioTable)
    (chainAccountsRoot : Bytes32) : Run AdvanceFrames := do
  let _root ← table.scenarioRoot
  let prior := state.leaves
  let rootPrev := (Smt2.fromLeaves prior).root
  let priorKeys := prior.map Prod.fst
  let outcome ← resolveEpoch state inputs table
  let registry := priorKeys.foldl (fun t k => t.insert k registryLeaf) Smt2.new
  if registry.root ≠ chainAccountsRoot then
    bail ("prior registry root " ++ hexOf registry.root ++ " != chain accountsRoot " ++
      hexOf chainAccountsRoot ++ " — the account set drifted")
  else
    let staged := (outcome.steps.zip outcome.priorRows).foldl (stageAccount priorKeys)
      { smt := Smt2.fromLeaves prior, registry := registry, touched := [] }
    let book : TouchedBook :=
      { rootPrev := rootPrev
        accountsRootPrev := chainAccountsRoot
        touched := staged.touched }
    pure
      { frames :=
          [.book book, .marks [], .pausedPairs inputs.pausedPairs, .novations [],
            .newPositions inputs.newPositions, .novationWitnesses [], .closeoutNovations [],
            .closeoutNovationWitnesses [], .proofNow inputs.proofNow,
            .domainSeparator inputs.domainSeparator, .scenarioTable table, .unwinds [],
            .unwindWitnesses []]
        predictedRoot := staged.smt.root
        predictedAccountsRoot := staged.registry.root
        rootPrev := rootPrev }

end StateKeeper
