import StateKeeper.Foundation.Runs
import StateKeeper.Keeper.EpochInputs
import StateKeeper.Tree.FramesSpec

/-!
# Keeper - The race between pauses and folds

A lane seen from its pause switches.  {lit}`MarketSet` events, scans, proofs and
landings happen in any order; the pause set of a fold is fixed when its keeper
scans, and the core re-checks at landing only the markets the fold surfaced.
-/

namespace StateKeeper

open Words Fallible

/-- The market's last {lit}`MarketSet` record left it paused. -/
def marketPaused [Primitives] (sets : List MarketSetRecord) (key : Bytes32) : Bool :=
  match sets.reverse.find? fun m => marketKey m.instrument m.pairTag = key with
  | some m => m.paused
  | none => false

/-- A proved epoch: the scan it came from, the tree and inputs its frames were built
on, and what the guest read and committed. -/
structure Proof where
  history : ChainHistory
  prior : TreeState
  inputs : EpochInputs
  guest : StateTransitionInputs
  out : StateTransitionOutputs

/-- A landed fold: its proof, its block, and the {lit}`MarketSet` log it landed on. -/
structure Landing where
  proof : Proof
  block : U64
  before : List MarketSetRecord

/-- The lane: its clock, its {lit}`MarketSet` log, its roots, the scans keepers hold,
their proofs, and the folds that landed. -/
structure PauseLane where
  block : U64
  marketSets : List MarketSetRecord
  root : Bytes32
  accountsRoot : Bytes32
  scans : List ChainHistory
  proofs : List Proof
  landed : List Landing

/-- A lane without events on the empty tree. -/
def PauseLane.Genesis [Primitives] (s : PauseLane) : Prop :=
  s.marketSets = [] ∧ s.root = TreeState.default.root ∧
    s.accountsRoot = TreeState.default.accountsRoot ∧ s.scans = [] ∧ s.proofs = [] ∧ s.landed = []

section Steps

variable [Primitives]

/-- The proof is an advance built and executed from its scan: the pause set is the one
the scan ends with, the other inputs are free. -/
structure Proof.Built (p : Proof) (table : ScenarioTable) : Prop where
  wellFormed : p.prior.WellFormed
  scanned : p.inputs.pausedPairs = p.history.pausedPairsAt u64Max
  framed : ∃ frames, buildAdvanceFrames p.prior p.inputs table p.prior.accountsRoot = .ok frames ∧
    readFrames frames.frames = some p.guest
  completed : stateTransition p.guest = .ok p.out

/-- One step of the lane or of a keeper. -/
inductive PauseLane.Step (table : ScenarioTable) : PauseLane → PauseLane → Prop where
  /-- A later block begins. -/
  | mine {s : PauseLane} (block : U64) : s.block < block →
      Step table s { s with block := block }
  /-- The core emits a {lit}`MarketSet` event. -/
  | setMarket {s : PauseLane} (m : MarketSetRecord) : m.block = s.block →
      Step table s { s with marketSets := s.marketSets ++ [m] }
  /-- A keeper scans the log so far. -/
  | scan {s : PauseLane} (history : ChainHistory) : history.marketSets = s.marketSets →
      history.head = s.block → Step table s { s with scans := s.scans ++ [history] }
  /-- A keeper proves an epoch built from one of its scans. -/
  | prove {s : PauseLane} (p : Proof) : p.history ∈ s.scans → p.Built table →
      Step table s { s with proofs := s.proofs ++ [p] }
  /-- The core applies a proved fold in a later block: its roots match, and every market
  it surfaced a hold for is paused. -/
  | land {s : PauseLane} (p : Proof) : p ∈ s.proofs → p.history.head < s.block →
      p.out.roots.rootPrev = s.root → p.out.roots.accountsRootPrev = s.accountsRoot →
      (∀ h ∈ p.out.pausedHolds, marketPaused s.marketSets h.marketKey = true) →
      Step table s
        { s with
          root := p.out.roots.rootNew
          accountsRoot := p.out.roots.accountsRootNew
          landed := s.landed ++
            [{ proof := p, block := s.block, before := s.marketSets }] }

end Steps

end StateKeeper
