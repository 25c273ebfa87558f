import Mathlib.Logic.Function.Basic
import StateKeeper.Keeper.EpochInputs

/-!
# Keeper - Advancing a lane that others advance too

One {lit}`advance` reads the chain, scans and rebuilds, executes, proves, reads the
chain again and submits.  Other keepers and new opens move the chain between any two
of these; a moved root sends the attempt back to its start.
-/

namespace StateKeeper

open Words Fallible

/-! ## One attempt -/

/-- Chain truth, read through the lens. -/
structure ChainState where
  root : Bytes32
  accountsRoot : Bytes32
  scenarioRoot : Bytes32
  domain : Bytes32
  vkey : Bytes32
deriving DecidableEq

/-- What a keeper starts with: the lane's pinned key and the local scenario table. -/
structure Ctx where
  vkey : Bytes32
  table : ScenarioTable
  tableRoot : Bytes32

/-- {lit}`MAX_REBASE`. -/
def MAX_REBASE : Nat :=
  3

/-- How a part of an attempt ends when nothing fails: the attempt goes on, the next one
starts, or the keeper is done. -/
inductive Flow (α : Type) where
  | next (value : α)
  | rebase
  | done

/-- The refusals of a chain of another generation. -/
def checkGeneration (ctx : Ctx) (chain : ChainState) : Run Unit :=
  if chain.vkey ≠ ctx.vkey then
    bail ("core vkey " ++ hexOf chain.vkey ++ " != pinned " ++ hexOf ctx.vkey ++
      " — wrong generation, refusing")
  else if ctx.tableRoot ≠ chain.scenarioRoot then
    bail "scenario table does not match the on-chain scenarioRoot — refusing to prove"
  else pure ()

/-- The tree, the epoch and the frames a keeper works out of a scan. -/
structure Plan where
  state : TreeState
  inputs : EpochInputs
  frames : AdvanceFrames

section Attempt

variable [Primitives]

/-- From the scan to the frames. -/
def plan (ctx : Ctx) (chain : ChainState) (history : ChainHistory) (now : U64) :
    Run (Flow Plan) := do
  let state ← rebuild history ctx.table
  -- the chain may have advanced between the read and the scan
  if state.root ≠ chain.root then pure .rebase
  else
    let inputs ← freshEpochInputs history state chain.domain now
    let frames ← buildAdvanceFrames state inputs ctx.table chain.accountsRoot
    -- nothing to advance
    if frames.predictedRoot = frames.rootPrev then pure .done
    else pure (.next { state := state, inputs := inputs, frames := frames })

/-- The guest on its stdin. -/
def guestRun (frames : List Frame) : Run StateTransitionOutputs := do
  let inp ← expect (readFrames frames) "guest execute failed"
  stateTransition inp

/-- The equivalence gate: the guest must commit the predicted root before a fee is spent. -/
def executeGate (frames : AdvanceFrames) : Run StateTransitionOutputs := do
  let out ← guestRun frames.frames
  if out.roots.rootNew ≠ frames.predictedRoot then
    bail ("guest execute committed root " ++ hexOf out.roots.rootNew ++
      " but the host predicted " ++ hexOf frames.predictedRoot ++ " — refusing to prove")
  else pure out

/-- An advance planned from a scan. -/
structure Advance (ctx : Ctx) extends Plan where
  chain : ChainState
  history : ChainHistory
  now : U64
  planned : plan ctx chain history now = .ok (.next toPlan)

/-- An advance that passed the gate. -/
structure Executed (ctx : Ctx) extends Advance ctx where
  out : StateTransitionOutputs
  executed : executeGate frames = .ok out

/-- A proved advance: the prover runs the same guest on the same stdin, and the proof
carries what that run commits. -/
structure Proved (ctx : Ctx) extends Executed ctx where
  publicValues : StateTransitionOutputs
  proved : guestRun frames.frames = .ok publicValues

/-- Where a keeper waits.  {lit}`read_chain` asks for the root first; {lit}`position` is the
length of the log when it answered. -/
inductive Phase (ctx : Ctx) where
  | start
  | reading (root : Bytes32) (position : Nat)
  | read (chain : ChainState) (position : Nat)
  | planned (adv : Advance ctx)
  | executed (e : Executed ctx)
  | proved (p : Proved ctx)
  | current (p : Proved ctx)
  | sent (p : Proved ctx)
  | stopped (result : Run Unit)

/-- A running {lit}`cmd_advance`. -/
structure Keeper (ctx : Ctx) where
  attempt : Nat
  phase : Phase ctx

variable {ctx : Ctx}

/-- A keeper before its first attempt. -/
def Keeper.new : Keeper ctx where
  attempt := 1
  phase := .start

/-- The keeper after a part of its attempt. -/
def Keeper.resume (attempt : Nat) : Run (Flow (Phase ctx)) → Keeper ctx
  | .ok (.next phase) => { attempt := attempt, phase := phase }
  | .ok .rebase =>
      if attempt < MAX_REBASE then { attempt := attempt + 1, phase := .start }
      else
        { attempt := attempt
          phase := .stopped (bail ("gave up after " ++ toString MAX_REBASE ++
            " rebase attempts — the lane is advancing faster than this step")) }
  | .ok .done => { attempt := attempt, phase := .stopped (pure ()) }
  | .error e => { attempt := attempt, phase := .stopped (.error e) }

end Attempt

/-! ## The lane -/

/-- One load-bearing event of the core. -/
inductive ChainEvent where
  | termsOpened (o : OpenRecord)
  | rootAdvanced (f : FoldRecord)
  | twapBound (t : TwapBoundRecord)
  | marketSet (m : MarketSetRecord)
deriving DecidableEq

def ChainEvent.open? : ChainEvent → Option OpenRecord
  | .termsOpened o => some o
  | _ => none

def ChainEvent.fold? : ChainEvent → Option FoldRecord
  | .rootAdvanced f => some f
  | _ => none

def ChainEvent.twap? : ChainEvent → Option TwapBoundRecord
  | .twapBound t => some t
  | _ => none

def ChainEvent.market? : ChainEvent → Option MarketSetRecord
  | .marketSet m => some m
  | _ => none

/-- The history a complete log scans to. -/
def historyOf (log : List ChainEvent) (head : U64) : ChainHistory where
  opens := log.filterMap ChainEvent.open?
  folds := log.filterMap ChainEvent.fold?
  twaps := log.filterMap ChainEvent.twap?
  marketSets := log.filterMap ChainEvent.market?
  head := head

section Steps

variable [Primitives]

/-- The lane: the core's log, state and consumed ids, the transactions in flight, the
advances it has accepted, and the keepers. -/
structure Lane (ctx : Ctx) (K : Type) where
  log : List ChainEvent
  core : ChainState
  consumed : List Bytes32
  mempool : List (Proved ctx)
  accepted : List (Proved ctx)
  keepers : K → Keeper ctx

variable {ctx : Ctx} {K : Type}

/-- A scan of the first {lit}`n` events. -/
def Lane.scan (s : Lane ctx K) (n : Nat) (head : U64) : ChainHistory :=
  historyOf (s.log.take n) head

/-- A core on the empty tree, with no event and no advance. -/
structure Lane.Genesis (s : Lane ctx K) : Prop where
  log : s.log = []
  root : s.core.root = TreeState.default.root
  accountsRoot : s.core.accountsRoot = TreeState.default.accountsRoot
  consumed : s.consumed = []
  mempool : s.mempool = []
  accepted : s.accepted = []
  keepers : ∀ k, s.keepers k = Keeper.new

/-- What the core requires of a fold. -/
structure Lane.Accepts (s : Lane ctx K) (pv : StateTransitionOutputs) : Prop where
  rootPrev : pv.roots.rootPrev = s.core.root
  accountsRootPrev : pv.roots.accountsRootPrev = s.core.accountsRoot
  opened : ∀ i ∈ pv.openedPositionIds, ∃ o, ChainEvent.termsOpened o ∈ s.log ∧ o.ident = i
  unconsumed : ∀ i ∈ pv.openedPositionIds, i ∉ s.consumed

/-- The core applies a fold. -/
def Lane.land (s : Lane ctx K) (p : Proved ctx) (block : U64) : Lane ctx K :=
  { s with
    log := s.log ++ [.rootAdvanced { block := block, pv := p.publicValues.decoded }]
    core :=
      { s.core with
        root := p.publicValues.roots.rootNew
        accountsRoot := p.publicValues.roots.accountsRootNew }
    consumed := s.consumed ++ p.publicValues.openedPositionIds
    accepted := s.accepted ++ [p] }

/-- How a waiting keeper's part may end on the lane as it stands. -/
inductive Lane.Resumes (s : Lane ctx K) : Phase ctx → Run (Flow (Phase ctx)) → Prop where
  | readRoot : s.Resumes .start (.ok (.next (.reading s.core.root s.log.length)))
  /-- The rest of {lit}`read_chain` may find a later state than the root did. -/
  | readRest {root : Bytes32} {position : Nat} :
      checkGeneration ctx { s.core with root := root } = .ok () →
      s.Resumes (.reading root position) (.ok (.next (.read { s.core with root := root } position)))
  | scan {position : Nat} (adv : Advance ctx) (n : Nat) (head : U64) : position ≤ n →
      adv.history = s.scan n head →
      s.Resumes (.read adv.chain position) (.ok (.next (.planned adv)))
  | rescan {chain : ChainState} {position : Nat} (n : Nat) (head now : U64) : position ≤ n →
      plan ctx chain (s.scan n head) now = .ok .rebase →
      s.Resumes (.read chain position) (.ok .rebase)
  | nothing {chain : ChainState} {position : Nat} (n : Nat) (head now : U64) : position ≤ n →
      plan ctx chain (s.scan n head) now = .ok .done →
      s.Resumes (.read chain position) (.ok .done)
  | execute (e : Executed ctx) : s.Resumes (.planned e.toAdvance) (.ok (.next (.executed e)))
  | prove (p : Proved ctx) : s.Resumes (.executed p.toExecuted) (.ok (.next (.proved p)))
  | unmoved (p : Proved ctx) : s.core.root = p.frames.rootPrev →
      s.Resumes (.proved p) (.ok (.next (.current p)))
  | moved (p : Proved ctx) : s.core.root ≠ p.frames.rootPrev → s.Resumes (.proved p) (.ok .rebase)
  /-- The gas estimate or the send reverts with {lit}`StaleRoot()`. -/
  | staleRoot (p : Proved ctx) : p.publicValues.roots.rootPrev ≠ s.core.root →
      s.Resumes (.current p) (.ok .rebase)
  | alreadyKnown (p : Proved ctx) : p ∈ s.mempool → s.Resumes (.current p) (.ok .done)
  | receipt (p : Proved ctx) : p ∈ s.accepted → s.Resumes (.sent p) (.ok .done)
  /-- A refusal, a reverted transaction or a node that does not answer. -/
  | fail (phase : Phase ctx) (e : Abort) : (∀ result, phase ≠ .stopped result) →
      s.Resumes phase (.error e)

/-- One step of a keeper or of the core. -/
inductive Lane.Step [DecidableEq K] : Lane ctx K → Lane ctx K → Prop where
  | resume {s : Lane ctx K} (k : K) (r : Run (Flow (Phase ctx))) :
      s.Resumes (s.keepers k).phase r →
      Step s
        { s with
          keepers := Function.update s.keepers k (Keeper.resume (s.keepers k).attempt r) }
  /-- The node takes the transaction; anyone may broadcast it again. -/
  | send {s : Lane ctx K} (k : K) (p : Proved ctx) : (s.keepers k).phase = .current p →
      Step s
        { s with
          mempool := s.mempool ++ [p]
          keepers := Function.update s.keepers k
            { attempt := (s.keepers k).attempt, phase := .sent p } }
  | land {s : Lane ctx K} (p : Proved ctx) (block : U64) : p ∈ s.mempool →
      s.Accepts p.publicValues → Step s (s.land p block)
  | openLock {s : Lane ctx K} (o : OpenRecord) :
      Step s { s with log := s.log ++ [.termsOpened o] }
  | bindTwap {s : Lane ctx K} (t : TwapBoundRecord) :
      Step s { s with log := s.log ++ [.twapBound t] }
  | setMarket {s : Lane ctx K} (m : MarketSetRecord) :
      Step s { s with log := s.log ++ [.marketSet m] }

end Steps

end StateKeeper
