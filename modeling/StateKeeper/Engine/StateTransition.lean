import StateKeeper.Engine.Smt2
import StateKeeper.Engine.Resolve
import StateKeeper.Engine.Handoff
import StateKeeper.Engine.Unwind

/-!
# Engine - The whole-book state transition

The guest's fold, stage by stage: the gates, the binding of each touched row to
its prior leaf, the openLock pre-pass, the per-account resolve, the handoffs, the
two tree folds, and the canonical surfaces.
-/

namespace StateKeeper

open Words Fallible SortedKeys

/-- Everything the transition reads. -/
structure StateTransitionInputs where
  book : TouchedBook
  marks : List Mark
  pausedPairs : List Bytes32
  novations : List Novation
  newPositions : List NewPosition
  novationWitnesses : List NovationWitness
  closeoutNovations : List CloseoutNovation
  closeoutNovationWitnesses : List CloseoutNovationWitness
  proofNow : U64
  domainSeparator : Bytes32
  scenarioTable : ScenarioTable
  unwinds : List Unwind
  unwindWitnesses : List UnwindWitness
deriving DecidableEq

/-- Everything the transition commits, 15 rows. -/
structure StateTransitionOutputs where
  roots : Roots
  defaults : List DefaultRecord
  consumedTwaps : List ConsumedTwap
  novations : List Novation
  closeoutNovations : List CloseoutNovation
  eventsCommitment : Bytes32
  committedNow : U64
  committedDomain : Bytes32
  pausedHolds : List PausedHold
  scenarioRoot : Bytes32
  consumedMarks : List ConsumedMark
  openedPositionIds : List Bytes32
  imRequirements : List ImRequirement
  settlements : List Settlement
  unwinds : List Unwind
deriving DecidableEq

def OUTCOME_TAG_REJECTED : U8 := 3

/-- The event tag of an outcome. -/
def outcomeTag : ResolveOutcome → U8
  | .noOp => 0
  | .released => 1
  | .toppedUp => 2
  | .rejected => 3
  | .settled => 4
  | .settledPerPosition => 5
  | .defaulted => 6

/-- One account after its resolve. -/
structure AccountPost where
  aid : Bytes32
  owner : Address
  positions : List PositionRecord
  vm : I128
  priorLeaf : Option Bytes32
deriving DecidableEq

/-- A row is present when its state witness ends in a leaf. -/
def TouchedAccount.present (ta : TouchedAccount) : Bool :=
  match ta.stateWitness.terminal with
  | .leaf _ => true
  | _ => false

/-- A touched account's row of the book. -/
def TouchedAccount.row (ta : TouchedAccount) : Row :=
  (ta.account, ta.risk)

/-- It is a marking epoch iff any touched row carries a proven mark. -/
def markingEpochOf (rows : List Row) : Bool :=
  rows.any fun row => !row.2.provenMarks.isEmpty

variable [Primitives]

/-! ## Gates -/

/-- The clock gate, the witness counts and the open domains. -/
def gateInputs (inp : StateTransitionInputs) : Run Unit := do
  ensure (inp.novationWitnesses.length = inp.novations.length)
    "state_transition: one transferAsClose witness required per committed novation (GS-02)"
  ensure (inp.closeoutNovationWitnesses.length = inp.closeoutNovations.length)
    "state_transition: one closeout_novation_close witness required per committed closeout_novation (GS-02)"
  ensure (inp.unwindWitnesses.length = inp.unwinds.length)
    "state_transition: one unwind_close witness required per committed unwind (GS-02)"
  ensure (∀ m ∈ inp.marks, m.publishTime ≤ inp.proofNow)
    "state_transition: proof_now must be >= every consumed mark publish_time"
  ensure (∀ nb ∈ inp.newPositions, nb.domainSeparator = inp.domainSeparator)
    "state_transition: new position domain_separator != the proof's pinned deployment domain (N-01)"

/-! ## Binding the rows -/

/-- A touched row bound to its prior leaf, with its due holds. -/
structure BoundRow where
  prior : Option Bytes32
  holds : List PausedHold
deriving DecidableEq

/-- Bind one row, given the key before it. -/
def bindRow (paused : List Bytes32) (proofTime : U64) (prevKey : Option Bytes32)
    (ta : TouchedAccount) : Run BoundRow := do
  let a := ta.account
  let ri := ta.risk
  let aid := accountIdSingle a.accountOwner
  ensure (prevKey.all fun p => aid > p)
    "state_transition: touched accounts must be strictly ascending by aid, no dup"
  ensure (ta.stateWitness.key = aid) "state_transition: state witness key != aid"
  ensure (∀ rw ∈ ta.registryWitness, rw.key = aid)
    "state_transition: registry witness key != aid"
  ensure (ta.present ∨ (a.vmEquity = 0 ∧ a.prevVmEquity = 0 ∧ a.positionsRoot = 0))
    "state_transition: an absent touched account must carry all-default prior fields"
  ensure (ta.present ∨ (ri.positions = [] ∧ ri.provenTwaps = [] ∧ ri.provenMarks = []))
    "state_transition: an absent touched account must carry an empty risk witness"
  let opens ← positionsOpenRoot ri.positions a.positionsRoot
  ensure opens
    "state_transition: supplied positions do not reproduce the account's positionsRoot (GS-03)"
  let holds ← assertDueBoxesHaveProvenTwap ri.positions ri.provenTwaps paused proofTime
  pure
    { prior := if ta.present then some (accountLeaf aid a.prevVmEquity a.positionsRoot) else none
      holds := holds }

/-- Bind every touched row, in order. -/
def bindRows (paused : List Bytes32) (proofTime : U64) :
    Option Bytes32 → List TouchedAccount → Run (List BoundRow)
  | _, [] => pure []
  | prevKey, ta :: rest => do
      let row ← bindRow paused proofTime prevKey ta
      let rows ← bindRows paused proofTime (some (accountIdSingle ta.account.accountOwner)) rest
      pure (row :: rows)

/-! ## Unwinds -/

/-- The row an owner holds, with the position of an id in it. -/
def heldBy (accounts : List Row) (party : Address) (oldId : Bytes32)
    (noRow noLeg : String) : Run PositionRecord := do
  let row ← expect (accounts.find? fun row => row.1.accountOwner = party) noRow
  expect (row.2.positions.find? fun b => b.termsId = oldId) noLeg

/-- Validate one committed unwind against its witness and both books. -/
def checkUnwind (accounts : List Row) (domainSeparator : Bytes32)
    (e : Unwind × UnwindWitness) : Run Unit := do
  let entry := e.1
  let witness := e.2
  ensure (witness.domainSeparator = domainSeparator)
    "state_transition: unwind consent domain != the proof's pinned domain (guest-crypto-4)"
  let valid ← unwindEntryValid witness entry
  ensure valid
    "state_transition: committed unwind is not a sound bilateral unwind_close (GS-02)"
  let src ← heldBy accounts entry.partyA entry.oldId
    "unwind: A is not a touched account"
    "unwind: A does not hold old_id in its committed book (GS-03) — cannot unwind an absent/closed leaf"
  ensure (witness.aPosition = src)
    "unwind: witness a_position != A's committed leaf for old_id — forged unwind economics (guest-crypto-4)"
  let mirror ← heldBy accounts entry.partyB entry.oldId
    "unwind: B is not a touched account — the mirror seat must be folded in the same epoch"
    "unwind: B does not hold old_id in its committed book (GS-03) — the mirror seat must retire with A's"
  ensure (mirror.counterparty = entry.partyA)
    "unwind: B's mirror seat for old_id does not face A — not a genuine bilateral mirror (guest-crypto-4)"

/-! ## Resolving the rows -/

/-- What one row adds to the transition. -/
structure RowResult where
  post : AccountPost
  outcome : ResolveOutcome
  consumedTwaps : List ConsumedTwap
  consumedMarks : List ConsumedMark
  pausedHolds : List PausedHold
  defaults : List DefaultRecord
  settlements : List Settlement
deriving DecidableEq

/-- Resolve one row: settle, re-mark, and re-root. -/
def resolveRow (inp : StateTransitionInputs) (markingEpoch : Bool)
    (e : Row × Option Bytes32) : Run RowResult := do
  let a := e.1.1
  let ri := e.1.2
  let aid := accountIdSingle a.accountOwner
  assertNoTrustedSettle ri
  let settled ← positionSettlementsFromTwaps ri.positions ri.provenTwaps
  let positionSettlements := settled.1 ++ unwindSettlementsForAccount ri.positions inp.unwinds
  ensure (∀ m ∈ ri.provenMarks, markFresh m.markTime inp.proofNow)
    "state_transition: proven-mark mark_time stale/future beyond the mark window"
  let holds ← assertMarksComplete ri.positions ri.provenMarks inp.pausedPairs inp.proofNow
    markingEpoch
  let vm ← newVmOf markingEpoch a
    (survivorsForVm inp.pausedPairs positionSettlements ri.positions) ri.provenMarks
  let r ← resolveAccount a.accountOwner ri.positions positionSettlements vm.1 inp.pausedPairs
    inp.scenarioTable
  pure
    { post :=
        { aid := aid
          owner := a.accountOwner
          positions := r.surviving
          vm := r.vmEquity
          priorLeaf := e.2 }
      outcome := r.outcome
      consumedTwaps := settled.2
      consumedMarks := vm.2
      pausedHolds := holds
      defaults := r.defaults
      settlements := r.settlements }

/-! ## Handoffs -/

/-- Move a novated position from A's post row to C's. -/
def applyHandoffMove (posts : List AccountPost) (partyA partyC : Address)
    (oldId newId : Bytes32) (cIm : U128) (aPosition : PositionRecord) :
    Run (List AccountPost) := do
  ensure (partyA ≠ partyC) "handoff: A and C must be distinct accounts"
  let ai ← expect (posts.findIdx? fun p => p.owner = partyA) "handoff: A not a touched account"
  let aPositions := (posts[ai]?.map AccountPost.positions).getD []
  let src ← expect (aPositions.find? fun b => b.termsId = oldId)
    "handoff: A does not hold old_id in its committed book (GS-03) (guest-crypto-1)"
  ensure (aPosition = src)
    "handoff: witness a_position != A's committed leaf for old_id — forged handoff economics (guest-crypto-1)"
  let kept := aPositions.filter fun b => b.termsId ≠ oldId
  ensure (kept.length = aPositions.length - 1) "handoff: retain removed != 1 leaf (guest-crypto-1)"
  let posts := posts.modify ai fun p => { p with positions := kept }
  let ci ← expect (posts.findIdx? fun p => p.owner = partyC) "handoff: C not a touched account"
  pure (posts.modify ci fun p =>
    { p with positions := p.positions ++ [movedPosition src newId cIm] })

/-- One committed novation: the moved posts and its cash. -/
def novationStep (domainSeparator : Bytes32) (acc : List AccountPost × List Settlement)
    (e : Novation × NovationWitness) : Run (List AccountPost × List Settlement) := do
  let entry := e.1
  let witness := e.2
  ensure (witness.domainSeparator = domainSeparator)
    "state_transition: voluntary novation consent domain != the proof's pinned domain (guest-crypto-2)"
  let valid ← novationEntryValid witness entry
  ensure valid
    "state_transition: committed novation is not a conserved, in-bounds transferAsClose (GS-02)"
  let r ← transferAsClose witness
  ensure (r.reject = none) "state_transition: committed novation rejected in-guest"
  let posts ← applyHandoffMove acc.1 r.partyA r.partyC entry.oldId entry.newId entry.cIm
    witness.aPosition
  pure (posts, acc.2 ++ r.settlements)

/-- The posts, the cash and the consumed prices the closeouts thread. -/
structure CloseoutState where
  posts : List AccountPost
  settlements : List Settlement
  consumedTwaps : List ConsumedTwap
deriving DecidableEq

/-- One committed closeout novation. -/
def closeoutStep (domainSeparator : Bytes32) (proofTime : U64) (acc : CloseoutState)
    (e : CloseoutNovation × CloseoutNovationWitness) : Run CloseoutState := do
  let entry := e.1
  let witness := e.2
  ensure (witness.domainSeparator = domainSeparator)
    "state_transition: closeout novation consent domain != the proof's pinned domain (guest-crypto-3)"
  let valid ← closeoutNovationEntryValid witness entry
  ensure valid
    "state_transition: committed closeout_novation is not a sound closeout_novation_close (GS-02)"
  ensure (closeoutNovationMarkFresh witness.provenTwap.closeTime proofTime)
    "state_transition: closeout_novation handoff mark close_time stale beyond the window (M-freshness)"
  let r ← closeoutNovationClose witness
  let posts ← applyHandoffMove acc.posts r.partyA r.partyC entry.oldId entry.newId entry.cIm
    witness.aPosition
  pure
    { posts := posts
      settlements := acc.settlements ++ r.settlements
      consumedTwaps := acc.consumedTwaps ++ [witness.provenTwap.consumed] }

/-! ## Requirements -/

/-- The zero row an emptied netting set needs, in one direction. -/
def zeroRow (posts : List AccountPost) (reqs : List ImRequirement) (pair : Address × Address) :
    List ImRequirement :=
  let stillFaces := ((posts.find? fun p => p.owner = pair.1).map fun p =>
    p.positions.any fun b => b.counterparty = pair.2).getD false
  let alreadyEmitted := reqs.any fun r => r.acct = pair.1 && r.cp = pair.2
  if !stillFaces && !alreadyEmitted then
    reqs ++ [{ acct := pair.1, cp := pair.2, usd := 0 }]
  else reqs

/-- The zero rows of every unwind, both directions. -/
def zeroRows (posts : List AccountPost) (unwinds : List Unwind) (reqs : List ImRequirement) :
    List ImRequirement :=
  (unwinds.flatMap fun u => [(u.partyA, u.partyB), (u.partyB, u.partyA)]).foldl (zeroRow posts) reqs

/-- The requirement rows over the final books. -/
def requirementsOf (posts : List AccountPost) (unwinds : List Unwind) (table : ScenarioTable) :
    Run (List ImRequirement) := do
  let rows ← posts.mapM fun p => imRequirementsFor p.owner p.positions table
  pure (zeroRows posts unwinds rows.flatten)

/-! ## Folding the trees -/

/-- The leaf a post row commits, if any position is left in it. -/
def AccountPost.newLeaf (p : AccountPost) : Option Bytes32 :=
  if p.positions.isEmpty then none
  else some (accountLeaf p.aid p.vm (positionsRoot p.positions))

/-- Fold one row into the state root and, on a change of membership, the registry root. -/
def foldRow (running : Bytes32 × Bytes32) (e : AccountPost × TouchedAccount) :
    Run (Bytes32 × Bytes32) := do
  let p := e.1
  let ta := e.2
  let state ← applyStep running.1 ta.stateWitness p.priorLeaf p.newLeaf
  match p.priorLeaf.isSome, !p.positions.isEmpty with
  | false, true => do
      let rw ← expect ta.registryWitness
        "state_transition: inserting account needs a registry witness"
      let registry ← applyStep running.2 rw none (some registryLeaf)
      pure (state, registry)
  | true, false => do
      let rw ← expect ta.registryWitness
        "state_transition: pruning account needs a registry witness"
      let registry ← applyStep running.2 rw (some registryLeaf) none
      pure (state, registry)
  | _, _ => do
      ensure (ta.registryWitness = none)
        "state_transition: registry witness supplied for a membership-preserving touch"
      pure (state, running.2)

/-! ## Surfaces -/

/-- The event word of a tag and an id: the tag, then the id's first 31 bytes. -/
def eventWord (tag : U8) (ident : Bytes32) : Bytes32 :=
  tag ++ ident.extractLsb' 8 248

/-- The keccak chain over the ordered outcomes, then the rejected opens. -/
def eventsCommitmentOf (results : List RowResult) (rejectedOpens : List Bytes32) : Bytes32 :=
  let outcomes := results.map fun r => eventWord (outcomeTag r.outcome) r.post.aid
  let rejects := rejectedOpens.map (eventWord OUTCOME_TAG_REJECTED)
  (outcomes ++ rejects).foldl keccakPair 0

/-- Consumed marks in canonical order, without repeats. -/
def canonicalMarks (marks : List ConsumedMark) : List ConsumedMark :=
  dedupAdjacent (sortBy (fun m => toLex (m.feedId, m.markTime)) marks)

/-- Paused holds in canonical order. -/
def canonicalHolds (holds : List PausedHold) : List PausedHold :=
  sortBy (fun h => toLex (h.marketKey, h.positionId)) holds

/-- Opened ids in canonical order, without repeats. -/
def canonicalIds (ids : List Bytes32) : List Bytes32 :=
  dedupAdjacent (sortBy id ids)

/-- Full whole-book state transition over the single USD tree. -/
def stateTransition (inp : StateTransitionInputs) : Run StateTransitionOutputs := do
  let scenarioRoot ← inp.scenarioTable.scenarioRoot
  gateInputs inp
  let touched := inp.book.touched
  let markingEpoch := markingEpochOf (touched.map TouchedAccount.row)
  let bound ← bindRows inp.pausedPairs inp.proofNow none touched
  let (accounts, opens) ← applyNewBoxesToBook (touched.map TouchedAccount.row) inp.newPositions
    inp.proofNow
  (inp.unwinds.zip inp.unwindWitnesses).forM (checkUnwind accounts inp.domainSeparator)
  let results ← (accounts.zip (bound.map BoundRow.prior)).mapM (resolveRow inp markingEpoch)
  let (posts, novationCash) ← (inp.novations.zip inp.novationWitnesses).foldlM
    (novationStep inp.domainSeparator) (results.map RowResult.post, [])
  let closed ← (inp.closeoutNovations.zip inp.closeoutNovationWitnesses).foldlM
    (closeoutStep inp.domainSeparator inp.proofNow)
    { posts := posts, settlements := [], consumedTwaps := [] }
  let imRequirements ← requirementsOf closed.posts inp.unwinds inp.scenarioTable
  let roots ← (closed.posts.zip touched).foldlM foldRow
    (inp.book.rootPrev, inp.book.accountsRootPrev)
  let pausedHolds := canonicalHolds
    (bound.flatMap BoundRow.holds ++ results.flatMap RowResult.pausedHolds)
  assertPausedHoldsComplete (touched.flatMap fun ta => ta.risk.positions) inp.pausedPairs
    inp.proofNow pausedHolds markingEpoch
  let openedPositionIds := canonicalIds opens.opened
  assertOpenedPositionIdsComplete inp.newPositions openedPositionIds
  pure
    { roots :=
        { rootPrev := inp.book.rootPrev
          rootNew := roots.1
          accountsRootPrev := inp.book.accountsRootPrev
          accountsRootNew := roots.2 }
      defaults := results.flatMap RowResult.defaults
      consumedTwaps := results.flatMap RowResult.consumedTwaps ++ closed.consumedTwaps
      novations := inp.novations
      closeoutNovations := inp.closeoutNovations
      eventsCommitment := eventsCommitmentOf results opens.rejected
      committedNow := inp.proofNow
      committedDomain := inp.domainSeparator
      pausedHolds := pausedHolds
      scenarioRoot := scenarioRoot
      consumedMarks := canonicalMarks (results.flatMap RowResult.consumedMarks)
      openedPositionIds := openedPositionIds
      imRequirements := sortBy (fun r => toLex (r.acct, r.cp)) imRequirements
      settlements := results.flatMap RowResult.settlements ++ novationCash ++ closed.settlements
      unwinds := inp.unwinds }

end StateKeeper
