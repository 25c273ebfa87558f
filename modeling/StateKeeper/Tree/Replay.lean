import StateKeeper.Foundation.KeyedMap
import StateKeeper.Tree.Scan

/-!
# Tree - The replay

Fold the chain's own history through the engine, checking the recomputed roots
against each fold's committed roots at every step.
-/

namespace StateKeeper

open Words Fallible SortedKeys

/-- One account's carried state. -/
structure AccountState where
  owner : Address
  vmEquity : I128
  positions : List PositionRecord
deriving DecidableEq

/-- The rebuilt tree, keyed by {lit}`account_id_single(owner)`. -/
structure TreeState where
  accounts : Std.ExtTreeMap Bytes32 AccountState
deriving DecidableEq

/-- The empty tree. -/
def TreeState.default : TreeState where
  accounts := ∅

/-- One epoch's inputs. -/
structure EpochInputs where
  newPositions : List NewPosition
  provenMarks : List ProvenMark
  provenTwaps : List ProvenTwap
  pausedPairs : List Bytes32
  proofNow : U64
  domainSeparator : Bytes32
deriving DecidableEq

/-- Map a chain-recovered open onto the guest's {lit}`NewPosition`. -/
def openToNewPosition (o : OpenRecord) (domainSeparator : Bytes32) : Run NewPosition :=
  let t := o.terms
  if t.quantity.toNat ≥ 2 ^ 128 then bail "quantity exceeds u128"
  else if t.data.length < 32 then
    bail ("open " ++ hexOf o.ident ++ ": Terms.data shorter than one word")
  else if (t.data.take 16).any (· ≠ 0) then
    bail ("open " ++ hexOf o.ident ++ ": entry-rate word exceeds u128")
  else
    pure
      { termsId := o.ident
        partyA := t.partyA
        partyB := t.partyB
        oracle := t.oracle
        quantity := t.quantity.setWidth 128
        entryRate := ofBeBytes 128 ((t.data.drop 16).take 16)
        sideA := t.side
        expiry := t.expiryU64
        imBpsA := t.imBpsA
        imBpsB := t.imBpsB
        instrument := t.instrument
        pairTag := t.pairTag
        mmPct := t.mmPct
        nonce := t.nonce
        cureWindow := t.cureWindow
        payoutPrefA := t.payoutPrefA
        payoutPrefB := t.payoutPrefB
        data := t.data
        sigA := o.sigA
        sigB := o.sigB
        domainSeparator := domainSeparator }

/-- The marks that bind a position of the book. -/
def marksFor (provenMarks : List ProvenMark) (positions : List PositionRecord) :
    List ProvenMark :=
  provenMarks.filter fun m => positions.any fun b => markBindsPosition b m

/-- The settle prices that bind a position of the book. -/
def twapsFor (provenTwaps : List ProvenTwap) (positions : List PositionRecord) :
    List ProvenTwap :=
  provenTwaps.filter fun tw =>
    positions.any fun b => feedIdOracle tw.feedId == b.oracle && b.expiry == tw.closeTime

/-- The replay's outcome for one epoch. -/
structure EpochOutcome where
  post : TreeState
  steps : List (Bytes32 × Option Bytes32)
  priorRows : List Row
  processedOpenIds : List Bytes32

/-- The account a resolve leaves behind, if any position survives. -/
def AccountResolve.account (r : AccountResolve) (owner : Address) : Option AccountState :=
  if r.positionsLive then
    some { owner := owner, vmEquity := r.vmEquity, positions := r.surviving }
  else none

variable [Primitives]

/-- The committed leaf of an account. -/
def AccountState.leaf (a : AccountState) (aid : Bytes32) : Bytes32 :=
  accountLeaf aid a.vmEquity (positionsRoot a.positions)

/-- Committed leaves, ascending by aid. -/
def TreeState.leaves (t : TreeState) : List (Bytes32 × Bytes32) :=
  t.accounts.toList.map fun e => (e.1, e.2.leaf e.1)

def TreeState.root (t : TreeState) : Bytes32 :=
  (Smt2.fromLeaves t.leaves).root

def TreeState.accountsRoot (t : TreeState) : Bytes32 :=
  creditedDepositRegistry t.accounts.keys

/-- The touched accounts and their owners: every present account and every open
party.  Its keys are the touched set, which the source fills alongside. -/
def ownersOf (prior : TreeState) (newPositions : List NewPosition) :
    Std.ExtTreeMap Bytes32 Address :=
  (newPositions.flatMap fun np => [np.partyA, np.partyB]).foldl
    (fun owners owner => owners.insert (accountIdSingle owner) owner)
    (prior.accounts.map fun _ a => a.owner)

/-- The prior row of a touched account. -/
def priorRow (prior : TreeState) (inputs : EpochInputs) (aid : Bytes32) (owner : Address) : Row :=
  match prior.accounts[aid]? with
  | some a =>
      ({ accountOwner := a.owner
         positions := []
         vmEquity := a.vmEquity
         prevVmEquity := a.vmEquity
         positionsRoot := positionsRoot a.positions },
       { unconsumedSettleResidual := none
         positions := a.positions
         positionSettlements := []
         provenTwaps := twapsFor inputs.provenTwaps a.positions
         provenMarks := marksFor inputs.provenMarks a.positions })
  | none =>
      ({ Account.default with accountOwner := owner },
       { unconsumedSettleResidual := none
         positions := []
         positionSettlements := []
         provenTwaps := []
         provenMarks := [] })

/-- The touched rows of an epoch, ascending by aid. -/
def epochRows (prior : TreeState) (inputs : EpochInputs) : List Row :=
  (ownersOf prior inputs.newPositions).toList.map fun e => priorRow prior inputs e.1 e.2

/-- One row of the replay's per-account resolve. -/
def replayRow (inputs : EpochInputs) (table : ScenarioTable) (markingEpoch : Bool) (row : Row) :
    Run AccountResolve := do
  let a := row.1
  let ri := row.2
  let settled ← positionSettlementsFromTwaps ri.positions ri.provenTwaps
  let vm ← newVmOf markingEpoch a
    (survivorsForVm inputs.pausedPairs settled.1 ri.positions) ri.provenMarks
  resolveAccount a.accountOwner ri.positions settled.1 vm.1 inputs.pausedPairs table

/-- The account a touched aid ends with. -/
def postOf (aid : Bytes32) (row : Row) (r : AccountResolve) : Bytes32 × Option AccountState :=
  (aid, r.account row.1.accountOwner)

/-- The step a touched aid takes. -/
def stepOf (post : Bytes32 × Option AccountState) : Bytes32 × Option Bytes32 :=
  (post.1, post.2.map fun a => a.leaf post.1)

/-- The tree of the accounts that stay. -/
def TreeState.ofPosts (posts : List (Bytes32 × Option AccountState)) : TreeState where
  accounts := KeyedMap.assignAll posts ∅

/-- Resolve one epoch: the openLock pre-pass, then the per-account resolve. -/
def resolveEpoch (prior : TreeState) (inputs : EpochInputs) (table : ScenarioTable) :
    Run EpochOutcome := do
  let touched := (ownersOf prior inputs.newPositions).keys
  let rows := epochRows prior inputs
  let markingEpoch := markingEpochOf rows
  let (opened, outcome) ← applyNewBoxesToBook rows inputs.newPositions inputs.proofNow
  let resolved ← opened.mapM (replayRow inputs table markingEpoch)
  let posts := (touched.zip (opened.zip resolved)).map fun e => postOf e.1 e.2.1 e.2.2
  pure
    { post := TreeState.ofPosts posts
      steps := posts.map stepOf
      priorRows := rows
      processedOpenIds := outcome.opened ++ outcome.rejected }

/-! ## Rebuilding from the log -/

/-- The proven mark a consumed mark stands for; a negative price is an error. -/
def provenMarkOf (m : ConsumedMark) : Run ProvenMark :=
  if m.price.toInt < 0 then bail "negative consumed mark"
  else pure { feedId := m.feedId, markTime := m.markTime, price := m.price, expo := m.expo }

/-- The proven price a consumed price stands for; a negative price is an error. -/
def provenTwapOf (t : ConsumedTwap) : Run ProvenTwap :=
  if t.twap.toInt < 0 then bail "negative consumed twap"
  else pure { feedId := t.feedId, closeTime := t.closeTime, settlePrice := t.twap, expo := t.expo }

/-- The open a fold consumed.  {lit}`opens_by_id` keeps the last record of an id. -/
def openById (opens : List OpenRecord) (ident : Bytes32) : Option OpenRecord :=
  opens.reverse.find? fun o => o.ident = ident

/-- The new position of one consumed id. -/
def recoverOpen (history : ChainHistory) (fold : FoldRecord) (ident : Bytes32) :
    Run NewPosition := do
  let o ← match openById history.opens ident with
    | some o => pure o
    | none => bail ("fold at block " ++ toString fold.block.toNat ++ " consumed open " ++
        hexOf ident ++ " with no TermsOpened record")
  openToNewPosition o fold.pv.domainSeparator

/-- Recover one fold's epoch inputs from its committed public values. -/
def foldInputs (fold : FoldRecord) (history : ChainHistory) : Run EpochInputs := do
  if fold.pv.novations ≠ [] ∨ fold.pv.closeoutNovationsLen > 0 ∨ fold.pv.unwindsLen > 0 then
    bail ("fold at block " ++ toString fold.block.toNat ++
      " carries novations/closeouts/unwinds — this replay does not model them yet")
  else
    let newPositions ← fold.pv.openedPositionIds.mapM (recoverOpen history fold)
    let provenMarks ← fold.pv.consumedMarks.mapM provenMarkOf
    let provenTwaps ← fold.pv.consumedTwaps.mapM provenTwapOf
    pure
      { newPositions := newPositions
        provenMarks := provenMarks
        provenTwaps := provenTwaps
        pausedPairs := history.pausedPairsAt
          (if fold.block = 0 then 0 else fold.block - 1)
        proofNow := fold.pv.proofTime
        domainSeparator := fold.pv.domainSeparator }

/-- Replay one fold, the {lit}`n`th, checking every committed value it names. -/
def rebuildStep (history : ChainHistory) (table : ScenarioTable) (state : TreeState)
    (e : FoldRecord × Nat) : Run TreeState := do
  let fold := e.1
  let place := "fold " ++ toString e.2
  let inputs ← foldInputs fold history
  let tableRoot ← table.scenarioRoot
  if tableRoot ≠ fold.pv.scenarioRoot then
    bail (place ++ ": committed scenarioRoot " ++ hexOf fold.pv.scenarioRoot ++
      " differs from the local table's " ++ hexOf tableRoot ++
      " — the table artifact does not match this generation")
  else if state.root ≠ fold.pv.roots.rootPrev then
    bail (place ++ " (block " ++ toString fold.block.toNat ++ "): replayed prior root " ++
      hexOf state.root ++ " != committed rootPrev " ++ hexOf fold.pv.roots.rootPrev)
  else
    let outcome ← resolveEpoch state inputs table
    if sortBy id outcome.processedOpenIds ≠ sortBy id fold.pv.openedPositionIds then
      bail (place ++ ": replayed open set diverges from the committed openedPositionIds")
    else if outcome.post.root ≠ fold.pv.roots.rootNew then
      bail (place ++ " (block " ++ toString fold.block.toNat ++ "): replayed root " ++
        hexOf outcome.post.root ++ " != committed rootNew " ++ hexOf fold.pv.roots.rootNew)
    else if outcome.post.accountsRoot ≠ fold.pv.roots.accountsRootNew then
      bail (place ++ ": replayed accountsRoot " ++ hexOf outcome.post.accountsRoot ++
        " != committed " ++ hexOf fold.pv.roots.accountsRootNew)
    else pure outcome.post

/-- Rebuild from empty, asserting every fold's committed roots. -/
def rebuild (history : ChainHistory) (table : ScenarioTable) : Run TreeState :=
  (history.folds.zipIdx 1).foldlM (rebuildStep history table) TreeState.default

end StateKeeper
