import StateKeeper.Engine.Settlement
import StateKeeper.Engine.OpenLock

/-!
# Engine - The A to C close lifecycle

Both close paths move A's leg to C, its terms verbatim under a re-derived id, and
emit the cash as settlements.
-/

namespace StateKeeper

open Words Fallible

/-- Why a novation rejected. -/
inductive NovationReject where
  | quoteBelowMark
deriving DecidableEq

/-- Proof result of one {lit}`transfer_as_close`. -/
structure TransferAsCloseResult where
  partyA : Address
  partyC : Address
  cMoved : PositionRecord
  pnl : I128
  settlements : List Settlement
  kind : NovationKind
  reject : Option NovationReject
  entry : Option Novation
deriving DecidableEq

def zeroPosition : PositionRecord where
  termsId := 0
  counterparty := 0
  oracle := 0
  notional := 0
  entryRate := 0
  side := 0
  expiry := 0
  pushedIm := 0
  marketKey := 0

/-- C's inherited position: A's terms verbatim, id and IM replaced. -/
def movedPosition (aPosition : PositionRecord) (newId : Bytes32) (cIm : U128) : PositionRecord :=
  { aPosition with termsId := newId, pushedIm := cIm }

variable [Primitives]

/-- Re-derived id for the inherited position. -/
def novationNewId (oldId : Bytes32) (partyC : Address) : Bytes32 :=
  keccak [beBytes 32 oldId, beBytes 20 partyC]

/-- The cash of a voluntary transfer: the funded mark, then the maker spread. -/
def transferSettlements (w : NovationWitness) (pnl : I128) : List Settlement :=
  let oldId := w.aPosition.termsId
  match w.kind with
  | .forced => []
  | .voluntary =>
      (if pnl.toInt > 0 then
        [{ payer := w.partyC, payee := w.partyA, usd := pnl, id := oldId }]
      else if pnl.toInt < 0 then
        [{ payer := w.partyA, payee := w.partyC, usd := unsignedAbs pnl, id := oldId }]
      else []) ++
      if w.spread > 0 then
        [{ payer := w.partyA, payee := w.partyC, usd := w.spread, id := oldId }]
      else []

/-- Voluntary or forced novation of A's leg to C. -/
def transferAsClose (w : NovationWitness) : Run TransferAsCloseResult := do
  let aPosition := w.aPosition
  let oldId := aPosition.termsId
  match w.kind with
  | .forced => pure ()
  | .voluntary =>
      ensure (w.mark = w.transferPrice)
        "novation: witness mark != C's signed transferPrice — a raw keeper mark is forbidden (voluntary funded price)"
      let consentHash := novationTakeoverStructHash oldId w.partyC w.transferPrice w.cImBps w.cIm
        w.spread w.nonce w.deadline
      let signer ← recoverEthSigner (eip712Digest w.domainSeparator consentHash) w.sigC
      ensure (signer = w.partyC)
        "novation: NovationTakeover does not recover partyC — forged/missing C consent (price/cIm/spread/nonce/domain)"
  if w.mark = 0 then
    pure
      { partyA := w.partyA
        partyC := w.partyC
        cMoved := zeroPosition
        pnl := 0
        settlements := []
        kind := w.kind
        reject := some .quoteBelowMark
        entry := none }
  else
    let pnl := positionVm aPosition.entryRate w.mark aPosition.notional aPosition.side
    let newId := novationNewId oldId w.partyC
    let voluntary := decide (w.kind = .voluntary)
    pure
      { partyA := w.partyA
        partyC := w.partyC
        cMoved := movedPosition aPosition newId w.cIm
        pnl := pnl
        settlements := transferSettlements w pnl
        kind := w.kind
        reject := none
        entry := some
          { oldId := oldId
            newId := newId
            partyA := w.partyA
            partyB := aPosition.counterparty
            partyC := w.partyC
            cIm := w.cIm
            forced := if voluntary then 0 else 1
            transferPrice := if voluntary then w.transferPrice else 0
            spread := if voluntary then w.spread else 0
            nonce := if voluntary then w.nonce else 0
            deadline := if voluntary then w.deadline else 0 } }

/-- Does the committed entry arise from a sound {lit}`transfer_as_close`? -/
def novationEntryValid (witness : NovationWitness) (committed : Novation) : Run Bool := do
  let r ← transferAsClose witness
  pure (r.entry = some committed)

/-- Proof result of one {lit}`closeout_novation_close`. -/
structure CloseoutNovationResult where
  partyA : Address
  partyC : Address
  cMoved : PositionRecord
  pnl : I128
  shortfall : U128
  settlements : List Settlement
  entry : CloseoutNovation
deriving DecidableEq

/-- Forced default close at the proven price. -/
def closeoutNovationClose (w : CloseoutNovationWitness) : Run CloseoutNovationResult := do
  let aPosition := w.aPosition
  let oldId := aPosition.termsId
  let mark ← settleNativeTo1e6 w.provenTwap.settlePrice w.provenTwap.expo
  ensure (feedIdOracle w.provenTwap.feedId = aPosition.oracle)
    "closeout_novation: proven-TWAP feed_id does not bind A's position oracle (A2/V-02)"
  let recomputed := termsId w.partyA aPosition.counterparty aPosition.oracle w.pairTag w.quantity
    w.imBpsA w.imBpsB w.mmPct aPosition.expiry w.termsNonce w.cureWindow w.payoutPrefA
    w.payoutPrefB w.data w.instrument aPosition.side
  ensure (recomputed = oldId)
    "closeout_novation: recomputed terms_id != a_position.terms_id — forged position economics (A1)"
  let boundEntry ← expect (entryRateFromData w.data)
    "closeout_novation: entry-rate word exceeds u128 — unrepresentable"
  ensure (boundEntry = aPosition.entryRate)
    "closeout_novation: entry_rate != first word of signed data (A1)"
  ensure (grossNotional w.quantity aPosition.entryRate = aPosition.notional)
    "closeout_novation: gross_notional(quantity, entry_rate) != a_position.notional (A1)"
  let consentHash := failoverConsentStructHash oldId w.partyC w.provenTwap.feedId
    w.provenTwap.closeTime w.cIm w.spread w.nonce w.deadline
  let signer ← recoverEthSigner (eip712Digest w.domainSeparator consentHash) w.sigC
  ensure (signer = w.partyC)
    "closeout_novation: FailoverConsent does not recover partyC — forged C consent/spread/cIm/nonce/domain (A5)"
  ensure (w.cIm > 0)
    "closeout_novation: c_im must be positive — a zero-IM inherited seat is degenerate"
  let pnl := positionVm aPosition.entryRate mark aPosition.notional aPosition.side
  ensure (closeoutNovationSpreadWithinBestExec w.spread pnl aPosition.notional)
    "closeout_novation: spread exceeds the best-execution bound — keeper price-gouge of the defaulter (OT-04)"
  let aRealizedGain : U128 := if pnl.toInt > 0 then pnl else 0
  let fromA := min w.spread aRealizedGain
  let newId := novationNewId oldId w.partyC
  pure
    { partyA := w.partyA
      partyC := w.partyC
      cMoved := movedPosition aPosition newId w.cIm
      pnl := pnl
      shortfall := w.spread - fromA
      settlements :=
        if fromA > 0 then
          [{ payer := w.partyA, payee := w.partyC, usd := fromA, id := oldId }]
        else []
      entry :=
        { oldId := oldId
          newId := newId
          partyA := w.partyA
          partyB := aPosition.counterparty
          partyC := w.partyC
          feedId := w.provenTwap.feedId
          closeTime := w.provenTwap.closeTime
          handoffMark := w.provenTwap.settlePrice
          spread := w.spread
          cIm := w.cIm
          aResidual := aRealizedGain - fromA
          shortfall := w.spread - fromA
          nonce := w.nonce
          domainSeparator := w.domainSeparator
          mAAuthorized := w.mAAuthorized } }

/-- Does the committed entry arise from a sound {lit}`closeout_novation_close`? -/
def closeoutNovationEntryValid (witness : CloseoutNovationWitness)
    (committed : CloseoutNovation) : Run Bool := do
  let r ← closeoutNovationClose witness
  pure (r.entry = committed)

end StateKeeper
