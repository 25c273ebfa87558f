import StateKeeper.Engine.Encoding
import StateKeeper.Engine.Scenario

/-!
# Engine - The proven-price rail

Turning a proven price into a realized residual, and folding cumulative VM from
proven hourly marks.
-/

namespace StateKeeper

open Words Fallible SortedKeys

/-- Proven-mark recency bound, in seconds. -/
def MARK_MAX_AGE_SECS : U64 := 7200

/-- Closeout-handoff mark recency bound, in seconds. -/
def CLOSEOUT_NOVATION_MARK_MAX_AGE_SECS : U64 := 172800

def COLLATERAL_DECIMALS : Int := 6

def BPS_DENOM : U128 := 10000

def PRICE_SCALE : U128 := 1000000

/-- The proof's {lit}`feed_id` reduced to the position's 20-byte oracle. -/
def feedIdOracle (feedId : Bytes32) : Address :=
  feedId.setWidth 160

/-- Sort the keys and assert that no two neighbours are equal. -/
def assertUniqueKeys {κ : Type} [LinearOrder κ] (keys : List κ) (message : String) : Run Unit :=
  ensure (AdjacentDistinct (sortBy id keys)) message

/-- A position set must carry unique {lit}`terms_id`. -/
def assertUniqueTermsId (positions : List PositionRecord) : Run Unit :=
  assertUniqueKeys (positions.map PositionRecord.termsId)
    "position set carries a duplicate terms_id — RA-1 order-invariance / no-double-settle violated"

/-- The position-binding key of a proven price. -/
def ProvenTwap.bindingKey (p : ProvenTwap) : Address ×ₗ U64 :=
  toLex (feedIdOracle p.feedId, p.closeTime)

/-- At most one proven price per position-binding key. -/
def assertUniquePositionTwaps (provenTwaps : List ProvenTwap) : Run Unit :=
  assertUniqueKeys (provenTwaps.map ProvenTwap.bindingKey)
    "proven_twaps carries two prices for the same position-binding key (oracle, close_time) — a host could pick the favorable settle; margin must bind at most one proven price per position (F-1 fail-closed)"

/-- At most one hourly mark per pair. -/
def assertUniqueProvenMarks (provenMarks : List ProvenMark) : Run Unit :=
  assertUniqueKeys (provenMarks.map fun m => feedIdOracle m.feedId)
    "proven_marks carries two hourly marks for the same pair — a keeper could cherry-pick the favorable hour via host iteration order; margin must bind at most one mark per pair (GAP-1 fail-closed)"

/-- The price binds the position: same oracle, close time equal to the expiry. -/
def positionTwapBindingOk (b : PositionRecord) (proven : ProvenTwap) : Bool :=
  feedIdOracle proven.feedId == b.oracle && b.expiry == proven.closeTime

/-- Rescale a native settle price to the 1e6 position scale; an exponent outside the
envelope stops the run.  {lit}`COLLATERAL_DECIMALS + expo` past {lit}`i32` stops it too,
by overflow or by the envelope. -/
def settleNativeTo1e6 (settleNative : U128) (expo : I32) : Run U128 := do
  let p := COLLATERAL_DECIMALS + expo.toInt
  ensure (p ≥ -12 ∧ p ≤ 24)
    "settle_native_to_1e6: price exponent out of FX envelope — fail-closed"
  if p ≥ 0 then pure (satMul settleNative (clampU128 (10 ^ p.toNat)))
  else pure (settleNative / clampU128 (10 ^ (-p).toNat))

/-- The settlement a proven price realizes; {lit}`none` unless it binds the position. -/
def positionSettlementFromTwap (b : PositionRecord) (proven : ProvenTwap) :
    Run (Option PositionSettlement) := do
  if !positionTwapBindingOk b proven then pure none
  else
    let settle1e6 ← settleNativeTo1e6 proven.settlePrice proven.expo
    pure (some
      { termsId := b.termsId
        vmRealized := positionVm b.entryRate settle1e6 b.notional b.side })

/-- The consumed form of a proven price; {lit}`settle_price as i128` keeps the bits. -/
def ProvenTwap.consumed (p : ProvenTwap) : ConsumedTwap where
  feedId := p.feedId
  closeTime := p.closeTime
  twap := p.settlePrice
  expo := p.expo

/-- The proven price a position finds: the first that binds it. -/
def boundTwap (provenTwaps : List ProvenTwap) (b : PositionRecord) : Option ProvenTwap :=
  provenTwaps.find? (positionTwapBindingOk b)

/-- Per-position settlements for a book, with the consumed prices. -/
def positionSettlementsFromTwaps (positions : List PositionRecord)
    (provenTwaps : List ProvenTwap) :
    Run (List PositionSettlement × List ConsumedTwap) := do
  assertUniquePositionTwaps provenTwaps
  positions.foldlM (fun acc b =>
    match boundTwap provenTwaps b with
    | some p => do
        let settled ← positionSettlementFromTwap b p
        let s ← expect settled "binding-ok position must settle"
        pure (acc.1 ++ [s], acc.2 ++ [p.consumed])
    | none => pure acc) ([], [])

/-- Freshness of an hourly mark: not in the future, not older than the bound. -/
def markFresh (markTime proofTime : U64) : Bool :=
  markTime ≤ proofTime && proofTime - markTime ≤ MARK_MAX_AGE_SECS

/-- A mark binds a position by its pair alone. -/
def markBindsPosition (b : PositionRecord) (mark : ProvenMark) : Bool :=
  feedIdOracle mark.feedId == b.oracle

/-- The consumed form of a proven mark; {lit}`price as i128` keeps the bits. -/
def ProvenMark.consumed (m : ProvenMark) : ConsumedMark where
  feedId := m.feedId
  markTime := m.markTime
  price := m.price
  expo := m.expo

/-- The mark a position finds: the first that binds it. -/
def boundMark (provenMarks : List ProvenMark) (b : PositionRecord) : Option ProvenMark :=
  provenMarks.find? (markBindsPosition b)

/-- One account's cumulative VM from proven marks, with the consumed marks. -/
def accountVmFromMarks (positions : List PositionRecord) (provenMarks : List ProvenMark) :
    Run (I128 × List ConsumedMark) := do
  assertUniqueProvenMarks provenMarks
  positions.foldlM (fun acc b =>
    match boundMark provenMarks b with
    | some m => do
        let mark1e6 ← settleNativeTo1e6 m.price m.expo
        pure (satAddI acc.1 (positionVm b.entryRate mark1e6 b.notional b.side),
          acc.2 ++ [m.consumed])
    | none => pure acc) (0, [])

/-- Freshness of the handoff mark. -/
def closeoutNovationMarkFresh (closeTime proofTime : U64) : Bool :=
  closeTime ≤ proofTime && proofTime - closeTime ≤ CLOSEOUT_NOVATION_MARK_MAX_AGE_SECS

/-- One seat's IM {lit}`ceil(gross × im_bps / 1e4)`. -/
def imForSide (gross : U128) (imBps : U16) : U128 :=
  satAdd (satMul gross (imBps.setWidth 128)) (BPS_DENOM - 1) / BPS_DENOM

/-- Best-execution bound {lit}`spread ≤ K·|pnl| + floor_bps of notional`. -/
def closeoutNovationSpreadWithinBestExec (spread : U128) (pnl : I128) (notional : U128) : Bool :=
  let maxSpread := satAdd (imForSide notional 100) (satMul 2 (unsignedAbs pnl))
  spread ≤ maxSpread

end StateKeeper
