import StateKeeper.Engine.OpenLock

/-!
# Engine - The fail-closed valves

The checks the chain cannot make: every due position settles, every live
position is marked on a marking epoch, every pause exemption is surfaced, and
the surfaced opens are exactly the processed ones.
-/

namespace StateKeeper

open Words Fallible SortedKeys

/-- Reject a trusted whole-account residual. -/
def assertNoTrustedSettle (ri : RiskInputs) : Run Unit :=
  ensure (ri.unconsumedSettleResidual = none)
    "state_transition: trusted whole-account settle_residual is removed (C-02) — settle per-position via a proven TWAP"

/-- The surface entry of a held position. -/
def PositionRecord.hold (b : PositionRecord) : PausedHold where
  marketKey := b.marketKey
  positionId := b.termsId

/-- {lit}`opened_position_ids` are exactly the processed new positions.  The surface
is sorted, so the source's binary searches are memberships. -/
def assertOpenedPositionIdsComplete (newPositions : List NewPosition) (opened : List Bytes32) :
    Run Unit := do
  let expected := newPositions.map NewPosition.termsId
  ensure (opened.all fun sid => sid ∈ expected)
    "opened-position-ids: a surfaced id is not a processed new position in a rebuilt lane — a fabricated or un-rebuilt-lane id must never be surfaced (openedPositionIds over-surface)"
  ensure (expected.all fun eid => eid ∈ opened)
    "opened-position-ids: a processed new position is missing from openedPositionIds — its on-chain open mark would never be re-checked, so a phantom box could fold unbound (Road 2 phantom-box hole)"

variable [Primitives]

/-- The position's pair is in the pause set. -/
def positionPaused (paused : List Bytes32) (b : PositionRecord) : Bool :=
  paused.contains (pairTagOf b.oracle)

/-- Settlement completeness, with the holds of the due paused positions. -/
def assertDueBoxesHaveProvenTwap (positions : List PositionRecord)
    (provenTwaps : List ProvenTwap) (paused : List Bytes32) (proofTime : U64) :
    Run (List PausedHold) :=
  positions.foldlM (fun holds b =>
    if b.expiry > proofTime then pure holds
    else if positionPaused paused b then pure (holds ++ [b.hold])
    else do
      ensure (provenTwaps.any (positionTwapBindingOk b))
        "settlement-completeness: a due position has no binding proven TWAP (GS-05)"
      pure holds) []

/-- Mark completeness, with the holds of the live paused positions. -/
def assertMarksComplete (positions : List PositionRecord) (provenMarks : List ProvenMark)
    (paused : List Bytes32) (proofTime : U64) (markingEpoch : Bool) : Run (List PausedHold) :=
  if !markingEpoch then pure []
  else
    positions.foldlM (fun holds b =>
      if b.expiry ≤ proofTime then pure holds
      else if positionPaused paused b then pure (holds ++ [b.hold])
      else do
        ensure (provenMarks.any (markBindsPosition b))
          "mark-completeness: on a marking epoch, a live position on an un-paused pair has no binding proven mark — a keeper cannot mark the winners and withhold a loser's mark to skew the cumulative VM (V-01 mark sibling)"
        pure holds) []

/-- The position is skipped on pause grounds: always when due, on a marking epoch when live. -/
def heldOnPause (paused : List Bytes32) (proofTime : U64) (markingEpoch : Bool)
    (b : PositionRecord) : Bool :=
  positionPaused paused b && (if b.expiry ≤ proofTime then true else markingEpoch)

/-- Every pause skip is surfaced, and the surface counts exactly the skips. -/
def assertPausedHoldsComplete (positions : List PositionRecord) (paused : List Bytes32)
    (proofTime : U64) (pausedHolds : List PausedHold) (markingEpoch : Bool) : Run Unit := do
  let held := positions.filter (heldOnPause paused proofTime markingEpoch)
  held.forM fun b =>
    ensure (b.hold ∈ pausedHolds)
      "settlement-pause completeness: a position skipped on pause grounds has no PausedHold surface entry (V-01 / GAP-2)"
  ensure (pausedHolds.length = held.length)
    "settlement-pause completeness: pausedHolds count != paused-skip count (V-01 / GAP-2 count-equality)"

/-- Do the supplied positions open the committed root? -/
def positionsOpenRoot (positions : List PositionRecord) (committedRoot : Bytes32) : Run Bool := do
  assertUniqueTermsId positions
  pure (positionsRoot positions = committedRoot)

end StateKeeper
