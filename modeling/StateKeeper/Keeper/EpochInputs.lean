import StateKeeper.Tree.Frames

/-!
# Keeper - The next epoch's inputs

Everything the keeper feeds the next epoch comes from the chain: unfolded opens,
fresh bound marks, due settle prices, and the pause set.
-/

namespace StateKeeper

open Words Fallible

/-- The latest bound price of each feed; an equal close time keeps the earlier record. -/
def latestTwaps (twaps : List TwapBoundRecord) : Std.ExtTreeMap Bytes32 TwapBoundRecord :=
  twaps.foldl (fun latest t =>
    let e := latest.getD t.feedId t
    latest.insert t.feedId (if t.closeTime > e.closeTime then t else e)) ∅

/-- A bound price as an hourly mark; {lit}`twap as u128` sign-extends. -/
def TwapBoundRecord.provenMark (t : TwapBoundRecord) : ProvenMark where
  feedId := t.feedId
  markTime := t.closeTime
  price := t.twap.signExtend 128
  expo := t.expo

/-- A bound price as a settle price. -/
def TwapBoundRecord.provenTwap (t : TwapBoundRecord) : ProvenTwap where
  feedId := t.feedId
  closeTime := t.closeTime
  settlePrice := t.twap.signExtend 128
  expo := t.expo

/-- The latest price of each feed that is fresh as an hourly mark. -/
def freshMarks (twaps : List TwapBoundRecord) (now : U64) : List ProvenMark :=
  (((latestTwaps twaps).toList.map Prod.snd).filter fun t =>
    markFresh t.closeTime now && decide (0 ≤ t.twap.toInt)).map TwapBoundRecord.provenMark

/-- The close keys of the open positions. -/
def TreeState.expiries (state : TreeState) : List (U64 × Address) :=
  state.accounts.toList.flatMap fun e => e.2.positions.map fun p => (p.expiry, p.oracle)

/-- The bound prices whose close time is an open position's expiry. -/
def dueTwaps (twaps : List TwapBoundRecord) (state : TreeState) : List ProvenTwap :=
  (twaps.filter fun t =>
    decide (0 ≤ t.twap.toInt) &&
      decide ((t.closeTime, feedIdOracle t.feedId) ∈ state.expiries)).map
    TwapBoundRecord.provenTwap

/-- {lit}`u64::MAX`. -/
def u64Max : U64 :=
  BitVec.allOnes 64

/-- The next epoch's chain-only inputs. -/
def freshEpochInputs (history : ChainHistory) (state : TreeState) (domain : Bytes32) (now : U64) :
    Run EpochInputs := do
  let newPositions ← history.unfoldedOpens.mapM fun o => openToNewPosition o domain
  pure
    { newPositions := newPositions
      provenMarks := freshMarks history.twaps now
      provenTwaps := dueTwaps history.twaps state
      pausedPairs := history.pausedPairsAt u64Max
      proofNow := now
      domainSeparator := domain }

end StateKeeper
