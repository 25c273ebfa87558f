import StateKeeper.Engine.StateTransition
import StateKeeper.Tree.Events

/-!
# Tree - The scanned chain history

The records a scan collects, in chain order, and the two questions the keeper
asks of them: which pairs are paused, and which opens no fold has consumed.
-/

namespace StateKeeper

open Words

/-- One fold's decoded public values. -/
structure DecodedPv where
  roots : Roots
  consumedTwaps : List ConsumedTwap
  novations : List Novation
  proofTime : U64
  domainSeparator : Bytes32
  scenarioRoot : Bytes32
  consumedMarks : List ConsumedMark
  openedPositionIds : List Bytes32
  closeoutNovationsLen : Nat
  unwindsLen : Nat
deriving DecidableEq

/-- What {lit}`decode_public_values` reads back from the rows a fold committed. -/
def StateTransitionOutputs.decoded (out : StateTransitionOutputs) : DecodedPv where
  roots := out.roots
  consumedTwaps := out.consumedTwaps
  novations := out.novations
  proofTime := out.committedNow
  domainSeparator := out.committedDomain
  scenarioRoot := out.scenarioRoot
  consumedMarks := out.consumedMarks
  openedPositionIds := out.openedPositionIds
  closeoutNovationsLen := out.closeoutNovations.length
  unwindsLen := out.unwinds.length

/-- One open. -/
structure OpenRecord where
  ident : Bytes32
  terms : OpenLockTerms
  sigA : Bytes
  sigB : Bytes
  block : U64
deriving DecidableEq

/-- One accepted fold. -/
structure FoldRecord where
  block : U64
  pv : DecodedPv
deriving DecidableEq

/-- One price the chain bound. -/
structure TwapBoundRecord where
  feedId : Bytes32
  closeTime : U64
  twap : I64
  expo : I32
  block : U64
deriving DecidableEq

/-- One {lit}`MarketSet` event. -/
structure MarketSetRecord where
  block : U64
  logIndex : U64
  instrument : U8
  pairTag : Bytes32
  enabled : Bool
  paused : Bool
deriving DecidableEq

/-- Everything the rebuild consumes, in chain order. -/
structure ChainHistory where
  opens : List OpenRecord
  folds : List FoldRecord
  twaps : List TwapBoundRecord
  marketSets : List MarketSetRecord
  head : U64
deriving DecidableEq

/-- Replay of {lit}`MarketSet` records: the last write of a tag wins. -/
def pauseState (sets : List MarketSetRecord) : Std.ExtTreeMap Bytes32 Bool :=
  sets.foldl (fun state m => state.insert m.pairTag (m.enabled && m.paused)) ∅

/-- Paused pair tags as of {lit}`block`, inclusive. -/
def ChainHistory.pausedPairsAt (h : ChainHistory) (block : U64) : List Bytes32 :=
  ((pauseState (h.marketSets.filter fun m => m.block ≤ block)).toList.filter Prod.snd).map
    Prod.fst

/-- The ids some fold surfaced. -/
def ChainHistory.foldedIds (h : ChainHistory) : List Bytes32 :=
  h.folds.flatMap fun f => f.pv.openedPositionIds

/-- Opens no fold has consumed yet. -/
def ChainHistory.unfoldedOpens (h : ChainHistory) : List OpenRecord :=
  h.opens.filter fun o => o.ident ∉ h.foldedIds

end StateKeeper
