import StateKeeper.Engine.Completeness

/-!
# Engine - Per-account resolve

Split a book into the positions that settle and those that survive, emit the
realized cash from the loser's seat, and re-root the survivors.
-/

namespace StateKeeper

open Words Fallible SortedKeys

/-- The per-account lifecycle delta the proof emits. -/
inductive ResolveOutcome where
  | noOp
  | released
  | toppedUp
  | rejected
  | settled
  | settledPerPosition
  | defaulted
deriving DecidableEq

/-- Resolved state of one account. -/
structure AccountResolve where
  vmEquity : I128
  positionsRoot : Bytes32
  positionsLive : Bool
  surviving : List PositionRecord
  settlements : List Settlement
  imRequirements : List ImRequirement
  defaults : List DefaultRecord
  outcome : ResolveOutcome
deriving DecidableEq

variable [Primitives]

/-- The settlement a position takes: none while its pair is paused, else the first
that names it. -/
def settlementFor (paused : List Bytes32) (settlementsIn : List PositionSettlement)
    (p : PositionRecord) : Option PositionSettlement :=
  if positionPaused paused p then none
  else settlementsIn.find? fun s => s.termsId = p.termsId

/-- The gross residual a settling seat emits: the loser's only. -/
def seatSettlement (owner : Address) (p : PositionRecord) (s : PositionSettlement) :
    Option Settlement :=
  if s.vmRealized.toInt < 0 then
    some
      { payer := owner
        payee := p.counterparty
        usd := unsignedAbs s.vmRealized
        id := p.termsId }
  else none

/-- The positions no settlement takes, in canonical order. -/
def survivingOf (paused : List Bytes32) (settlementsIn : List PositionSettlement)
    (positions : List PositionRecord) : List PositionRecord :=
  sortBy PositionRecord.termsId
    (positions.filter fun p => (settlementFor paused settlementsIn p).isNone)

/-- Resolve an owner's book for the fold. -/
def resolveAccount (owner : Address) (positions : List PositionRecord)
    (settlementsIn : List PositionSettlement) (newVm : I128) (paused : List Bytes32)
    (table : ScenarioTable) : Run AccountResolve := do
  assertUniqueTermsId positions
  let settlements := positions.filterMap fun p =>
    (settlementFor paused settlementsIn p).bind (seatSettlement owner p)
  let settledCount :=
    (positions.filter fun p => (settlementFor paused settlementsIn p).isSome).length
  let surviving := survivingOf paused settlementsIn positions
  let positionsLive := !surviving.isEmpty
  let imRequirements ← imRequirementsFor owner surviving table
  pure
    { vmEquity := if positionsLive then newVm else 0
      positionsRoot := positionsRoot surviving
      positionsLive := positionsLive
      surviving := surviving
      settlements := settlements
      imRequirements := imRequirements
      defaults := []
      outcome :=
        if settledCount = 0 then .noOp
        else if positionsLive then .settledPerPosition
        else .settled }

/-- The positions whose marks make the new VM: the paused ones and those no
settlement names. -/
def survivorsForVm (paused : List Bytes32) (positionSettlements : List PositionSettlement)
    (positions : List PositionRecord) : List PositionRecord :=
  positions.filter fun b =>
    positionPaused paused b || !positionSettlements.any fun s => s.termsId = b.termsId

/-- The new cumulative VM: re-marked on a marking epoch, carried otherwise. -/
def newVmOf (markingEpoch : Bool) (a : Account) (survivors : List PositionRecord)
    (provenMarks : List ProvenMark) : Run (I128 × List ConsumedMark) :=
  if markingEpoch then accountVmFromMarks survivors provenMarks
  else pure (a.prevVmEquity, [])

end StateKeeper
