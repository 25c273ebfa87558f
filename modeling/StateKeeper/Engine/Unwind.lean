import StateKeeper.Engine.Settlement

/-!
# Engine - The bilateral unwind

Tear up a live position at a price both parties signed; the settlement takes the
expiry path, once from each seat's own side.
-/

namespace StateKeeper

open Words Fallible

/-- The per-seat settlements a set of unwinds realizes over one account's book. -/
def unwindSettlementsForAccount (positions : List PositionRecord) (unwinds : List Unwind) :
    List PositionSettlement :=
  positions.filterMap fun p =>
    (unwinds.find? fun u => u.oldId = p.termsId).map fun u =>
      { termsId := p.termsId
        vmRealized := positionVm p.entryRate u.closePrice p.notional p.side }

variable [Primitives]

/-- Validate an unwind's dual-signature consent and build its committed entry. -/
def unwindClose (w : UnwindWitness) : Run Unwind := do
  let oldId := w.aPosition.termsId
  ensure (w.aPosition.counterparty = w.partyB)
    "unwind: a_position.counterparty != party_b — A's seat must face B (forged counterparty)"
  let digest := eip712Digest w.domainSeparator
    (closeoutStructHash oldId w.closePrice w.nonce w.deadline)
  let signerA ← recoverEthSigner digest w.sigA
  let signerB ← recoverEthSigner digest w.sigB
  ensure ((signerA = w.partyA ∧ signerB = w.partyB) ∨ (signerA = w.partyB ∧ signerB = w.partyA))
    "unwind: the two Closeout signatures do not recover BOTH parties (A and B), order-independent — forged or missing bilateral consent (price/nonce/deadline/domain)"
  pure
    { oldId := oldId
      partyA := w.partyA
      partyB := w.partyB
      closePrice := w.closePrice
      nonce := w.nonce
      deadline := w.deadline }

/-- Does the committed entry arise from a sound {lit}`unwind_close`? -/
def unwindEntryValid (w : UnwindWitness) (committed : Unwind) : Run Bool := do
  let entry ← unwindClose w
  pure (entry = committed)

end StateKeeper
