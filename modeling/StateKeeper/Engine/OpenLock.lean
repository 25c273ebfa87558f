import StateKeeper.Engine.Settlement

/-!
# Engine - The openLock pre-pass

Bind a newly bound position's economics to its signed id, size each seat's IM,
and push both mirrored records onto the two accounts' books, or reject the open.
-/

namespace StateKeeper

open Words Fallible

/-- Gross notional {lit}`quantity × rate / PRICE_SCALE`, saturating. -/
def grossNotional (quantity rate : U128) : U128 :=
  satMul quantity rate / PRICE_SCALE

variable [Primitives]

/-- Check one party's signature unless it is the empty sentinel. -/
def assertSigner (digest : Bytes32) (sig : Bytes) (party : Address) (message : String) :
    Run Unit :=
  if sig.isEmpty then pure ()
  else do
    let signer ← recoverEthSigner digest sig
    ensure (signer = party) message

/-- The id {lit}`assert_new_position_bound` recomputes. -/
def NewPosition.recomputedId (nb : NewPosition) : Bytes32 :=
  StateKeeper.termsId nb.partyA nb.partyB nb.oracle nb.pairTag nb.quantity nb.imBpsA nb.imBpsB nb.mmPct
    nb.expiry nb.nonce nb.cureWindow nb.payoutPrefA nb.payoutPrefB nb.data nb.instrument nb.sideA

/-- Assert that a new position's economics are the signed ones. -/
def assertNewPositionBound (nb : NewPosition) : Run Unit := do
  ensure (nb.recomputedId = nb.termsId)
    "new position: recomputed Rfq.id(Terms) != claimed terms_id — forged position economics"
  let digest := eip712Digest nb.domainSeparator nb.termsId
  assertSigner digest nb.sigA nb.partyA
    "new position: sigA does not recover partyA — missing/forged maker consent"
  assertSigner digest nb.sigB nb.partyB
    "new position: sigB does not recover partyB — missing/forged taker consent"
  let boundEntry ← expect (entryRateFromData nb.data)
    "new position: entry-rate word exceeds u128 — unrepresentable"
  ensure (boundEntry = nb.entryRate)
    "new position: entry_rate != first word of signed data — fabricated entry rate"
  ensure (nb.sideA = 1 ∨ nb.sideA = -1)
    "new position: side_a must be exactly +1 or -1 — a non-polar side breaks matched-principal netting"

/-- One party's half of a new position. -/
structure SeatLock where
  positionRecord : PositionRecord
  im : U128
deriving DecidableEq

/-- Both seats built, or a degenerate position rejected. -/
inductive NewPositionLock where
  | locked (a b : SeatLock)
  | rejected
deriving DecidableEq

/-- The record of seat A. -/
def NewPosition.seatA (nb : NewPosition) : PositionRecord where
  termsId := nb.termsId
  counterparty := nb.partyB
  oracle := nb.oracle
  notional := grossNotional nb.quantity nb.entryRate
  entryRate := nb.entryRate
  side := nb.sideA
  expiry := nb.expiry
  pushedIm := imForSide (grossNotional nb.quantity nb.entryRate) nb.imBpsA
  marketKey := StateKeeper.marketKey nb.instrument nb.pairTag

/-- The record of seat B, the mirror of seat A. -/
def NewPosition.seatB (nb : NewPosition) : PositionRecord where
  termsId := nb.termsId
  counterparty := nb.partyA
  oracle := nb.oracle
  notional := grossNotional nb.quantity nb.entryRate
  entryRate := nb.entryRate
  side := -nb.sideA
  expiry := nb.expiry
  pushedIm := imForSide (grossNotional nb.quantity nb.entryRate) nb.imBpsB
  marketKey := StateKeeper.marketKey nb.instrument nb.pairTag

/-- Build a position's matched-principal seats. -/
def applyNewPosition (nb : NewPosition) : Run NewPositionLock := do
  assertNewPositionBound nb
  let gross := grossNotional nb.quantity nb.entryRate
  let imA := imForSide gross nb.imBpsA
  let imB := imForSide gross nb.imBpsB
  if imA = 0 ∨ imB = 0 then pure .rejected
  else pure (.locked ⟨nb.seatA, imA⟩ ⟨nb.seatB, imB⟩)

/-- What the pre-pass finished this epoch. -/
structure BookOpenOutcome where
  rejected : List Bytes32
  opened : List Bytes32
deriving DecidableEq

/-- An account with its risk witness, as the guest's book holds it. -/
abbrev Row := Account × RiskInputs

/-- Append a record to one row's positions. -/
def Row.push (rec : PositionRecord) (row : Row) : Row :=
  (row.1, { row.2 with positions := row.2.positions ++ [rec] })

/-- Index of the first row of an owner. -/
def rowIndexOf (accounts : List Row) (party : Address) : Option Nat :=
  accounts.findIdx? fun row => row.1.accountOwner = party

/-- The pre-pass state: the rows, the rejected ids, the opened ids. -/
structure OpenState where
  accounts : List Row
  rejected : List Bytes32
  opened : List Bytes32

/-- One new position of the pre-pass. -/
def openStep (proofTime : U64) (s : OpenState) (nb : NewPosition) : Run OpenState := do
  assertNewPositionBound nb
  let s := { s with opened := s.opened ++ [nb.termsId] }
  let reject : OpenState := { s with rejected := s.rejected ++ [nb.termsId] }
  if nb.expiry ≤ proofTime then pure reject
  else
    match rowIndexOf s.accounts nb.partyA, rowIndexOf s.accounts nb.partyB with
    | some ia, some ib =>
        if ia ≠ ib then
          let lock ← applyNewPosition nb
          match lock with
          | .locked a b =>
              pure { s with
                accounts := (s.accounts.modify ia (Row.push a.positionRecord)).modify ib
                  (Row.push b.positionRecord) }
          | .rejected => pure reject
        else pure reject
    | _, _ => pure reject

/-- Apply the newly bound positions to the book's accounts. -/
def applyNewBoxesToBook (accounts : List Row) (newPositions : List NewPosition)
    (proofTime : U64) : Run (List Row × BookOpenOutcome) := do
  let s ← newPositions.foldlM (openStep proofTime)
    { accounts := accounts, rejected := [], opened := [] }
  s.accounts.forM fun row => assertUniqueTermsId row.2.positions
  pure (s.accounts, { rejected := s.rejected, opened := s.opened })

end StateKeeper
