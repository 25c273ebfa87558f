import StateKeeper.Foundation.Words

/-!
# Engine - Wire types

The records of {lit}`im-types`: what the keeper writes to the guest's input and
what the guest commits.  Fixed-width integers and byte arrays are the words of
their width; a field keeps the source's name.
-/

namespace StateKeeper

open Words

/-- An account owner's 20-byte address. -/
abbrev Address := Bytes20

/-- One packed leg of a position set. -/
structure RiskLeg where
  factor : U16
  signedQty : I128
deriving DecidableEq

/-- One owner's netting set as the guest reads it. -/
structure Account where
  accountOwner : Address
  positions : List RiskLeg
  vmEquity : I128
  prevVmEquity : I128
  positionsRoot : Bytes32
deriving DecidableEq

/-- {lit}`Account::default()`. -/
def Account.default : Account where
  accountOwner := 0
  positions := []
  vmEquity := 0
  prevVmEquity := 0
  positionsRoot := 0

/-- One oracle price mark. -/
structure Mark where
  rate : U128
  publishTime : U64
deriving DecidableEq

/-- One open position on an owner's leaf. -/
structure PositionRecord where
  termsId : Bytes32
  counterparty : Address
  oracle : Address
  notional : U128
  entryRate : U128
  side : I8
  expiry : U64
  pushedIm : U128
  marketKey : Bytes32
deriving DecidableEq

/-- One per-position settlement signal. -/
structure PositionSettlement where
  termsId : Bytes32
  vmRealized : I128
deriving DecidableEq

/-- Proven settle price for one position's close. -/
structure ProvenTwap where
  feedId : Bytes32
  closeTime : U64
  settlePrice : U128
  expo : I32
deriving DecidableEq

/-- A position's consumed proven price. -/
structure ConsumedTwap where
  feedId : Bytes32
  closeTime : U64
  twap : I128
  expo : I32
deriving DecidableEq

/-- Proven hourly mark for one pair. -/
structure ProvenMark where
  feedId : Bytes32
  markTime : U64
  price : U128
  expo : I32
deriving DecidableEq

/-- A consumed proven mark. -/
structure ConsumedMark where
  feedId : Bytes32
  markTime : U64
  price : I128
  expo : I32
deriving DecidableEq

/-- Per-account risk and settlement witness. -/
structure RiskInputs where
  unconsumedSettleResidual : Option I128
  positions : List PositionRecord
  positionSettlements : List PositionSettlement
  provenTwaps : List ProvenTwap
  provenMarks : List ProvenMark
deriving DecidableEq

/-- The single tree's root advance. -/
structure Roots where
  rootPrev : Bytes32
  rootNew : Bytes32
  accountsRootPrev : Bytes32
  accountsRootNew : Bytes32
deriving DecidableEq

/-- One requirement row per touched netting set. -/
structure ImRequirement where
  acct : Address
  cp : Address
  usd : U128
deriving DecidableEq

/-- One netted cash obligation due this fold. -/
structure Settlement where
  payer : Address
  payee : Address
  usd : U128
  id : Bytes32
deriving DecidableEq

/-- One under-margin claim. -/
structure DefaultRecord where
  id : Bytes32
  accountOwner : Address
  counterparty : Address
  shortfall : U128
deriving DecidableEq

/-- One held position: skipped on pause grounds instead of settled or marked. -/
structure PausedHold where
  marketKey : Bytes32
  positionId : Bytes32
deriving DecidableEq

/-- A newly bound position to lock in-proof (the {lit}`openLock` payload). -/
structure NewPosition where
  termsId : Bytes32
  partyA : Address
  partyB : Address
  oracle : Address
  quantity : U128
  entryRate : U128
  sideA : I8
  expiry : U64
  imBpsA : U16
  imBpsB : U16
  instrument : U8
  pairTag : Bytes32
  mmPct : U16
  nonce : U64
  cureWindow : U64
  payoutPrefA : U8
  payoutPrefB : U8
  data : Bytes
  sigA : Bytes
  sigB : Bytes
  domainSeparator : Bytes32
deriving DecidableEq

/-- Novation kind: A consented, or A defaulted. -/
inductive NovationKind where
  | voluntary
  | forced
deriving DecidableEq

/-- One novation surfaced in the public values. -/
structure Novation where
  oldId : Bytes32
  newId : Bytes32
  partyA : Address
  partyB : Address
  partyC : Address
  cIm : U128
  forced : U8
  transferPrice : U128
  spread : U128
  nonce : U64
  deadline : U64
deriving DecidableEq

/-- The full witness of one committed novation. -/
structure NovationWitness where
  aPosition : PositionRecord
  mark : U128
  cIm : U128
  partyA : Address
  partyC : Address
  kind : NovationKind
  transferPrice : U128
  spread : U128
  cImBps : U16
  nonce : U64
  deadline : U64
  domainSeparator : Bytes32
  sigC : Bytes
deriving DecidableEq

/-- One bilateral unwind surfaced in the public values. -/
structure Unwind where
  oldId : Bytes32
  partyA : Address
  partyB : Address
  closePrice : U128
  nonce : U64
  deadline : U64
deriving DecidableEq

/-- The full witness of one committed unwind. -/
structure UnwindWitness where
  aPosition : PositionRecord
  closePrice : U128
  partyA : Address
  partyB : Address
  nonce : U64
  deadline : U64
  domainSeparator : Bytes32
  sigA : Bytes
  sigB : Bytes
deriving DecidableEq

/-- One default-closeout novation in the public values. -/
structure CloseoutNovation where
  oldId : Bytes32
  newId : Bytes32
  partyA : Address
  partyB : Address
  partyC : Address
  feedId : Bytes32
  closeTime : U64
  handoffMark : I128
  spread : U128
  cIm : U128
  aResidual : U128
  shortfall : U128
  nonce : U64
  domainSeparator : Bytes32
  mAAuthorized : U128
deriving DecidableEq

/-- The full witness of one committed closeout novation. -/
structure CloseoutNovationWitness where
  aPosition : PositionRecord
  provenTwap : ProvenTwap
  cIm : U128
  spread : U128
  partyA : Address
  partyC : Address
  sigC : Bytes
  nonce : U64
  deadline : U64
  domainSeparator : Bytes32
  mAAuthorized : U128
  pairTag : Bytes32
  quantity : U128
  imBpsA : U16
  imBpsB : U16
  mmPct : U16
  termsNonce : U64
  cureWindow : U64
  payoutPrefA : U8
  payoutPrefB : U8
  data : Bytes
  instrument : U8
deriving DecidableEq

/-- What sits at the end of an smt2 sibling path. -/
inductive SmtTerminal where
  | leaf (value : Bytes32)
  | empty
  | otherLeaf (key value : Bytes32)
deriving DecidableEq

/-- Preimage proof of a sibling node's kind, needed only on delete. -/
inductive SiblingKind where
  | leaf (key value : Bytes32)
  | node (left right : Bytes32)
deriving DecidableEq

/-- One smt2 path: siblings bottom-up from the terminal. -/
structure SmtWitness where
  key : Bytes32
  siblings : List Bytes32
  terminal : SmtTerminal
  deleteKind : Option SiblingKind
deriving DecidableEq

/-- One touched account with its prior row and its two witnesses. -/
structure TouchedAccount where
  account : Account
  risk : RiskInputs
  stateWitness : SmtWitness
  registryWitness : Option SmtWitness
deriving DecidableEq

/-- {lit}`(root_prev, accounts_root_prev, touched)`. -/
structure TouchedBook where
  rootPrev : Bytes32
  accountsRootPrev : Bytes32
  touched : List TouchedAccount
deriving DecidableEq

end StateKeeper
