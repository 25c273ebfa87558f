import StateKeeper.Engine.Crypto

/-!
# Engine - Ids, digests and the entry-rate word

Every hash and key of {lit}`encoding.rs` that the open, the handoffs and the
unwind use.  Struct hashes are hand-packed words: each scalar is right-aligned in
its 32 bytes.
-/

namespace StateKeeper

open Words

/-- A scalar right-aligned in one 32-byte word, from its {lit}`n` bytes. -/
def wordOf (n : Nat) {w : Nat} (x : BitVec w) : Bytes :=
  zeros (32 - n) ++ beBytes n x

/-- The 12 Terms fields {lit}`terms_id` hashes after the four identity words, and the
identity words themselves, as the engine packs them. -/
def termsPreimage (typehash : Bytes32) (partyA partyB oracle : Address) (pairTag : Bytes32)
    (quantity : U128) (imBpsA imBpsB mmPct : U16) (expiry nonce cureWindow : U64)
    (payoutPrefA payoutPrefB : U8) (dataHash : Bytes32) (instrument : U8) (side : I8) : Bytes :=
  beBytes 32 typehash ++ wordOf 20 partyA ++ wordOf 20 partyB ++ wordOf 20 oracle ++
    beBytes 32 pairTag ++ wordOf 16 quantity ++ wordOf 2 imBpsA ++ wordOf 2 imBpsB ++
    wordOf 2 mmPct ++ wordOf 8 expiry ++ wordOf 8 nonce ++ wordOf 8 cureWindow ++
    wordOf 1 payoutPrefA ++ wordOf 1 payoutPrefB ++ beBytes 32 dataHash ++
    wordOf 1 instrument ++ (signFill 31 side ++ [side])

/-- The Terms type string. -/
def termsTypeString : String :=
  "Terms(address partyA,address partyB,address oracle,bytes32 pairTag,uint256 quantity,uint16 imBpsA,uint16 imBpsB,uint16 mmPct,uint40 expiry,uint64 nonce,uint64 cureWindow,uint8 payoutPrefA,uint8 payoutPrefB,bytes data,uint8 instrument,int8 side)"

/-- A position's bound entry rate: word 0 of the signed data, {lit}`none` if it
exceeds {lit}`u128`; short data reads 0. -/
def entryRateFromData (data : Bytes) : Option U128 :=
  if data.length < 32 then some 0
  else if (data.take 16).any (· ≠ 0) then none
  else some (ofBeBytes 128 ((data.drop 16).take 16))

variable [Primitives]

/-- Market-registry key {lit}`keccak256(abi.encode(instrument, pairTag))`. -/
def marketKey (instrument : U8) (pairTag : Bytes32) : Bytes32 :=
  keccak [wordOf 1 instrument ++ beBytes 32 pairTag]

/-- A position's pause key, derived from its oracle. -/
def pairTagOf (oracle : Address) : Bytes32 :=
  keccak [wordOf 20 oracle]

def termsTypehash : Bytes32 :=
  keccak [asciiBytes termsTypeString]

/-- Recompute a position's identity {lit}`Rfq.id(Terms)`: 17 words. -/
def termsId (partyA partyB oracle : Address) (pairTag : Bytes32) (quantity : U128)
    (imBpsA imBpsB mmPct : U16) (expiry nonce cureWindow : U64) (payoutPrefA payoutPrefB : U8)
    (data : Bytes) (instrument : U8) (side : I8) : Bytes32 :=
  keccak [termsPreimage termsTypehash partyA partyB oracle pairTag quantity imBpsA imBpsB mmPct
    expiry nonce cureWindow payoutPrefA payoutPrefB (keccak [data]) instrument side]

/-- The EIP-712 signing digest. -/
def eip712Digest (domainSeparator structHash : Bytes32) : Bytes32 :=
  keccak [[0x19, 0x01], beBytes 32 domainSeparator, beBytes 32 structHash]

def failoverConsentTypehash : Bytes32 :=
  keccak [asciiBytes "FailoverConsent(bytes32 oldId,address taker,bytes32 feedId,uint64 closeTime,uint128 cIm,uint128 spread,uint64 nonce,uint64 deadline)"]

/-- Struct hash of the forced-closeout consent. -/
def failoverConsentStructHash (oldId : Bytes32) (taker : Address) (feedId : Bytes32)
    (closeTime : U64) (cIm spread : U128) (nonce deadline : U64) : Bytes32 :=
  keccak [beBytes 32 failoverConsentTypehash ++ beBytes 32 oldId ++ wordOf 20 taker ++
    beBytes 32 feedId ++ wordOf 8 closeTime ++ wordOf 16 cIm ++ wordOf 16 spread ++
    wordOf 8 nonce ++ wordOf 8 deadline]

def novationTakeoverTypehash : Bytes32 :=
  keccak [asciiBytes "NovationTakeover(bytes32 oldId,address taker,uint128 transferPrice,uint16 cImBps,uint128 cIm,uint128 spread,uint64 nonce,uint64 deadline)"]

/-- Struct hash of the voluntary takeover consent. -/
def novationTakeoverStructHash (oldId : Bytes32) (taker : Address) (transferPrice : U128)
    (cImBps : U16) (cIm spread : U128) (nonce deadline : U64) : Bytes32 :=
  keccak [beBytes 32 novationTakeoverTypehash ++ beBytes 32 oldId ++ wordOf 20 taker ++
    wordOf 16 transferPrice ++ wordOf 2 cImBps ++ wordOf 16 cIm ++ wordOf 16 spread ++
    wordOf 8 nonce ++ wordOf 8 deadline]

def closeoutTypehash : Bytes32 :=
  keccak [asciiBytes "Closeout(bytes32 positionId,uint128 closePrice,uint64 nonce,uint64 deadline)"]

/-- Struct hash of the bilateral tear-up consent. -/
def closeoutStructHash (positionId : Bytes32) (closePrice : U128) (nonce deadline : U64) :
    Bytes32 :=
  keccak [beBytes 32 closeoutTypehash ++ beBytes 32 positionId ++ wordOf 16 closePrice ++
    wordOf 8 nonce ++ wordOf 8 deadline]

end StateKeeper
