import StateKeeper.Engine.Encoding

/-!
# Tree - Event ABI and the Terms identity check
-/

namespace StateKeeper

open Words

/-- The 16-field Terms of an {lit}`openLock`, as the event ABI carries them. -/
structure OpenLockTerms where
  partyA : Address
  partyB : Address
  oracle : Address
  pairTag : Bytes32
  quantity : BitVec 256
  imBpsA : U16
  imBpsB : U16
  mmPct : U16
  expiry : BitVec 40
  nonce : U64
  cureWindow : U64
  payoutPrefA : U8
  payoutPrefB : U8
  data : Bytes
  instrument : U8
  side : I8
deriving DecidableEq

/-- Mirror of the on-chain type hash. -/
def TERMS_TYPEHASH : Bytes32 :=
  0x41aa73c5b957e9b7ac0f62e276c3d71b35cfec660f61675e6fb16835e3465fe4

/-- {lit}`u64::try_from(t.expiry)`; a 40-bit value always fits. -/
def OpenLockTerms.expiryU64 (t : OpenLockTerms) : U64 :=
  t.expiry.setWidth 64

variable [Primitives]

/-- Recompute the EIP-712 struct hash of the Terms. -/
def termsRfqId (t : OpenLockTerms) : Bytes32 :=
  keccak [beBytes 32 TERMS_TYPEHASH ++ wordOf 20 t.partyA ++ wordOf 20 t.partyB ++
    wordOf 20 t.oracle ++ beBytes 32 t.pairTag ++ beBytes 32 t.quantity ++ wordOf 2 t.imBpsA ++
    wordOf 2 t.imBpsB ++ wordOf 2 t.mmPct ++ wordOf 8 t.expiryU64 ++ wordOf 8 t.nonce ++
    wordOf 8 t.cureWindow ++ wordOf 1 t.payoutPrefA ++ wordOf 1 t.payoutPrefB ++
    beBytes 32 (keccak [t.data]) ++ wordOf 1 t.instrument ++ (signFill 31 t.side ++ [t.side])]

end StateKeeper
