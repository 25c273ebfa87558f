import StateKeeper.Engine.TermsBuffer
import StateKeeper.Tree.OpenConversion

/-!
# Tree - One identity, computed twice

The keeper appends the terms of a scanned open as 17 words; the engine writes the
fields of the converted position into a buffer.  They hash the same 544 bytes.

Main results:

- Theorem {lit}`termsRfqId_eq`: the keeper's id is the hash of its words.
- Theorem {lit}`words_injective`: the words determine the terms, the data through
  its hash.
- Theorem {lit}`openToNewPosition_identity`: the two identities agree.
-/

namespace StateKeeper

open Words Fallible WordBuffers

/-- {lit}`addr_word`. -/
def addrWord (a : Address) : Bytes :=
  zeros 12 ++ beBytes 20 a

/-- {lit}`u64_word`. -/
def u64Word (v : U64) : Bytes :=
  zeros 24 ++ beBytes 8 v

section Identity

variable [Primitives]

/-- The words {lit}`terms_rfq_id` appends, in order; short integers go through u64. -/
def OpenLockTerms.words (t : OpenLockTerms) : List Bytes :=
  [beBytes 32 TERMS_TYPEHASH, addrWord t.partyA, addrWord t.partyB, addrWord t.oracle,
    beBytes 32 t.pairTag, beBytes 32 t.quantity, u64Word (t.imBpsA.setWidth 64),
    u64Word (t.imBpsB.setWidth 64), u64Word (t.mmPct.setWidth 64), u64Word t.expiryU64,
    u64Word t.nonce, u64Word t.cureWindow, u64Word (t.payoutPrefA.setWidth 64),
    u64Word (t.payoutPrefB.setWidth 64), beBytes 32 (keccak [t.data]),
    zeros 31 ++ [t.instrument], signFill 31 t.side ++ [t.side]]

/-- The buffer the engine fills for a new position. -/
def NewPosition.termsBuffer (nb : NewPosition) : Bytes :=
  StateKeeper.termsBuffer termsTypehash nb.partyA nb.partyB nb.oracle nb.pairTag nb.quantity
    nb.imBpsA nb.imBpsB nb.mmPct nb.expiry nb.nonce nb.cureWindow nb.payoutPrefA nb.payoutPrefB
    (keccak [nb.data]) nb.instrument nb.sideA

/-- The engine's identity of a converted open is the keeper's: the same 544 bytes, the same
hash, and an entry rate read from the same data.  What is left of the bound check is the
signatures and the polarity. -/
structure SameIdentity (o : OpenRecord) (np : NewPosition) : Prop where
  preimage : np.termsBuffer = o.terms.words.flatten
  preimage_length : np.termsBuffer.length = 544
  engine : np.recomputedId = keccak [np.termsBuffer]
  keeper : termsRfqId o.terms = keccak [o.terms.words.flatten]
  ident : np.recomputedId = np.termsId
  entryRate : entryRateFromData np.data = some np.entryRate
  bound : assertNewPositionBound np = .ok () ↔
    SignerPasses (eip712Digest np.domainSeparator np.termsId) np.sigA np.partyA ∧
      SignerPasses (eip712Digest np.domainSeparator np.termsId) np.sigB np.partyB ∧
      (np.sideA = 1 ∨ np.sideA = -1)

/-! ## Words -/

omit [Primitives] in
/-- A short integer's own word is its u64 word. -/
theorem wordOf_eq_u64Word {n w : Nat} (x : BitVec w) (hn : n ≤ 8) (hw : w ≤ 8 * n) :
    wordOf n x = u64Word (x.setWidth 64) := by
  have hwide : zeros (32 - 8) ++ beBytes 8 (x.setWidth 64) =
      beBytes 32 ((x.setWidth 64).setWidth (8 * 32)) := padded_eq _ (by decide) (by decide)
  change wordOf n x = zeros (32 - 8) ++ beBytes 8 (x.setWidth 64)
  rw [hwide, BitVec.setWidth_setWidth (by omega)]
  exact padded_eq x (by omega) hw

omit [Primitives] in
/-- A 128-bit quantity's word is that of the 256-bit quantity it narrows. -/
theorem wordOf_quantity (x : U128) : wordOf 16 x = beBytes 32 (x.setWidth 256) :=
  padded_eq x (by decide) (by decide)

omit [Primitives] in
theorem addrWord_injective {a b : Address} (h : addrWord a = addrWord b) : a = b :=
  beBytes_injective (by decide) (List.append_cancel_left h)

omit [Primitives] in
theorem u64Word_injective {a b : U64} (h : u64Word a = u64Word b) : a = b :=
  beBytes_injective (by decide) (List.append_cancel_left h)

omit [Primitives] in
/-- The u64 word of a short integer determines it. -/
theorem u64Word_setWidth_injective {n : Nat} (hn : n ≤ 64) {x y : BitVec n}
    (h : u64Word (x.setWidth 64) = u64Word (y.setWidth 64)) : x = y := by
  have hnarrow := congrArg (BitVec.setWidth n) (u64Word_injective h)
  rw [BitVec.setWidth_setWidth (by omega), BitVec.setWidth_setWidth (by omega),
    BitVec.setWidth_eq, BitVec.setWidth_eq] at hnarrow
  exact hnarrow

/-- The keeper's id is the hash of its words. -/
theorem termsRfqId_eq (t : OpenLockTerms) : termsRfqId t = keccak [t.words.flatten] := by
  have hinstrument : wordOf 1 t.instrument = zeros 31 ++ [t.instrument] := by
    rw [wordOf, beBytes_byte]
  rw [termsRfqId, wordOf_eq_u64Word t.imBpsA (by decide) (by decide),
    wordOf_eq_u64Word t.imBpsB (by decide) (by decide),
    wordOf_eq_u64Word t.mmPct (by decide) (by decide),
    wordOf_eq_u64Word t.payoutPrefA (by decide) (by decide),
    wordOf_eq_u64Word t.payoutPrefB (by decide) (by decide), hinstrument]
  simp only [OpenLockTerms.words, List.flatten_cons, List.flatten_nil, List.append_nil,
    List.append_assoc]
  rfl

theorem words_length {t : OpenLockTerms} : ∀ w ∈ t.words, w.length = 32 := by
  simp [OpenLockTerms.words, addrWord, u64Word]

/-- The words determine the terms, the data through its hash. -/
theorem words_injective {t t' : OpenLockTerms} (h : t.words.flatten = t'.words.flatten) :
    { t with data := [] } = { t' with data := [] } ∧ keccak [t.data] = keccak [t'.data] := by
  have hwords : t.words = t'.words := flatten_injective (by simp [OpenLockTerms.words]) words_length
    words_length h
  simp only [OpenLockTerms.words, List.cons.injEq, and_true, true_and] at hwords
  rcases hwords with ⟨hpartyA, hpartyB, horacle, hpairTag, hquantity, himBpsA, himBpsB, hmmPct,
    hexpiry, hnonce, hcureWindow, hpayoutPrefA, hpayoutPrefB, hdata, hinstrument, hside⟩
  rcases t with ⟨partyA, partyB, oracle, pairTag, quantity, imBpsA, imBpsB, mmPct, expiry, nonce,
    cureWindow, payoutPrefA, payoutPrefB, data, instrument, side⟩
  rcases t' with ⟨partyA', partyB', oracle', pairTag', quantity', imBpsA', imBpsB', mmPct', expiry',
    nonce', cureWindow', payoutPrefA', payoutPrefB', data', instrument', side'⟩
  refine ⟨?_, beBytes_injective (by decide) hdata⟩
  rw [OpenLockTerms.mk.injEq]
  exact ⟨addrWord_injective hpartyA, addrWord_injective hpartyB, addrWord_injective horacle,
    beBytes_injective (by decide) hpairTag, beBytes_injective (by decide) hquantity,
    u64Word_setWidth_injective (by decide) himBpsA, u64Word_setWidth_injective (by decide) himBpsB,
    u64Word_setWidth_injective (by decide) hmmPct, u64Word_setWidth_injective (by decide) hexpiry,
    u64Word_injective hnonce, u64Word_injective hcureWindow,
    u64Word_setWidth_injective (by decide) hpayoutPrefA,
    u64Word_setWidth_injective (by decide) hpayoutPrefB, rfl,
    List.singleton_inj.mp (List.append_cancel_left hinstrument),
    List.singleton_inj.mp (List.append_inj_right' hside rfl)⟩

/-! ## The converted position -/

/-- The engine's buffer of a position that carries an open's terms is the keeper's words. -/
theorem termsBuffer_of_carriedBy (htypehash : termsTypehash = TERMS_TYPEHASH) {o : OpenRecord}
    {domain : Bytes32} {np : NewPosition} (h : o.CarriedBy domain np) :
    np.termsBuffer = o.terms.words.flatten := by
  have hinstrument : wordOf 1 o.terms.instrument = zeros 31 ++ [o.terms.instrument] := by
    rw [wordOf, beBytes_byte]
  rw [NewPosition.termsBuffer, termsBuffer_eq, termsPreimage, htypehash, h.partyA, h.partyB,
    h.oracle, h.pairTag, wordOf_quantity, h.quantity, h.imBpsA, h.imBpsB, h.mmPct, h.expiry,
    h.nonce, h.cureWindow, h.payoutPrefA, h.payoutPrefB, h.data, h.instrument, h.sideA,
    wordOf_eq_u64Word o.terms.imBpsA (by decide) (by decide),
    wordOf_eq_u64Word o.terms.imBpsB (by decide) (by decide),
    wordOf_eq_u64Word o.terms.mmPct (by decide) (by decide),
    wordOf_eq_u64Word o.terms.payoutPrefA (by decide) (by decide),
    wordOf_eq_u64Word o.terms.payoutPrefB (by decide) (by decide), hinstrument]
  simp only [OpenLockTerms.words, List.flatten_cons, List.flatten_nil, List.append_nil,
    List.append_assoc]
  rfl

/-- The engine and the keeper compute one identity from one preimage, and the preimage
determines the terms, the data through its hash. -/
theorem openToNewPosition_identity (htypehash : termsTypehash = TERMS_TYPEHASH)
    {o : OpenRecord} {domain : Bytes32} {np : NewPosition} (hid : o.ident = termsRfqId o.terms)
    (h : openToNewPosition o domain = .ok np) :
    SameIdentity o np ∧ ∀ t t' : OpenLockTerms, t.words.flatten = t'.words.flatten →
      { t with data := [] } = { t' with data := [] } ∧ keccak [t.data] = keccak [t'.data] := by
  rcases openToNewPosition_carriedBy h with ⟨hcarried, hrate⟩
  have hpreimage := termsBuffer_of_carriedBy htypehash hcarried
  have hengine : np.recomputedId = keccak [np.termsBuffer] := by
    rw [NewPosition.termsBuffer, termsBuffer_eq]
    rfl
  have hident : np.recomputedId = np.termsId := by
    rw [hengine, hpreimage, hcarried.termsId, hid, termsRfqId_eq]
  refine ⟨⟨hpreimage, termsBuffer_length, hengine, termsRfqId_eq o.terms, hident, hrate, ?_⟩, ?_⟩
  · rw [assertNewPositionBound_ok_iff]
    constructor
    · intro hbound
      exact ⟨hbound.2.1, hbound.2.2.1, hbound.2.2.2.2⟩
    · intro hrest
      exact ⟨hident, hrest.1, hrest.2.1, hrate, hrest.2.2⟩
  · intro t t' hflat
    exact words_injective hflat

end Identity

section Concrete

attribute [local instance] concretePrimitives

/-- The recorded unit open has one identity on both sides. -/
theorem openToNewPosition_identity_unit_open :
    ∃ np, openToNewPosition (recordedOpen (beBytes 32 (1000000 : Bytes32))) 92 = .ok np ∧
      SameIdentity (recordedOpen (beBytes 32 (1000000 : Bytes32))) np := by
  have htypehash : termsTypehash = TERMS_TYPEHASH := by decide +kernel
  have hrun : (openToNewPosition (recordedOpen (beBytes 32 (1000000 : Bytes32))) 92).isOk = true := by
    decide +kernel
  cases hconverted : openToNewPosition (recordedOpen (beBytes 32 (1000000 : Bytes32))) 92 with
  | error e =>
      rw [hconverted] at hrun
      cases hrun
  | ok np => exact ⟨np, rfl, (openToNewPosition_identity htypehash rfl hconverted).1⟩

end Concrete

end StateKeeper
