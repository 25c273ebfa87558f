import StateKeeper.Engine.Concrete
import StateKeeper.Engine.OpenSpec
import StateKeeper.Tree.Replay

/-!
# Tree - Converting a recorded open

The keeper turns a scanned open into the engine's new position by rules of its
own: data shorter than one word is refused, although the engine reads it as
entry rate 0, and the calldata's signatures are passed on as they are.

Main results:

- Theorem {lit}`openToNewPosition_of_accepted`: an open the engine accepts in some
  form converts when its data holds a word, and the conversion is accepted with
  the same outcome when the calldata's signatures pass.
-/

namespace StateKeeper

open Words Fallible

/-- The new position carries the open's terms and id under a domain; its entry rate and
its signatures are free. -/
structure OpenRecord.CarriedBy (o : OpenRecord) (domain : Bytes32) (nb : NewPosition) : Prop where
  termsId : nb.termsId = o.ident
  partyA : nb.partyA = o.terms.partyA
  partyB : nb.partyB = o.terms.partyB
  oracle : nb.oracle = o.terms.oracle
  quantity : nb.quantity.setWidth 256 = o.terms.quantity
  sideA : nb.sideA = o.terms.side
  expiry : nb.expiry = o.terms.expiryU64
  imBpsA : nb.imBpsA = o.terms.imBpsA
  imBpsB : nb.imBpsB = o.terms.imBpsB
  instrument : nb.instrument = o.terms.instrument
  pairTag : nb.pairTag = o.terms.pairTag
  mmPct : nb.mmPct = o.terms.mmPct
  nonce : nb.nonce = o.terms.nonce
  cureWindow : nb.cureWindow = o.terms.cureWindow
  payoutPrefA : nb.payoutPrefA = o.terms.payoutPrefA
  payoutPrefB : nb.payoutPrefB = o.terms.payoutPrefB
  data : nb.data = o.terms.data
  domainSeparator : nb.domainSeparator = domain

/-- The engine reads a full word's low half as the entry rate, or nothing when its high
half is not zero. -/
theorem entryRateFromData_of_word {data : Bytes} (h : 32 ≤ data.length) {rate : U128}
    (hrate : entryRateFromData data = some rate) :
    (data.take 16).any (· ≠ 0) = false ∧ rate = ofBeBytes 128 ((data.drop 16).take 16) := by
  rw [entryRateFromData, if_neg (by omega)] at hrate
  by_cases hhigh : (data.take 16).any (· ≠ 0)
  · rw [if_pos hhigh] at hrate
    cases hrate
  · rw [if_neg hhigh] at hrate
    exact ⟨by simpa using hhigh, (Option.some.inj hrate).symm⟩

/-- A quantity that a new position carries fits its 128 bits. -/
theorem OpenRecord.CarriedBy.quantity_fits {o : OpenRecord} {domain : Bytes32} {nb : NewPosition}
    (h : o.CarriedBy domain nb) :
    o.terms.quantity.toNat < 2 ^ 128 ∧ o.terms.quantity.setWidth 128 = nb.quantity := by
  have hlt := nb.quantity.isLt
  have hnat : o.terms.quantity.toNat = nb.quantity.toNat := by
    rw [← h.quantity, BitVec.toNat_setWidth, Nat.mod_eq_of_lt (by omega)]
  refine ⟨by omega, BitVec.eq_of_toNat_eq ?_⟩
  rw [BitVec.toNat_setWidth, hnat, Nat.mod_eq_of_lt hlt]

/-- Data shorter than one word is refused. -/
theorem openToNewPosition_short {o : OpenRecord} {domain : Bytes32} {converted : NewPosition}
    (hdata : o.terms.data.length < 32) : openToNewPosition o domain ≠ .ok converted := by
  intro h
  unfold openToNewPosition at h
  by_cases hwide : o.terms.quantity.toNat ≥ 2 ^ 128
  · rw [if_pos hwide] at h
    exact bail_eq_ok.mp h
  · rw [if_neg hwide, if_pos hdata] at h
    exact bail_eq_ok.mp h

/-- A converted open carries the open's terms and id, and the entry rate the engine reads. -/
theorem openToNewPosition_carriedBy {o : OpenRecord} {domain : Bytes32} {np : NewPosition}
    (h : openToNewPosition o domain = .ok np) :
    o.CarriedBy domain np ∧ entryRateFromData np.data = some np.entryRate := by
  unfold openToNewPosition at h
  by_cases hwide : o.terms.quantity.toNat ≥ 2 ^ 128
  · rw [if_pos hwide] at h
    exact (bail_eq_ok.mp h).elim
  · by_cases hshort : o.terms.data.length < 32
    · rw [if_neg hwide, if_pos hshort] at h
      exact (bail_eq_ok.mp h).elim
    · by_cases hhigh : (o.terms.data.take 16).any (· ≠ 0)
      · rw [if_neg hwide, if_neg hshort, if_pos hhigh] at h
        exact (bail_eq_ok.mp h).elim
      · rw [if_neg hwide, if_neg hshort, if_neg hhigh] at h
        cases h
        have hquantity : (o.terms.quantity.setWidth 128).setWidth 256 = o.terms.quantity := by
          refine BitVec.eq_of_toNat_eq ?_
          rw [BitVec.toNat_setWidth, BitVec.toNat_setWidth, Nat.mod_eq_of_lt (not_le.mp hwide),
            Nat.mod_eq_of_lt o.terms.quantity.isLt]
        refine ⟨⟨rfl, rfl, rfl, rfl, hquantity, rfl, rfl, rfl, rfl, rfl, rfl, rfl, rfl, rfl, rfl,
          rfl, rfl, rfl⟩, ?_⟩
        rw [entryRateFromData, if_neg hshort, if_neg hhigh]

section Conversion

variable [Primitives]

/-- The calldata's signatures pass the engine's check under a domain. -/
def OpenRecord.SignaturesPass (o : OpenRecord) (domain : Bytes32) : Prop :=
  SignerPasses (eip712Digest domain o.ident) o.sigA o.terms.partyA ∧
    SignerPasses (eip712Digest domain o.ident) o.sigB o.terms.partyB

/-- With a word of data, the conversion yields the accepted position under the calldata's
own signatures. -/
theorem openToNewPosition_eq {o : OpenRecord} {domain : Bytes32} {nb : NewPosition}
    (hcarried : o.CarriedBy domain nb) (haccepted : assertNewPositionBound nb = .ok ())
    (hdata : 32 ≤ o.terms.data.length) :
    openToNewPosition o domain = .ok { nb with sigA := o.sigA, sigB := o.sigB } := by
  obtain ⟨-, -, -, hentry, -⟩ := assertNewPositionBound_ok_iff.mp haccepted
  rw [hcarried.data] at hentry
  obtain ⟨hhigh, hrate⟩ := entryRateFromData_of_word hdata hentry
  obtain ⟨hfits, hquantity⟩ := hcarried.quantity_fits
  unfold openToNewPosition
  rw [if_neg (by omega), if_neg (by omega), if_neg (by simpa using hhigh)]
  refine congrArg Except.ok ?_
  cases nb
  simp only [NewPosition.mk.injEq, true_and]
  exact ⟨hcarried.termsId.symm, hcarried.partyA.symm, hcarried.partyB.symm, hcarried.oracle.symm,
    hquantity, hrate.symm, hcarried.sideA.symm, hcarried.expiry.symm, hcarried.imBpsA.symm,
    hcarried.imBpsB.symm, hcarried.instrument.symm, hcarried.pairTag.symm, hcarried.mmPct.symm,
    hcarried.nonce.symm, hcarried.cureWindow.symm, hcarried.payoutPrefA.symm,
    hcarried.payoutPrefB.symm, hcarried.data.symm, hcarried.domainSeparator.symm⟩

/-- Replacing the signatures by passing ones keeps a position bound. -/
theorem assertNewPositionBound_resigned {nb : NewPosition} {sigA sigB : Bytes}
    (h : assertNewPositionBound nb = .ok ())
    (ha : SignerPasses (eip712Digest nb.domainSeparator nb.termsId) sigA nb.partyA)
    (hb : SignerPasses (eip712Digest nb.domainSeparator nb.termsId) sigB nb.partyB) :
    assertNewPositionBound { nb with sigA := sigA, sigB := sigB } = .ok () := by
  obtain ⟨hid, -, -, hentry, hside⟩ := assertNewPositionBound_ok_iff.mp h
  exact assertNewPositionBound_ok_iff.mpr ⟨hid, ha, hb, hentry, hside⟩

/-- The outcome of a bound position does not depend on its signatures. -/
theorem applyNewPosition_resigned {nb : NewPosition} {sigA sigB : Bytes}
    (h : assertNewPositionBound nb = .ok ())
    (h' : assertNewPositionBound { nb with sigA := sigA, sigB := sigB } = .ok ()) :
    applyNewPosition { nb with sigA := sigA, sigB := sigB } = applyNewPosition nb := by
  rw [applyNewPosition, applyNewPosition, h, h', ok_bind, ok_bind]
  rfl

/-- An open the engine accepts in some form converts exactly when its data holds a word;
the conversion is accepted with the same outcome when the calldata's signatures pass. -/
theorem openToNewPosition_of_accepted {o : OpenRecord} {domain : Bytes32} {nb : NewPosition}
    (hcarried : o.CarriedBy domain nb) (haccepted : assertNewPositionBound nb = .ok ()) :
    (Finished (openToNewPosition o domain) ↔ 32 ≤ o.terms.data.length) ∧
    ∀ converted, openToNewPosition o domain = .ok converted → o.SignaturesPass domain →
      assertNewPositionBound converted = .ok () ∧
        applyNewPosition converted = applyNewPosition nb := by
  have hword : ∀ converted, openToNewPosition o domain = .ok converted →
      32 ≤ o.terms.data.length := by
    intro converted hconverted
    by_contra hshort
    exact openToNewPosition_short (not_le.mp hshort) hconverted
  refine ⟨⟨?_, ?_⟩, ?_⟩
  · rintro ⟨converted, hconverted⟩
    exact hword converted hconverted
  · intro hdata
    exact ⟨_, openToNewPosition_eq hcarried haccepted hdata⟩
  · intro converted hconverted hsigs
    rw [openToNewPosition_eq hcarried haccepted (hword converted hconverted)] at hconverted
    cases hconverted
    have hbound : assertNewPositionBound { nb with sigA := o.sigA, sigB := o.sigB } = .ok () := by
      refine assertNewPositionBound_resigned haccepted ?_ ?_
      · rw [hcarried.domainSeparator, hcarried.termsId, hcarried.partyA]
        exact hsigs.1
      · rw [hcarried.domainSeparator, hcarried.termsId, hcarried.partyB]
        exact hsigs.2
    exact ⟨hbound, applyNewPosition_resigned haccepted hbound⟩

end Conversion

/-! ## An open with a word of data, and one without data -/

section Concrete

attribute [local instance] concretePrimitives

/-- The unit terms as the chain records them, with other data. -/
def recordedTerms (data : Bytes) : OpenLockTerms where
  partyA := 10
  partyB := 11
  oracle := 3
  pairTag := 7
  quantity := 1000000
  imBpsA := 1000
  imBpsB := 1000
  mmPct := 50
  expiry := 200
  nonce := 1
  cureWindow := 0
  payoutPrefA := 0
  payoutPrefB := 0
  data := data
  instrument := 1
  side := 1

/-- The open of those terms; both parties consent out of band. -/
def recordedOpen (data : Bytes) : OpenRecord where
  ident := termsRfqId (recordedTerms data)
  terms := recordedTerms data
  sigA := []
  sigB := []
  block := 1

/-- The engine's position for it, at a given entry rate. -/
def recordedPosition (data : Bytes) (entryRate : U128) : NewPosition :=
  { unitTerms 200 1 with
    data := data
    entryRate := entryRate
    termsId := termsRfqId (recordedTerms data) }

theorem recordedOpen_carriedBy (data : Bytes) (entryRate : U128) :
    (recordedOpen data).CarriedBy 92 (recordedPosition data entryRate) := by
  constructor <;> rfl

/-- The engine accepts the open with its entry rate as data, and without data at rate 0. -/
theorem recordedPosition_accepted :
    assertNewPositionBound (recordedPosition (beBytes 32 (1000000 : Bytes32)) 1000000) = .ok () ∧
      assertNewPositionBound (recordedPosition [] 0) = .ok () := by
  decide +kernel

theorem openToNewPosition_of_unit_open :
    Finished (openToNewPosition (recordedOpen (beBytes 32 (1000000 : Bytes32))) 92) :=
  (openToNewPosition_of_accepted (recordedOpen_carriedBy (beBytes 32 (1000000 : Bytes32)) 1000000)
    recordedPosition_accepted.1).1.mpr (by decide)

/-- The engine accepts an open without data at entry rate 0; the keeper refuses it. -/
theorem openToNewPosition_refuses_accepted :
    (recordedOpen []).ident = termsRfqId (recordedOpen []).terms ∧
    (recordedOpen []).CarriedBy 92 (recordedPosition [] 0) ∧
    assertNewPositionBound (recordedPosition [] 0) = .ok () ∧
    ¬Finished (openToNewPosition (recordedOpen []) 92) := by
  refine ⟨rfl, recordedOpen_carriedBy [] 0, recordedPosition_accepted.2, ?_⟩
  rintro ⟨converted, hconverted⟩
  exact openToNewPosition_short (by decide) hconverted

end Concrete

end StateKeeper
