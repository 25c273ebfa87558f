import StateKeeper.Engine.Smt2Binding
import StateKeeper.Engine.UnwindSpec
import StateKeeper.Foundation.WordBuffers

/-!
# Engine - Acting for a party only as it signed

A party of the lane signs four kinds of messages: the terms of a trade, the takeover of a
leg, the failover of a leg, and the tear-up of a trade.  Their digests never meet, so that
no signature given for one of them passes for another, for other fields or in another
deployment.

Main results:

- Theorem {lit}`Consent.digest_injective`: a digest determines its message.
- Theorem {lit}`acts_as_signed`: what a fold does for a party, the party signed.
-/

namespace StateKeeper

open Words WordBuffers Fallible

/-! ## Words -/

/-- A scalar is read back from its word. -/
theorem wordOf_injective {n w : Nat} (hw : w ≤ 8 * n) {x y : BitVec w}
    (h : wordOf n x = wordOf n y) : x = y :=
  beBytes_injective hw (List.append_cancel_left h)

/-- A whole word is read back. -/
theorem word_injective {x y : Bytes32} (h : beBytes 32 x = beBytes 32 y) : x = y :=
  beBytes_injective (by decide) h

/-! ## Messages -/

/-- What a party signs. -/
inductive Consent where
  | terms (partyA partyB oracle : Address) (pairTag : Bytes32) (quantity : U128)
      (imBpsA imBpsB mmPct : U16) (expiry nonce cureWindow : U64) (payoutPrefA payoutPrefB : U8)
      (data : Bytes) (instrument : U8) (side : I8)
  | takeover (oldId : Bytes32) (taker : Address) (transferPrice : U128) (cImBps : U16)
      (cIm spread : U128) (nonce deadline : U64)
  | failover (oldId : Bytes32) (taker : Address) (feedId : Bytes32) (closeTime : U64)
      (cIm spread : U128) (nonce deadline : U64)
  | closeout (positionId : Bytes32) (closePrice : U128) (nonce deadline : U64)

/-- The type string behind the message's first word. -/
def Consent.typeString : Consent → String
  | .terms .. => termsTypeString
  | .takeover .. =>
      "NovationTakeover(bytes32 oldId,address taker,uint128 transferPrice,uint16 cImBps,uint128 cIm,uint128 spread,uint64 nonce,uint64 deadline)"
  | .failover .. =>
      "FailoverConsent(bytes32 oldId,address taker,bytes32 feedId,uint64 closeTime,uint128 cIm,uint128 spread,uint64 nonce,uint64 deadline)"
  | .closeout .. => "Closeout(bytes32 positionId,uint128 closePrice,uint64 nonce,uint64 deadline)"

/-- The data of a trade's terms, hashed by itself. -/
def Consent.dataBytes : Consent → List Bytes
  | .terms _ _ _ _ _ _ _ _ _ _ _ _ _ data _ _ => [data]
  | _ => []

section Digests

variable [Primitives]

/-- The struct hash of a message. -/
def Consent.structHash : Consent → Bytes32
  | .terms partyA partyB oracle pairTag quantity imBpsA imBpsB mmPct expiry nonce cureWindow
      payoutPrefA payoutPrefB data instrument side =>
      termsId partyA partyB oracle pairTag quantity imBpsA imBpsB mmPct expiry nonce cureWindow
        payoutPrefA payoutPrefB data instrument side
  | .takeover oldId taker transferPrice cImBps cIm spread nonce deadline =>
      novationTakeoverStructHash oldId taker transferPrice cImBps cIm spread nonce deadline
  | .failover oldId taker feedId closeTime cIm spread nonce deadline =>
      failoverConsentStructHash oldId taker feedId closeTime cIm spread nonce deadline
  | .closeout positionId closePrice nonce deadline =>
      closeoutStructHash positionId closePrice nonce deadline

/-- The digest a party signs in a deployment. -/
def Consent.digest (c : Consent) (domainSeparator : Bytes32) : Bytes32 :=
  eip712Digest domainSeparator c.structHash

/-- The words of a message. -/
def Consent.words (c : Consent) : List Bytes :=
  beBytes 32 (keccak [asciiBytes c.typeString]) ::
    match c with
    | .terms partyA partyB oracle pairTag quantity imBpsA imBpsB mmPct expiry nonce cureWindow
        payoutPrefA payoutPrefB data instrument side =>
        [wordOf 20 partyA, wordOf 20 partyB, wordOf 20 oracle, beBytes 32 pairTag,
          wordOf 16 quantity, wordOf 2 imBpsA, wordOf 2 imBpsB, wordOf 2 mmPct, wordOf 8 expiry,
          wordOf 8 nonce, wordOf 8 cureWindow, wordOf 1 payoutPrefA, wordOf 1 payoutPrefB,
          beBytes 32 (keccak [data]), wordOf 1 instrument, signFill 31 side ++ [side]]
    | .takeover oldId taker transferPrice cImBps cIm spread nonce deadline =>
        [beBytes 32 oldId, wordOf 20 taker, wordOf 16 transferPrice, wordOf 2 cImBps,
          wordOf 16 cIm, wordOf 16 spread, wordOf 8 nonce, wordOf 8 deadline]
    | .failover oldId taker feedId closeTime cIm spread nonce deadline =>
        [beBytes 32 oldId, wordOf 20 taker, beBytes 32 feedId, wordOf 8 closeTime, wordOf 16 cIm,
          wordOf 16 spread, wordOf 8 nonce, wordOf 8 deadline]
    | .closeout positionId closePrice nonce deadline =>
        [beBytes 32 positionId, wordOf 16 closePrice, wordOf 8 nonce, wordOf 8 deadline]

theorem Consent.words_length (c : Consent) : ∀ w ∈ c.words, w.length = 32 := by
  cases c with
  | terms => simp [Consent.words, wordOf]
  | takeover => simp [Consent.words, wordOf]
  | failover => simp [Consent.words, wordOf]
  | closeout => simp [Consent.words, wordOf]

/-- A struct hash is the hash of its words. -/
theorem Consent.structHash_eq (c : Consent) :
    c.structHash = Primitives.keccak256 c.words.flatten := by
  cases c with
  | terms =>
      rw [Consent.structHash, termsId, termsPreimage, keccak_singleton]
      simp [Consent.words, Consent.typeString, termsTypehash]
  | takeover =>
      rw [Consent.structHash, novationTakeoverStructHash, keccak_singleton]
      simp [Consent.words, Consent.typeString, novationTakeoverTypehash]
  | failover =>
      rw [Consent.structHash, failoverConsentStructHash, keccak_singleton]
      simp [Consent.words, Consent.typeString, failoverConsentTypehash]
  | closeout =>
      rw [Consent.structHash, closeoutStructHash, keccak_singleton]
      simp [Consent.words, Consent.typeString, closeoutTypehash]

/-- The string behind a digest. -/
def digestBytes (domainSeparator structHash : Bytes32) : Bytes :=
  [0x19, 0x01] ++ beBytes 32 domainSeparator ++ beBytes 32 structHash

theorem eip712Digest_eq (domainSeparator structHash : Bytes32) :
    eip712Digest domainSeparator structHash =
      Primitives.keccak256 (digestBytes domainSeparator structHash) := by
  simp [eip712Digest, keccak, digestBytes]

omit [Primitives] in
/-- The two messages of a handoff have different types. -/
theorem takeover_ne_failover {oldId oldId' feedId : Bytes32} {taker taker' : Address}
    {transferPrice cIm spread cIm' spread' : U128} {cImBps : U16}
    {closeTime nonce deadline nonce' deadline' : U64} :
    asciiBytes (Consent.takeover oldId taker transferPrice cImBps cIm spread nonce
        deadline).typeString ≠
      asciiBytes (Consent.failover oldId' taker' feedId closeTime cIm' spread' nonce'
        deadline').typeString := by
  intro h
  have hfirst := congrArg List.head? h
  revert hfirst
  simp only [Consent.typeString]
  decide +kernel

/-- The strings a message's words are hashed from. -/
def Consent.leaves (c : Consent) : List Bytes :=
  asciiBytes c.typeString :: c.dataBytes

/-- Equal words come from equal messages, when the strings hashed into them do not collide. -/
theorem Consent.eq_of_words {c c' : Consent} (hc : NoCollision (c.leaves ++ c'.leaves))
    (h : c.words = c'.words) : c = c' := by
  have htype : asciiBytes c.typeString = asciiBytes c'.typeString := by
    have hhead := word_injective (List.cons.inj h).1
    rw [keccak_singleton, keccak_singleton] at hhead
    exact hc _ (by simp [Consent.leaves]) _ (by simp [Consent.leaves]) hhead
  cases c with
  | terms partyA partyB oracle pairTag quantity imBpsA imBpsB mmPct expiry nonce cureWindow
      payoutPrefA payoutPrefB data instrument side =>
      cases c' with
      | terms partyA' partyB' oracle' pairTag' quantity' imBpsA' imBpsB' mmPct' expiry' nonce'
          cureWindow' payoutPrefA' payoutPrefB' data' instrument' side' =>
          simp only [Consent.words, List.cons.injEq, and_true] at h
          obtain ⟨_, hpartyA, hpartyB, horacle, hpairTag, hquantity, himBpsA, himBpsB, hmmPct,
            hexpiry, hnonce, hcureWindow, hpayoutPrefA, hpayoutPrefB, hhash, hinstrument,
            hside⟩ := h
          have hdata : data = data' := by
            have hhash := word_injective hhash
            rw [keccak_singleton, keccak_singleton] at hhash
            exact hc _ (by simp [Consent.leaves, Consent.dataBytes]) _
              (by simp [Consent.leaves, Consent.dataBytes]) hhash
          rw [Consent.terms.injEq]
          exact ⟨wordOf_injective (by decide) hpartyA, wordOf_injective (by decide) hpartyB,
            wordOf_injective (by decide) horacle, word_injective hpairTag,
            wordOf_injective (by decide) hquantity, wordOf_injective (by decide) himBpsA,
            wordOf_injective (by decide) himBpsB, wordOf_injective (by decide) hmmPct,
            wordOf_injective (by decide) hexpiry, wordOf_injective (by decide) hnonce,
            wordOf_injective (by decide) hcureWindow, wordOf_injective (by decide) hpayoutPrefA,
            wordOf_injective (by decide) hpayoutPrefB, hdata,
            wordOf_injective (by decide) hinstrument,
            List.singleton_inj.mp (List.append_inj_right' hside rfl)⟩
      | takeover => simp [Consent.words] at h
      | failover => simp [Consent.words] at h
      | closeout => simp [Consent.words] at h
  | takeover oldId taker transferPrice cImBps cIm spread nonce deadline =>
      cases c' with
      | terms => simp [Consent.words] at h
      | takeover oldId' taker' transferPrice' cImBps' cIm' spread' nonce' deadline' =>
          simp only [Consent.words, List.cons.injEq, and_true] at h
          obtain ⟨_, holdId, htaker, hprice, hbps, hcIm, hspread, hnonce, hdeadline⟩ := h
          rw [Consent.takeover.injEq]
          exact ⟨word_injective holdId, wordOf_injective (by decide) htaker,
            wordOf_injective (by decide) hprice, wordOf_injective (by decide) hbps,
            wordOf_injective (by decide) hcIm, wordOf_injective (by decide) hspread,
            wordOf_injective (by decide) hnonce, wordOf_injective (by decide) hdeadline⟩
      | failover => exact absurd htype takeover_ne_failover
      | closeout => simp [Consent.words] at h
  | failover oldId taker feedId closeTime cIm spread nonce deadline =>
      cases c' with
      | terms => simp [Consent.words] at h
      | takeover => exact absurd htype.symm takeover_ne_failover
      | failover oldId' taker' feedId' closeTime' cIm' spread' nonce' deadline' =>
          simp only [Consent.words, List.cons.injEq, and_true] at h
          obtain ⟨_, holdId, htaker, hfeed, hclose, hcIm, hspread, hnonce, hdeadline⟩ := h
          rw [Consent.failover.injEq]
          exact ⟨word_injective holdId, wordOf_injective (by decide) htaker,
            word_injective hfeed, wordOf_injective (by decide) hclose,
            wordOf_injective (by decide) hcIm, wordOf_injective (by decide) hspread,
            wordOf_injective (by decide) hnonce, wordOf_injective (by decide) hdeadline⟩
      | closeout => simp [Consent.words] at h
  | closeout positionId closePrice nonce deadline =>
      cases c' with
      | terms => simp [Consent.words] at h
      | takeover => simp [Consent.words] at h
      | failover => simp [Consent.words] at h
      | closeout positionId' closePrice' nonce' deadline' =>
          simp only [Consent.words, List.cons.injEq, and_true] at h
          obtain ⟨_, hid, hprice, hnonce, hdeadline⟩ := h
          rw [Consent.closeout.injEq]
          exact ⟨word_injective hid, wordOf_injective (by decide) hprice,
            wordOf_injective (by decide) hnonce, wordOf_injective (by decide) hdeadline⟩

theorem Consent.words_count (c : Consent) : c.words.flatten.length = 32 * c.words.length := by
  rw [List.length_flatten, List.map_congr_left c.words_length, List.map_const', List.sum_replicate,
    smul_eq_mul, mul_comm]

/-- The strings hashed for a message's digest. -/
def Consent.preimages (c : Consent) (domainSeparator : Bytes32) : List Bytes :=
  [digestBytes domainSeparator c.structHash, c.words.flatten] ++ c.leaves

/-- A digest determines the deployment and the message, its kind and all its fields. -/
theorem Consent.digest_injective {c c' : Consent} {domain domain' : Bytes32}
    (hc : NoCollision (c.preimages domain ++ c'.preimages domain'))
    (h : c.digest domain = c'.digest domain') : domain = domain' ∧ c = c' := by
  unfold Consent.digest at h
  rw [eip712Digest_eq, eip712Digest_eq] at h
  have hbytes := hc _ (by simp [Consent.preimages]) _ (by simp [Consent.preimages]) h
  unfold digestBytes at hbytes
  rw [List.append_assoc, List.append_assoc] at hbytes
  obtain ⟨hdomain, hhash⟩ :=
    append_inj_of_length (by simp) (List.append_cancel_left hbytes)
  have hstruct := word_injective hhash
  rw [c.structHash_eq, c'.structHash_eq] at hstruct
  have hflat := hc _ (by simp [Consent.preimages]) _ (by simp [Consent.preimages]) hstruct
  have hcount : c.words.length = c'.words.length := by
    have hlength := congrArg List.length hflat
    rw [c.words_count, c'.words_count] at hlength
    omega
  refine ⟨word_injective hdomain, Consent.eq_of_words ?_ ?_⟩
  · apply hc.mono
    intro bs hbs
    rcases List.mem_append.mp hbs with hbs | hbs
    · exact List.mem_append_left _ (List.mem_append_right _ hbs)
    · exact List.mem_append_right _ (List.mem_append_right _ hbs)
  · exact flatten_injective hcount c.words_length c'.words_length hflat

/-! ## The consents of a fold -/

omit [Primitives] in
/-- The terms of an open, as its parties sign them. -/
def NewPosition.consent (nb : NewPosition) : Consent :=
  .terms nb.partyA nb.partyB nb.oracle nb.pairTag nb.quantity nb.imBpsA nb.imBpsB nb.mmPct
    nb.expiry nb.nonce nb.cureWindow nb.payoutPrefA nb.payoutPrefB nb.data nb.instrument nb.sideA

omit [Primitives] in
/-- The takeover behind a committed novation. -/
def takeoverConsent (e : Novation × NovationWitness) : Consent :=
  .takeover e.1.oldId e.1.partyC e.1.transferPrice e.2.cImBps e.1.cIm e.1.spread e.1.nonce
    e.1.deadline

omit [Primitives] in
/-- The failover behind a committed closeout. -/
def failoverConsent (e : CloseoutNovation × CloseoutNovationWitness) : Consent :=
  .failover e.1.oldId e.1.partyC e.1.feedId e.1.closeTime e.1.cIm e.1.spread e.1.nonce
    e.2.deadline

omit [Primitives] in
/-- The tear-up behind a committed unwind. -/
def Unwind.consent (u : Unwind) : Consent :=
  .closeout u.oldId u.closePrice u.nonce u.deadline

/-- A fold acts for a party on a message: it opens a trade of the party under a signature,
hands the party a leg by takeover or failover, or tears up a trade of the party.  A forced
novation rests on no signature, nor does an open under the empty one of a contract. -/
inductive StateTransitionInputs.ActsFor (inp : StateTransitionInputs) (party : Address) :
    Consent → Prop where
  | opened {nb : NewPosition} : nb ∈ inp.newPositions →
      nb.partyA = party ∧ nb.sigA ≠ [] ∨ nb.partyB = party ∧ nb.sigB ≠ [] →
      inp.ActsFor party nb.consent
  | takenOver {e : Novation × NovationWitness} : e ∈ inp.novations.zip inp.novationWitnesses →
      e.2.kind = .voluntary → e.1.partyC = party → inp.ActsFor party (takeoverConsent e)
  | failedOver {e : CloseoutNovation × CloseoutNovationWitness} :
      e ∈ inp.closeoutNovations.zip inp.closeoutNovationWitnesses → e.1.partyC = party →
      inp.ActsFor party (failoverConsent e)
  | tornUp {e : Unwind × UnwindWitness} : e ∈ inp.unwinds.zip inp.unwindWitnesses →
      e.1.partyA = party ∨ e.1.partyB = party → inp.ActsFor party e.1.consent

omit [Primitives] in
/-- The signatures a fold carries. -/
def StateTransitionInputs.signatures (inp : StateTransitionInputs) : List Bytes :=
  inp.newPositions.flatMap (fun nb => [nb.sigA, nb.sigB]) ++
    inp.novationWitnesses.map NovationWitness.sigC ++
    inp.closeoutNovationWitnesses.map CloseoutNovationWitness.sigC ++
    inp.unwindWitnesses.flatMap fun w => [w.sigA, w.sigB]

/-- No signature of the fold is a forgery of the party's: where one passes for a message that
the fold acts on, the party signed the digest, for one of the messages it gave. -/
def StateTransitionInputs.Unforged (inp : StateTransitionInputs) (party : Address)
    (given : List (Bytes32 × Consent)) : Prop :=
  ∀ sig ∈ inp.signatures, ∀ c, inp.ActsFor party c →
    recoverEthSigner (c.digest inp.domainSeparator) sig = .ok party →
      ∃ g ∈ given, g.2.digest g.1 = c.digest inp.domainSeparator

variable {inp : StateTransitionInputs} {out : StateTransitionOutputs} {party : Address}
  {c : Consent}

/-- What an accepted fold does for a party it checked under a signature it carries. -/
theorem StateTransitionInputs.ActsFor.signed (h : stateTransition inp = .ok out)
    (hacts : inp.ActsFor party c) :
    ∃ sig ∈ inp.signatures, recoverEthSigner (c.digest inp.domainSeparator) sig = .ok party := by
  obtain ⟨st, hst, _⟩ := stateTransition_ok_iff.mp h
  cases hacts with
  | @opened nb hnb hparty =>
      obtain ⟨hbound, _, _⟩ := applyNewBoxesToBook_ok_iff.mp hst.opened
      obtain ⟨hid, hsigA, hsigB, _, _⟩ := assertNewPositionBound_ok_iff.mp (hbound nb hnb)
      rw [hst.gated.domain nb hnb, ← hid] at hsigA hsigB
      have hcarried : nb.sigA ∈ inp.signatures ∧ nb.sigB ∈ inp.signatures := by
        simp only [StateTransitionInputs.signatures, List.mem_append, List.mem_flatMap]
        exact ⟨.inl (.inl (.inl ⟨nb, hnb, by simp⟩)), .inl (.inl (.inl ⟨nb, hnb, by simp⟩))⟩
      rcases hparty with ⟨rfl, hsig⟩ | ⟨rfl, hsig⟩
      · exact ⟨nb.sigA, hcarried.1, hsigA.resolve_left hsig⟩
      · exact ⟨nb.sigB, hcarried.2, hsigB.resolve_left hsig⟩
  | @takenOver e he hkind hparty =>
      obtain ⟨hsound, _⟩ := novations_books hst.novated
      subst hparty
      refine ⟨e.2.sigC, ?_, ((hsound e he).voluntary hkind).2.2.1⟩
      simp only [StateTransitionInputs.signatures, List.mem_append, List.mem_map]
      exact .inl (.inl (.inr ⟨e.2, (List.of_mem_zip he).2, rfl⟩))
  | @failedOver e he hparty =>
      obtain ⟨marks, hsounds, _⟩ := closeouts_books hst.closedOut
      obtain ⟨i, hi, rfl⟩ := List.getElem_of_mem he
      have hi' : i < marks.length := hsounds.length_eq ▸ hi
      subst hparty
      refine ⟨_, ?_, (hsounds.get hi hi').consent⟩
      simp only [StateTransitionInputs.signatures, List.mem_append, List.mem_map]
      exact .inl (.inr ⟨_, (List.of_mem_zip he).2, rfl⟩)
  | @tornUp e he hparty =>
      have hchecked := forM_eq_ok_iff.mp hst.unwound e he
      obtain ⟨hconsented, _⟩ := checkUnwind_ok hchecked
      have hw : e.2 ∈ inp.unwindWitnesses := (List.of_mem_zip he).2
      have hcarried : e.2.sigA ∈ inp.signatures ∧ e.2.sigB ∈ inp.signatures := by
        simp only [StateTransitionInputs.signatures, List.mem_append, List.mem_flatMap]
        exact ⟨.inr ⟨e.2, hw, by simp⟩, .inr ⟨e.2, hw, by simp⟩⟩
      rcases hconsented with ⟨hA, hB⟩ | ⟨hB, hA⟩
      · rcases hparty with rfl | rfl
        · exact ⟨e.2.sigA, hcarried.1, hA⟩
        · exact ⟨e.2.sigB, hcarried.2, hB⟩
      · rcases hparty with rfl | rfl
        · exact ⟨e.2.sigB, hcarried.2, hA⟩
        · exact ⟨e.2.sigA, hcarried.1, hB⟩

/-- An accepted fold acts for a party only as the party signed.  Where none of its signatures
is a forgery of the party's, every message it acts on for the party is one the party gave:
of that kind, with those fields, for that deployment.  The strings hashed for the digests do
not collide. -/
theorem acts_as_signed (h : stateTransition inp = .ok out) {given : List (Bytes32 × Consent)}
    (hunforged : inp.Unforged party given) (hacts : inp.ActsFor party c)
    (hc : NoCollision ((given.flatMap fun g => g.2.preimages g.1) ++
      c.preimages inp.domainSeparator)) :
    (inp.domainSeparator, c) ∈ given := by
  obtain ⟨sig, hsig, hpasses⟩ := hacts.signed h
  obtain ⟨⟨domain, c'⟩, hgiven, hdigest⟩ := hunforged sig hsig c hacts hpasses
  have hpair : NoCollision (c'.preimages domain ++ c.preimages inp.domainSeparator) := by
    apply hc.mono
    intro bs hbs
    rcases List.mem_append.mp hbs with hbs | hbs
    · exact List.mem_append_left _ (List.mem_flatMap.mpr ⟨_, hgiven, hbs⟩)
    · exact List.mem_append_right _ hbs
  obtain ⟨rfl, rfl⟩ := Consent.digest_injective hpair hdigest
  exact hgiven

end Digests

/-! ## A takeover and a tear-up -/

section Concrete

attribute [local instance] signingPrimitives

/-- What the maker signed in the deployment of the takeover and the tear-up. -/
def makerGiven : List (Bytes32 × Consent) :=
  [(92, takeoverConsent (takenOver, takeover)), (92, tornUp.consent)]

theorem makerGiven_digests :
    (takeoverConsent (takenOver, takeover)).digest 92 = makerTakeover.digest ∧
      tornUp.consent.digest 92 = makerCloseout.digest := by
  decide +kernel

theorem makerGiven_strings :
    ((makerGiven.flatMap fun g => g.2.preimages g.1).dedup.map Primitives.keccak256).Nodup := by
  decide +kernel

/-- The signatures of the two folds are the recorded ones. -/
theorem makerGiven_unforged :
    handoffFold.Unforged maker makerGiven ∧ unwindFold.Unforged maker makerGiven := by
  obtain ⟨htakeover, hcloseout⟩ := makerGiven_digests
  have hsigned : ∀ digest sig, sig ∈ [makerTakeover.sig, takerCloseout.sig, makerCloseout.sig] →
      recoverEthSigner digest sig = .ok maker →
        digest = makerTakeover.digest ∨ digest = makerCloseout.digest := by
    intro digest sig hsig hrecover
    obtain ⟨e, he, rfl, hbytes⟩ := recorded_of_recoverEthSigner hrecover
    have htable : ∀ e ∈ signedByParties, ∀ sig ∈ [makerTakeover.sig, takerCloseout.sig,
        makerCloseout.sig], e.sig.take 64 = sig.take 64 →
          e.digest = makerTakeover.digest ∨ e.digest = makerCloseout.digest := by
      decide +kernel
    exact htable e he sig hsig hbytes
  have hgiven : ∀ digest, digest = makerTakeover.digest ∨ digest = makerCloseout.digest →
      ∃ g ∈ makerGiven, g.2.digest g.1 = digest := by
    rintro digest (rfl | rfl)
    · exact ⟨_, List.mem_cons_self, htakeover⟩
    · exact ⟨_, List.mem_cons_of_mem _ List.mem_cons_self, hcloseout⟩
  constructor
  · intro sig hsig c _ hrecover
    apply hgiven _ (hsigned _ sig ?_ hrecover)
    change sig ∈ [makerTakeover.sig] at hsig
    simp [List.mem_singleton.mp hsig]
  · intro sig hsig c _ hrecover
    apply hgiven _ (hsigned _ sig ?_ hrecover)
    change sig ∈ [takerCloseout.sig, makerCloseout.sig] at hsig
    exact List.mem_cons_of_mem _ hsig

/-- The fold of the takeover acts for the maker, and so does that of the tear-up, in which the
maker's signature stands second. -/
theorem acts_as_signed_maker :
    handoffFold.ActsFor maker (takeoverConsent (takenOver, takeover)) ∧
      unwindFold.ActsFor maker tornUp.consent ∧
      (92, takeoverConsent (takenOver, takeover)) ∈ makerGiven ∧
      (92, tornUp.consent) ∈ makerGiven := by
  have htakeover : handoffFold.ActsFor maker (takeoverConsent (takenOver, takeover)) :=
    .takenOver List.mem_cons_self rfl rfl
  have htornUp : unwindFold.ActsFor maker tornUp.consent :=
    .tornUp (e := (tornUp, tearUp)) List.mem_cons_self (.inl rfl)
  obtain ⟨hunforged, hunforged'⟩ := makerGiven_unforged
  obtain ⟨out, hrun⟩ := isOk_iff.mp handoffFold_accepted
  obtain ⟨out', hrun'⟩ := isOk_iff.mp unwindFold_accepted
  have hstrings := NoCollision.of_dedup makerGiven_strings
  refine ⟨htakeover, htornUp, acts_as_signed hrun hunforged htakeover (hstrings.mono ?_),
    acts_as_signed hrun' hunforged' htornUp (hstrings.mono ?_)⟩
  · simp [makerGiven, handoffFold]
  · simp [makerGiven, unwindFold]

end Concrete

end StateKeeper
