import StateKeeper.Engine.Concrete
import StateKeeper.Tree.Events

/-!
# Tree - The signatures of a scanned open

The event of an open carries its terms, not its signatures.  The scan looks for
them in the calldata of the transaction: at the top level, then at every window
that holds the selector of {lit}`openLock`.  The first fragment whose terms hash
to the id of the event is taken, and the id does not cover the signatures.

Main results:

- Theorem {lit}`openSigs_eq_ok_iff`: the search takes the fragment at the lowest
  offset.
- Theorem {lit}`openSigs_recovered_iff`: when its signatures are those that
  authorised the open.
-/

namespace StateKeeper

open Words Fallible

/-- The first hit of a search over the first {lit}`n` numbers. -/
theorem findSome?_range_eq_some {α : Type} {f : Nat → Option α} {n : Nat} {a : α} :
    (List.range n).findSome? f = some a ↔ ∃ i < n, f i = some a ∧ ∀ j < i, f j = none := by
  induction n generalizing a with
  | zero => simp
  | succ n ih =>
      rw [List.range_succ, List.findSome?_append]
      cases hfirst : (List.range n).findSome? f with
      | none =>
          have hnone : ∀ j < n, f j = none := by
            intro j hj
            exact List.findSome?_eq_none_iff.mp hfirst j (List.mem_range.mpr hj)
          simp only [Option.none_or, List.findSome?_singleton]
          constructor
          · intro h
            exact ⟨n, Nat.lt_succ_self n, h, hnone⟩
          · intro h
            rcases h with ⟨i, hi, hsome, _⟩
            by_cases hlast : i = n
            · rw [← hlast]
              exact hsome
            · rw [hnone i (by omega)] at hsome
              cases hsome
      | some b =>
          rcases ih.mp hfirst with ⟨i, hi, hsome, hnone⟩
          rw [Option.some_or, Option.some.injEq]
          constructor
          · intro h
            rw [← h]
            exact ⟨i, by omega, hsome, hnone⟩
          · intro h
            rcases h with ⟨i', _, hsome', hnone'⟩
            rcases lt_trichotomy i i' with hlt | rfl | hlt
            · rw [hnone' i hlt] at hsome
              cases hsome
            · rw [hsome] at hsome'
              exact Option.some.inj hsome'
            · rw [hnone i' hlt] at hsome'
              cases hsome'

/-! ## The search -/

/-- The first four bytes of {lit}`openLock` calldata. -/
def openLockSelector : Bytes :=
  [0xa0, 0xbc, 0xf0, 0xe4]

/-- The arguments of {lit}`openLock`. -/
structure OpenLockCall where
  t : OpenLockTerms
  sigA : Bytes
  sigB : Bytes
deriving DecidableEq

/-- The ABI decoder of {lit}`openLock`, a third-party function.  It checks the selector
and ignores bytes past the arguments. -/
structure OpenLockAbi where
  abiDecode : Bytes → Option OpenLockCall
  selector : ∀ {calldata call}, abiDecode calldata = some call → openLockSelector <+: calldata

/-- Decode Terms and both signatures from {lit}`openLock` calldata. -/
def termsFromOpenCalldata (abi : OpenLockAbi) (calldata : Bytes) :
    Option (OpenLockTerms × Bytes × Bytes) :=
  (abi.abiDecode calldata).map fun c => (c.t, c.sigA, c.sigB)

section Search

variable [Primitives]

/-- The signatures of a fragment whose terms hash to the id. -/
def fragmentSigs (abi : OpenLockAbi) (expectId : Bytes32) (calldata : Bytes) :
    Option (Bytes × Bytes) :=
  match termsFromOpenCalldata abi calldata with
  | some (t, sigs) => if termsRfqId t = expectId then some sigs else none
  | none => none

/-- The signatures of the fragment at an offset, where the window holds the selector. -/
def windowSigs (abi : OpenLockAbi) (input : Bytes) (expectId : Bytes32) (offset : Nat) :
    Option (Bytes × Bytes) :=
  if (input.drop offset).take 4 = openLockSelector then
    fragmentSigs abi expectId (input.drop offset)
  else none

/-- Recover the two signatures from the calldata of the open's transaction: top level
first, else every window of four bytes. -/
def openSigs (abi : OpenLockAbi) (txHash : Bytes32) (input : Bytes) (expectId : Bytes32) :
    Run (Bytes × Bytes) :=
  match fragmentSigs abi expectId input with
  | some sigs => pure sigs
  | none =>
    match (List.range (input.length - 3)).findSome? (windowSigs abi input expectId) with
    | some sigs => pure sigs
    | none =>
      bail ("open tx " ++ hexOf txHash ++ ": could not recover openLock signatures for id " ++
        hexOf expectId ++ " from calldata")

/-! ## What the search should find -/

/-- At this offset the calldata decodes as an {lit}`openLock` whose terms hash to the id. -/
def FragmentAt (abi : OpenLockAbi) (input : Bytes) (ident : Bytes32) (offset : Nat)
    (t : OpenLockTerms) (sigs : Bytes × Bytes) : Prop :=
  termsFromOpenCalldata abi (input.drop offset) = some (t, sigs) ∧ termsRfqId t = ident

/-- Both signatures recover to their parties under the domain. -/
def Authorises (domain ident : Bytes32) (t : OpenLockTerms) (sigs : Bytes × Bytes) : Prop :=
  recoverEthSigner (eip712Digest domain ident) sigs.1 = .ok t.partyA ∧
    recoverEthSigner (eip712Digest domain ident) sigs.2 = .ok t.partyB

/-- The search returns signatures that authorise the open whenever the calldata carries
such signatures, and fails only where no offset decodes to an open with the id. -/
structure SigsRecovered (abi : OpenLockAbi) (txHash : Bytes32) (input : Bytes)
    (ident domain : Bytes32) : Prop where
  authorised : ∀ offset t sigs, FragmentAt abi input ident offset t sigs →
    Authorises domain ident t sigs →
    ∃ found, openSigs abi txHash input ident = .ok found ∧ Authorises domain ident t found
  refused : ¬Finished (openSigs abi txHash input ident) →
    ∀ offset t sigs, ¬FragmentAt abi input ident offset t sigs

/-- Where some fragment's signatures authorise the open, a fragment whose signatures do not
stands above one whose signatures do. -/
def DecoysFollow (abi : OpenLockAbi) (input : Bytes) (ident domain : Bytes32) : Prop :=
  ∀ offset t sigs, FragmentAt abi input ident offset t sigs → Authorises domain ident t sigs →
    ∀ j t' sigs', FragmentAt abi input ident j t' sigs' → ¬Authorises domain ident t sigs' →
      ∃ i < j, ∃ t'' sigs'', FragmentAt abi input ident i t'' sigs'' ∧
        Authorises domain ident t sigs''

/-! ## The lowest offset -/

variable {abi : OpenLockAbi} {txHash : Bytes32} {input : Bytes} {ident domain : Bytes32}
  {offset : Nat} {sigs : Bytes × Bytes}

theorem fragmentSigs_eq_some {calldata : Bytes} :
    fragmentSigs abi ident calldata = some sigs ↔
      ∃ t, termsFromOpenCalldata abi calldata = some (t, sigs) ∧ termsRfqId t = ident := by
  unfold fragmentSigs
  cases hdecode : termsFromOpenCalldata abi calldata with
  | none => simp
  | some call =>
      by_cases hid : termsRfqId call.1 = ident
      · simp only [if_pos hid, Option.some.injEq]
        constructor
        · intro h
          exact ⟨call.1, Prod.ext rfl h, hid⟩
        · intro h
          rcases h with ⟨t, ht, _⟩
          rw [ht]
      · simp only [if_neg hid]
        constructor
        · intro h
          cases h
        · intro h
          rcases h with ⟨t, ht, hid'⟩
          rw [Option.some.inj ht] at hid
          exact absurd hid' hid

/-- A decoded fragment starts with the selector, so its window is searched. -/
theorem windowSigs_eq (abi : OpenLockAbi) (input : Bytes) (ident : Bytes32) (offset : Nat) :
    windowSigs abi input ident offset = fragmentSigs abi ident (input.drop offset) := by
  unfold windowSigs
  split
  · rfl
  · rename_i hwindow
    cases hfragment : fragmentSigs abi ident (input.drop offset) with
    | none => rfl
    | some sigs =>
        rcases fragmentSigs_eq_some.mp hfragment with ⟨t, hdecode, _⟩
        rcases Option.map_eq_some_iff.mp hdecode with ⟨call, hcall, _⟩
        rcases abi.selector hcall with ⟨rest, hrest⟩
        apply absurd _ hwindow
        rw [← hrest]
        rfl

/-- No fragment decodes at the last three bytes or past the end. -/
theorem offset_lt_of_fragmentSigs
    (h : fragmentSigs abi ident (input.drop offset) = some sigs) : offset < input.length - 3 := by
  rcases fragmentSigs_eq_some.mp h with ⟨t, hdecode, _⟩
  rcases Option.map_eq_some_iff.mp hdecode with ⟨call, hcall, _⟩
  have hlength := (abi.selector hcall).length_le
  have hselector : openLockSelector.length = 4 := rfl
  rw [hselector, List.length_drop] at hlength
  omega

/-- The search takes the fragment at the lowest offset. -/
theorem openSigs_eq_ok_iff :
    openSigs abi txHash input ident = .ok sigs ↔
      ∃ offset, fragmentSigs abi ident (input.drop offset) = some sigs ∧
        ∀ j < offset, fragmentSigs abi ident (input.drop j) = none := by
  unfold openSigs
  cases htop : fragmentSigs abi ident input with
  | some top =>
      constructor
      · intro h
        cases h
        exact ⟨0, htop, by simp⟩
      · intro h
        rcases h with ⟨offset, hsome, hnone⟩
        by_cases hzero : offset = 0
        · rw [hzero, List.drop_zero, htop] at hsome
          cases hsome
          rfl
        · have hfirst := hnone 0 (Nat.pos_of_ne_zero hzero)
          rw [List.drop_zero, htop] at hfirst
          cases hfirst
  | none =>
      have hsearch : ∀ found, (List.range (input.length - 3)).findSome?
          (windowSigs abi input ident) = some found ↔
          ∃ offset, fragmentSigs abi ident (input.drop offset) = some found ∧
            ∀ j < offset, fragmentSigs abi ident (input.drop j) = none := by
        intro found
        rw [findSome?_range_eq_some]
        simp only [windowSigs_eq]
        constructor
        · intro h
          rcases h with ⟨offset, _, hfound⟩
          exact ⟨offset, hfound⟩
        · intro h
          rcases h with ⟨offset, hsome, hnone⟩
          exact ⟨offset, offset_lt_of_fragmentSigs hsome, hsome, hnone⟩
      rw [← hsearch]
      cases (List.range (input.length - 3)).findSome? (windowSigs abi input ident) with
      | none => simp [bail]
      | some found => simp

/-- The search fails exactly where no fragment matches. -/
theorem openSigs_finished_iff :
    Finished (openSigs abi txHash input ident) ↔
      ∃ offset t sigs, FragmentAt abi input ident offset t sigs := by
  constructor
  · intro h
    rcases h with ⟨sigs, hsigs⟩
    rcases openSigs_eq_ok_iff.mp hsigs with ⟨offset, hsome, _⟩
    rcases fragmentSigs_eq_some.mp hsome with ⟨t, ht⟩
    exact ⟨offset, t, sigs, ht⟩
  · intro h
    -- the least of the offsets with a fragment is the one the search takes
    have hsome : ∃ offset, (fragmentSigs abi ident (input.drop offset)).isSome := by
      rcases h with ⟨offset, t, sigs, ht⟩
      exact ⟨offset, Option.isSome_iff_exists.mpr ⟨sigs, fragmentSigs_eq_some.mpr ⟨t, ht⟩⟩⟩
    rcases Option.isSome_iff_exists.mp (Nat.find_spec hsome) with ⟨sigs, hsigs⟩
    refine ⟨sigs, openSigs_eq_ok_iff.mpr ⟨Nat.find hsome, hsigs, ?_⟩⟩
    intro j hj
    exact Option.not_isSome_iff_eq_none.mp (Nat.find_min hsome hj)

/-- The search finds the signatures that authorised the open exactly when no fragment with
other signatures comes before them. -/
theorem openSigs_recovered_iff (abi : OpenLockAbi) (txHash : Bytes32) (input : Bytes)
    (ident domain : Bytes32) :
    SigsRecovered abi txHash input ident domain ↔ DecoysFollow abi input ident domain := by
  constructor
  · intro h offset t sigs hfragment hauthorises j t' sigs' hdecoy hnot
    rcases h.authorised offset t sigs hfragment hauthorises with ⟨found, hfound, hpass⟩
    rcases openSigs_eq_ok_iff.mp hfound with ⟨i, hsome, hnone⟩
    rcases fragmentSigs_eq_some.mp hsome with ⟨t'', ht''⟩
    have hsome' : fragmentSigs abi ident (input.drop j) = some sigs' :=
      fragmentSigs_eq_some.mpr ⟨t', hdecoy⟩
    refine ⟨i, ?_, t'', found, ht'', hpass⟩
    rcases lt_trichotomy i j with hlt | rfl | hlt
    · exact hlt
    · -- the decoy would be the fragment found
      rw [hsome] at hsome'
      cases hsome'
      exact absurd hpass hnot
    · rw [hnone j hlt] at hsome'
      cases hsome'
  · intro h
    constructor
    · intro offset t sigs hfragment hauthorises
      rcases openSigs_finished_iff.mpr ⟨offset, t, sigs, hfragment⟩ with ⟨found, hfound⟩
      refine ⟨found, hfound, ?_⟩
      rcases openSigs_eq_ok_iff.mp hfound with ⟨j, hsome, hnone⟩
      rcases fragmentSigs_eq_some.mp hsome with ⟨t', ht'⟩
      by_contra hnot
      rcases h offset t sigs hfragment hauthorises j t' found ht' hnot with
        ⟨i, hi, t'', sigs'', hi'', _⟩
      have hfirst : fragmentSigs abi ident (input.drop i) = some sigs'' :=
        fragmentSigs_eq_some.mpr ⟨t'', hi''⟩
      rw [hnone i hi] at hfirst
      cases hfirst
    · intro hfails offset t sigs hfragment
      exact hfails (openSigs_finished_iff.mpr ⟨offset, t, sigs, hfragment⟩)

end Search

/-! ## A recorded open behind a decoy -/

section Recorded

/-- The ABI form of a byte string: its length, and its bytes in whole words. -/
def abiBytes (bs : Bytes) : Bytes :=
  beBytes 32 (BitVec.ofNat 256 bs.length) ++ bs ++ zeros ((32 - bs.length % 32) % 32)

/-- The ABI form of Terms: sixteen words, then the data they point to. -/
def abiTerms (t : OpenLockTerms) : Bytes :=
  wordOf 20 t.partyA ++ wordOf 20 t.partyB ++ wordOf 20 t.oracle ++ beBytes 32 t.pairTag ++
    beBytes 32 t.quantity ++ wordOf 2 t.imBpsA ++ wordOf 2 t.imBpsB ++ wordOf 2 t.mmPct ++
    wordOf 8 t.expiryU64 ++ wordOf 8 t.nonce ++ wordOf 8 t.cureWindow ++ wordOf 1 t.payoutPrefA ++
    wordOf 1 t.payoutPrefB ++ wordOf 2 (512 : U16) ++ wordOf 1 t.instrument ++
    (signFill 31 t.side ++ [t.side]) ++ abiBytes t.data

/-- The calldata of an {lit}`openLock`: the selector, where the three arguments start, and
the arguments. -/
def openLockCalldata (call : OpenLockCall) : Bytes :=
  openLockSelector ++ beBytes 32 (96 : Bytes32) ++
    beBytes 32 (BitVec.ofNat 256 (96 + (abiTerms call.t).length)) ++
    beBytes 32 (BitVec.ofNat 256 (96 + (abiTerms call.t).length + (abiBytes call.sigA).length)) ++
    abiTerms call.t ++ abiBytes call.sigA ++ abiBytes call.sigB

/-- The first recorded open of the test network. -/
def recordedCall : OpenLockCall where
  t :=
    { partyA := 0x10aeaefac4982f7b7bb22be001e1790186160c80
      partyB := 0x8b75237f7104f0d501eb72912cf0135cef0b5a5f
      oracle := 0x7dc105fc8f3d93779f062f09551b0af3e81ec30b
      pairTag := 0xa9226449042e36bf6865099eec57482aa55e3ad026c315a0e4a692b776c318ca
      quantity := 10000000000
      imBpsA := 781
      imBpsB := 781
      mmPct := 5000
      expiry := 1800000000
      nonce := 1
      cureWindow := 0
      payoutPrefA := 0
      payoutPrefB := 0
      data := beBytes 32 (1000000 : Bytes32)
      instrument := 1
      side := 1 }
  sigA :=
    signatureBytes 0xa42c42a6a557b17c92315e58a9ce24a6c33e5624f97fd2f4de86b7af760e4f69
      0x7043e1f91e631d9bc605be478400ac9a3e0582a951c0ff566fc38a7b7fee7e29 27
  sigB :=
    signatureBytes 0x911a7469890f743625339540f004e1083b678bfbb33beefaec522e67dfed7998
      0x2182e4b75924d80286665693e48d55acafcb801fde15ddd7e671a306d3420494 27

/-- Its id, and the domain separator of its core. -/
def recordedId : Bytes32 :=
  0x09abd422b7ac724904e4df2aedb1518c52bc5e46687d20f1f0810cac66e6bfc5

@[inherit_doc recordedId]
def recordedDomain : Bytes32 :=
  0x133286b0a11757c5e0d78ed1bd5d82a3f67f1730fac629f8bf579cdd3e2f6385

/-- The same terms under signatures of zero bytes. -/
def decoyCall : OpenLockCall :=
  { recordedCall with
    sigA := zeros 65
    sigB := zeros 65 }

/-- A wrapped call that carries the decoy and then the recorded open. -/
def decoyedCalldata : Bytes :=
  [0x12, 0x34, 0x56, 0x78] ++ openLockCalldata decoyCall ++ openLockCalldata recordedCall

/-- A decoder that knows the given calls. -/
def decoderOf (calls : List OpenLockCall) : OpenLockAbi where
  abiDecode calldata := calls.find? fun call => (openLockCalldata call).isPrefixOf calldata
  selector := by
    intro calldata call h
    have hfound : (openLockCalldata call).isPrefixOf calldata = true :=
      List.find?_some (p := fun call => (openLockCalldata call).isPrefixOf calldata) h
    apply List.IsPrefix.trans _ (List.isPrefixOf_iff_prefix.mp hfound)
    simp [openLockCalldata]

/-- The recorded signatures of the two parties. -/
@[reducible]
def recordedPrimitives : Primitives :=
  tablePrimitives
    [{ digest := 0x65bc0b2ca9248f9a6bb40a0d94069eacc60b1b9a8bc08948315d82ad1b901ca1
       sig := recordedCall.sigA
       pubkey :=
         pubkeyBytes 0xdc2a172a304d4b14c4b707491533a73565dc6520e73280a6f31d441925a7790f
           0x1ebc8dacd48a99397ab56c13a65e1103bc5ca2af1c6aba7b70b6f56939080be2 },
     { digest := 0x65bc0b2ca9248f9a6bb40a0d94069eacc60b1b9a8bc08948315d82ad1b901ca1
       sig := recordedCall.sigB
       pubkey :=
         pubkeyBytes 0x08b05c8153d737bd4878da6c0e45850822bc60fb88e7a71253d7e9ae2f2ac3af
           0xf6950e7fd326d28836848ed4ef6bd23446ad8519b16d2e32305a49be673c2049 }]

attribute [local instance] recordedPrimitives

/-- The search takes the decoy's signatures, which recover no signer. -/
theorem openSigs_returns_decoy :
    openSigs (decoderOf [decoyCall, recordedCall]) 0 decoyedCalldata recordedId =
        .ok (zeros 65, zeros 65) ∧
      ¬SigsRecovered (decoderOf [decoyCall, recordedCall]) 0 decoyedCalldata recordedId
        recordedDomain := by
  have hrun : openSigs (decoderOf [decoyCall, recordedCall]) 0 decoyedCalldata recordedId =
        .ok (zeros 65, zeros 65) ∧
      termsFromOpenCalldata (decoderOf [decoyCall, recordedCall]) (decoyedCalldata.drop 936) =
        some (recordedCall.t, recordedCall.sigA, recordedCall.sigB) ∧
      termsRfqId recordedCall.t = recordedId ∧
      recoverEthSigner (eip712Digest recordedDomain recordedId) recordedCall.sigA =
        .ok recordedCall.t.partyA ∧
      recoverEthSigner (eip712Digest recordedDomain recordedId) recordedCall.sigB =
        .ok recordedCall.t.partyB ∧
      recoverEthSigner (eip712Digest recordedDomain recordedId) (zeros 65) ≠
        .ok recordedCall.t.partyA := by
    decide +kernel
  obtain ⟨hdecoy, hdecode, hid, hsigA, hsigB, hzero⟩ := hrun
  refine ⟨hdecoy, ?_⟩
  intro h
  rcases h.authorised 936 recordedCall.t (recordedCall.sigA, recordedCall.sigB) ⟨hdecode, hid⟩
    ⟨hsigA, hsigB⟩ with ⟨found, hfound, hpass⟩
  rw [hdecoy] at hfound
  cases hfound
  exact hzero hpass.1

end Recorded

end StateKeeper
