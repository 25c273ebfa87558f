import StateKeeper.Foundation.Keccak
import StateKeeper.Engine.Scenario
import StateKeeper.Engine.OpenLock

/-!
# Engine - A concrete instance

Keccak-256 itself as the hash of the engine, for runs on concrete inputs, with
the smallest scenario table and an open of two parties.  Either the parties consent
out of band and no signature is recovered, or they sign and the recorded signatures
recover their keys.
-/

namespace StateKeeper

open Words Fallible

/-- Keccak-256, and no recoverable signature. -/
@[reducible]
def concretePrimitives : Primitives where
  keccak256 := Keccak.positiveKeccak256
  signatureFromSlice _ := false
  signatureLowS _ := false
  recoverFromPrehash _ _ _ := none

/-! ## Recorded signatures -/

/-- A signature of {lit}`secp256k1`: the digest it signs, its bytes and the public key that
signs. -/
structure RecordedSignature where
  digest : Bytes32
  sig : Bytes
  pubkey : Bytes

/-- The order of the curve {lit}`secp256k1`. -/
def curveOrder : Nat :=
  0xfffffffffffffffffffffffffffffffebaaedce6af48a03bbfd25e8cd0364141

/-- Keccak-256, the checks of a signature's scalars, and the recovery of the recorded
signatures. -/
@[reducible]
def tablePrimitives (recorded : List RecordedSignature) : Primitives where
  keccak256 := Keccak.positiveKeccak256
  signatureFromSlice rS :=
    let r := (ofBeBytes 256 (rS.take 32)).toNat
    let s := (ofBeBytes 256 (rS.drop 32)).toNat
    decide (0 < r ∧ r < curveOrder ∧ 0 < s ∧ s < curveOrder)
  signatureLowS rS := decide ((ofBeBytes 256 (rS.drop 32)).toNat ≤ curveOrder / 2)
  recoverFromPrehash digest rS rid :=
    (recorded.find? fun e => e.digest = digest ∧ e.sig = rS ++ [rid + 27]).map fun e =>
      4 :: e.pubkey

/-- A signer recovered from the table is recorded there, for its digest and its scalars. -/
theorem recorded_of_recoverEthSigner {recorded : List RecordedSignature} {digest : Bytes32}
    {sig : Bytes} {party : Address}
    (h : @recoverEthSigner (tablePrimitives recorded) digest sig = .ok party) :
    ∃ e ∈ recorded, e.digest = digest ∧ e.sig.take 64 = sig.take 64 := by
  unfold recoverEthSigner at h
  obtain ⟨hlength, h⟩ := ensure_bind_eq_ok.mp h
  dsimp only at h
  obtain ⟨_, h⟩ := ensure_bind_eq_ok.mp h
  obtain ⟨_, h⟩ := ensure_bind_eq_ok.mp h
  obtain ⟨_, h⟩ := ensure_bind_eq_ok.mp h
  obtain ⟨vk, hvk, _⟩ := bind_eq_ok.mp h
  obtain ⟨e, hfound, _⟩ := Option.map_eq_some_iff.mp (expect_eq_ok.mp hvk)
  have hmatch := List.find?_some hfound
  rw [decide_eq_true_eq] at hmatch
  obtain ⟨hdigest, hsig⟩ := hmatch
  refine ⟨e, List.mem_of_find?_eq_some hfound, hdigest, ?_⟩
  have htake : (sig.take 64).length = 64 := by
    rw [List.length_take, hlength]
    rfl
  rw [hsig, List.take_append_of_le_length htake.ge, List.take_of_length_le htake.le]

def signatureBytes (r s : Bytes32) (v : U8) : Bytes :=
  beBytes 32 r ++ beBytes 32 s ++ [v]

def pubkeyBytes (x y : Bytes32) : Bytes :=
  beBytes 32 x ++ beBytes 32 y

/-- The party of the smallest private key, with its public key. -/
def maker : Address := 0x7e5f4552091a69125d5dfcb7b8c2659029395bdf

@[inherit_doc maker]
def makerKey : Bytes :=
  pubkeyBytes 0x79be667ef9dcbbac55a06295ce870b07029bfcdb2dce28d959f2815b16f81798
    0x483ada7726a3c4655da4fbfc0e1108a8fd17b448a68554199c47d08ffb10d4b8

/-- The party of the next private key, with its public key. -/
def taker : Address := 0x2b5ad5c4795c026514f8317c7a215e218dccd6cf

@[inherit_doc taker]
def takerKey : Bytes :=
  pubkeyBytes 0xc6047f9441ed7d6d3045406e95c07cd85c778e4b8cef3ca7abac09b95c709ee5
    0x1ae168fea63dc339a3c58419466ceaeef7f632653266d0e1236431a950cfe52a

/-- The party of the private key after that, with its public key. -/
def successor : Address := 0x6813eb9362372eef6200f3b1dbc3f819671cba69

@[inherit_doc successor]
def successorKey : Bytes :=
  pubkeyBytes 0xf9308a019258c31049344f85f89d5229b531c845836f99b08601f113bce036f9
    0x388f7b0f632de8140fe337e62a37f3566500a99934c2231b6cb9fd7584b8e672

/-- The maker takes over the leg of id 5. -/
def makerTakeover : RecordedSignature where
  digest := 0x6b8a5cfc638266d54482c92eb78e6f34f9ef2a28fa03b7fb4f3e6b28c436a76b
  sig :=
    signatureBytes 0x5abe20fc45c4e8129daa9c6bbef068997b84212cd485fc5fd208d2b8b0691074
      0x603ff3a8ea63b3641d87d9663e1f62d938469ecc5d21574ec7f761bfb333e0a8 27
  pubkey := makerKey

/-- The maker tears up the trade of id 5. -/
def makerCloseout : RecordedSignature where
  digest := 0xb0b107a839da8987b8121b364eff6ce3666933d24a06c43148d26a7c6d913674
  sig :=
    signatureBytes 0xe394ff5f9f707c74ccc4f080fa1490099421c216b700f06f4997471686c6f468
      0x1067e7549097dee1913b0431bbfb5d6eb052be1765ef176fb95254945cc3587e 28
  pubkey := makerKey

/-- And so does the taker. -/
def takerCloseout : RecordedSignature where
  digest := 0xb0b107a839da8987b8121b364eff6ce3666933d24a06c43148d26a7c6d913674
  sig :=
    signatureBytes 0xa7b6bef435cc1ea5c8e9d85e4f97e1a229036affdad83b69952ffe075d5cc065
      0x33c7466c64668dcc87bcbc967742c9d67155767b303ee6a62de4f4051ac790e2 28
  pubkey := takerKey

/-- The maker opens the unit trade that expires at 200. -/
def makerOpen : RecordedSignature where
  digest := 0x6aa23260729005126f9864dbbf3970cc80aba2e4bf7da89e09e3084a37345f94
  sig :=
    signatureBytes 0x281929634998a88cfb83452e5b5b2ed93a6bd9fc2d9252a9a269865f6c700923
      0x41b8d54eb39bda5292fa5599c16e56ffe8e4c7df4761d00bc521c75ace448e3b 27
  pubkey := makerKey

/-- And so does the taker. -/
def takerOpen : RecordedSignature where
  digest := 0x6aa23260729005126f9864dbbf3970cc80aba2e4bf7da89e09e3084a37345f94
  sig :=
    signatureBytes 0x2857c63498c9a5eb4ca61a0af9c02d76c0f75c0a78845e80a545b568a9ac9061
      0x3c0a9d80b5817bc4c9708a6348c10c8ce40e1c4a3dbbab5c740b8f326bbb7e54 28
  pubkey := takerKey

/-- The successor takes over the maker's leg of that trade. -/
def successorTakeover : RecordedSignature where
  digest := 0xeef7b87af9538a4f5ff17cd611a16ba07a6f4d3dbc396c334095854b86ab4712
  sig :=
    signatureBytes 0x81d27f3df3a464d95867ad26e90903c7932a84e0fd4ab4094670a2e9f9712541
      0x1eec82667d645eb61352632c73ce7aab5c3b83c7769cb27616e0b62e1a699383 27
  pubkey := successorKey

/-- The recorded signatures of the three parties. -/
def signedByParties : List RecordedSignature :=
  [makerTakeover, makerCloseout, takerCloseout, makerOpen, takerOpen, successorTakeover]

@[reducible, inherit_doc signedByParties]
def signingPrimitives : Primitives :=
  tablePrimitives signedByParties

/-! ## Terms and tables -/

/-- One scenario without a listed market. -/
def flatTable : ScenarioTable where
  version := 1
  k := 1
  m := 1
  marketKeys := []
  rows := [[]]

/-- The terms of a one-unit trade between parties 10 and 11 on oracle 3, 10% margin on
each seat, entry rate one in the first data word, no signature. -/
def unitTerms (expiry nonce : U64) : NewPosition where
  termsId := 0
  partyA := 10
  partyB := 11
  oracle := 3
  quantity := 1000000
  entryRate := 1000000
  sideA := 1
  expiry := expiry
  imBpsA := 1000
  imBpsB := 1000
  instrument := 1
  pairTag := 7
  mmPct := 50
  nonce := nonce
  cureWindow := 0
  payoutPrefA := 0
  payoutPrefB := 0
  data := beBytes 32 (1000000 : Bytes32)
  sigA := []
  sigB := []
  domainSeparator := 92

/-- Terms under their own id. -/
def NewPosition.bound [Primitives] (nb : NewPosition) : NewPosition :=
  { nb with termsId := nb.recomputedId }

end StateKeeper
