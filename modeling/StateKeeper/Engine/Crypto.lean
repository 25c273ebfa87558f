import StateKeeper.Foundation.Fallible
import StateKeeper.Foundation.SortedKeys
import StateKeeper.Engine.Types

/-!
# Engine - Keccak encoders and signer recovery

The byte-exact leaf and key encoders of {lit}`im-crypto`, and the signer
recovery of {lit}`signed_price`.  Keccak-256 and the curve arithmetic come from
third-party crates and are parameters of everything built on them.
-/

namespace StateKeeper

open Words Fallible SortedKeys

/-- What the code takes from third-party crates: keccak-256 over a byte string,
and the parts of {lit}`k256` that recover a public key from a signature. -/
class Primitives where
  /-- {lit}`Keccak::v256` over the concatenated input. -/
  keccak256 : Bytes → Bytes32
  /-- {lit}`Signature::from_slice` accepts these 64 bytes. -/
  signatureFromSlice : Bytes → Bool
  /-- {lit}`normalize_s` is {lit}`None`: the signature is low-S. -/
  signatureLowS : Bytes → Bool
  /-- {lit}`VerifyingKey::recover_from_prehash`, as uncompressed SEC1 bytes. -/
  recoverFromPrehash : Bytes32 → Bytes → U8 → Option Bytes

variable [Primitives]

/-- {lit}`keccak256` over the concatenation of {lit}`parts`. -/
def keccak (parts : List Bytes) : Bytes32 :=
  Primitives.keccak256 parts.flatten

def keccakPair (a b : Bytes32) : Bytes32 :=
  keccak [beBytes 32 a, beBytes 32 b]

/-- smt2 leaf node {lit}`keccak256(0x00 ‖ key ‖ value)`. -/
def smt2Leaf (key value : Bytes32) : Bytes32 :=
  keccak [[0x00], beBytes 32 key, beBytes 32 value]

/-- smt2 internal node {lit}`keccak256(0x01 ‖ l ‖ r)`; directional. -/
def smt2Node (l r : Bytes32) : Bytes32 :=
  keccak [[0x01], beBytes 32 l, beBytes 32 r]

/-- Single-address account key {lit}`keccak256(abi.encode(account_owner))`. -/
def accountIdSingle (accountOwner : Address) : Bytes32 :=
  keccak [zeros 12 ++ beBytes 20 accountOwner]

/-- The 96-byte preimage of {lit}`accountLeaf`: the signed equity is sign-extended. -/
def accountLeafBytes (aid : Bytes32) (vmEquityUsd : I128) (positionsRoot : Bytes32) : Bytes :=
  beBytes 32 aid ++ (signFill 16 vmEquityUsd ++ beBytes 16 vmEquityUsd) ++
    beBytes 32 positionsRoot

/-- Double-hashed account leaf over aid, equity and positions root. -/
def accountLeaf (aid : Bytes32) (vmEquityUsd : I128) (positionsRoot : Bytes32) : Bytes32 :=
  keccak [beBytes 32 (keccak [accountLeafBytes aid vmEquityUsd positionsRoot])]

/-- The UTF-8 bytes of a string. -/
def asciiBytes (s : String) : Bytes :=
  s.toByteArray.data.toList.map UInt8.toBitVec

/-- Membership marker stamped at every present accounts-SMT key. -/
def registryLeaf : Bytes32 :=
  keccak [asciiBytes "CRX/accountsRoot/v2"]

/-- The 288-byte preimage of {lit}`positionLeaf`, nine words. -/
def positionLeafBytes (b : PositionRecord) : Bytes :=
  beBytes 32 b.termsId ++ (zeros 12 ++ beBytes 20 b.counterparty) ++
    (zeros 12 ++ beBytes 20 b.oracle) ++ (zeros 16 ++ beBytes 16 b.notional) ++
    (zeros 16 ++ beBytes 16 b.entryRate) ++ (signFill 31 b.side ++ [b.side]) ++
    (zeros 24 ++ beBytes 8 b.expiry) ++ (zeros 16 ++ beBytes 16 b.pushedIm) ++
    beBytes 32 b.marketKey

/-- Double-hashed position leaf. -/
def positionLeaf (b : PositionRecord) : Bytes32 :=
  keccak [beBytes 32 (keccak [positionLeafBytes b])]

/-- Parent of two nodes, smaller hash first. -/
def ozHashPair (left right : Bytes32) : Bytes32 :=
  if left ≤ right then keccakPair left right else keccakPair right left

/-- One level of the OZ-shaped tree: pair neighbours, promote an odd last node. -/
def merkleLevel : List Bytes32 → List Bytes32
  | a :: b :: rest => ozHashPair a b :: merkleLevel rest
  | [a] => [a]
  | [] => []

theorem merkleLevel_length_lt (a b : Bytes32) (rest : List Bytes32) :
    (merkleLevel (a :: b :: rest)).length < (a :: b :: rest).length := by
  have hle : ∀ xs : List Bytes32, (merkleLevel xs).length ≤ xs.length := by
    intro xs
    induction xs using merkleLevel.induct with
    | case1 a b rest ih => simp [merkleLevel]; omega
    | case2 a => simp [merkleLevel]
    | case3 => simp [merkleLevel]
  have hrest := hle rest
  simp [merkleLevel]
  omega

/-- Rebuild levels until one node is left.  {lit}`fuel` bounds the number of
levels; a list of {lit}`n` leaves needs fewer than {lit}`n`. -/
def merkleRootLevels : Nat → List Bytes32 → Bytes32
  | _, [] => 0
  | _, [a] => a
  | 0, a :: _ :: _ => a
  | fuel + 1, leaves => merkleRootLevels fuel (merkleLevel leaves)

/-- Fuel past the number of leaves changes nothing. -/
theorem merkleRootLevels_eq_of_le {leaves : List Bytes32} {fuel fuel' : Nat}
    (h : leaves.length ≤ fuel) (h' : leaves.length ≤ fuel') :
    merkleRootLevels fuel leaves = merkleRootLevels fuel' leaves := by
  induction fuel generalizing leaves fuel' with
  | zero =>
      rw [List.length_eq_zero_iff.mp (Nat.le_zero.mp h)]
      cases fuel' <;> rfl
  | succ fuel ih =>
      cases fuel' with
      | zero =>
          rw [List.length_eq_zero_iff.mp (Nat.le_zero.mp h')]
          rfl
      | succ fuel' =>
          rcases leaves with _ | ⟨a, _ | ⟨b, rest⟩⟩
          · rfl
          · rfl
          · have hlevel := merkleLevel_length_lt a b rest
            exact ih (Nat.le_of_lt_succ (hlevel.trans_le h)) (Nat.le_of_lt_succ (hlevel.trans_le h'))

/-- OZ-compatible Merkle root over already double-hashed leaves. -/
def merkleRoot (leaves : List Bytes32) : Bytes32 :=
  merkleRootLevels leaves.length leaves

/-- The fuel is enough: the root of two leaves or more is that of the level above them. -/
theorem merkleRoot_cons_cons (a b : Bytes32) (rest : List Bytes32) :
    merkleRoot (a :: b :: rest) = merkleRoot (merkleLevel (a :: b :: rest)) := by
  have hlevel := merkleLevel_length_lt a b rest
  change merkleRootLevels (rest.length + 1) (merkleLevel (a :: b :: rest)) = _
  exact merkleRootLevels_eq_of_le (Nat.le_of_lt_succ hlevel) le_rfl

/-- OZ-compatible root over the position leaves, sorted by {lit}`terms_id`; the
empty set roots to zero. -/
def positionsRoot (positions : List PositionRecord) : Bytes32 :=
  if positions.isEmpty then 0
  else merkleRoot ((sortBy PositionRecord.termsId positions).map positionLeaf)

/-! ## Signer recovery -/

/-- The address of an uncompressed SEC1 public key. -/
def pubkeyToEthAddr (pubkey : Bytes) : Address :=
  (keccak [pubkey.drop 1]).setWidth 160

/-- Recover the address that signed {lit}`digest` with a 65-byte signature. -/
def recoverEthSigner (digest : Bytes32) (sig : Bytes) : Run Address := do
  ensure (sig.length = 65) "recover_eth_signer: signature must be 65 bytes (r‖s‖v)"
  let rS := sig.take 64
  let v := sig.getD 64 0
  let ridByte := if v ≥ 27 then v - 27 else v
  ensure (Primitives.signatureFromSlice rS) "recover_eth_signer: invalid r‖s bytes"
  ensure (Primitives.signatureLowS rS)
    "recover_eth_signer: signature s must be low-S (high-S rejected)"
  ensure (ridByte ≤ 3) "recover_eth_signer: recovery id must be 0 or 1"
  let vk ← expect (Primitives.recoverFromPrehash digest rS ridByte)
    "recover_eth_signer: ECDSA recovery failed"
  pure (pubkeyToEthAddr vk)

end StateKeeper
