import Mathlib

/-!
# Foundation - Fixed-width words and byte strings

Machine integers are bit vectors of their own width, read unsigned or signed by
the operation at hand; a byte array of fixed length is the bit vector its
big-endian reading gives, so that the lexicographic order of the bytes is the
unsigned order of the vector.

Main results:

- Theorem {lit}`beBytes_injective`: the big-endian bytes of a word determine it.
- Theorem {lit}`append_inj_of_length`: fields of fixed length can be read back
  from their concatenation.
- Theorems {lit}`satMul_toNat`, {lit}`satAdd_toNat`: the saturating operations
  on their values.
-/

namespace Words

abbrev U8 := BitVec 8
abbrev U16 := BitVec 16
abbrev U32 := BitVec 32
abbrev U64 := BitVec 64
abbrev U128 := BitVec 128
abbrev I8 := BitVec 8
abbrev I32 := BitVec 32
abbrev I64 := BitVec 64
abbrev I128 := BitVec 128

/-- A byte string. -/
abbrev Bytes := List U8

/-- {lit}`[u8; 20]`. -/
abbrev Bytes20 := BitVec 160

/-- {lit}`[u8; 32]`. -/
abbrev Bytes32 := BitVec 256

/-- The unsigned order; on a byte array it is the lexicographic order. -/
instance instLinearOrderBitVec {n : Nat} : LinearOrder (BitVec n) where
  le_refl := BitVec.le_refl
  le_trans _ _ _ := BitVec.le_trans
  lt_iff_le_not_ge a b := by
    simp only [BitVec.le_def, BitVec.lt_def]
    omega
  le_antisymm _ _ := BitVec.le_antisymm
  le_total := BitVec.le_total
  toDecidableLE := inferInstance
  toDecidableEq := inferInstance
  toDecidableLT := inferInstance
  compare := compare
  compare_eq_compareOfLessAndEq _ _ := rfl

/-- The key order of the maps over 32-byte words. -/
instance instTransOrdBytes32 : Std.TransOrd Bytes32 :=
  inferInstance

instance instLawfulBEqBytes32 : LawfulBEq Bytes32 :=
  inferInstance

/-! ## Big-endian bytes -/

/-- The low {lit}`n` bytes of a word, most significant first. -/
def beBytes (n : Nat) {w : Nat} (x : BitVec w) : Bytes :=
  (List.range n).map fun i => x.extractLsb' (8 * (n - 1 - i)) 8

/-- A run of zero bytes. -/
def zeros (n : Nat) : Bytes :=
  List.replicate n 0

/-- A run of {lit}`0xFF` bytes, the high bytes of a sign-extended negative word. -/
def ones (n : Nat) : Bytes :=
  List.replicate n 0xFF

/-- The high bytes of a sign-extended word: all ones exactly when it is negative. -/
def signFill {w : Nat} (n : Nat) (x : BitVec w) : Bytes :=
  if x.toInt < 0 then ones n else zeros n

/-- The word whose big-endian bytes these are. -/
def ofBeBytes (w : Nat) (bs : Bytes) : BitVec w :=
  BitVec.ofNat w (bs.foldl (fun acc b => acc * 256 + b.toNat) 0)

@[simp]
theorem beBytes_length (n : Nat) {w : Nat} (x : BitVec w) : (beBytes n x).length = n := by
  simp [beBytes]

@[simp]
theorem zeros_length (n : Nat) : (zeros n).length = n := by
  simp [zeros]

@[simp]
theorem ones_length (n : Nat) : (ones n).length = n := by
  simp [ones]

@[simp]
theorem signFill_length {w : Nat} (n : Nat) (x : BitVec w) : (signFill n x).length = n := by
  unfold signFill
  split <;> simp

/-- Bit {lit}`k` of the {lit}`j`th byte from the end is bit {lit}`8 j + k` of the word. -/
theorem beBytes_bit {n w : Nat} (x : BitVec w) {j k : Nat} (hj : j < n) (hk : k < 8) :
    ((beBytes n x)[n - 1 - j]?.getD 0).getLsbD k = x.getLsbD (8 * j + k) := by
  have hpos : n - 1 - j < n := by omega
  have hback : n - 1 - (n - 1 - j) = j := by omega
  simp [beBytes, List.getElem?_range hpos, hback, hk]

/-- The bytes of a word determine it. -/
theorem beBytes_injective {n w : Nat} (hw : w ≤ 8 * n) {x y : BitVec w}
    (h : beBytes n x = beBytes n y) : x = y := by
  refine BitVec.eq_of_getLsbD_eq fun i hi => ?_
  have hbyte : i / 8 < n := by omega
  have hbit : i % 8 < 8 := Nat.mod_lt i (by omega)
  have hx := beBytes_bit x hbyte hbit
  rw [h, beBytes_bit y hbyte hbit, Nat.div_add_mod] at hx
  exact hx.symm

/-- Two concatenations with first parts of one length agree part by part. -/
theorem append_inj_of_length {a b c d : Bytes} (hlen : a.length = c.length)
    (h : a ++ b = c ++ d) : a = c ∧ b = d :=
  List.append_inj h hlen

/-! ## Saturating arithmetic -/

/-- {lit}`u128::MAX`. -/
def u128Max : Nat := 2 ^ 128 - 1

/-- The value clamped into the range of {lit}`u128`. -/
def clampU128 (n : Nat) : U128 :=
  BitVec.ofNat 128 (min n u128Max)

/-- {lit}`u128::saturating_mul`. -/
def satMul (a b : U128) : U128 :=
  clampU128 (a.toNat * b.toNat)

/-- {lit}`u128::saturating_add`. -/
def satAdd (a b : U128) : U128 :=
  clampU128 (a.toNat + b.toNat)

/-- {lit}`i128::MIN` and {lit}`i128::MAX`. -/
def i128Min : Int := -(2 ^ 127)

@[inherit_doc i128Min]
def i128Max : Int := 2 ^ 127 - 1

/-- The value clamped into the range of {lit}`i128`. -/
def clampI128 (i : Int) : I128 :=
  BitVec.ofInt 128 (max i128Min (min i i128Max))

/-- {lit}`i128::saturating_add`. -/
def satAddI (a b : I128) : I128 :=
  clampI128 (a.toInt + b.toInt)

/-- {lit}`i128::saturating_neg`. -/
def satNegI (a : I128) : I128 :=
  clampI128 (-a.toInt)

/-- {lit}`i128::unsigned_abs`; the magnitude of {lit}`i128::MIN` is representable. -/
def unsignedAbs (a : I128) : U128 :=
  BitVec.ofNat 128 a.toInt.natAbs

/-- {lit}`u128::abs_diff`. -/
def absDiff (a b : U128) : U128 :=
  if a < b then b - a else a - b

theorem clampU128_toNat (n : Nat) : (clampU128 n).toNat = min n u128Max := by
  have hle : min n u128Max ≤ u128Max := min_le_right _ _
  have hmax : u128Max < 2 ^ 128 := by decide
  rw [clampU128, BitVec.toNat_ofNat, Nat.mod_eq_of_lt (by omega)]

theorem satMul_toNat (a b : U128) : (satMul a b).toNat = min (a.toNat * b.toNat) u128Max :=
  clampU128_toNat _

theorem satAdd_toNat (a b : U128) : (satAdd a b).toNat = min (a.toNat + b.toNat) u128Max :=
  clampU128_toNat _

/-! ## Text -/

/-- {lit}`0x` and the lower-case hex digits of a word. -/
def hexOf {w : Nat} (x : BitVec w) : String :=
  "0x" ++ x.toHex

end Words
