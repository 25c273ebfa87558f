import StateKeeper.Engine.WideMath

/-!
# Engine - What the 256-bit operations compute

The limb operations on their values: the product never overflows, the sum does
when the values do, the quotients are the exact floor and ceiling.  The restoring
division is read from the top bit down; after the bits above {lit}`k` its
quotient is that of the value's prefix, and its remainder too.

Main results:

- Theorem {lit}`U256.mul_spec`: the product.
- Theorem {lit}`U256.divU128_spec`: the floor.
- Theorem {lit}`U256.divU128Ceil_spec`: the ceiling.
-/

namespace StateKeeper

open Words Fallible

namespace U256

/-- The value of a 256-bit integer. -/
def toNat (x : U256) : Nat :=
  x.hi.toNat * 2 ^ 128 + x.lo.toNat

@[simp]
theorem toNat_ZERO : ZERO.toNat = 0 := rfl

@[simp]
theorem toNat_mk_zero (lo : U128) : (U256.mk 0 lo).toNat = lo.toNat := by
  simp [toNat]

theorem toNat_mk (hi lo : U128) : (U256.mk hi lo).toNat = hi.toNat * 2 ^ 128 + lo.toNat := rfl

theorem toNat_lt (x : U256) : x.toNat < 2 ^ 256 := by
  have hhi := x.hi.isLt
  have hlo := x.lo.isLt
  unfold toNat
  omega

theorem toNat_inj {x y : U256} (h : x.toNat = y.toNat) : x = y := by
  obtain ⟨xhi, xlo⟩ := x
  obtain ⟨yhi, ylo⟩ := y
  have hxlo := xlo.isLt
  have hylo := ylo.isLt
  simp only [toNat] at h
  simp only [mk.injEq]
  constructor
  · apply BitVec.eq_of_toNat_eq
    omega
  · apply BitVec.eq_of_toNat_eq
    omega

/-- A value below the top limb has an empty one. -/
theorem hi_eq_zero {x : U256} (h : x.toNat < 2 ^ 128) : x.hi = 0 := by
  unfold toNat at h
  apply BitVec.eq_of_toNat_eq
  change x.hi.toNat = 0
  omega

theorem lo_toNat_of_hi {x : U256} (h : x.hi = 0) : x.lo.toNat = x.toNat := by
  rw [toNat, h]
  simp

/-! ## Sums and differences -/

theorem checkedAddU128_of_lt {a b : U128} (h : a.toNat + b.toNat < 2 ^ 128) :
    checkedAddU128 a b = some (a + b) := if_pos h

theorem add_toNat_of_lt {a b : U128} (h : a.toNat + b.toNat < 2 ^ 128) :
    (a + b).toNat = a.toNat + b.toNat := by
  rw [BitVec.toNat_add, Nat.mod_eq_of_lt h]

theorem addCarry_toNat (a b : U128) :
    (addCarry a b).toNat = (a.toNat + b.toNat) / 2 ^ 128 := by
  have ha := a.isLt
  have hb := b.isLt
  unfold addCarry
  by_cases h : a.toNat + b.toNat < 2 ^ 128
  · rw [if_pos h]
    change 0 = _
    omega
  · rw [if_neg h]
    change 1 = _
    omega

/-- A sum that fits is computed. -/
theorem add_spec {x o : U256} (h : x.toNat + o.toNat < 2 ^ 256) :
    ∃ r, x.add o = .ok r ∧ r.toNat = x.toNat + o.toNat := by
  have hxlo := x.lo.isLt
  have holo := o.lo.isLt
  have hcarry := addCarry_toNat x.lo o.lo
  unfold toNat at h
  have hhi : x.hi.toNat + o.hi.toNat < 2 ^ 128 := by omega
  have hsum := add_toNat_of_lt hhi
  have hfull : (x.hi + o.hi).toNat + (addCarry x.lo o.lo).toNat < 2 ^ 128 := by omega
  refine ⟨⟨x.hi + o.hi + addCarry x.lo o.lo, x.lo + o.lo⟩, ?_, ?_⟩
  · rw [add, checkedAddU128_of_lt hhi, expect_some, ok_bind, checkedAddU128_of_lt hfull,
      expect_some, ok_bind]
    rfl
  · have hlow : (x.lo + o.lo).toNat = (x.lo.toNat + o.lo.toNat) % 2 ^ 128 := BitVec.toNat_add _ _
    simp only [toNat]
    rw [add_toNat_of_lt hfull, hsum, hlow]
    omega

theorem le_iff {x o : U256} : x.le o = true ↔ x.toNat ≤ o.toNat := by
  have hxlo := x.lo.isLt
  have holo := o.lo.isLt
  simp only [le, Bool.or_eq_true, Bool.and_eq_true, decide_eq_true_eq, beq_iff_eq, toNat,
    BitVec.lt_def, BitVec.le_def, ← BitVec.toNat_inj]
  omega

/-- A difference that does not go below zero is computed. -/
theorem sub_spec {x o : U256} (h : o.toNat ≤ x.toNat) :
    ∃ r, x.sub o = .ok r ∧ r.toNat = x.toNat - o.toNat := by
  have hxlo := x.lo.isLt
  have holo := o.lo.isLt
  have hxhi := x.hi.isLt
  have hohi := o.hi.isLt
  have hone : (1 : U128).toNat = 1 := rfl
  have hzero : (0 : U128).toNat = 0 := rfl
  refine ⟨⟨x.hi - o.hi - (if x.lo < o.lo then 1 else 0), x.lo - o.lo⟩, ?_, ?_⟩
  · rw [sub, ensure_of (le_iff.mpr h), ok_bind]
    rfl
  · unfold toNat at h ⊢
    by_cases hborrow : x.lo < o.lo
    · have hlt : x.lo.toNat < o.lo.toNat := hborrow
      simp only [if_pos hborrow, BitVec.toNat_sub, hone]
      omega
    · have hle : o.lo.toNat ≤ x.lo.toNat := Nat.not_lt.mp hborrow
      simp only [if_neg hborrow, BitVec.toNat_sub, hzero]
      omega

/-! ## Products -/

theorem lowMask_and (a : U128) : (a &&& lowMask).toNat = a.toNat % 2 ^ 64 := by
  have hmask : lowMask.toNat = 2 ^ 64 - 1 := rfl
  rw [BitVec.toNat_and, hmask, Nat.and_two_pow_sub_one_eq_mod]

theorem ushiftRight_toNat (a : U128) : (a >>> 64).toNat = a.toNat / 2 ^ 64 := by
  rw [BitVec.toNat_ushiftRight, Nat.shiftRight_eq_div_pow]

/-- Two 64-bit halves multiply within a word. -/
theorem mul_halves {a b : U128} (ha : a.toNat < 2 ^ 64) (hb : b.toNat < 2 ^ 64) :
    (a * b).toNat = a.toNat * b.toNat := by
  have hle : a.toNat * b.toNat ≤ (2 ^ 64 - 1) * (2 ^ 64 - 1) :=
    Nat.mul_le_mul (by omega) (by omega)
  rw [BitVec.toNat_mul, Nat.mod_eq_of_lt (by omega)]

/-- A product from the products of the halves. -/
theorem mul_split (a b : Nat) :
    a * b = (a / 2 ^ 64 * (b / 2 ^ 64)) * 2 ^ 128 +
      (a % 2 ^ 64 * (b / 2 ^ 64) + a / 2 ^ 64 * (b % 2 ^ 64)) * 2 ^ 64 +
      a % 2 ^ 64 * (b % 2 ^ 64) := by
  conv_lhs => rw [← Nat.div_add_mod a (2 ^ 64), ← Nat.div_add_mod b (2 ^ 64)]
  ring

/-- Four products of halves recombine without an overflow. -/
theorem recombine (p00 p01 p10 p11 : U128) {a b : Nat} (ha : a < 2 ^ 128) (hb : b < 2 ^ 128)
    (hsplit : a * b = p11.toNat * 2 ^ 128 + (p01.toNat + p10.toNat) * 2 ^ 64 + p00.toNat) :
    ∃ r, (do
      let mid := (p01 &&& lowMask) + (p10 &&& lowMask) + (p00 >>> 64)
      let lo := (p00 &&& lowMask) + ((mid &&& lowMask) <<< 64)
      let hi ← checkedAddU128 p11 ((p01 >>> 64) + (p10 >>> 64) + (mid >>> 64))
      pure { hi := hi, lo := lo } : Option U256) = some r ∧ r.toNat = a * b := by
  have hle : a * b ≤ (2 ^ 128 - 1) * (2 ^ 128 - 1) := Nat.mul_le_mul (by omega) (by omega)
  have h00 := p00.isLt
  have h01 := p01.isLt
  have h10 := p10.isLt
  dsimp only
  have hmid : ((p01 &&& lowMask) + (p10 &&& lowMask) + (p00 >>> 64)).toNat =
      p01.toNat % 2 ^ 64 + p10.toNat % 2 ^ 64 + p00.toNat / 2 ^ 64 := by
    rw [BitVec.toNat_add, BitVec.toNat_add, lowMask_and, lowMask_and, ushiftRight_toNat]
    omega
  generalize (p01 &&& lowMask) + (p10 &&& lowMask) + (p00 >>> 64) = mid at *
  have hshift : ((mid &&& lowMask) <<< 64).toNat = mid.toNat % 2 ^ 64 * 2 ^ 64 := by
    rw [BitVec.toNat_shiftLeft, lowMask_and, Nat.shiftLeft_eq]
    omega
  have hlo : ((p00 &&& lowMask) + ((mid &&& lowMask) <<< 64)).toNat =
      p00.toNat % 2 ^ 64 + mid.toNat % 2 ^ 64 * 2 ^ 64 := by
    rw [BitVec.toNat_add, hshift, lowMask_and]
    omega
  have hcarry : ((p01 >>> 64) + (p10 >>> 64) + (mid >>> 64)).toNat =
      p01.toNat / 2 ^ 64 + p10.toNat / 2 ^ 64 + mid.toNat / 2 ^ 64 := by
    rw [BitVec.toNat_add, BitVec.toNat_add, ushiftRight_toNat, ushiftRight_toNat,
      ushiftRight_toNat]
    omega
  have hfits : p11.toNat + ((p01 >>> 64) + (p10 >>> 64) + (mid >>> 64)).toNat < 2 ^ 128 := by
    omega
  refine ⟨⟨_, _⟩, by rw [checkedAddU128_of_lt hfits]; rfl, ?_⟩
  rw [toNat, add_toNat_of_lt hfits, hcarry, hlo]
  omega

/-- The full product, which two words never overflow. -/
theorem checkedMul_spec (a b : U128) :
    ∃ r, checkedMul a b = some r ∧ r.toNat = a.toNat * b.toNat := by
  have ha := a.isLt
  have hb := b.isLt
  have ha0 : (a &&& lowMask).toNat < 2 ^ 64 := by rw [lowMask_and]; omega
  have hb0 : (b &&& lowMask).toNat < 2 ^ 64 := by rw [lowMask_and]; omega
  have ha1 : (a >>> 64).toNat < 2 ^ 64 := by rw [ushiftRight_toNat]; omega
  have hb1 : (b >>> 64).toNat < 2 ^ 64 := by rw [ushiftRight_toNat]; omega
  apply recombine _ _ _ _ ha hb
  rw [mul_halves ha0 hb0, mul_halves ha0 hb1, mul_halves ha1 hb0, mul_halves ha1 hb1,
    lowMask_and, lowMask_and, ushiftRight_toNat, ushiftRight_toNat]
  exact mul_split _ _

theorem mul_spec (a b : U128) : ∃ r, mul a b = .ok r ∧ r.toNat = a.toNat * b.toNat := by
  rcases checkedMul_spec a b with ⟨r, hr, hvalue⟩
  exact ⟨r, by rw [mul, hr, expect_some], hvalue⟩

/-- The product with one word, when it fits. -/
theorem checkedMulU128_spec {x : U256} {b : U128} (h : x.toNat * b.toNat < 2 ^ 256) :
    ∃ r, x.checkedMulU128 b = some r ∧ r.toNat = x.toNat * b.toNat := by
  rcases checkedMul_spec x.lo b with ⟨low, hlow, hlowValue⟩
  rcases checkedMul_spec x.hi b with ⟨high, hhigh, hhighValue⟩
  have hsum : x.toNat * b.toNat = high.toNat * 2 ^ 128 + low.toNat := by
    rw [hlowValue, hhighValue, toNat]
    ring
  have hlt : high.toNat < 2 ^ 128 := by omega
  have hhi := hi_eq_zero hlt
  have hlo := lo_toNat_of_hi hhi
  have hlowLimbs : low.toNat = low.hi.toNat * 2 ^ 128 + low.lo.toNat := rfl
  have hfits : high.lo.toNat + low.hi.toNat < 2 ^ 128 := by omega
  refine ⟨⟨high.lo + low.hi, low.lo⟩, ?_, ?_⟩
  · rw [checkedMulU128, hlow, hhigh]
    simp only [Option.bind_eq_bind, Option.bind_some, hhi, ne_eq, not_true_eq_false, if_false,
      checkedAddU128_of_lt hfits]
    rfl
  · rw [hsum, toNat_mk, add_toNat_of_lt hfits]
    omega

/-! ## Quotients -/

/-- The division has read the bits from {lit}`k` up: quotient and remainder of the prefix. -/
structure Divided (x : U256) (d : U128) (k : Nat) (acc : U256 × U128) : Prop where
  quotient : acc.1.toNat = x.toNat / 2 ^ k / d.toNat * 2 ^ k
  remainder : acc.2.toNat = x.toNat / 2 ^ k % d.toNat

theorem bitAt_eq (x : U256) (i : Nat) : x.bitAt i = x.toNat.testBit i := by
  rw [toNat, Nat.mul_comm, Nat.testBit_two_pow_mul_add _ x.lo.isLt, bitAt]
  by_cases hi : i < 128
  · rw [if_neg (by omega), if_pos hi]
    rfl
  · rw [if_pos (by omega), if_neg hi]
    rfl

/-- Setting bit {lit}`k` of a word without a bit below {lit}`k + 1` adds its weight. -/
theorem setBit_toNat {n w k : Nat} (hk : k < n) {x : BitVec n} (hx : x.toNat = w * 2 ^ (k + 1)) :
    (x ||| (1 <<< k)).toNat = x.toNat + 2 ^ k := by
  have hone : ((1 <<< k : Nat) : BitVec n).toNat = 2 ^ k := by
    have hpow : 2 ^ k < 2 ^ n := Nat.pow_lt_pow_right (by omega) hk
    rw [BitVec.natCast_eq_ofNat, BitVec.toNat_ofNat, Nat.shiftLeft_eq, one_mul,
      Nat.mod_eq_of_lt hpow]
  rw [BitVec.toNat_or, hone, hx, Nat.mul_comm]
  have hlt : 2 ^ k < 2 ^ (k + 1) := Nat.pow_lt_pow_right (by omega) (by omega)
  exact (Nat.two_pow_add_eq_or_of_lt hlt w).symm

/-- Setting quotient bit {lit}`k`, above which alone the quotient has bits. -/
theorem setQuotient_toNat {q : U256} {w k : Nat} (hk : k < 256)
    (hq : q.toNat = w * 2 ^ (k + 1)) :
    (if k ≥ 128 then { q with hi := q.hi ||| (1 <<< (k - 128)) }
      else { q with lo := q.lo ||| (1 <<< k) } : U256).toNat = q.toNat + 2 ^ k := by
  have hlo := q.lo.isLt
  by_cases hhigh : k ≥ 128
  · rw [if_pos hhigh]
    have hpow : 2 ^ (k + 1) = 2 ^ (k - 128 + 1) * 2 ^ 128 := by
      rw [← Nat.pow_add]
      congr 1
      omega
    have hpow' : 2 ^ k = 2 ^ (k - 128) * 2 ^ 128 := by
      rw [← Nat.pow_add]
      congr 1
      omega
    rw [hpow, ← Nat.mul_assoc] at hq
    have hhi : q.hi.toNat = w * 2 ^ (k - 128 + 1) := by
      unfold toNat at hq
      omega
    rw [toNat_mk, setBit_toNat (by omega) hhi, toNat, hpow']
    ring
  · rw [if_neg hhigh]
    have hlow : ∃ v, q.lo.toNat = v * 2 ^ (k + 1) := by
      have hdvd : 2 ^ (k + 1) ∣ 2 ^ 128 := Nat.pow_dvd_pow 2 (by omega)
      have htotal : 2 ^ (k + 1) ∣ q.hi.toNat * 2 ^ 128 + q.lo.toNat := by
        rw [show q.hi.toNat * 2 ^ 128 + q.lo.toNat = q.toNat from rfl, hq]
        exact Nat.dvd_mul_left _ _
      rcases (Nat.dvd_add_right (Nat.dvd_mul_left_of_dvd hdvd _)).mp htotal with ⟨v, hv⟩
      exact ⟨v, by rw [hv, Nat.mul_comm]⟩
    rcases hlow with ⟨v, hv⟩
    rw [toNat_mk, setBit_toNat (by omega) hv, toNat]
    omega

/-- The bit shifted into the remainder. -/
theorem shiftIn_toNat (r : U128) (b : Bool) :
    ((r <<< 1) ||| (if b then 1 else 0)).toNat = (2 * r.toNat + b.toNat) % 2 ^ 128 := by
  have hbit : (if b then 1 else 0 : U128).toNat = b.toNat := by cases b <;> rfl
  have hlt : b.toNat < 2 ^ 1 := Bool.toNat_lt b
  have hshift : (r <<< 1).toNat = 2 ^ 1 * (r.toNat % 2 ^ 127) := by
    rw [BitVec.toNat_shiftLeft, Nat.shiftLeft_eq]
    omega
  rw [BitVec.toNat_or, hbit, hshift, ← Nat.two_pow_add_eq_or_of_lt hlt]
  omega

/-- One step reads one more bit. -/
theorem divStep_divided {x : U256} {d : U128} (hd : d ≠ 0) {k : Nat} (hk : k < 256)
    {acc : U256 × U128} (h : Divided x d (k + 1) acc) : Divided x d k (divStep x d acc k) := by
  have hdlt := d.isLt
  have hdpos : 0 < d.toNat := by
    rw [Nat.pos_iff_ne_zero]
    intro hzero
    exact hd (BitVec.eq_of_toNat_eq hzero)
  rcases h with ⟨hquotient, hremainder⟩
  have hhalf : x.toNat / 2 ^ (k + 1) = x.toNat / 2 ^ k / 2 := by
    rw [Nat.div_div_eq_div_mul, Nat.pow_succ]
  rw [hhalf] at hquotient hremainder
  have hbit : (x.bitAt k).toNat = x.toNat / 2 ^ k % 2 := by
    rw [bitAt_eq, Nat.testBit_eq_decide_div_mod_eq]
    rcases Nat.mod_two_eq_zero_or_one (x.toNat / 2 ^ k) with h | h <;> simp [h]
  generalize hread : x.toNat / 2 ^ k = n at *
  have hrlt : acc.2.toNat < d.toNat := by
    rw [hremainder]
    exact Nat.mod_lt _ hdpos
  -- the prefix with its new bit, over the old quotient and remainder
  have hn : n = d.toNat * (2 * (n / 2 / d.toNat)) + (2 * acc.2.toNat + n % 2) := by
    have hdm := Nat.div_add_mod (n / 2) d.toNat
    rw [← hremainder] at hdm
    calc n = 2 * (n / 2) + n % 2 := (Nat.div_add_mod n 2).symm
      _ = 2 * (d.toNat * (n / 2 / d.toNat) + acc.2.toNat) + n % 2 := by rw [hdm]
      _ = d.toNat * (2 * (n / 2 / d.toNat)) + (2 * acc.2.toNat + n % 2) := by ring
  have hshifted := shiftIn_toNat acc.2 (x.bitAt k)
  rw [hbit] at hshifted
  have hcarry : acc.2.getLsbD 127 = decide (2 ^ 127 ≤ acc.2.toNat) := by
    have hr := acc.2.isLt
    change acc.2.toNat.testBit 127 = _
    rw [Nat.testBit_eq_decide_div_mod_eq]
    by_cases hle : 2 ^ 127 ≤ acc.2.toNat
    · rw [decide_eq_true hle, decide_eq_true]
      omega
    · rw [decide_eq_false hle, decide_eq_false]
      omega
  have hcond : (acc.2.getLsbD 127 || decide ((acc.2 <<< 1) ||| (if x.bitAt k then 1 else 0) ≥ d)) =
      true ↔ d.toNat ≤ 2 * acc.2.toNat + n % 2 := by
    rw [hcarry, Bool.or_eq_true, decide_eq_true_eq, decide_eq_true_eq, ge_iff_le, BitVec.le_def,
      hshifted]
    omega
  unfold divStep
  by_cases hfits : d.toNat ≤ 2 * acc.2.toNat + n % 2
  · rw [if_pos (hcond.mpr hfits)]
    have hunique := (Nat.div_mod_unique hdpos).mpr
      (show (2 * acc.2.toNat + n % 2 - d.toNat) + d.toNat * (2 * (n / 2 / d.toNat) + 1) = n ∧
        2 * acc.2.toNat + n % 2 - d.toNat < d.toNat by
          refine ⟨?_, by omega⟩
          rw [Nat.mul_add, Nat.mul_one]
          omega)
    constructor
    · change (ite _ _ _ : U256).toNat = _
      rw [setQuotient_toNat hk hquotient, hquotient, hread, hunique.1]
      ring
    · change (_ - d : U128).toNat = _
      rw [BitVec.toNat_sub, hshifted, hread, hunique.2]
      omega
  · rw [if_neg (mt hcond.mp hfits)]
    have hunique := (Nat.div_mod_unique hdpos).mpr
      (show (2 * acc.2.toNat + n % 2) + d.toNat * (2 * (n / 2 / d.toNat)) = n ∧
        2 * acc.2.toNat + n % 2 < d.toNat by
          refine ⟨?_, by omega⟩
          omega)
    constructor
    · change acc.1.toNat = _
      rw [hquotient, hread, hunique.1]
      ring
    · change BitVec.toNat (_ ||| _) = _
      rw [hshifted, hread, hunique.2]
      omega

/-- The whole division. -/
theorem foldl_divStep {x : U256} {d : U128} (hd : d ≠ 0) {k : Nat} (hk : k ≤ 256)
    {acc : U256 × U128} (h : Divided x d k acc) :
    Divided x d 0 ((List.range k).reverse.foldl (divStep x d) acc) := by
  induction k generalizing acc with
  | zero => exact h
  | succ k ih =>
      rw [List.range_succ, List.reverse_append, List.reverse_singleton, List.singleton_append,
        List.foldl_cons]
      exact ih (by omega) (divStep_divided hd (by omega) h)

/-- The floor of a quotient. -/
theorem divU128_spec (x : U256) {d : U128} (hd : d ≠ 0) :
    ∃ r, x.divU128 d = .ok r ∧ r.toNat = x.toNat / d.toNat := by
  by_cases hhi : x.hi = 0
  · refine ⟨⟨0, x.lo / d⟩, ?_, ?_⟩
    · rw [divU128, ensure_of hd, ok_bind, if_pos hhi]
      rfl
    · rw [toNat_mk_zero, BitVec.toNat_udiv, lo_toNat_of_hi hhi]
  · have hstart : Divided x d 256 (ZERO, 0) := by
      have hnone : x.toNat / 2 ^ 256 = 0 := Nat.div_eq_of_lt x.toNat_lt
      constructor
      · rw [hnone, Nat.zero_div, Nat.zero_mul]
        rfl
      · rw [hnone, Nat.zero_mod]
        rfl
    have hdone := (foldl_divStep hd le_rfl hstart).quotient
    rw [Nat.pow_zero, Nat.div_one, Nat.mul_one] at hdone
    refine ⟨_, ?_, hdone⟩
    rw [divU128, ensure_of hd, ok_bind, if_neg hhi]
    rfl

/-- The ceiling of a quotient: the least number whose product reaches the value. -/
theorem divU128Ceil_spec (x : U256) {d : U128} (hd : d ≠ 0) :
    ∃ r, x.divU128Ceil d = .ok r ∧ ∀ n, x.toNat ≤ n * d.toNat → r.toNat ≤ n := by
  rcases divU128_spec x hd with ⟨q, hq, hvalue⟩
  have hxlt := x.toNat_lt
  have hdpos : 0 < d.toNat := by
    rw [Nat.pos_iff_ne_zero]
    intro hzero
    exact hd (BitVec.eq_of_toNat_eq hzero)
  have hback : q.toNat * d.toNat ≤ x.toNat := by
    rw [hvalue]
    exact Nat.div_mul_le_self _ _
  rcases checkedMulU128_spec (show q.toNat * d.toNat < 2 ^ 256 by omega) with
    ⟨back, hbackEq, hbackValue⟩
  have hfloor : ∀ n, x.toNat ≤ n * d.toNat → q.toNat ≤ n := by
    intro n hn
    apply Nat.le_of_mul_le_mul_right _ hdpos
    omega
  by_cases hexact : back = x
  · refine ⟨q, ?_, hfloor⟩
    rw [divU128Ceil, hq, ok_bind, hbackEq, expect_some, ok_bind, if_pos hexact]
    rfl
  · -- an inexact quotient lies below the value, so its successor fits
    have hlt : q.toNat * d.toNat < x.toNat := by
      apply lt_of_le_of_ne hback
      intro heq
      exact hexact (toNat_inj (hbackValue.trans heq))
    have hqlt : q.toNat < x.toNat := lt_of_le_of_lt (Nat.le_mul_of_pos_right _ hdpos) hlt
    have hone : (U256.mk 0 1).toNat = 1 := rfl
    rcases add_spec (show q.toNat + (U256.mk 0 1).toNat < 2 ^ 256 by omega) with
      ⟨r, hr, hrValue⟩
    refine ⟨r, ?_, ?_⟩
    · rw [divU128Ceil, hq, ok_bind, hbackEq, expect_some, ok_bind, if_neg hexact]
      exact hr
    · intro n hn
      have hbelow : q.toNat * d.toNat < n * d.toNat := by omega
      have hsucc := Nat.lt_of_mul_lt_mul_right hbelow
      omega

/-! ## What finished operations return -/

theorem add_eq_ok {x o r : U256} (h : x.add o = .ok r) : r.toNat = x.toNat + o.toNat := by
  by_cases hfits : x.toNat + o.toNat < 2 ^ 256
  · rcases add_spec hfits with ⟨r', hr', hvalue⟩
    rw [ok_unique h hr', hvalue]
  · rcases bind_eq_ok.mp h with ⟨hi, hhi, h⟩
    rcases bind_eq_ok.mp h with ⟨hi', hhi', _⟩
    have hhi := expect_eq_ok.mp hhi
    have hhi' := expect_eq_ok.mp hhi'
    unfold checkedAddU128 at hhi hhi'
    have hcarry := addCarry_toNat x.lo o.lo
    have hxlo := x.lo.isLt
    have holo := o.lo.isLt
    unfold toNat at hfits
    by_cases hhigh : x.hi.toNat + o.hi.toNat < 2 ^ 128
    · rw [if_pos hhigh] at hhi
      cases hhi
      rw [add_toNat_of_lt hhigh] at hhi'
      by_cases hsum : x.hi.toNat + o.hi.toNat + (addCarry x.lo o.lo).toNat < 2 ^ 128
      · omega
      · rw [if_neg hsum] at hhi'
        cases hhi'
    · rw [if_neg hhigh] at hhi
      cases hhi

theorem sub_eq_ok {x o r : U256} (h : x.sub o = .ok r) :
    o.toNat ≤ x.toNat ∧ r.toNat = x.toNat - o.toNat := by
  rcases ensure_bind_eq_ok.mp h with ⟨hle, _⟩
  have hle := le_iff.mp hle
  rcases sub_spec hle with ⟨r', hr', hvalue⟩
  rw [ok_unique h hr', hvalue]
  exact ⟨hle, rfl⟩

/-- The ceiling is the least number whose product with the divisor reaches the value. -/
theorem divU128Ceil_le_iff {x r : U256} {d : U128} (h : x.divU128Ceil d = .ok r) (n : Nat) :
    r.toNat ≤ n ↔ x.toNat ≤ n * d.toNat := by
  rcases bind_eq_ok.mp h with ⟨q, hq, _⟩
  have hd : d ≠ 0 := by
    rcases ensure_bind_eq_ok.mp hq with ⟨hd, _⟩
    exact hd
  rcases divU128Ceil_spec x hd with ⟨r', hr', hleast⟩
  cases ok_unique h hr'
  refine ⟨?_, hleast n⟩
  intro hn
  -- the quotient rounded up reaches the value
  have hreach : x.toNat ≤ r.toNat * d.toNat := by
    rcases divU128_spec x hd with ⟨q', hq', hvalue⟩
    cases ok_unique hq hq'
    rw [divU128Ceil, hq, ok_bind] at h
    rcases bind_eq_ok.mp h with ⟨back, hback, h⟩
    have hdiv := Nat.div_add_mod x.toNat d.toNat
    have hdpos : 0 < d.toNat := by
      rw [Nat.pos_iff_ne_zero]
      intro hzero
      exact hd (BitVec.eq_of_toNat_eq hzero)
    have hmod := Nat.mod_lt x.toNat hdpos
    rw [← hvalue] at hdiv
    have hfits : q.toNat * d.toNat < 2 ^ 256 := by
      have hxlt := x.toNat_lt
      rw [Nat.mul_comm] at hdiv
      omega
    rcases checkedMulU128_spec hfits with ⟨back', hback', hbackValue⟩
    rw [hback', expect_some] at hback
    cases hback
    by_cases hexact : back = x
    · rw [if_pos hexact] at h
      cases h
      rw [← hbackValue, hexact]
    · rw [if_neg hexact] at h
      have hone : (U256.mk 0 1).toNat = 1 := rfl
      rw [add_eq_ok h, hone, Nat.add_mul, Nat.one_mul]
      rw [Nat.mul_comm] at hdiv
      omega
  calc x.toNat ≤ r.toNat * d.toNat := hreach
    _ ≤ n * d.toNat := Nat.mul_le_mul_right _ hn

end U256

end StateKeeper
