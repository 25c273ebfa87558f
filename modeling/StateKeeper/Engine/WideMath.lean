import StateKeeper.Foundation.Fallible
import StateKeeper.Foundation.Words

/-!
# Engine - 256-bit products and directed divisions

The {lit}`U256` of {lit}`im-math`, limb by limb as the crate computes it: every
widening step is checked and stops the run instead of wrapping.
-/

namespace StateKeeper

open Words Fallible

/-- {lit}`u128::checked_add`. -/
def checkedAddU128 (a b : U128) : Option U128 :=
  if a.toNat + b.toNat < 2 ^ 128 then some (a + b) else none

/-- Minimal unsigned 256-bit integer. -/
structure U256 where
  hi : U128
  lo : U128
deriving DecidableEq

namespace U256

def ZERO : U256 where
  hi := 0
  lo := 0

/-- The low 64 bits. -/
def lowMask : U128 := 0xFFFFFFFFFFFFFFFF

/-- Checked full 256-bit product of two words. -/
def checkedMul (a b : U128) : Option U256 := do
  let a0 := a &&& lowMask
  let a1 := a >>> 64
  let b0 := b &&& lowMask
  let b1 := b >>> 64
  let p00 := a0 * b0
  let p01 := a0 * b1
  let p10 := a1 * b0
  let p11 := a1 * b1
  let mid := (p01 &&& lowMask) + (p10 &&& lowMask) + (p00 >>> 64)
  let lo := (p00 &&& lowMask) + ((mid &&& lowMask) <<< 64)
  let hi ← checkedAddU128 p11 ((p01 >>> 64) + (p10 >>> 64) + (mid >>> 64))
  pure { hi := hi, lo := lo }

/-- Full 256-bit product; stops on overflow. -/
def mul (a b : U128) : Run U256 :=
  expect (checkedMul a b) "U256::mul: 256-bit overflow"

/-- The carry of {lit}`overflowing_add`. -/
def addCarry (a b : U128) : U128 :=
  if a.toNat + b.toNat < 2 ^ 128 then 0 else 1

/-- 256-bit addition; stops on overflow. -/
def add (x o : U256) : Run U256 := do
  let hi ← expect (checkedAddU128 x.hi o.hi) "U256::add: hi overflow"
  let hi ← expect (checkedAddU128 hi (addCarry x.lo o.lo)) "U256::add: carry overflow"
  pure { hi := hi, lo := x.lo + o.lo }

/-- Lexicographic {lit}`x <= o` over the limbs. -/
def le (x o : U256) : Bool :=
  x.hi < o.hi || (x.hi == o.hi && x.lo ≤ o.lo)

/-- 256-bit subtraction; stops on underflow. -/
def sub (x o : U256) : Run U256 := do
  ensure (o.le x) "U256::sub: underflow (o > self)"
  let borrow : U128 := if x.lo < o.lo then 1 else 0
  pure { hi := x.hi - o.hi - borrow, lo := x.lo - o.lo }

/-- Checked product with one word. -/
def checkedMulU128 (x : U256) (b : U128) : Option U256 := do
  let loProd ← checkedMul x.lo b
  let hiProd ← checkedMul x.hi b
  if hiProd.hi ≠ 0 then none
  else
    let hi ← checkedAddU128 hiProd.lo loProd.hi
    pure { hi := hi, lo := loProd.lo }

/-- Bit {lit}`i` of the 256-bit value. -/
def bitAt (x : U256) (i : Nat) : Bool :=
  if i ≥ 128 then x.hi.getLsbD (i - 128) else x.lo.getLsbD i

/-- One step of the restoring division: shift bit {lit}`i` into the remainder and
subtract the divisor when it fits. -/
def divStep (x : U256) (d : U128) (acc : U256 × U128) (i : Nat) : U256 × U128 :=
  let carry := acc.2.getLsbD 127
  let shifted := (acc.2 <<< 1) ||| (if x.bitAt i then 1 else 0)
  if carry || shifted ≥ d then
    (if i ≥ 128 then { acc.1 with hi := acc.1.hi ||| (1 <<< (i - 128)) }
      else { acc.1 with lo := acc.1.lo ||| (1 <<< i) }, shifted - d)
  else (acc.1, shifted)

/-- Exact floor division by a non-zero word, by restoring long division. -/
def divU128 (x : U256) (d : U128) : Run U256 := do
  ensure (d ≠ 0) "U256::div_u128: division by zero"
  if x.hi = 0 then pure { hi := 0, lo := x.lo / d }
  else pure ((List.range 256).reverse.foldl (divStep x d) (ZERO, 0)).1

/-- Exact ceiling division by a non-zero word. -/
def divU128Ceil (x : U256) (d : U128) : Run U256 := do
  let q ← x.divU128 d
  let back ← expect (q.checkedMulU128 d) "U256::div_u128_ceil: q·d overflow"
  if back = x then pure q else q.add { hi := 0, lo := 1 }

end U256

/-! ## Calibration -/

/-- 1.0 in the 1e18 fixed-point scale. -/
def ONE : U128 := 1000000000000000000

/-- Scenario-return magnitude ceiling, 100%. -/
def RET_MAX_1E18 : I128 := 1000000000000000000

/-- Adverse return applied to a held market the table does not list, 43.3%. -/
def FALLBACK_RET_1E18 : I128 := 433000000000000000

end StateKeeper
