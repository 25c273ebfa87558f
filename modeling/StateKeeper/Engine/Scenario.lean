import StateKeeper.Foundation.BinarySearch
import StateKeeper.Engine.WideMath
import StateKeeper.Engine.Crypto

/-!
# Engine - Scenario table and the margin kernel

The published scenario table with its validation and commitment, the
per-scenario expected shortfall over a netted book, and margin as applied to a
party's positions.
-/

namespace StateKeeper

open Words Fallible BinarySearch

/-- The scenario-table witness: sparse rows of {lit}`(col_idx, return_1e18)`. -/
structure ScenarioTable where
  version : U32
  k : U32
  m : U32
  marketKeys : List Bytes32
  rows : List (List (U16 × I128))
deriving DecidableEq

namespace ScenarioTable

/-- One row's check: columns in range, strictly ascending, returns bounded. -/
def validateRow (t : ScenarioTable) : Option U16 → List (U16 × I128) → Run Unit
  | _, [] => pure ()
  | prev, (col, ret) :: rest => do
      ensure (col.toNat < t.marketKeys.length)
        "scenario-table: col_idx out of range — a row references a column no market_key names (fail-closed)"
      ensure (prev.all (· < col))
        "scenario-table: row col_idx not strictly ascending — a duplicate or shuffled column would make the sparse encoding ambiguous (fail-closed)"
      ensure (unsignedAbs ret ≤ unsignedAbs RET_MAX_1E18)
        "scenario-table: |return| exceeds RET_MAX_1E18 (100%) — a super-unitary return is malformed (fail-closed)"
      validateRow t (some col) rest

/-- Assert every structural invariant. -/
def validate (t : ScenarioTable) : Run Unit := do
  ensure (t.k > 0) "scenario-table: k must be > 0 — an empty table margins nothing (fail-closed)"
  ensure (t.m > 0 ∧ t.m ≤ t.k)
    "scenario-table: tail count m must satisfy 0 < m <= k (fail-closed)"
  ensure (t.rows.length = t.k.toNat)
    "scenario-table: rows.len() != k — a truncated or padded table is malformed (fail-closed)"
  ensure (t.marketKeys.length ≤ 65535 + 1)
    "scenario-table: more market columns than u16 col_idx can address (fail-closed)"
  ensure t.marketKeys.Nodup
    "scenario-table: duplicate market_key — one market must price through ONE column (fail-closed)"
  t.rows.forM (t.validateRow none)

/-- One entry of a row: column and return, big-endian. -/
def entryBytes (e : U16 × I128) : Bytes :=
  beBytes 2 e.1 ++ beBytes 16 e.2

/-- The canonical commitment preimage. -/
def canonicalBytes (t : ScenarioTable) : Bytes :=
  beBytes 4 t.version ++ beBytes 4 t.k ++ beBytes 4 t.m ++
    beBytes 4 (BitVec.ofNat 32 t.marketKeys.length) ++
    (t.marketKeys.map (beBytes 32)).flatten ++
    (t.rows.map fun row =>
      beBytes 4 (BitVec.ofNat 32 row.length) ++ (row.map entryBytes).flatten).flatten

variable [Primitives]

/-- Validate, then hash the canonical bytes. -/
def scenarioRoot (t : ScenarioTable) : Run Bytes32 := do
  t.validate
  pure (keccak [t.canonicalBytes])

end ScenarioTable

/-! ## Netting -/

/-- {lit}`0i128.checked_add_unsigned`. -/
def checkedOfUnsigned (n : U128) : Option I128 :=
  if n.toNat < 2 ^ 127 then some n else none

/-- {lit}`0i128.checked_sub_unsigned`. -/
def checkedNegOfUnsigned (n : U128) : Option I128 :=
  if n.toNat ≤ 2 ^ 127 then some (-n) else none

/-- {lit}`i128::checked_add`. -/
def checkedAddI128 (a b : I128) : Option I128 :=
  if i128Min ≤ a.toInt + b.toInt ∧ a.toInt + b.toInt ≤ i128Max then some (a + b) else none

/-- The position's signed notional. -/
def signedNotional (b : PositionRecord) : Run I128 := do
  ensure (b.side = 1 ∨ b.side = -1)
    "net_by_market: side must be exactly +1 or -1 (polarity floor)"
  if b.side = 1 then
    expect (checkedOfUnsigned b.notional)
      "net_by_market: long notional exceeds i128::MAX — fail-closed"
  else
    expect (checkedNegOfUnsigned b.notional)
      "net_by_market: short notional exceeds |i128::MIN| — fail-closed"

/-- Add a signed notional to its market's factor, or open a new factor. -/
def addToFactor (mk : Bytes32) (signed : I128) :
    List (Bytes32 × I128) → Run (List (Bytes32 × I128))
  | [] => pure [(mk, signed)]
  | (mk', net) :: rest =>
      if mk' = mk then do
        let net ← expect (checkedAddI128 net signed) "net_by_market: net accumulation overflow"
        pure ((mk', net) :: rest)
      else do
        let rest ← addToFactor mk signed rest
        pure ((mk', net) :: rest)

/-- Net a party's positions into per-market signed factors. -/
def netByMarket (positions : List PositionRecord) : Run (List (Bytes32 × I128)) :=
  positions.foldlM (fun factors b => do
    let signed ← signedNotional b
    addToFactor b.marketKey signed factors) []

/-! ## Expected shortfall -/

/-- One scenario's signed loss; {lit}`neg` marks a gain. -/
structure SignedLoss where
  neg : Bool
  mag : U128
deriving DecidableEq

/-- Value order: gains below losses, a larger loss is larger. -/
def lossCmp (a b : SignedLoss) : Ordering :=
  match a.neg, b.neg with
  | false, true => .gt
  | true, false => .lt
  | false, false => compare a.mag b.mag
  | true, true => compare b.mag a.mag

/-- Convert a split-sign pair into a signed loss. -/
def signedLoss (pos neg : U256) : Run SignedLoss := do
  let n := !neg.le pos
  let d ← if neg.le pos then pos.sub neg else neg.sub pos
  ensure (d.hi = 0) "party_scenario_es: scenario loss magnitude exceeds u128 — fail-closed"
  pure { neg := n, mag := d.lo }

/-- One netted factor: magnitude, sign, and its table column if listed. -/
structure FactorLeg where
  netAbs : U128
  netNeg : Bool
  col : Option U16

/-- The column of a market key. -/
def ScenarioTable.columnOf (table : ScenarioTable) (mk : Bytes32) : Option U16 :=
  (table.marketKeys.findIdx? (· = mk)).map (BitVec.ofNat 16)

/-- The netted factors as legs, and the constant adverse loss of the unlisted ones. -/
def splitFactors (table : ScenarioTable) (fallbackRet : I128)
    (factors : List (Bytes32 × I128)) : Run (List FactorLeg × U256) :=
  factors.foldlM (fun (acc : List FactorLeg × U256) (f : Bytes32 × I128) =>
    let netAbs := unsignedAbs f.2
    match table.columnOf f.1 with
    | some c =>
        let leg : FactorLeg :=
          { netAbs := netAbs, netNeg := decide (f.2.toInt < (0 : Int)), col := some c }
        pure (acc.1 ++ [leg], acc.2)
    | none => do
        let prod ← U256.mul netAbs (unsignedAbs fallbackRet)
        let up ← prod.divU128Ceil ONE
        let base ← acc.2.add up
        pure (acc.1, base)) ([], U256.ZERO)

/-- Add one leg's directed-rounded contribution under one scenario row. -/
def addLeg (row : List (U16 × I128)) (acc : U256 × U256) (leg : FactorLeg) :
    Run (U256 × U256) :=
  match leg.col with
  | none => pure acc
  | some col =>
      if leg.netAbs = 0 then pure acc
      else match searchByKey Prod.fst row col with
        | none => pure acc
        | some (_, ret) =>
            if ret = 0 then pure acc
            else do
              let prod ← U256.mul leg.netAbs (unsignedAbs ret)
              if decide (ret.toInt < 0) != leg.netNeg then
                let up ← prod.divU128Ceil ONE
                let pos ← acc.1.add up
                pure (pos, acc.2)
              else
                let down ← prod.divU128 ONE
                let neg ← acc.2.add down
                pure (acc.1, neg)

/-- One scenario's loss. -/
def scenarioLoss (legs : List FactorLeg) (fallbackBase : U256) (row : List (U16 × I128)) :
    Run SignedLoss := do
  let acc ← legs.foldlM (addLeg row) (fallbackBase, U256.ZERO)
  signedLoss acc.1 acc.2

/-- Scenario indices in order of descending loss, ascending index on ties. -/
def lossOrder (losses : List SignedLoss) : List Nat :=
  let lossAt := fun i => losses.getD i ⟨false, 0⟩
  (List.range losses.length).insertionSort fun a b =>
    ((lossCmp (lossAt b) (lossAt a)).then (compare a b)).isLE

/-- Sum the worst losses in split sign. -/
def tailSums (losses : List SignedLoss) (tail : List Nat) : Run (U256 × U256) :=
  tail.foldlM (fun acc i => do
    let l := losses.getD i ⟨false, 0⟩
    if l.neg then
      let neg ← acc.2.add { hi := 0, lo := l.mag }
      pure (acc.1, neg)
    else
      let pos ← acc.1.add { hi := 0, lo := l.mag }
      pure (pos, acc.2)) (U256.ZERO, U256.ZERO)

/-- Per-party scenario-ES margin over the party's own netted book. -/
def partyScenarioEs (positions : List PositionRecord) (table : ScenarioTable)
    (fallbackRet : I128) : Run U128 := do
  ensure (table.k > 0) "party_scenario_es: k must be > 0 (fail-closed)"
  ensure (table.rows.length = table.k.toNat) "party_scenario_es: rows.len() != k (fail-closed)"
  ensure (table.m > 0 ∧ table.m ≤ table.k)
    "party_scenario_es: tail count m must satisfy 0 < m <= k (fail-closed)"
  ensure (fallbackRet.toInt > 0)
    "party_scenario_es: fallback_ret must be a positive adverse return (fail-closed)"
  let factors ← netByMarket positions
  if factors.isEmpty then pure 0
  else
    let (legs, fallbackBase) ← splitFactors table fallbackRet factors
    let losses ← table.rows.mapM (scenarioLoss legs fallbackBase)
    let tail := (lossOrder losses).take table.m.toNat
    let (tailPos, tailNeg) ← tailSums losses tail
    if tailPos.le tailNeg then pure 0
    else
      let diff ← tailPos.sub tailNeg
      let im ← diff.divU128Ceil (table.m.setWidth 128)
      ensure (im.hi = 0) "party_scenario_es: ES exceeds u128 — fail-closed"
      pure im.lo

/-! ## Margin over bound positions -/

/-- Per-position realized residual {lit}`side · notional · (settle − entry) / entry`. -/
def positionVm (entryRate settlePrice notional : U128) (side : I8) : I128 :=
  if entryRate = 0 then 0
  else
    let moveMag := absDiff settlePrice entryRate
    let moveNeg := decide (settlePrice < entryRate)
    let mag := satMul notional moveMag / entryRate
    let neg := moveNeg ^^ decide (side.toInt < 0)
    let magI : I128 := clampI128 mag.toNat
    if neg then satNegI magI else magI

/-- The scenario-ES of a book, never below the collateral locked at open. -/
def positionImFloor (positions : List PositionRecord) (table : ScenarioTable) : Run U128 := do
  let seatFloor := positions.foldl (fun acc b => satAdd acc b.pushedIm) 0
  let es ← partyScenarioEs positions table FALLBACK_RET_1E18
  pure (max es seatFloor)

/-- The distinct counterparties of a book, in order of first appearance. -/
def counterpartiesOf (positions : List PositionRecord) : List Address :=
  positions.foldl (fun cps b =>
    if b.counterparty ∈ cps then cps else cps ++ [b.counterparty]) []

/-- One requirement per distinct counterparty, sorted by counterparty. -/
def imRequirementsFor (acct : Address) (positions : List PositionRecord)
    (table : ScenarioTable) : Run (List ImRequirement) :=
  (SortedKeys.sortBy id (counterpartiesOf positions)).mapM fun cp => do
    let usd ← positionImFloor (positions.filter fun b => b.counterparty = cp) table
    pure { acct := acct, cp := cp, usd := usd }

end StateKeeper
