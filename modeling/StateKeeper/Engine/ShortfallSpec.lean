import Mathlib.Data.Rat.Floor
import StateKeeper.Engine.MarginSpec
import StateKeeper.Foundation.WorstSets

/-!
# Engine - The margin is the expected shortfall

A book's loss in a scenario is the sum over its markets of minus the market's
return times the book's net exposure to it.  The margin is the mean of the worst
losses, each market's loss rounded up to a unit and the mean rounded up again.
The kernel searches a row by halves, so it reads a market's return off a row whose
columns ascend, as those of a validated table do.

Main results:

- Theorem {lit}`netByMarket_exact`: the factors are the net exposures.
- Theorem {lit}`scenarioLoss_exact`: a scenario's loss is the sum of its markets'.
- Theorem {lit}`partyScenarioEs_exact`: the margin of a book.
-/

namespace StateKeeper

open Words Fallible SortedKeys BinarySearch WorstSets

/-! ## What the margin is for -/

/-- A position's exposure: long positive, short negative. -/
def PositionRecord.exposure (b : PositionRecord) : Int :=
  b.side.toInt * b.notional.toNat

/-- The book's net exposure to a market. -/
def exposureTo (positions : List PositionRecord) (mk : Bytes32) : Int :=
  ((positions.filter fun b => b.marketKey = mk).map PositionRecord.exposure).sum

/-- The markets a book is exposed to. -/
def marketsOf (positions : List PositionRecord) : Finset Bytes32 :=
  (positions.map PositionRecord.marketKey).toFinset

/-- A column's return in a scenario; zero when the row leaves it out. -/
def returnAt (row : List (U16 × I128)) (col : U16) : Int :=
  ((row.find? fun e => e.1 = col).map fun e => e.2.toInt).getD 0

/-- The return that the kernel reads for a column; zero when the search finds none. -/
def readAt (row : List (U16 × I128)) (col : U16) : Int :=
  ((searchByKey Prod.fst row col).map fun e => e.2.toInt).getD 0

/-- On ascending columns the kernel reads the column's return. -/
theorem readAt_eq {row : List (U16 × I128)} (h : StrictBy Prod.fst row) :
    readAt row = returnAt row := by
  funext col
  rw [readAt, searchByKey_eq_find? h, returnAt]

/-- The exact loss of a net exposure to a market: minus its return, or the adverse
fallback when the table does not list it. -/
def marketLoss (table : ScenarioTable) (fallbackRet : I128) (ret : U16 → Int)
    (mk : Bytes32) (net : Int) : ℚ :=
  match table.columnOf mk with
  | some col => (-(ret col * net) : Int) / ONE.toNat
  | none => (fallbackRet.toInt.natAbs * net.natAbs : Nat) / ONE.toNat

/-- The book's exact loss in a scenario. -/
def exactLoss (positions : List PositionRecord) (table : ScenarioTable) (fallbackRet : I128)
    (ret : U16 → Int) : ℚ :=
  ∑ mk ∈ marketsOf positions,
    marketLoss table fallbackRet ret mk (exposureTo positions mk)

/-- The book's loss in a scenario, each market's rounded up. -/
def roundedLoss (positions : List PositionRecord) (table : ScenarioTable) (fallbackRet : I128)
    (ret : U16 → Int) : Int :=
  ∑ mk ∈ marketsOf positions,
    ⌈marketLoss table fallbackRet ret mk (exposureTo positions mk)⌉

/-! ## Netting -/

/-- The factor of a market. -/
def factorAt : List (Bytes32 × I128) → Bytes32 → Int
  | [], _ => 0
  | (mk', net) :: rest, mk => if mk' = mk then net.toInt else factorAt rest mk

theorem signedNotional_exact {b : PositionRecord} {s : I128} (h : signedNotional b = .ok s) :
    s.toInt = b.exposure := by
  rcases ensure_bind_eq_ok.mp h with ⟨hside, h⟩
  have hlong : (1 : I8).toInt = 1 := by decide
  have hshort : (-1 : I8).toInt = -1 := by decide
  by_cases hone : b.side = 1
  · rw [if_pos hone, checkedOfUnsigned] at h
    by_cases hfits : b.notional.toNat < 2 ^ 127
    · rw [if_pos hfits, expect_some] at h
      cases h
      rw [PositionRecord.exposure, hone, hlong, BitVec.toInt_eq_toNat_cond]
      omega
    · rw [if_neg hfits] at h
      cases h
  · rw [if_neg hone, checkedNegOfUnsigned] at h
    by_cases hfits : b.notional.toNat ≤ 2 ^ 127
    · rw [if_pos hfits, expect_some] at h
      cases h
      rw [PositionRecord.exposure, hside.resolve_left hone, hshort, BitVec.toInt_eq_toNat_cond,
        BitVec.toNat_neg]
      omega
    · rw [if_neg hfits] at h
      cases h

theorem checkedAddI128_exact {a b c : I128} (h : checkedAddI128 a b = some c) :
    c.toInt = a.toInt + b.toInt := by
  unfold checkedAddI128 at h
  by_cases hfits : i128Min ≤ a.toInt + b.toInt ∧ a.toInt + b.toInt ≤ i128Max
  · rw [if_pos hfits] at h
    cases h
    rcases hfits with ⟨hlow, hhigh⟩
    unfold i128Min at hlow
    unfold i128Max at hhigh
    rw [BitVec.toInt_add]
    apply Int.bmod_eq_of_le <;> omega
  · rw [if_neg hfits] at h
    cases h

/-- Adding to a factor adds to that market's alone. -/
theorem addToFactor_exact {mk : Bytes32} {s : I128} {factors fs : List (Bytes32 × I128)}
    (h : addToFactor mk s factors = .ok fs) :
    (∀ k, factorAt fs k = factorAt factors k + if mk = k then s.toInt else 0) ∧
      (∀ k, k ∈ fs.map Prod.fst ↔ k ∈ factors.map Prod.fst ∨ k = mk) ∧
      ((factors.map Prod.fst).Nodup → (fs.map Prod.fst).Nodup) := by
  induction factors generalizing fs with
  | nil =>
      cases h
      refine ⟨?_, by simp, by simp⟩
      intro k
      simp [factorAt]
  | cons f rest ih =>
      obtain ⟨mk', net⟩ := f
      unfold addToFactor at h
      by_cases hmk : mk' = mk
      · rw [if_pos hmk] at h
        rcases bind_eq_ok.mp h with ⟨net', hnet, h⟩
        cases h
        have hsum := checkedAddI128_exact (expect_eq_ok.mp hnet)
        refine ⟨?_, ?_, fun hnodup => hnodup⟩
        · intro k
          simp only [factorAt]
          by_cases hk : mk' = k
          · rw [if_pos hk, if_pos hk, if_pos (hmk.symm.trans hk), hsum]
          · rw [if_neg hk, if_neg hk, if_neg (fun heq => hk (hmk.trans heq)), add_zero]
        · intro k
          simp only [List.map_cons, List.mem_cons]
          rw [hmk]
          tauto
      · rw [if_neg hmk] at h
        rcases bind_eq_ok.mp h with ⟨rest', hrest, h⟩
        cases h
        rcases ih hrest with ⟨hat, hmem, hnodup⟩
        refine ⟨?_, ?_, ?_⟩
        · intro k
          simp only [factorAt]
          by_cases hk : mk' = k
          · rw [if_pos hk, if_pos hk, if_neg (fun heq => hmk (hk.trans heq.symm)), add_zero]
          · rw [if_neg hk, if_neg hk, hat]
        · intro k
          simp only [List.map_cons, List.mem_cons]
          rw [hmem]
          tauto
        · intro hkeys
          rw [List.map_cons, List.nodup_cons] at hkeys ⊢
          refine ⟨?_, hnodup hkeys.2⟩
          rw [hmem]
          rintro (hold | hnew)
          · exact hkeys.1 hold
          · exact hmk hnew

/-- The factors of a book are its net exposures, one for each market. -/
theorem netByMarket_exact {positions : List PositionRecord} {factors : List (Bytes32 × I128)}
    (h : netByMarket positions = .ok factors) :
    (factors.map Prod.fst).Nodup ∧ (factors.map Prod.fst).toFinset = marketsOf positions ∧
      ∀ mk, factorAt factors mk = exposureTo positions mk := by
  suffices hgen : ∀ fs₀ fs, positions.foldlM (fun factors b => do
      let signed ← signedNotional b
      addToFactor b.marketKey signed factors) fs₀ = .ok fs →
      ((fs₀.map Prod.fst).Nodup → (fs.map Prod.fst).Nodup) ∧
        (∀ k, k ∈ fs.map Prod.fst ↔
          k ∈ fs₀.map Prod.fst ∨ k ∈ positions.map PositionRecord.marketKey) ∧
        ∀ k, factorAt fs k = factorAt fs₀ k + exposureTo positions k by
    rcases hgen [] factors h with ⟨hnodup, hmem, hat⟩
    refine ⟨hnodup List.nodup_nil, ?_, ?_⟩
    · ext k
      rw [List.mem_toFinset, hmem, marketsOf, List.mem_toFinset]
      simp
    · intro mk
      rw [hat]
      simp [factorAt]
  clear h
  induction positions with
  | nil =>
      intro fs₀ fs h
      cases h
      simp [exposureTo]
  | cons b rest ih =>
      intro fs₀ fs h
      rcases bind_eq_ok.mp h with ⟨mid, hstep, hrest⟩
      rcases bind_eq_ok.mp hstep with ⟨s, hs, hadd⟩
      rcases addToFactor_exact hadd with ⟨hat, hmem, hnodup⟩
      rcases ih mid fs hrest with ⟨hnodups, hmems, hats⟩
      refine ⟨fun hkeys => hnodups (hnodup hkeys), ?_, ?_⟩
      · intro k
        rw [hmems, hmem, List.map_cons, List.mem_cons]
        tauto
      · intro k
        rw [hats, hat, signedNotional_exact hs]
        unfold exposureTo
        by_cases hk : b.marketKey = k
        · simp [hk]
          ring
        · simp [hk]

/-- A sum over the factors is a sum over the markets. -/
theorem sum_factors {factors : List (Bytes32 × I128)} (hnodup : (factors.map Prod.fst).Nodup)
    (g : Bytes32 → Int → Int) :
    (factors.map fun f => g f.1 f.2.toInt).sum =
      ∑ mk ∈ (factors.map Prod.fst).toFinset, g mk (factorAt factors mk) := by
  rw [List.sum_toFinset _ hnodup, List.map_map]
  congr 1
  apply List.map_congr_left
  intro f hf
  have hat : factorAt factors f.1 = f.2.toInt := by
    induction factors with
    | nil => cases hf
    | cons e rest ih =>
        rw [List.map_cons, List.nodup_cons] at hnodup
        rcases List.mem_cons.mp hf with rfl | hrest
        · simp [factorAt]
        · have hne : e.1 ≠ f.1 := by
            intro heq
            apply hnodup.1
            rw [heq]
            exact List.mem_map_of_mem hrest
          rw [factorAt, if_neg hne]
          exact ih hnodup.2 hrest
  rw [Function.comp_apply, hat]

/-! ## One scenario -/

/-- The signed exposure of a leg. -/
def FactorLeg.net (leg : FactorLeg) : Int :=
  if leg.netNeg then -leg.netAbs.toNat else leg.netAbs.toNat

/-- A leg's loss in a scenario, rounded up. -/
def legLoss (ret : U16 → Int) (leg : FactorLeg) : Int :=
  match leg.col with
  | some col => ⌈((-(ret col * leg.net) : Int) : ℚ) / ONE.toNat⌉
  | none => 0

/-- The ceiling division of the kernel is the ceiling. -/
theorem ceil_of_divU128Ceil {x up : U256} {d : U128} (h : x.divU128Ceil d = .ok up) :
    ⌈(x.toNat : ℚ) / d.toNat⌉ = up.toNat := by
  have hd : (0 : ℚ) < d.toNat := by
    rcases bind_eq_ok.mp h with ⟨q, hq, _⟩
    rcases ensure_bind_eq_ok.mp hq with ⟨hd, _⟩
    rw [Nat.cast_pos, Nat.pos_iff_ne_zero]
    intro hzero
    exact hd (BitVec.eq_of_toNat_eq hzero)
  have hle : ∀ n : Nat, ⌈(x.toNat : ℚ) / d.toNat⌉ ≤ n ↔ up.toNat ≤ n := by
    intro n
    rw [Int.ceil_le, div_le_iff₀ hd, U256.divU128Ceil_le_iff h]
    norm_cast
  apply le_antisymm
  · exact (hle _).mpr le_rfl
  · have hpos : 0 ≤ ⌈(x.toNat : ℚ) / d.toNat⌉ := Int.ceil_nonneg (by positivity)
    rcases Int.eq_ofNat_of_zero_le hpos with ⟨n, hn⟩
    rw [hn, Nat.cast_le]
    exact (hle n).mp hn.le

/-- The floor division of the kernel rounds a gain up. -/
theorem ceil_neg_of_divU128 {x down : U256} {d : U128} (h : x.divU128 d = .ok down) :
    ⌈(-(x.toNat : ℚ)) / d.toNat⌉ = -(down.toNat : Int) := by
  rcases ensure_bind_eq_ok.mp h with ⟨hd, _⟩
  rcases U256.divU128_spec x hd with ⟨r, hr, hvalue⟩
  cases ok_unique h hr
  rw [neg_div, Int.ceil_neg, Rat.floor_natCast_div_natCast, hvalue]
  norm_cast

/-- The split sums move by the leg's rounded loss. -/
theorem addLeg_exact {row : List (U16 × I128)} {acc acc' : U256 × U256} {leg : FactorLeg}
    (h : addLeg row acc leg = .ok acc') :
    (acc'.1.toNat : Int) - acc'.2.toNat = acc.1.toNat - acc.2.toNat + legLoss (readAt row) leg := by
  unfold addLeg at h
  unfold legLoss readAt
  cases hcol : leg.col with
  | none =>
      rw [hcol] at h
      cases h
      simp
  | some col =>
      rw [hcol] at h
      dsimp only at h ⊢
      by_cases hnet : leg.netAbs = 0
      · rw [if_pos hnet] at h
        cases h
        have hzero : leg.net = 0 := by
          rw [FactorLeg.net, hnet]
          simp
        simp [hzero]
      · rw [if_neg hnet] at h
        cases hfind : searchByKey Prod.fst row col with
        | none =>
            rw [hfind] at h
            cases h
            simp
        | some e =>
            rw [hfind] at h
            dsimp only at h
            rw [Option.map_some, Option.getD_some]
            by_cases hret : e.2 = 0
            · rw [if_pos hret] at h
              cases h
              simp [hret]
            · rw [if_neg hret] at h
              rcases bind_eq_ok.mp h with ⟨prod, hprod, h⟩
              have hvalue : prod.toNat = leg.netAbs.toNat * e.2.toInt.natAbs := by
                rcases U256.mul_spec leg.netAbs (unsignedAbs e.2) with ⟨r, hr, hr'⟩
                rw [ok_unique hprod hr, hr', unsignedAbs_toNat]
              by_cases hloss : (decide (e.2.toInt < 0) != leg.netNeg) = true
              · rw [if_pos hloss] at h
                rcases bind_eq_ok.mp h with ⟨up, hup, h⟩
                rcases bind_eq_ok.mp h with ⟨pos, hpos, h⟩
                cases h
                have hsign : -(e.2.toInt * leg.net) = (prod.toNat : Int) := by
                  rw [hvalue, FactorLeg.net]
                  push_cast
                  cases hneg : leg.netNeg with
                  | true =>
                      have hup : 0 ≤ e.2.toInt := by simpa [hneg] using hloss
                      rw [abs_of_nonneg hup, if_pos rfl]
                      ring
                  | false =>
                      have hdown : e.2.toInt < 0 := by simpa [hneg] using hloss
                      rw [abs_of_neg hdown, if_neg (by simp)]
                      ring
                have hceil := ceil_of_divU128Ceil hup
                rw [hsign, Int.cast_natCast, hceil, U256.add_eq_ok hpos]
                push_cast
                ring
              · rw [if_neg hloss] at h
                rcases bind_eq_ok.mp h with ⟨down, hdown, h⟩
                rcases bind_eq_ok.mp h with ⟨neg, hneg, h⟩
                cases h
                have hsign : -(e.2.toInt * leg.net) = -(prod.toNat : Int) := by
                  rw [hvalue, FactorLeg.net]
                  push_cast
                  cases hside : leg.netNeg with
                  | true =>
                      have hlow : e.2.toInt < 0 := by simpa [hside] using hloss
                      rw [abs_of_neg hlow, if_pos rfl]
                      ring
                  | false =>
                      have hhigh : 0 ≤ e.2.toInt := by simpa [hside] using hloss
                      rw [abs_of_nonneg hhigh, if_neg (by simp)]
                      ring
                have hceil := ceil_neg_of_divU128 hdown
                rw [hsign, Int.cast_neg, Int.cast_natCast, hceil, U256.add_eq_ok hneg]
                push_cast
                ring

/-- The legs and the base of split factors lose, rounded, what the factors do. -/
theorem splitFactors_exact {table : ScenarioTable} {fallbackRet : I128}
    {factors : List (Bytes32 × I128)} {split : List FactorLeg × U256}
    (h : splitFactors table fallbackRet factors = .ok split) (ret : U16 → Int) :
    (split.2.toNat : Int) + (split.1.map (legLoss ret)).sum =
      (factors.map fun f => ⌈marketLoss table fallbackRet ret f.1 f.2.toInt⌉).sum := by
  suffices hgen : ∀ acc split : List FactorLeg × U256,
      factors.foldlM (fun (acc : List FactorLeg × U256) (f : Bytes32 × I128) =>
        let netAbs := unsignedAbs f.2
        match table.columnOf f.1 with
        | some c =>
            let leg : FactorLeg :=
              { netAbs := netAbs, netNeg := decide (f.2.toInt < (0 : Int)), col := some c }
            pure (acc.1 ++ [leg], acc.2)
        | none => do
            let prod ← U256.mul netAbs (unsignedAbs fallbackRet)
            let up ← prod.divU128Ceil ONE
            let base ← acc.2.add up
            pure (acc.1, base)) acc = .ok split →
      (split.2.toNat : Int) + (split.1.map (legLoss ret)).sum =
        acc.2.toNat + (acc.1.map (legLoss ret)).sum +
          (factors.map fun f => ⌈marketLoss table fallbackRet ret f.1 f.2.toInt⌉).sum by
    have hstart := hgen ([], U256.ZERO) split h
    simpa using hstart
  clear h
  induction factors with
  | nil =>
      intro acc split h
      cases h
      simp
  | cons f rest ih =>
      intro acc split h
      rcases bind_eq_ok.mp h with ⟨mid, hstep, hrest⟩
      rw [ih mid split hrest, List.map_cons, List.sum_cons]
      have hmid : (mid.2.toNat : Int) + (mid.1.map (legLoss ret)).sum =
          acc.2.toNat + (acc.1.map (legLoss ret)).sum +
            ⌈marketLoss table fallbackRet ret f.1 f.2.toInt⌉ := by
        dsimp only at hstep
        unfold marketLoss
        cases hcol : table.columnOf f.1 with
        | some c =>
            rw [hcol] at hstep
            cases hstep
            have hnet : FactorLeg.net ⟨unsignedAbs f.2, decide (f.2.toInt < 0), some c⟩ =
                f.2.toInt := by
              rw [FactorLeg.net]
              dsimp only
              rw [unsignedAbs_toNat]
              by_cases hneg : f.2.toInt < 0
              · rw [if_pos (decide_eq_true hneg)]
                omega
              · rw [if_neg (by simpa using hneg)]
                omega
            rw [List.map_append, List.sum_append, List.map_singleton, List.sum_singleton]
            unfold legLoss
            dsimp only
            rw [hnet]
            ring
        | none =>
            rw [hcol] at hstep
            rcases bind_eq_ok.mp hstep with ⟨prod, hprod, hstep⟩
            rcases bind_eq_ok.mp hstep with ⟨up, hup, hstep⟩
            rcases bind_eq_ok.mp hstep with ⟨base, hbase, hstep⟩
            cases hstep
            have hvalue : prod.toNat = fallbackRet.toInt.natAbs * f.2.toInt.natAbs := by
              rcases U256.mul_spec (unsignedAbs f.2) (unsignedAbs fallbackRet) with ⟨r, hr, hr'⟩
              rw [ok_unique hprod hr, hr', unsignedAbs_toNat, unsignedAbs_toNat, Nat.mul_comm]
            have hceil := ceil_of_divU128Ceil hup
            rw [hvalue] at hceil
            dsimp only
            rw [hceil, U256.add_eq_ok hbase]
            push_cast
            ring
      rw [hmid]
      ring

/-- The value of a signed loss; a gain is negative. -/
def SignedLoss.toInt (l : SignedLoss) : Int :=
  if l.neg then -l.mag.toNat else l.mag.toNat

theorem signedLoss_exact {pos neg : U256} {l : SignedLoss} (h : signedLoss pos neg = .ok l) :
    l.toInt = pos.toNat - neg.toNat := by
  unfold signedLoss at h
  dsimp only at h
  by_cases hle : neg.le pos = true
  · rw [if_pos hle, hle] at h
    rcases bind_eq_ok.mp h with ⟨d, hd, h⟩
    rcases ensure_bind_eq_ok.mp h with ⟨hhi, h⟩
    cases h
    rcases U256.sub_eq_ok hd with ⟨hlower, hvalue⟩
    rw [SignedLoss.toInt, if_neg (by simp)]
    dsimp only
    rw [U256.lo_toNat_of_hi hhi, hvalue]
    omega
  · rw [if_neg hle] at h
    rcases bind_eq_ok.mp h with ⟨d, hd, h⟩
    rcases ensure_bind_eq_ok.mp h with ⟨hhi, h⟩
    cases h
    rcases U256.sub_eq_ok hd with ⟨hlower, hvalue⟩
    rw [SignedLoss.toInt, if_pos (by simp [hle])]
    dsimp only
    rw [U256.lo_toNat_of_hi hhi, hvalue]
    omega

/-- The split sums over the legs move by their rounded losses. -/
theorem addLegs_exact {row : List (U16 × I128)} {legs : List FactorLeg}
    {acc acc' : U256 × U256} (h : legs.foldlM (addLeg row) acc = .ok acc') :
    (acc'.1.toNat : Int) - acc'.2.toNat =
      acc.1.toNat - acc.2.toNat + (legs.map (legLoss (readAt row))).sum := by
  induction legs generalizing acc with
  | nil =>
      cases h
      simp
  | cons leg rest ih =>
      rcases bind_eq_ok.mp h with ⟨mid, hstep, hrest⟩
      rw [ih hrest, addLeg_exact hstep, List.map_cons, List.sum_cons]
      ring

/-- A scenario's loss is the base plus its legs' rounded losses. -/
theorem scenarioLoss_exact {legs : List FactorLeg} {base : U256} {row : List (U16 × I128)}
    {l : SignedLoss} (h : scenarioLoss legs base row = .ok l) :
    l.toInt = base.toNat + (legs.map (legLoss (readAt row))).sum := by
  rcases bind_eq_ok.mp h with ⟨acc, hacc, hloss⟩
  rw [signedLoss_exact hloss, addLegs_exact hacc, U256.toNat_ZERO]
  ring

/-! ## The tail -/

/-- The value order of losses, as a number; a gain of nothing still stands below a loss. -/
def lossRank (l : SignedLoss) : Int :=
  if l.neg then -l.mag.toNat - 1 else l.mag.toNat

theorem lossCmp_eq (a b : SignedLoss) : lossCmp a b = compare (lossRank a) (lossRank b) := by
  have hcompare : ∀ {x y : U128} {i j : Int}, (x.toNat < y.toNat ↔ i < j) →
      (y.toNat < x.toNat ↔ j < i) → compare x y = compare i j := by
    intro x y i j hlt hgt
    rcases lt_trichotomy x y with h | h | h
    · rw [compare_lt_iff_lt.mpr h, compare_lt_iff_lt.mpr (hlt.mp (BitVec.lt_def.mp h))]
    · have hij : i = j := by
        rw [h] at hlt hgt
        omega
      rw [compare_eq_iff_eq.mpr h, compare_eq_iff_eq.mpr hij]
    · rw [compare_gt_iff_gt.mpr h, compare_gt_iff_gt.mpr (hgt.mp (BitVec.lt_def.mp h))]
  unfold lossCmp lossRank
  cases ha : a.neg with
  | false =>
      cases hb : b.neg with
      | false =>
          apply hcompare <;> simp
      | true =>
          symm
          rw [compare_gt_iff_gt]
          simp only [Bool.false_eq_true, if_false, if_true]
          omega
  | true =>
      cases hb : b.neg with
      | false =>
          symm
          rw [compare_lt_iff_lt]
          simp only [Bool.false_eq_true, if_false, if_true]
          omega
      | true =>
          apply hcompare <;> simp

theorem toInt_le_of_lossRank_le {a b : SignedLoss} (h : lossRank a ≤ lossRank b) :
    a.toInt ≤ b.toInt := by
  unfold lossRank at h
  unfold SignedLoss.toInt
  cases ha : a.neg <;> cases hb : b.neg <;> simp [ha, hb] at h ⊢ <;> omega

/-- One scenario stands before another: a larger loss, or the same and a smaller index. -/
def Precedes (losses : List SignedLoss) (i j : Nat) : Prop :=
  ((lossCmp (losses.getD j ⟨false, 0⟩) (losses.getD i ⟨false, 0⟩)).then (compare i j)).isLE = true

instance (losses : List SignedLoss) : DecidableRel (Precedes losses) := fun i j =>
  inferInstanceAs (Decidable
    (((lossCmp (losses.getD j ⟨false, 0⟩) (losses.getD i ⟨false, 0⟩)).then
      (compare i j)).isLE = true))

theorem precedes_iff (losses : List SignedLoss) (i j : Nat) :
    Precedes losses i j ↔
      lossRank (losses.getD j ⟨false, 0⟩) < lossRank (losses.getD i ⟨false, 0⟩) ∨
        lossRank (losses.getD j ⟨false, 0⟩) = lossRank (losses.getD i ⟨false, 0⟩) ∧ i ≤ j := by
  unfold Precedes
  rw [lossCmp_eq]
  generalize lossRank (losses.getD j ⟨false, 0⟩) = x
  generalize lossRank (losses.getD i ⟨false, 0⟩) = y
  rcases lt_trichotomy x y with h | h | h
  · rw [compare_lt_iff_lt.mpr h]
    simp [h]
  · rw [compare_eq_iff_eq.mpr h]
    simp [h, Nat.isLE_compare]
  · rw [compare_gt_iff_gt.mpr h]
    simp
    omega

/-- The order of the scenarios is by descending loss. -/
theorem lossOrder_sorted (losses : List SignedLoss) :
    (lossOrder losses).Pairwise fun i j =>
      (losses.getD j ⟨false, 0⟩).toInt ≤ (losses.getD i ⟨false, 0⟩).toInt := by
  have htotal : Std.Total (Precedes losses) := by
    constructor
    intro i j
    rw [precedes_iff, precedes_iff]
    omega
  have htrans : IsTrans Nat (Precedes losses) := by
    constructor
    intro i j k hij hjk
    rw [precedes_iff] at hij hjk ⊢
    omega
  have hsorted : (lossOrder losses).Pairwise (Precedes losses) := by
    unfold lossOrder
    exact List.pairwise_insertionSort _ _
  apply hsorted.imp
  intro i j hij
  rw [precedes_iff] at hij
  apply toInt_le_of_lossRank_le
  omega

theorem lossOrder_perm (losses : List SignedLoss) :
    (lossOrder losses).Perm (List.range losses.length) :=
  List.perm_insertionSort _ _

/-- The split tail sums differ by the tail's losses. -/
theorem tailSums_exact {losses : List SignedLoss} {tail : List Nat} {sums : U256 × U256}
    (h : tailSums losses tail = .ok sums) :
    (sums.1.toNat : Int) - sums.2.toNat =
      (tail.map fun i => (losses.getD i ⟨false, 0⟩).toInt).sum := by
  suffices hgen : ∀ acc sums : U256 × U256, tail.foldlM (fun acc i => do
      let l := losses.getD i ⟨false, 0⟩
      if l.neg then
        let neg ← acc.2.add { hi := 0, lo := l.mag }
        pure (acc.1, neg)
      else
        let pos ← acc.1.add { hi := 0, lo := l.mag }
        pure (pos, acc.2)) acc = (.ok sums : Run (U256 × U256)) →
      (sums.1.toNat : Int) - sums.2.toNat = acc.1.toNat - acc.2.toNat +
        (tail.map fun i => (losses.getD i ⟨false, 0⟩).toInt).sum by
    have hstart := hgen (U256.ZERO, U256.ZERO) sums h
    simpa using hstart
  clear h
  induction tail with
  | nil =>
      intro acc sums h
      cases h
      simp
  | cons i rest ih =>
      intro acc sums h
      rcases bind_eq_ok.mp h with ⟨mid, hstep, hrest⟩
      rw [ih mid sums hrest, List.map_cons, List.sum_cons]
      dsimp only at hstep
      unfold SignedLoss.toInt
      by_cases hneg : (losses.getD i ⟨false, 0⟩).neg = true
      · rw [if_pos hneg] at hstep
        rcases bind_eq_ok.mp hstep with ⟨neg, hadd, hstep⟩
        cases hstep
        rw [if_pos hneg, U256.add_eq_ok hadd, U256.toNat_mk_zero]
        push_cast
        ring
      · rw [if_neg hneg] at hstep
        rcases bind_eq_ok.mp hstep with ⟨pos, hadd, hstep⟩
        cases hstep
        rw [if_neg hneg, U256.add_eq_ok hadd, U256.toNat_mk_zero]
        push_cast
        ring

/-! ## The margin -/

/-- The book's rounded loss in the scenario of an index, on the returns the kernel reads. -/
def lossAt (positions : List PositionRecord) (table : ScenarioTable) (fallbackRet : I128)
    (i : Nat) : Int :=
  roundedLoss positions table fallbackRet (readAt (table.rows.getD i []))

/-- The worst losses summed are those of a worst set of scenarios. -/
theorem exists_worst_tail {losses : List SignedLoss} {m : Nat} (hm : m ≤ losses.length)
    {sums : U256 × U256} (h : tailSums losses ((lossOrder losses).take m) = .ok sums) :
    ∃ S : Finset Nat, S.card = m ∧
      Worst (fun i => (losses.getD i ⟨false, 0⟩).toInt) (Finset.range losses.length) S ∧
      (sums.1.toNat : Int) - sums.2.toNat = ∑ i ∈ S, (losses.getD i ⟨false, 0⟩).toInt := by
  have hperm := lossOrder_perm losses
  have hnodup : (lossOrder losses).Nodup := hperm.nodup_iff.mpr List.nodup_range
  have htail : ((lossOrder losses).take m).Nodup := hnodup.sublist (List.take_sublist _ _)
  have huniv : (lossOrder losses).toFinset = Finset.range losses.length := by
    ext i
    rw [List.mem_toFinset, hperm.mem_iff, List.mem_range, Finset.mem_range]
  refine ⟨((lossOrder losses).take m).toFinset, ?_, ?_, ?_⟩
  · rw [List.toFinset_card_of_nodup htail, List.length_take, hperm.length_eq, List.length_range]
    omega
  · rw [← huniv]
    exact worst_take (lossOrder_sorted losses) m
  · rw [tailSums_exact h, List.sum_toFinset _ htail]

/-- The scenarios' losses are the book's. -/
theorem losses_exact {positions : List PositionRecord} {table : ScenarioTable} {fallbackRet : I128}
    {factors : List (Bytes32 × I128)} {split : List FactorLeg × U256} {losses : List SignedLoss}
    (hfactors : netByMarket positions = .ok factors)
    (hsplit : splitFactors table fallbackRet factors = .ok split)
    (hlosses : table.rows.mapM (scenarioLoss split.1 split.2) = .ok losses) :
    losses.length = table.rows.length ∧ ∀ i ∈ Finset.range table.rows.length,
      (losses.getD i ⟨false, 0⟩).toInt = lossAt positions table fallbackRet i := by
  have hlength : losses.length = table.rows.length := mapM_length hlosses
  refine ⟨hlength, ?_⟩
  intro i hi
  rw [Finset.mem_range] at hi
  rcases netByMarket_exact hfactors with ⟨hnodup, hkeys, hat⟩
  have hrow := (List.forall₂_iff_get.mp (mapM_eq_ok_iff.mp hlosses)).2 i hi (by omega)
  have hsum := splitFactors_exact hsplit (readAt (table.rows.get ⟨i, hi⟩))
  rw [sum_factors hnodup fun mk net =>
    ⌈marketLoss table fallbackRet (readAt (table.rows.get ⟨i, hi⟩)) mk net⌉, hkeys,
    ← scenarioLoss_exact hrow] at hsum
  have hrowAt : table.rows.getD i [] = table.rows.get ⟨i, hi⟩ := List.getD_eq_getElem _ _ hi
  have hlossAt : losses.getD i ⟨false, 0⟩ = losses.get ⟨i, by omega⟩ :=
    List.getD_eq_getElem _ _ (by omega)
  rw [hlossAt, hsum, lossAt, hrowAt, roundedLoss]
  simp only [hat]

/-- The margin of two tail sums: their difference over the tail's length, rounded up. -/
def tailMargin (sums : U256 × U256) (m : U128) : Run U128 :=
  if sums.1.le sums.2 then pure 0
  else do
    let diff ← sums.1.sub sums.2
    let im ← diff.divU128Ceil m
    ensure (im.hi = 0) "party_scenario_es: ES exceeds u128 — fail-closed"
    pure im.lo

theorem ceil_sub_div_nonpos {a b : Nat} (m : Nat) (h : a ≤ b) :
    ⌈(((a : Int) - b : Int) : ℚ) / m⌉ ≤ 0 := by
  rw [Int.ceil_le, Int.cast_zero]
  apply div_nonpos_of_nonpos_of_nonneg _ (Nat.cast_nonneg _)
  have hdiff : (a : Int) - b ≤ 0 := by omega
  exact_mod_cast hdiff

theorem tailMargin_exact {sums : U256 × U256} {m im : U128} (h : tailMargin sums m = .ok im) :
    (im.toNat : Int) = max 0 ⌈(((sums.1.toNat : Int) - sums.2.toNat : Int) : ℚ) / m.toNat⌉ := by
  unfold tailMargin at h
  by_cases hgain : sums.1.le sums.2 = true
  · rw [if_pos hgain] at h
    cases h
    rw [max_eq_left (ceil_sub_div_nonpos m.toNat (U256.le_iff.mp hgain))]
    rfl
  · rw [if_neg hgain] at h
    rcases bind_eq_ok.mp h with ⟨diff, hdiff, h⟩
    rcases bind_eq_ok.mp h with ⟨up, hup, h⟩
    rcases ensure_bind_eq_ok.mp h with ⟨hhi, h⟩
    cases h
    rcases U256.sub_eq_ok hdiff with ⟨hlower, hvalue⟩
    have hceil := ceil_of_divU128Ceil hup
    have hcast : (sums.1.toNat : Int) - sums.2.toNat = (diff.toNat : Int) := by
      rw [hvalue]
      omega
    rw [hcast, Int.cast_natCast, hceil, U256.lo_toNat_of_hi hhi]
    simp

/-- The margin of a book is the mean of its worst losses, rounded up; never negative. -/
theorem partyScenarioEs_exact {positions : List PositionRecord} {table : ScenarioTable}
    {fallbackRet : I128} {im : U128} (h : partyScenarioEs positions table fallbackRet = .ok im) :
    table.m.toNat ≤ table.rows.length ∧ 0 < table.m.toNat ∧ ∃ S : Finset Nat,
      S.card = table.m.toNat ∧
      Worst (lossAt positions table fallbackRet) (Finset.range table.rows.length) S ∧
      (im.toNat : Int) =
        max 0 ⌈((∑ i ∈ S, lossAt positions table fallbackRet i : Int) : ℚ) / table.m.toNat⌉ := by
  rcases ensure_bind_eq_ok.mp h with ⟨_, h⟩
  rcases ensure_bind_eq_ok.mp h with ⟨hk, h⟩
  rcases ensure_bind_eq_ok.mp h with ⟨⟨hpos, hle⟩, h⟩
  rcases ensure_bind_eq_ok.mp h with ⟨_, h⟩
  rcases bind_eq_ok.mp h with ⟨factors, hfactors, h⟩
  have hm : table.m.toNat ≤ table.rows.length := by
    rw [hk]
    exact BitVec.le_def.mp hle
  have hmpos : 0 < table.m.toNat := BitVec.lt_def.mp hpos
  refine ⟨hm, hmpos, ?_⟩
  by_cases hempty : factors.isEmpty = true
  · rw [if_pos hempty] at h
    cases h
    rcases netByMarket_exact hfactors with ⟨_, hkeys, _⟩
    have hnil : factors = [] := List.isEmpty_iff.mp hempty
    have hzero : ∀ i, lossAt positions table fallbackRet i = 0 := by
      intro i
      rw [lossAt, roundedLoss, ← hkeys, hnil]
      rfl
    refine ⟨Finset.range table.m.toNat, Finset.card_range _, ⟨?_, ?_⟩, ?_⟩
    · exact Finset.range_subset_range.mpr hm
    · intro T _ _
      simp [hzero]
    · simp [hzero]
  · rw [if_neg hempty] at h
    rcases bind_eq_ok.mp h with ⟨split, hsplit, h⟩
    rcases bind_eq_ok.mp h with ⟨losses, hlosses, h⟩
    rcases bind_eq_ok.mp h with ⟨sums, htail, h⟩
    rcases losses_exact hfactors hsplit hlosses with ⟨hlength, hagree⟩
    rcases exists_worst_tail (by omega) htail with ⟨S, hcard, hworst, hsum⟩
    rw [hlength] at hworst
    refine ⟨S, hcard, hworst.congr hagree, ?_⟩
    have hmargin : tailMargin sums (table.m.setWidth 128) = .ok im := h
    have hwidth : (table.m.setWidth 128).toNat = table.m.toNat :=
      BitVec.toNat_setWidth_of_le (by omega)
    rw [← Finset.sum_congr rfl fun i hi => hagree i (hworst.1 hi), ← hsum, ← hwidth]
    exact tailMargin_exact hmargin

/-! ## The margin against the exact losses -/

theorem exactLoss_le_roundedLoss (positions : List PositionRecord) (table : ScenarioTable)
    (fallbackRet : I128) (ret : U16 → Int) :
    exactLoss positions table fallbackRet ret ≤ roundedLoss positions table fallbackRet ret := by
  unfold exactLoss roundedLoss
  rw [Int.cast_sum]
  apply Finset.sum_le_sum
  intro mk _
  exact Int.le_ceil _

theorem roundedLoss_le_exactLoss (positions : List PositionRecord) (table : ScenarioTable)
    (fallbackRet : I128) (ret : U16 → Int) :
    (roundedLoss positions table fallbackRet ret : ℚ) ≤
      exactLoss positions table fallbackRet ret + (marketsOf positions).card := by
  unfold exactLoss roundedLoss
  rw [Int.cast_sum, Finset.card_eq_sum_ones, Nat.cast_sum, ← Finset.sum_add_distrib]
  apply Finset.sum_le_sum
  intro mk _
  rw [Nat.cast_one]
  exact (Int.ceil_lt_add_one _).le

/-- The book's exact loss in the scenario of an index. -/
def exactLossAt (positions : List PositionRecord) (table : ScenarioTable) (fallbackRet : I128)
    (i : Nat) : ℚ :=
  exactLoss positions table fallbackRet (returnAt (table.rows.getD i []))

/-- On a validated table the kernel's losses are the exact ones, rounded up. -/
theorem lossAt_eq {table : ScenarioTable} (htable : table.Priced)
    (positions : List PositionRecord) (fallbackRet : I128) {i : Nat}
    (hi : i ∈ Finset.range table.rows.length) :
    lossAt positions table fallbackRet i =
      roundedLoss positions table fallbackRet (returnAt (table.rows.getD i [])) := by
  rw [Finset.mem_range] at hi
  have hrow : table.rows.getD i [] ∈ table.rows := by
    rw [List.getD_eq_getElem _ _ hi]
    exact List.getElem_mem hi
  rw [lossAt, readAt_eq (htable.ascending _ hrow)]

/-- The margin times the tail count covers the exact losses of any scenarios of that number. -/
theorem partyScenarioEs_covers {positions : List PositionRecord} {table : ScenarioTable}
    (htable : table.Priced) {fallbackRet : I128} {im : U128}
    (h : partyScenarioEs positions table fallbackRet = .ok im)
    {T : Finset Nat} (hT : T ⊆ Finset.range table.rows.length) (hcard : T.card = table.m.toNat) :
    ∑ i ∈ T, exactLossAt positions table fallbackRet i ≤ table.m.toNat * im.toNat := by
  rcases partyScenarioEs_exact h with ⟨_, hpos, S, hS, hworst, him⟩
  have hmq : (0 : ℚ) < table.m.toNat := by exact_mod_cast hpos
  have hceil : ⌈((∑ i ∈ S, lossAt positions table fallbackRet i : Int) : ℚ) / table.m.toNat⌉ ≤
      (im.toNat : Int) := by
    rw [him]
    exact le_max_right _ _
  rw [Int.ceil_le, div_le_iff₀ hmq, Int.cast_natCast, mul_comm] at hceil
  have hmost : ((∑ i ∈ T, lossAt positions table fallbackRet i : Int) : ℚ) ≤
      (∑ i ∈ S, lossAt positions table fallbackRet i : Int) := by
    exact_mod_cast hworst.2 T hT (hcard.trans hS.symm)
  calc ∑ i ∈ T, exactLossAt positions table fallbackRet i
      ≤ ∑ i ∈ T, (lossAt positions table fallbackRet i : ℚ) := by
        apply Finset.sum_le_sum
        intro i hi
        rw [lossAt_eq htable _ _ (hT hi)]
        exact exactLoss_le_roundedLoss _ _ _ _
    _ = ((∑ i ∈ T, lossAt positions table fallbackRet i : Int) : ℚ) := (Int.cast_sum _ _).symm
    _ ≤ _ := hmost
    _ ≤ table.m.toNat * im.toNat := hceil

/-- A positive margin exceeds the exact mean of some scenarios by at most a unit for each
market and one more. -/
theorem partyScenarioEs_tight {positions : List PositionRecord} {table : ScenarioTable}
    (htable : table.Priced) {fallbackRet : I128} {im : U128}
    (h : partyScenarioEs positions table fallbackRet = .ok im)
    (hne : im ≠ 0) :
    ∃ S ⊆ Finset.range table.rows.length, S.card = table.m.toNat ∧
      (table.m.toNat * im.toNat : ℚ) < ∑ i ∈ S, exactLossAt positions table fallbackRet i +
        table.m.toNat * ((marketsOf positions).card + 1) := by
  rcases partyScenarioEs_exact h with ⟨_, hpos, S, hS, hworst, him⟩
  have hmq : (0 : ℚ) < table.m.toNat := by exact_mod_cast hpos
  refine ⟨S, hworst.1, hS, ?_⟩
  have himpos : 0 < im.toNat := by
    rw [Nat.pos_iff_ne_zero]
    intro hzero
    exact hne (BitVec.eq_of_toNat_eq hzero)
  have hceil : (im.toNat : Int) =
      ⌈((∑ i ∈ S, lossAt positions table fallbackRet i : Int) : ℚ) / table.m.toNat⌉ := by
    rcases max_choice 0
      ⌈((∑ i ∈ S, lossAt positions table fallbackRet i : Int) : ℚ) / table.m.toNat⌉ with hz | hc
    · rw [hz] at him
      omega
    · rw [him, hc]
  have hlt := Int.ceil_lt_add_one
    (((∑ i ∈ S, lossAt positions table fallbackRet i : Int) : ℚ) / table.m.toNat)
  rw [← hceil, Int.cast_natCast, ← mul_lt_mul_iff_right₀ hmq, mul_add,
    mul_div_cancel₀ _ hmq.ne'] at hlt
  have hrounded : ((∑ i ∈ S, lossAt positions table fallbackRet i : Int) : ℚ) ≤
      ∑ i ∈ S, exactLossAt positions table fallbackRet i +
        table.m.toNat * (marketsOf positions).card := by
    rw [Int.cast_sum, ← hS, ← nsmul_eq_mul, ← Finset.sum_const, ← Finset.sum_add_distrib]
    apply Finset.sum_le_sum
    intro i hi
    rw [lossAt_eq htable _ _ (hworst.1 hi)]
    exact roundedLoss_le_exactLoss _ _ _ _
  linarith

end StateKeeper
