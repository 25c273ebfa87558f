import StateKeeper.Engine.Scenario
import StateKeeper.Engine.WideMathSpec

/-!
# Engine - The margin of a bounded book

Every figure of the margin kernel is bounded by the book's gross notional: netting
only cancels, a return of at most 100% only scales down, a scenario's loss is one
side's sum, and the average of the worst losses is at most the worst.  A book whose
gross notional stays below {lit}`2^127` is therefore margined without an overflow.

Main results:

- Theorem {lit}`netByMarket_spec`: the factors of a book.
- Theorem {lit}`scenarioLoss_spec`: the loss of one scenario.
- Theorem {lit}`imRequirementsFor_finished`: every counterparty set is margined.
-/

namespace StateKeeper

open Words Fallible SortedKeys BinarySearch

/-! ## Netting -/

/-- The gross notional of a book. -/
def bookMass (positions : List PositionRecord) : Nat :=
  (positions.map fun b => b.notional.toNat).sum

/-- The gross size of netted factors. -/
def factorMass (factors : List (Bytes32 × I128)) : Nat :=
  (factors.map fun f => f.2.toInt.natAbs).sum

/-- The position's side is a long or a short. -/
def PositionRecord.Polar (b : PositionRecord) : Prop :=
  b.side = 1 ∨ b.side = -1

theorem signedNotional_spec {b : PositionRecord} (hpolar : b.Polar)
    (h : b.notional.toNat < 2 ^ 127) :
    ∃ s : I128, signedNotional b = .ok s ∧ s.toInt.natAbs = b.notional.toNat := by
  have hside : b.side = 1 ∨ b.side = -1 := hpolar
  by_cases hlong : b.side = 1
  · refine ⟨b.notional, ?_, ?_⟩
    · rw [signedNotional, ensure_of hside, ok_bind, if_pos hlong, checkedOfUnsigned, if_pos h,
        expect_some]
    · rw [BitVec.toInt_eq_toNat_cond]
      omega
  · refine ⟨-b.notional, ?_, ?_⟩
    · rw [signedNotional, ensure_of hside, ok_bind, if_neg hlong, checkedNegOfUnsigned,
        if_pos (by omega), expect_some]
    · rw [BitVec.toInt_eq_toNat_cond, BitVec.toNat_neg]
      omega

/-- Adding to a factor adds at most the magnitude. -/
theorem addToFactor_spec (mk : Bytes32) (s : I128) {factors : List (Bytes32 × I128)}
    (h : factorMass factors + s.toInt.natAbs < 2 ^ 127) :
    ∃ fs, addToFactor mk s factors = .ok fs ∧
      factorMass fs ≤ factorMass factors + s.toInt.natAbs := by
  induction factors with
  | nil =>
      refine ⟨[(mk, s)], rfl, ?_⟩
      simp [factorMass]
  | cons f rest ih =>
      obtain ⟨mk', net⟩ := f
      have hcons : factorMass ((mk', net) :: rest) = net.toInt.natAbs + factorMass rest := by
        simp [factorMass]
      rw [hcons] at h ⊢
      by_cases hmk : mk' = mk
      · have hrange : i128Min ≤ net.toInt + s.toInt ∧ net.toInt + s.toInt ≤ i128Max := by
          unfold i128Min i128Max
          omega
        refine ⟨(mk', net + s) :: rest, ?_, ?_⟩
        · rw [addToFactor, if_pos hmk, checkedAddI128, if_pos hrange, expect_some]
          rfl
        · have hsum : (net + s).toInt = net.toInt + s.toInt := by
            rw [BitVec.toInt_add, Int.bmod_eq_of_le]
            · unfold i128Min at hrange
              omega
            · unfold i128Max at hrange
              omega
          simp only [factorMass, List.map_cons, List.sum_cons, hsum]
          omega
      · rcases ih (by omega) with ⟨fs, hfs, hle⟩
        refine ⟨(mk', net) :: fs, ?_, ?_⟩
        · rw [addToFactor, if_neg hmk, hfs]
          rfl
        · have hcons' : factorMass ((mk', net) :: fs) = net.toInt.natAbs + factorMass fs := by
            simp [factorMass]
          omega

/-- A polar book is netted into factors no larger than itself. -/
theorem netByMarket_spec {positions : List PositionRecord} (hpolar : ∀ b ∈ positions, b.Polar)
    (h : bookMass positions < 2 ^ 127) :
    ∃ factors, netByMarket positions = .ok factors ∧ factorMass factors ≤ bookMass positions := by
  have hstep : ∀ factors, ∀ b ∈ positions,
      factorMass factors + b.notional.toNat ≤ 2 ^ 127 - 1 →
        ∃ fs, (do let signed ← signedNotional b; addToFactor b.marketKey signed factors) = .ok fs ∧
          factorMass fs ≤ factorMass factors + b.notional.toNat := by
    intro factors b hb hle
    rcases signedNotional_spec (hpolar b hb) (by omega) with ⟨s, hs, habs⟩
    rw [hs, ok_bind, ← habs]
    apply addToFactor_spec
    omega
  have hmass : factorMass [] + bookMass positions ≤ 2 ^ 127 - 1 := by
    simp only [factorMass, List.map_nil, List.sum_nil]
    omega
  rcases foldlM_measure factorMass (fun b : PositionRecord => b.notional.toNat) _ hstep hmass with
    ⟨factors, hfactors, hle⟩
  refine ⟨factors, hfactors, ?_⟩
  simpa [factorMass, bookMass] using hle

/-! ## Scaled factors -/

theorem ONE_ne_zero : ONE ≠ 0 := by
  decide

/-- A factor scaled by at most one, rounded up or down, is at most the factor. -/
theorem scaled_spec (net ret : U128) (hret : ret.toNat ≤ ONE.toNat) :
    ∃ prod up down, U256.mul net ret = .ok prod ∧ prod.divU128Ceil ONE = .ok up ∧
      prod.divU128 ONE = .ok down ∧ up.toNat ≤ net.toNat ∧ down.toNat ≤ net.toNat := by
  rcases U256.mul_spec net ret with ⟨prod, hprod, hvalue⟩
  rcases prod.divU128Ceil_spec ONE_ne_zero with ⟨up, hup, hceil⟩
  rcases prod.divU128_spec ONE_ne_zero with ⟨down, hdown, hfloor⟩
  have hle : prod.toNat ≤ net.toNat * ONE.toNat := by
    rw [hvalue]
    exact Nat.mul_le_mul_left _ hret
  refine ⟨prod, up, down, hprod, hup, hdown, hceil _ hle, ?_⟩
  rw [hfloor]
  apply Nat.div_le_of_le_mul
  rw [Nat.mul_comm]
  exact hle

/-- The gross size of the legs. -/
def legMass (legs : List FactorLeg) : Nat :=
  (legs.map fun l => l.netAbs.toNat).sum

theorem unsignedAbs_toNat (a : I128) : (unsignedAbs a).toNat = a.toInt.natAbs := by
  have hlow := BitVec.le_toInt a
  have hhigh := BitVec.toInt_lt (x := a)
  rw [unsignedAbs, BitVec.toNat_ofNat]
  apply Nat.mod_eq_of_lt
  omega

/-- Listed factors become legs and unlisted ones a base loss, together no larger. -/
theorem splitFactors_spec (table : ScenarioTable) {fallbackRet : I128}
    (hret : (unsignedAbs fallbackRet).toNat ≤ ONE.toNat) {factors : List (Bytes32 × I128)}
    (h : factorMass factors < 2 ^ 256) :
    ∃ split, splitFactors table fallbackRet factors = .ok split ∧
      legMass split.1 + split.2.toNat ≤ factorMass factors := by
  have hstart : factorMass factors = legMass [] + U256.ZERO.toNat +
      (factors.map fun f => f.2.toInt.natAbs).sum := by
    simp [legMass, factorMass]
  rw [hstart] at h ⊢
  unfold splitFactors
  refine foldlM_measure (fun acc : List FactorLeg × U256 => legMass acc.1 + acc.2.toNat)
    (fun f : Bytes32 × I128 => f.2.toInt.natAbs) (2 ^ 256 - 1) ?_ (Nat.le_pred_of_lt h)
  intro acc f _ hfits
  cases hcol : table.columnOf f.1 with
  | some c =>
      refine ⟨_, rfl, ?_⟩
      simp only [legMass, List.map_append, List.sum_append, List.map_cons, List.map_nil,
        List.sum_cons, List.sum_nil, unsignedAbs_toNat]
      omega
  | none =>
      rcases scaled_spec (unsignedAbs f.2) (unsignedAbs fallbackRet) hret with
        ⟨prod, up, _, hprod, hup, _, hle, _⟩
      rw [unsignedAbs_toNat] at hle
      rcases U256.add_spec (show acc.2.toNat + up.toNat < 2 ^ 256 by omega) with
        ⟨base, hbase, hvalue⟩
      refine ⟨(acc.1, base), ?_, by dsimp only; omega⟩
      dsimp only
      rw [hprod, ok_bind, hup, ok_bind, hbase]
      rfl

/-! ## One scenario -/

/-- A row's returns are at most 100%. -/
def RowBounded (row : List (U16 × I128)) : Prop :=
  ∀ e ∈ row, (unsignedAbs e.2).toNat ≤ ONE.toNat

/-- A leg adds at most its size to one of the two sums. -/
theorem addLeg_spec {row : List (U16 × I128)} (hrow : RowBounded row) {acc : U256 × U256}
    {leg : FactorLeg} (h : acc.1.toNat + acc.2.toNat + leg.netAbs.toNat < 2 ^ 256) :
    ∃ acc', addLeg row acc leg = .ok acc' ∧
      acc'.1.toNat + acc'.2.toNat ≤ acc.1.toNat + acc.2.toNat + leg.netAbs.toNat := by
  have hskip : ∃ acc' : U256 × U256, (pure acc : Run (U256 × U256)) = .ok acc' ∧
      acc'.1.toNat + acc'.2.toNat ≤ acc.1.toNat + acc.2.toNat + leg.netAbs.toNat :=
    ⟨acc, rfl, by omega⟩
  unfold addLeg
  cases leg.col with
  | none => exact hskip
  | some col =>
      dsimp only
      by_cases hnet : leg.netAbs = 0
      · rw [if_pos hnet]
        exact hskip
      · rw [if_neg hnet]
        cases hfind : searchByKey Prod.fst row col with
        | none => exact hskip
        | some e =>
            dsimp only
            by_cases hret : e.2 = 0
            · rw [if_pos hret]
              exact hskip
            · rw [if_neg hret]
              have hbounded := hrow e (mem_of_searchByKey hfind).1
              rcases scaled_spec leg.netAbs (unsignedAbs e.2) hbounded with
                ⟨prod, up, down, hprod, hup, hdown, hupLe, hdownLe⟩
              rw [hprod, ok_bind]
              by_cases hloss : (decide (e.2.toInt < 0) != leg.netNeg) = true
              · rcases U256.add_spec (show acc.1.toNat + up.toNat < 2 ^ 256 by omega) with
                  ⟨pos, hpos, hvalue⟩
                refine ⟨(pos, acc.2), ?_, by dsimp only; omega⟩
                rw [if_pos hloss, hup, ok_bind, hpos]
                rfl
              · rcases U256.add_spec (show acc.2.toNat + down.toNat < 2 ^ 256 by omega) with
                  ⟨neg, hneg, hvalue⟩
                refine ⟨(acc.1, neg), ?_, by dsimp only; omega⟩
                rw [if_neg hloss, hdown, ok_bind, hneg]
                rfl

/-- The difference of two sums below a word is a signed loss no larger than either. -/
theorem signedLoss_spec {pos neg : U256} {bound : Nat} (hbound : bound < 2 ^ 128)
    (h : pos.toNat + neg.toNat ≤ bound) :
    ∃ l, signedLoss pos neg = .ok l ∧ l.mag.toNat ≤ bound := by
  have hfinish : ∀ (n : Bool) (d : U256), d.toNat ≤ bound →
      ∃ l, (do
        ensure (d.hi = 0) "party_scenario_es: scenario loss magnitude exceeds u128 — fail-closed"
        pure { neg := n, mag := d.lo } : Run SignedLoss) = .ok l ∧ l.mag.toNat ≤ bound := by
    intro n d hd
    have hhi := U256.hi_eq_zero (show d.toNat < 2 ^ 128 by omega)
    refine ⟨{ neg := n, mag := d.lo }, ?_, ?_⟩
    · rw [ensure_of hhi, ok_bind]
      rfl
    · rw [U256.lo_toNat_of_hi hhi]
      exact hd
  unfold signedLoss
  dsimp only
  by_cases hle : neg.le pos = true
  · rcases U256.sub_spec (U256.le_iff.mp hle) with ⟨d, hd, hvalue⟩
    rw [if_pos hle, hd, ok_bind]
    exact hfinish _ d (by omega)
  · have hlt : pos.toNat ≤ neg.toNat := by
      rw [U256.le_iff] at hle
      omega
    rcases U256.sub_spec hlt with ⟨d, hd, hvalue⟩
    rw [if_neg hle, hd, ok_bind]
    exact hfinish _ d (by omega)

/-- One scenario loses at most the gross size of its legs and base. -/
theorem scenarioLoss_spec {row : List (U16 × I128)} (hrow : RowBounded row)
    {legs : List FactorLeg} {base : U256} {bound : Nat} (hbound : bound < 2 ^ 128)
    (h : legMass legs + base.toNat ≤ bound) :
    ∃ l, scenarioLoss legs base row = .ok l ∧ l.mag.toNat ≤ bound := by
  have hstep : ∀ acc : U256 × U256, ∀ leg ∈ legs,
      acc.1.toNat + acc.2.toNat + leg.netAbs.toNat ≤ bound →
        ∃ acc', addLeg row acc leg = .ok acc' ∧
          acc'.1.toNat + acc'.2.toNat ≤ acc.1.toNat + acc.2.toNat + leg.netAbs.toNat := by
    intro acc leg _ hfits
    apply addLeg_spec hrow
    omega
  have hmass : base.toNat + U256.ZERO.toNat + (legs.map fun l => l.netAbs.toNat).sum ≤ bound := by
    rw [U256.toNat_ZERO]
    unfold legMass at h
    omega
  rcases foldlM_measure (b := (base, U256.ZERO))
    (fun acc : U256 × U256 => acc.1.toNat + acc.2.toNat) (fun l : FactorLeg => l.netAbs.toNat) _
    hstep hmass with ⟨acc, hacc, hle⟩
  have hsum : acc.1.toNat + acc.2.toNat ≤ bound := by
    have hgross : acc.1.toNat + acc.2.toNat ≤ base.toNat + U256.ZERO.toNat + legMass legs := hle
    rw [U256.toNat_ZERO] at hgross
    omega
  rcases signedLoss_spec hbound hsum with ⟨l, hl, hmag⟩
  refine ⟨l, ?_, hmag⟩
  rw [scenarioLoss, hacc, ok_bind, hl]

/-! ## The tail -/

/-- The two tail sums together are at most the tail's length times the worst loss. -/
theorem tailSums_spec {losses : List SignedLoss} {bound : Nat}
    (hloss : ∀ l ∈ losses, l.mag.toNat ≤ bound) {tail : List Nat}
    (h : tail.length * bound < 2 ^ 256) :
    ∃ sums, tailSums losses tail = .ok sums ∧
      sums.1.toNat + sums.2.toNat ≤ tail.length * bound := by
  have hstep : ∀ acc : U256 × U256, ∀ i ∈ tail, acc.1.toNat + acc.2.toNat + bound ≤ 2 ^ 256 - 1 →
      ∃ acc', (let l := losses.getD i ⟨false, 0⟩
        if l.neg then do
          let neg ← acc.2.add { hi := 0, lo := l.mag }
          pure (acc.1, neg)
        else do
          let pos ← acc.1.add { hi := 0, lo := l.mag }
          pure (pos, acc.2) : Run (U256 × U256)) = .ok acc' ∧
        acc'.1.toNat + acc'.2.toNat ≤ acc.1.toNat + acc.2.toNat + bound := by
    intro acc i _ hfits
    dsimp only
    have hmag : (losses.getD i ⟨false, 0⟩).mag.toNat ≤ bound := by
      rw [List.getD_eq_getElem?_getD]
      cases hget : losses[i]? with
      | none => exact Nat.zero_le _
      | some l => exact hloss l (List.mem_of_getElem? hget)
    generalize losses.getD i ⟨false, 0⟩ = l at hmag ⊢
    have hsize : (U256.mk 0 l.mag).toNat = l.mag.toNat := U256.toNat_mk_zero _
    by_cases hneg : l.neg = true
    · rcases U256.add_spec (show acc.2.toNat + (U256.mk 0 l.mag).toNat < 2 ^ 256 by omega) with
        ⟨neg, hsum, hvalue⟩
      refine ⟨(acc.1, neg), ?_, by dsimp only; omega⟩
      rw [if_pos hneg, hsum]
      rfl
    · rcases U256.add_spec (show acc.1.toNat + (U256.mk 0 l.mag).toNat < 2 ^ 256 by omega) with
        ⟨pos, hsum, hvalue⟩
      refine ⟨(pos, acc.2), ?_, by dsimp only; omega⟩
      rw [if_neg hneg, hsum]
      rfl
  have hconst : (tail.map fun _ => bound).sum = tail.length * bound := by simp
  have hmass : U256.ZERO.toNat + U256.ZERO.toNat + (tail.map fun _ => bound).sum ≤
      2 ^ 256 - 1 := by
    rw [U256.toNat_ZERO, hconst]
    omega
  rcases foldlM_measure (b := (U256.ZERO, U256.ZERO))
    (fun acc : U256 × U256 => acc.1.toNat + acc.2.toNat) (fun _ : Nat => bound) _ hstep hmass with
    ⟨sums, hsums, hle⟩
  refine ⟨sums, hsums, ?_⟩
  simp only [U256.toNat_ZERO, hconst] at hle
  omega

/-! ## A validated table -/

theorem rowBounded_of_validateRow {t : ScenarioTable} {prev : Option U16}
    {row : List (U16 × I128)} (h : t.validateRow prev row = .ok ()) : RowBounded row := by
  induction row generalizing prev with
  | nil =>
      intro e he
      cases he
  | cons e rest ih =>
      rcases ensure_bind_eq_ok.mp h with ⟨_, h⟩
      rcases ensure_bind_eq_ok.mp h with ⟨_, h⟩
      rcases ensure_bind_eq_ok.mp h with ⟨hret, hrest⟩
      intro e' he'
      rcases List.mem_cons.mp he' with rfl | hmem
      · exact hret
      · exact ih hrest e' hmem

/-- A checked row's columns ascend, above the one it is checked against. -/
theorem ascending_of_validateRow {t : ScenarioTable} {prev : Option U16}
    {row : List (U16 × I128)} (h : t.validateRow prev row = .ok ()) :
    (∀ c ∈ prev, ∀ e ∈ row, c < e.1) ∧ StrictBy Prod.fst row := by
  induction row generalizing prev with
  | nil => exact ⟨fun _ _ e he => absurd he List.not_mem_nil, List.Pairwise.nil⟩
  | cons e rest ih =>
      obtain ⟨_, h⟩ := ensure_bind_eq_ok.mp h
      obtain ⟨hprev, h⟩ := ensure_bind_eq_ok.mp h
      obtain ⟨_, hrest⟩ := ensure_bind_eq_ok.mp h
      obtain ⟨hafter, hstrict⟩ := ih hrest
      constructor
      · intro c hc e' he'
        rw [Option.mem_def.mp hc, Option.all_some, decide_eq_true_eq] at hprev
        rcases List.mem_cons.mp he' with rfl | hmem
        · exact hprev
        · exact hprev.trans (hafter e.1 rfl e' hmem)
      · exact List.pairwise_cons.mpr ⟨hafter e.1 rfl, hstrict⟩

/-- The invariants of a validated table that the kernel rests on. -/
structure ScenarioTable.Priced (t : ScenarioTable) : Prop where
  scenarios : t.k > 0
  tail : t.m > 0 ∧ t.m ≤ t.k
  count : t.rows.length = t.k.toNat
  bounded : ∀ row ∈ t.rows, RowBounded row
  ascending : ∀ row ∈ t.rows, StrictBy Prod.fst row

theorem ScenarioTable.priced_of_validate {t : ScenarioTable} (h : t.validate = .ok ()) :
    t.Priced := by
  rcases ensure_bind_eq_ok.mp h with ⟨hk, h⟩
  rcases ensure_bind_eq_ok.mp h with ⟨hm, h⟩
  rcases ensure_bind_eq_ok.mp h with ⟨hcount, h⟩
  rcases ensure_bind_eq_ok.mp h with ⟨_, h⟩
  rcases ensure_bind_eq_ok.mp h with ⟨_, hrows⟩
  have hrow := forM_eq_ok_iff.mp hrows
  refine ⟨hk, hm, hcount, ?_, ?_⟩
  · exact fun row hmem => rowBounded_of_validateRow (hrow row hmem)
  · exact fun row hmem => (ascending_of_validateRow (hrow row hmem)).2

/-! ## The margin of a book -/

/-- The expected shortfall of a bounded polar book is computed. -/
theorem partyScenarioEs_finished {positions : List PositionRecord} {table : ScenarioTable}
    {fallbackRet : I128} (htable : table.Priced) (hpositive : fallbackRet.toInt > 0)
    (hret : (unsignedAbs fallbackRet).toNat ≤ ONE.toNat) (hpolar : ∀ b ∈ positions, b.Polar)
    (hmass : bookMass positions < 2 ^ 127) :
    Finished (partyScenarioEs positions table fallbackRet) := by
  rcases netByMarket_spec hpolar hmass with ⟨factors, hfactors, hnet⟩
  unfold partyScenarioEs
  rw [ensure_of htable.scenarios, ok_bind, ensure_of htable.count, ok_bind, ensure_of htable.tail,
    ok_bind, ensure_of hpositive, ok_bind, hfactors, ok_bind]
  by_cases hempty : factors.isEmpty = true
  · rw [if_pos hempty]
    exact ⟨_, rfl⟩
  · rw [if_neg hempty]
    rcases splitFactors_spec table hret (show factorMass factors < 2 ^ 256 by omega) with
      ⟨⟨legs, base⟩, hsplit, hlegs⟩
    rw [hsplit, ok_bind]
    dsimp only at hlegs ⊢
    have hloss : ∀ row ∈ table.rows, ∃ l, scenarioLoss legs base row = .ok l ∧
        l.mag.toNat ≤ bookMass positions := by
      intro row hrow
      exact scenarioLoss_spec (htable.bounded row hrow) (by omega) (by omega)
    rcases mapM_finished (fun row hrow => (hloss row hrow).imp fun l hl => hl.1) with
      ⟨losses, hlosses⟩
    have hworst : ∀ l ∈ losses, l.mag.toNat ≤ bookMass positions := by
      intro l hl
      rcases exists_of_mem_mapM hlosses hl with ⟨row, hrow, hrun⟩
      rcases hloss row hrow with ⟨l', hl', hle⟩
      rw [hl'] at hrun
      cases hrun
      exact hle
    rw [hlosses, ok_bind]
    have hlength : ((lossOrder losses).take table.m.toNat).length * bookMass positions ≤
        bookMass positions * table.m.toNat := by
      rw [Nat.mul_comm]
      exact Nat.mul_le_mul_left _ (List.length_take_le _ _)
    have hsmall : bookMass positions * table.m.toNat < 2 ^ 127 * 2 ^ 32 :=
      Nat.mul_lt_mul_of_lt_of_le hmass table.m.isLt.le (by omega)
    have hfits : ((lossOrder losses).take table.m.toNat).length * bookMass positions < 2 ^ 256 := by
      omega
    rcases tailSums_spec hworst hfits with ⟨⟨tailPos, tailNeg⟩, hsums, hle⟩
    rw [hsums, ok_bind]
    dsimp only at hle ⊢
    by_cases hgain : tailPos.le tailNeg = true
    · rw [if_pos hgain]
      exact ⟨_, rfl⟩
    · rw [if_neg hgain]
      rw [U256.le_iff] at hgain
      rcases U256.sub_spec (show tailNeg.toNat ≤ tailPos.toNat by omega) with ⟨diff, hdiff, hvalue⟩
      have hwidth : (table.m.setWidth 128).toNat = table.m.toNat := by
        have hm := table.m.isLt
        rw [BitVec.toNat_setWidth, Nat.mod_eq_of_lt (by omega)]
      have hcount : table.m.setWidth 128 ≠ 0 := by
        intro hzero
        have hm : 0 < table.m.toNat := htable.tail.1
        rw [hzero] at hwidth
        exact absurd hwidth.symm hm.ne'
      rcases diff.divU128Ceil_spec hcount with ⟨im, him, hceil⟩
      have hmean : im.toNat ≤ bookMass positions := by
        apply hceil
        rw [hwidth]
        omega
      have hhi := U256.hi_eq_zero (show im.toNat < 2 ^ 128 by omega)
      rw [hdiff, ok_bind, him, ok_bind, ensure_of hhi]
      exact ⟨_, rfl⟩

theorem bookMass_filter (positions : List PositionRecord) (keep : PositionRecord → Bool) :
    bookMass (positions.filter keep) ≤ bookMass positions :=
  (List.filter_sublist.map _).sum_le_sum fun _ _ => Nat.zero_le _

theorem positionImFloor_finished {positions : List PositionRecord} {table : ScenarioTable}
    (htable : table.Priced) (hpolar : ∀ b ∈ positions, b.Polar)
    (hmass : bookMass positions < 2 ^ 127) : Finished (positionImFloor positions table) := by
  rcases partyScenarioEs_finished htable (show FALLBACK_RET_1E18.toInt > 0 by decide)
    (show (unsignedAbs FALLBACK_RET_1E18).toNat ≤ ONE.toNat by decide) hpolar hmass with ⟨es, hes⟩
  unfold positionImFloor
  rw [hes]
  exact ⟨_, rfl⟩

/-- Every counterparty set of a bounded polar book is margined. -/
theorem imRequirementsFor_finished {positions : List PositionRecord} {table : ScenarioTable}
    (htable : table.Priced) (hpolar : ∀ b ∈ positions, b.Polar)
    (hmass : bookMass positions < 2 ^ 127) (acct : Address) :
    Finished (imRequirementsFor acct positions table) := by
  apply mapM_finished
  intro cp _
  have hset : Finished
      (positionImFloor (positions.filter fun b => decide (b.counterparty = cp)) table) := by
    apply positionImFloor_finished htable
    · intro b hb
      exact hpolar b (List.mem_filter.mp hb).1
    · exact lt_of_le_of_lt (bookMass_filter _ _) hmass
  rcases hset with ⟨usd, husd⟩
  rw [husd]
  exact ⟨_, rfl⟩

/-- A book of bounded positions is bounded. -/
theorem bookMass_le {positions : List PositionRecord} {bound : Nat}
    (h : ∀ b ∈ positions, b.notional.toNat ≤ bound) :
    bookMass positions ≤ positions.length * bound := by
  unfold bookMass
  calc (positions.map fun b => b.notional.toNat).sum
      ≤ (positions.map fun b => b.notional.toNat).length • bound := by
        apply List.sum_le_card_nsmul
        intro n hn
        rcases List.mem_map.mp hn with ⟨b, hb, rfl⟩
        exact h b hb
    _ = positions.length * bound := by simp

end StateKeeper
