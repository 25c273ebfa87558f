import StateKeeper.Engine.ShortfallSpec
import StateKeeper.Engine.UnwindSpec

/-!
# Engine - The committed requirement rows

A fold commits one requirement for each party and counterparty of its final
books, and a zero for each direction of a netting set an unwind has emptied.

Main results:

- Theorem {lit}`positionImFloor_exact`: a requirement against the exact losses.
- Theorem {lit}`imRequirementsFor_perm`: the order of a book does not matter.
- Theorem {lit}`mem_imRequirements_iff`: the rows an accepted fold commits.
-/

namespace StateKeeper

open Words Fallible SortedKeys WorstSets

/-! ## The seat floor -/

/-- The collateral locked at the opens of a book. -/
def lockedIm (positions : List PositionRecord) : Nat :=
  (positions.map fun b => b.pushedIm.toNat).sum

theorem seatFloor_toNat (positions : List PositionRecord) :
    (positions.foldl (fun acc b => satAdd acc b.pushedIm) 0).toNat =
      min (lockedIm positions) u128Max := by
  suffices hgen : ∀ acc : U128, (positions.foldl (fun acc b => satAdd acc b.pushedIm) acc).toNat =
      min (acc.toNat + lockedIm positions) u128Max by
    have hstart := hgen 0
    simpa using hstart
  induction positions with
  | nil =>
      intro acc
      have hacc := acc.isLt
      rw [List.foldl_nil, lockedIm, List.map_nil, List.sum_nil]
      unfold u128Max
      omega
  | cons b rest ih =>
      intro acc
      rw [List.foldl_cons, ih, satAdd_toNat, lockedIm, lockedIm, List.map_cons, List.sum_cons]
      omega

/-- A book's requirement is the larger of its margin and its locked collateral. -/
theorem positionImFloor_ok {positions : List PositionRecord} {table : ScenarioTable} {usd : U128}
    (h : positionImFloor positions table = .ok usd) :
    ∃ es, partyScenarioEs positions table FALLBACK_RET_1E18 = .ok es ∧
      usd.toNat = max es.toNat (min (lockedIm positions) u128Max) := by
  rcases bind_eq_ok.mp h with ⟨es, hes, h⟩
  refine ⟨es, hes, ?_⟩
  rw [← seatFloor_toNat]
  have heq := (Except.ok.inj h).symm
  rw [heq]
  generalize positions.foldl (fun acc b => satAdd acc b.pushedIm) 0 = floor
  rcases le_total es floor with hle | hle
  · rw [max_eq_right hle, max_eq_right (BitVec.le_def.mp hle)]
  · rw [max_eq_left hle, max_eq_left (BitVec.le_def.mp hle)]

/-- Under a validated table a book's requirement never falls below its locked collateral
nor, times the tail count, below the exact losses of any scenarios of that number; and it
exceeds the first, or the mean of some such losses by more than a unit for each market and
one more, never. -/
theorem positionImFloor_exact {positions : List PositionRecord} {table : ScenarioTable}
    (htable : table.validate = .ok ()) {usd : U128} (h : positionImFloor positions table = .ok usd) :
    min (lockedIm positions) u128Max ≤ usd.toNat ∧
      (∀ T ⊆ Finset.range table.rows.length, T.card = table.m.toNat →
        ∑ i ∈ T, exactLossAt positions table FALLBACK_RET_1E18 i ≤
          table.m.toNat * usd.toNat) ∧
      (usd.toNat = min (lockedIm positions) u128Max ∨
        ∃ S ⊆ Finset.range table.rows.length, S.card = table.m.toNat ∧
          (table.m.toNat * usd.toNat : ℚ) <
            ∑ i ∈ S, exactLossAt positions table FALLBACK_RET_1E18 i +
              table.m.toNat * ((marketsOf positions).card + 1)) := by
  have hpriced := ScenarioTable.priced_of_validate htable
  rcases positionImFloor_ok h with ⟨es, hes, husd⟩
  have hlocked : min (lockedIm positions) u128Max ≤ usd.toNat := by
    rw [husd]
    exact le_max_right _ _
  refine ⟨hlocked, ?_, ?_⟩
  · intro T hT hcard
    have hcovers := partyScenarioEs_covers hpriced hes hT hcard
    have hle : es.toNat ≤ usd.toNat := by
      rw [husd]
      exact le_max_left _ _
    have hscaled : (table.m.toNat * es.toNat : ℚ) ≤ table.m.toNat * usd.toNat := by
      exact_mod_cast Nat.mul_le_mul_left _ hle
    exact hcovers.trans hscaled
  · by_cases hbind : es.toNat ≤ min (lockedIm positions) u128Max
    · left
      rw [husd, max_eq_right hbind]
    · right
      have hne : es ≠ 0 := by
        intro hzero
        apply hbind
        rw [hzero]
        exact Nat.zero_le _
      rw [husd, max_eq_left (not_le.mp hbind).le]
      exact partyScenarioEs_tight hpriced hes hne

/-- A fall of a tenth and a rise of half as much on one market. -/
def swingTable : ScenarioTable where
  version := 1
  k := 2
  m := 1
  marketKeys := [8]
  rows := [[(0, -100000000000000000)], [(0, 50000000000000000)]]

def swingBook : List PositionRecord :=
  [{ oldLeg with pushedIm := 50000 }]

theorem swingBook_floor : positionImFloor swingBook swingTable = .ok 100000 := by
  decide +kernel

theorem swingTable_valid : swingTable.validate = .ok () := by
  decide

/-- The fall costs 100000, twice what the open locked, and the requirement covers it. -/
theorem positionImFloor_exact_swing :
    lockedIm swingBook ≤ 100000 ∧
      ∀ T ⊆ Finset.range 2, T.card = 1 →
        ∑ i ∈ T, exactLossAt swingBook swingTable FALLBACK_RET_1E18 i ≤ 100000 := by
  rcases positionImFloor_exact swingTable_valid swingBook_floor with ⟨hlocked, hcovers, -⟩
  constructor
  · exact hlocked
  · intro T hT hcard
    have hone : (swingTable.m.toNat * (100000 : U128).toNat : ℚ) = 100000 := by
      have htail : swingTable.m.toNat = 1 := rfl
      have husd : (100000 : U128).toNat = 100000 := rfl
      rw [htail, husd]
      norm_num
    rw [← hone]
    exact hcovers T hT hcard

/-! ## The order of a book -/

variable {positions positions' : List PositionRecord} {table : ScenarioTable}

theorem roundedLoss_perm (hperm : positions.Perm positions') (table : ScenarioTable)
    (fallbackRet : I128) (ret : U16 → Int) :
    roundedLoss positions table fallbackRet ret = roundedLoss positions' table fallbackRet ret := by
  have hmarkets : marketsOf positions = marketsOf positions' := by
    apply List.toFinset_eq_of_perm
    exact hperm.map _
  have hnet : ∀ mk, exposureTo positions mk = exposureTo positions' mk := by
    intro mk
    exact ((hperm.filter _).map _).sum_eq
  unfold roundedLoss
  rw [hmarkets]
  simp only [hnet]

/-- The margin does not depend on the order of the book. -/
theorem partyScenarioEs_perm (hperm : positions.Perm positions') {fallbackRet : I128}
    {im im' : U128} (h : partyScenarioEs positions table fallbackRet = .ok im)
    (h' : partyScenarioEs positions' table fallbackRet = .ok im') : im = im' := by
  rcases partyScenarioEs_exact h with ⟨_, _, S, hS, hworst, him⟩
  rcases partyScenarioEs_exact h' with ⟨_, _, S', hS', hworst', him'⟩
  have hloss : ∀ i, lossAt positions' table fallbackRet i = lossAt positions table fallbackRet i := by
    intro i
    exact (roundedLoss_perm hperm table fallbackRet _).symm
  have hsum : ∑ i ∈ S', lossAt positions' table fallbackRet i =
      ∑ i ∈ S, lossAt positions table fallbackRet i := by
    simp only [hloss]
    apply hworst.sum_eq _ (hS'.trans hS.symm)
    exact hworst'.congr fun i _ => hloss i
  rw [hsum, ← him] at him'
  apply BitVec.eq_of_toNat_eq
  omega

theorem positionImFloor_perm (hperm : positions.Perm positions') {usd usd' : U128}
    (h : positionImFloor positions table = .ok usd)
    (h' : positionImFloor positions' table = .ok usd') : usd = usd' := by
  rcases positionImFloor_ok h with ⟨es, hes, husd⟩
  rcases positionImFloor_ok h' with ⟨es', hes', husd'⟩
  have hlocked : lockedIm positions = lockedIm positions' := (hperm.map _).sum_eq
  apply BitVec.eq_of_toNat_eq
  rw [husd, husd', partyScenarioEs_perm hperm hes hes', hlocked]

/-! ## The counterparties of a book -/

theorem counterpartiesOf_spec (positions : List PositionRecord) :
    (counterpartiesOf positions).Nodup ∧
      ∀ cp, cp ∈ counterpartiesOf positions ↔ ∃ b ∈ positions, b.counterparty = cp := by
  suffices hgen : ∀ cps : List Address, cps.Nodup →
      (positions.foldl (fun cps b =>
        if b.counterparty ∈ cps then cps else cps ++ [b.counterparty]) cps).Nodup ∧
        ∀ cp, cp ∈ positions.foldl (fun cps b =>
          if b.counterparty ∈ cps then cps else cps ++ [b.counterparty]) cps ↔
            cp ∈ cps ∨ ∃ b ∈ positions, b.counterparty = cp by
    have hstart := hgen [] List.nodup_nil
    simp only [List.not_mem_nil, false_or] at hstart
    exact hstart
  induction positions with
  | nil =>
      intro cps hcps
      simpa using hcps
  | cons b rest ih =>
      intro cps hcps
      rw [List.foldl_cons]
      by_cases hmem : b.counterparty ∈ cps
      · rw [if_pos hmem]
        rcases ih cps hcps with ⟨hnodup, hiff⟩
        refine ⟨hnodup, ?_⟩
        intro cp
        rw [hiff]
        simp only [List.mem_cons, exists_eq_or_imp]
        constructor
        · tauto
        · rintro (hold | rfl | hrest)
          · exact .inl hold
          · exact .inl hmem
          · exact .inr hrest
      · rw [if_neg hmem]
        have hnext : (cps ++ [b.counterparty]).Nodup := by
          rw [List.nodup_append]
          refine ⟨hcps, List.nodup_singleton _, ?_⟩
          intro x hx y hy
          rw [List.mem_singleton] at hy
          rintro rfl
          exact hmem (hy ▸ hx)
        rcases ih _ hnext with ⟨hnodup, hiff⟩
        refine ⟨hnodup, ?_⟩
        intro cp
        rw [hiff]
        simp only [List.mem_cons, List.mem_append, exists_eq_or_imp, List.not_mem_nil, or_false]
        tauto

/-- The rows of a book: one for each counterparty, ascending, with its netting set's
requirement. -/
theorem imRequirementsFor_ok {acct : Address} {rows : List ImRequirement}
    (h : imRequirementsFor acct positions table = .ok rows) :
    rows.map ImRequirement.cp = sortBy id (counterpartiesOf positions) ∧
      ∀ r ∈ rows, r.acct = acct ∧
        positionImFloor (positions.filter fun b => b.counterparty = r.cp) table = .ok r.usd := by
  have hrows := mapM_eq_ok_iff.mp h
  have hrow : ∀ cp r, (do
      let usd ← positionImFloor (positions.filter fun b => b.counterparty = cp) table
      pure { acct := acct, cp := cp, usd := usd } : Run ImRequirement) = .ok r →
      r.cp = cp ∧ r.acct = acct ∧
        positionImFloor (positions.filter fun b => b.counterparty = r.cp) table = .ok r.usd := by
    intro cp r hr
    rcases bind_eq_ok.mp hr with ⟨usd, husd, hr⟩
    cases hr
    exact ⟨rfl, rfl, husd⟩
  constructor
  · have hcps := hrows.imp fun cp r hr => (hrow cp r hr).1
    have heq := List.forall₂_eq_eq_eq ▸ List.forall₂_map_right_iff.mpr (hcps.imp fun _ _ => Eq.symm)
    exact heq.symm
  · intro r hr
    rcases exists_of_mem_mapM h hr with ⟨cp, _, hcp⟩
    exact (hrow cp r hcp).2

theorem mem_imRequirementsFor {acct : Address} {rows : List ImRequirement}
    (h : imRequirementsFor acct positions table = .ok rows) {r : ImRequirement} :
    r ∈ rows ↔ r.acct = acct ∧ (∃ b ∈ positions, b.counterparty = r.cp) ∧
      positionImFloor (positions.filter fun b => b.counterparty = r.cp) table = .ok r.usd := by
  rcases imRequirementsFor_ok h with ⟨hcps, hrows⟩
  have hmem : ∀ cp, cp ∈ rows.map ImRequirement.cp ↔ ∃ b ∈ positions, b.counterparty = cp := by
    intro cp
    rw [hcps, mem_sortBy, (counterpartiesOf_spec positions).2]
  constructor
  · intro hr
    rcases hrows r hr with ⟨hacct, husd⟩
    exact ⟨hacct, (hmem r.cp).mp (List.mem_map_of_mem hr), husd⟩
  · intro hr
    rcases hr with ⟨hacct, hfaces, husd⟩
    rcases List.mem_map.mp ((hmem r.cp).mpr hfaces) with ⟨r', hr', hcp⟩
    rcases hrows r' hr' with ⟨hacct', husd'⟩
    rw [hcp] at husd'
    have heq : r' = r := by
      obtain ⟨acct', cp', usd'⟩ := r'
      obtain ⟨acct₀, cp₀, usd₀⟩ := r
      rw [ImRequirement.mk.injEq]
      exact ⟨hacct'.trans hacct.symm, hcp, ok_unique husd' husd⟩
    rw [← heq]
    exact hr'

theorem imRequirementsFor_strict {acct : Address} {rows : List ImRequirement}
    (h : imRequirementsFor acct positions table = .ok rows) :
    StrictBy ImRequirement.cp rows := by
  have hcps := (imRequirementsFor_ok h).1
  have hstrict : StrictBy id (sortBy id (counterpartiesOf positions)) := by
    apply sortBy_strict
    rw [List.map_id]
    exact (counterpartiesOf_spec positions).1
  rw [← hcps] at hstrict
  exact List.pairwise_map.mp hstrict

/-- The order in which a book is listed does not change its requirement rows. -/
theorem imRequirementsFor_perm (hperm : positions.Perm positions') {acct : Address}
    {rows rows' : List ImRequirement} (h : imRequirementsFor acct positions table = .ok rows)
    (h' : imRequirementsFor acct positions' table = .ok rows') : rows = rows' := by
  have hsub : ∀ {xs ys : List PositionRecord} {rs rs' : List ImRequirement}, xs.Perm ys →
      imRequirementsFor acct xs table = .ok rs → imRequirementsFor acct ys table = .ok rs' →
        ∀ r ∈ rs, r ∈ rs' := by
    intro xs ys rs rs' hxy hxs hys r hr
    rcases (mem_imRequirementsFor hxs).mp hr with ⟨hacct, ⟨b, hb, hcp⟩, husd⟩
    have hface : r.cp ∈ rs'.map ImRequirement.cp := by
      rw [(imRequirementsFor_ok hys).1, mem_sortBy, (counterpartiesOf_spec ys).2]
      exact ⟨b, hxy.mem_iff.mp hb, hcp⟩
    rcases List.mem_map.mp hface with ⟨r', hr', hcp'⟩
    have husd' := ((imRequirementsFor_ok hys).2 r' hr').2
    rw [hcp'] at husd'
    apply (mem_imRequirementsFor hys).mpr
    refine ⟨hacct, ⟨b, hxy.mem_iff.mp hb, hcp⟩, ?_⟩
    rw [positionImFloor_perm (hxy.filter _) husd husd']
    exact husd'
  have hstrict := imRequirementsFor_strict h
  have hstrict' := imRequirementsFor_strict h'
  apply eq_of_perm_of_strict hstrict hstrict'
  rw [List.perm_ext_iff_of_nodup (List.Nodup.of_map _ hstrict.nodup_map)
    (List.Nodup.of_map _ hstrict'.nodup_map)]
  intro r
  exact ⟨hsub hperm h h' r, hsub hperm.symm h' h r⟩

/-- Two markets that move against each other, one scenario each way. -/
def crossTable : ScenarioTable where
  version := 1
  k := 2
  m := 1
  marketKeys := [8, 9]
  rows :=
    [[(0, -100000000000000000), (1, 200000000000000000)],
     [(0, 50000000000000000), (1, -40000000000000000)]]

/-- Three seats against one counterparty, long on a market and short on the other, and one
seat against another. -/
def crossBook : List PositionRecord :=
  [{ oldLeg with pushedIm := 50000 },
   { oldLeg with termsId := 6, counterparty := 12 },
   { oldLeg with termsId := 7, side := -1, pushedIm := 30000, marketKey := 9 },
   { oldLeg with termsId := 9, notional := 500000, pushedIm := 20000 }]

def crossRows : List ImRequirement :=
  [{ acct := 10, cp := 11, usd := 350000 }, { acct := 10, cp := 12, usd := 100000 }]

/-- Listed backwards, the netting set still loses on both markets at once. -/
theorem imRequirementsFor_perm_cross :
    ∃ rows : List ImRequirement,
      imRequirementsFor 10 crossBook.reverse crossTable = .ok rows ∧ crossRows = rows := by
  have hcross : imRequirementsFor 10 crossBook crossTable = .ok crossRows := by
    decide +kernel
  cases hrun : imRequirementsFor 10 crossBook.reverse crossTable with
  | error e =>
      have hrows : (imRequirementsFor 10 crossBook.reverse crossTable).isOk = true := by
        decide +kernel
      rw [hrun] at hrows
      cases hrows
  | ok rows =>
      exact ⟨rows, rfl, imRequirementsFor_perm crossBook.reverse_perm.symm hcross hrun⟩

/-! ## The zero rows -/

/-- The final book of a party holds a position against the other. -/
def Faces (posts : List AccountPost) (acct cp : Address) : Prop :=
  ∃ p ∈ posts, p.owner = acct ∧ ∃ b ∈ p.positions, b.counterparty = cp

/-- Both directions of every unwind. -/
def unwoundPairs (unwinds : List Unwind) : List (Address × Address) :=
  unwinds.flatMap fun u => [(u.partyA, u.partyB), (u.partyB, u.partyA)]

/-- Over distinct owners the first row found is the owner's only one. -/
theorem stillFaces_iff {posts : List AccountPost} (hnodup : (posts.map AccountPost.owner).Nodup)
    (pair : Address × Address) :
    ((posts.find? fun p => p.owner = pair.1).map fun p =>
      p.positions.any fun b => b.counterparty = pair.2).getD false = true ↔
        Faces posts pair.1 pair.2 := by
  induction posts with
  | nil => simp [Faces]
  | cons p rest ih =>
      rw [List.map_cons, List.nodup_cons] at hnodup
      by_cases hown : p.owner = pair.1
      · rw [List.find?_cons_of_pos (by simpa using hown)]
        rw [Option.map_some, Option.getD_some, List.any_eq_true]
        constructor
        · intro h
          rcases h with ⟨b, hb, hcp⟩
          exact ⟨p, List.mem_cons_self, hown, b, hb, of_decide_eq_true hcp⟩
        · intro h
          rcases h with ⟨q, hq, hqown, b, hb, hcp⟩
          have hself : q = p := by
            rcases List.mem_cons.mp hq with hself | hrest
            · exact hself
            · apply absurd _ hnodup.1
              rw [hown, ← hqown]
              exact List.mem_map_of_mem hrest
          rw [hself] at hb
          exact ⟨b, hb, decide_eq_true hcp⟩
      · rw [List.find?_cons_of_neg (by simpa using hown), ih hnodup.2]
        unfold Faces
        constructor
        · intro h
          rcases h with ⟨q, hq, hrest⟩
          exact ⟨q, List.mem_cons_of_mem _ hq, hrest⟩
        · intro h
          rcases h with ⟨q, hq, hqown, hrest⟩
          rcases List.mem_cons.mp hq with rfl | hmem
          · exact absurd hqown hown
          · exact ⟨q, hmem, hqown, hrest⟩

/-- The key of a requirement row. -/
def ImRequirement.pair (r : ImRequirement) : Address × Address :=
  (r.acct, r.cp)

/-- A zero row is added for a pair that faces no more and has no row. -/
theorem zeroRow_eq {posts : List AccountPost} (hnodup : (posts.map AccountPost.owner).Nodup)
    (reqs : List ImRequirement) (e : Address × Address) :
    (¬Faces posts e.1 e.2 ∧ e ∉ reqs.map ImRequirement.pair ∧
      zeroRow posts reqs e = reqs ++ [{ acct := e.1, cp := e.2, usd := 0 }]) ∨
    ((Faces posts e.1 e.2 ∨ e ∈ reqs.map ImRequirement.pair) ∧ zeroRow posts reqs e = reqs) := by
  have hface := stillFaces_iff hnodup e
  have hemitted : (reqs.any fun r => decide (r.acct = e.1) && decide (r.cp = e.2)) = true ↔
      e ∈ reqs.map ImRequirement.pair := by
    rw [List.any_eq_true, List.mem_map]
    constructor
    · intro h
      rcases h with ⟨r, hr, hkey⟩
      simp only [Bool.and_eq_true, decide_eq_true_eq] at hkey
      exact ⟨r, hr, Prod.ext hkey.1 hkey.2⟩
    · intro h
      rcases h with ⟨r, hr, rfl⟩
      exact ⟨r, hr, by simp [ImRequirement.pair]⟩
  by_cases hadd : ¬Faces posts e.1 e.2 ∧ e ∉ reqs.map ImRequirement.pair
  · left
    refine ⟨hadd.1, hadd.2, ?_⟩
    unfold zeroRow
    rw [← hface, ← hemitted, Bool.not_eq_true, Bool.not_eq_true] at hadd
    rw [hadd.1, hadd.2]
    rfl
  · right
    have hkeep : Faces posts e.1 e.2 ∨ e ∈ reqs.map ImRequirement.pair := by tauto
    refine ⟨hkeep, ?_⟩
    unfold zeroRow
    rw [← hface, ← hemitted] at hkeep
    rcases hkeep with hfaces | hrow
    · rw [hfaces]
      rfl
    · rw [hrow]
      exact if_neg (by simp)

/-- The rows after one pair. -/
theorem mem_zeroRow {posts : List AccountPost} (hnodup : (posts.map AccountPost.owner).Nodup)
    (reqs : List ImRequirement) (e : Address × Address) :
    (∀ r, r ∈ zeroRow posts reqs e ↔ r ∈ reqs ∨
      (r.usd = 0 ∧ r.pair = e ∧ ¬Faces posts r.acct r.cp ∧
        r.pair ∉ reqs.map ImRequirement.pair)) ∧
    (∀ k, k ∈ (zeroRow posts reqs e).map ImRequirement.pair ↔
      k ∈ reqs.map ImRequirement.pair ∨ (k = e ∧ ¬Faces posts k.1 k.2)) ∧
    ((reqs.map ImRequirement.pair).Nodup →
      ((zeroRow posts reqs e).map ImRequirement.pair).Nodup) := by
  rcases zeroRow_eq hnodup reqs e with ⟨hface, hnew, hstep⟩ | ⟨hkeep, hstep⟩
  · rw [hstep]
    refine ⟨?_, ?_, ?_⟩
    · intro r
      rw [List.mem_append, List.mem_singleton]
      apply or_congr_right
      constructor
      · intro hr
        rw [hr]
        exact ⟨rfl, rfl, hface, hnew⟩
      · intro hr
        rcases hr with ⟨husd, hpair, _⟩
        obtain ⟨acct, cp, usd⟩ := r
        rw [← hpair, ImRequirement.mk.injEq]
        exact ⟨rfl, rfl, husd⟩
    · intro k
      rw [List.map_append, List.mem_append, List.map_singleton, List.mem_singleton]
      apply or_congr_right
      constructor
      · intro hk
        rw [hk]
        exact ⟨rfl, hface⟩
      · intro hk
        exact hk.1
    · intro hkeys
      rw [List.map_append, List.nodup_append]
      refine ⟨hkeys, List.nodup_singleton _, ?_⟩
      intro x hx y hy hxy
      rw [List.map_singleton, List.mem_singleton] at hy
      apply hnew
      rw [hxy, hy] at hx
      exact hx
  · rw [hstep]
    refine ⟨?_, ?_, fun hkeys => hkeys⟩
    · intro r
      constructor
      · exact Or.inl
      · rintro (hr | ⟨_, hpair, hface, hnew⟩)
        · exact hr
        · rw [← hpair] at hkeep
          exact absurd hkeep (not_or.mpr ⟨hface, hnew⟩)
    · intro k
      constructor
      · exact Or.inl
      · rintro (hk | ⟨rfl, hface⟩)
        · exact hk
        · exact hkeep.resolve_left hface

/-- The zero rows are those of the pairs that neither face each other nor have a row. -/
theorem mem_zeroRows {posts : List AccountPost} (hnodup : (posts.map AccountPost.owner).Nodup)
    (pairs : List (Address × Address)) (reqs : List ImRequirement) :
    (∀ r, r ∈ pairs.foldl (zeroRow posts) reqs ↔ r ∈ reqs ∨
      (r.usd = 0 ∧ r.pair ∈ pairs ∧ ¬Faces posts r.acct r.cp ∧
        r.pair ∉ reqs.map ImRequirement.pair)) ∧
    ((reqs.map ImRequirement.pair).Nodup →
      ((pairs.foldl (zeroRow posts) reqs).map ImRequirement.pair).Nodup) := by
  induction pairs generalizing reqs with
  | nil => simp
  | cons e rest ih =>
      rcases mem_zeroRow hnodup reqs e with ⟨hrow, hkey, hnodups⟩
      rcases ih (zeroRow posts reqs e) with ⟨hrows, hrest⟩
      rw [List.foldl_cons]
      refine ⟨?_, fun hkeys => hrest (hnodups hkeys)⟩
      intro r
      have hface : Faces posts r.pair.1 r.pair.2 ↔ Faces posts r.acct r.cp := Iff.rfl
      rw [hrows, hrow, hkey, hface, List.mem_cons]
      tauto

/-! ## The rows of a fold -/

variable {posts : List AccountPost} {unwinds : List Unwind} {reqs : List ImRequirement}

/-- Books of distinct owners have no row of one party and counterparty twice. -/
theorem flatten_pairs_nodup (hnodup : (posts.map AccountPost.owner).Nodup)
    {rows : List (List ImRequirement)}
    (h : List.Forall₂ (fun p own => imRequirementsFor p.owner p.positions table = .ok own)
      posts rows) : (rows.flatten.map ImRequirement.pair).Nodup := by
  induction h with
  | nil => exact List.nodup_nil
  | @cons p own posts rows hown hrest ih =>
      rw [List.map_cons, List.nodup_cons] at hnodup
      rw [List.flatten_cons, List.map_append, List.nodup_append]
      refine ⟨?_, ih hnodup.2, ?_⟩
      · have hcps : (own.map ImRequirement.cp).Nodup := (imRequirementsFor_strict hown).nodup_map
        apply List.Nodup.of_map Prod.snd
        rw [List.map_map]
        exact hcps
      · intro x hx y hy hxy
        rcases List.mem_map.mp hx with ⟨r, hr, rfl⟩
        rcases List.mem_map.mp hy with ⟨r', hr', rfl⟩
        rcases List.mem_flatten.mp hr' with ⟨other, hother, hr'⟩
        rcases exists_of_mem_mapM (mapM_eq_ok_iff.mpr hrest) hother with ⟨q, hq, hrun⟩
        have hacct := ((mem_imRequirementsFor hown).mp hr).1
        have hacct' := ((mem_imRequirementsFor hrun).mp hr').1
        apply hnodup.1
        rw [← hacct, (Prod.mk.inj hxy).1, hacct']
        exact List.mem_map_of_mem hq

/-- The requirement rows over final books of distinct owners. -/
theorem requirementsOf_ok (hnodup : (posts.map AccountPost.owner).Nodup)
    (h : requirementsOf posts unwinds table = .ok reqs) :
    (reqs.map ImRequirement.pair).Nodup ∧
      (∀ r, r ∈ reqs ↔
        (∃ p ∈ posts, p.owner = r.acct ∧ (∃ b ∈ p.positions, b.counterparty = r.cp) ∧
          positionImFloor (p.positions.filter fun b => b.counterparty = r.cp) table = .ok r.usd) ∨
        (r.usd = 0 ∧ r.pair ∈ unwoundPairs unwinds ∧ ¬Faces posts r.acct r.cp)) ∧
      ∀ pair, Faces posts pair.1 pair.2 ∨ pair ∈ unwoundPairs unwinds →
        ∃ r ∈ reqs, r.pair = pair := by
  rcases bind_eq_ok.mp h with ⟨rows, hrows, h⟩
  cases h
  have hbooks : ∀ r, r ∈ rows.flatten ↔
      ∃ p ∈ posts, p.owner = r.acct ∧ (∃ b ∈ p.positions, b.counterparty = r.cp) ∧
        positionImFloor (p.positions.filter fun b => b.counterparty = r.cp) table = .ok r.usd := by
    intro r
    rw [List.mem_flatten]
    constructor
    · intro hr
      rcases hr with ⟨own, hown, hr⟩
      rcases exists_of_mem_mapM hrows hown with ⟨p, hp, hrun⟩
      rcases (mem_imRequirementsFor hrun).mp hr with ⟨hacct, hrest⟩
      exact ⟨p, hp, hacct.symm, hrest⟩
    · intro hr
      rcases hr with ⟨p, hp, hacct, hrest⟩
      rcases exists_of_mapM hrows hp with ⟨own, hown, hrun⟩
      exact ⟨own, hown, (mem_imRequirementsFor hrun).mpr ⟨hacct.symm, hrest⟩⟩
  have hkeys := flatten_pairs_nodup hnodup (mapM_eq_ok_iff.mp hrows)
  have hpairs : ∀ r : ImRequirement, ¬Faces posts r.acct r.cp → r.pair ∉ rows.flatten.map ImRequirement.pair := by
    intro r hface hmem
    rcases List.mem_map.mp hmem with ⟨r', hr', hpair⟩
    rcases (hbooks r').mp hr' with ⟨p, hp, hacct, hfaces, _⟩
    rcases Prod.mk.inj hpair with ⟨hsame, hcp⟩
    rw [hsame] at hacct
    rw [hcp] at hfaces
    exact hface ⟨p, hp, hacct, hfaces⟩
  rcases mem_zeroRows hnodup (unwoundPairs unwinds) rows.flatten with ⟨hiff, hzero⟩
  refine ⟨hzero hkeys, ?_, ?_⟩
  · intro r
    have hr := hiff r
    rw [hbooks] at hr
    refine hr.trans (or_congr_right ?_)
    constructor
    · intro hrow
      exact ⟨hrow.1, hrow.2.1, hrow.2.2.1⟩
    · intro hrow
      exact ⟨hrow.1, hrow.2.1, hrow.2.2, hpairs r hrow.2.2⟩
  · intro pair hpair
    by_cases hface : Faces posts pair.1 pair.2
    · obtain ⟨p, hp, howner, b, hb, hcp⟩ := hface
      obtain ⟨own, hown, hrun⟩ := exists_of_mapM hrows hp
      have hcps : pair.2 ∈ own.map ImRequirement.cp := by
        rw [(imRequirementsFor_ok hrun).1, mem_sortBy, (counterpartiesOf_spec p.positions).2]
        exact ⟨b, hb, hcp⟩
      obtain ⟨r, hr, hrcp⟩ := List.mem_map.mp hcps
      refine ⟨r, (hiff r).mpr (.inl (List.mem_flatten.mpr ⟨own, hown, hr⟩)), ?_⟩
      exact Prod.ext (((mem_imRequirementsFor hrun).mp hr).1.trans howner) hrcp
    · refine ⟨{ acct := pair.1, cp := pair.2, usd := 0 }, ?_, rfl⟩
      apply (hiff _).mpr
      exact .inr ⟨rfl, hpair.resolve_left hface, hface, hpairs _ hface⟩

section Fold

variable [Primitives]

/-- The final books of a completed fold have distinct owners. -/
theorem Stages.Completed.owners_nodup {inp : StateTransitionInputs} {st : Stages}
    (h : st.Completed inp) : (st.closed.posts.map AccountPost.owner).Nodup := by
  have howners : st.closed.posts.map AccountPost.owner = ownersIn inp.rows := by
    have hsame := h.posts_of.imp fun p ta hof => hof.owner
    rw [ownersIn, StateTransitionInputs.rows, List.map_map]
    exact List.forall₂_eq_eq_eq ▸
      List.forall₂_map_left_iff.mpr (List.forall₂_map_right_iff.mpr hsame)
  rw [howners]
  exact h.rows_nodup

/-- The requirement rows of an accepted fold, handoffs and unwinds included: ascending by
party and counterparty, one row at most for each pair, and one for each party and
counterparty whose final book faces it and for each direction of an unwind.  A party whose
final book faces a counterparty has the requirement of that netting set; a direction of an
unwind that no longer faces has a zero; there is no other row. -/
theorem mem_imRequirements_iff {inp : StateTransitionInputs} {out : StateTransitionOutputs}
    (h : stateTransition inp = .ok out) :
    ∃ st : Stages, st.Completed inp ∧ out = st.outputs inp ∧
      StrictBy (fun r => toLex (r.acct, r.cp)) out.imRequirements ∧
      (∀ r, r ∈ out.imRequirements ↔
        (∃ p ∈ st.closed.posts, p.owner = r.acct ∧
          (∃ b ∈ p.positions, b.counterparty = r.cp) ∧
          positionImFloor (p.positions.filter fun b => b.counterparty = r.cp)
            inp.scenarioTable = .ok r.usd) ∨
        (r.usd = 0 ∧ r.pair ∈ unwoundPairs inp.unwinds ∧
          ¬Faces st.closed.posts r.acct r.cp)) ∧
      ∀ pair, Faces st.closed.posts pair.1 pair.2 ∨ pair ∈ unwoundPairs inp.unwinds →
        ∃ r ∈ out.imRequirements, r.pair = pair := by
  obtain ⟨st, hst, rfl⟩ := stateTransition_ok_iff.mp h
  obtain ⟨hkeys, hiff, hfaced⟩ := requirementsOf_ok hst.owners_nodup hst.required
  refine ⟨st, hst, rfl, ?_, ?_, ?_⟩
  · apply sortBy_strict
    apply List.Nodup.of_map (fun k => ofLex k)
    rw [List.map_map]
    exact hkeys
  · intro r
    rw [← hiff r]
    exact mem_sortBy
  · intro pair hpair
    obtain ⟨r, hr, hkey⟩ := hfaced pair hpair
    exact ⟨r, mem_sortBy.mpr hr, hkey⟩

end Fold

section Concrete

attribute [local instance] signingPrimitives

theorem unwindFold_posts :
    ((postsOf unwindFold).toOption.getD []).all (fun p => p.positions.isEmpty) = true := by
  decide +kernel

/-- Nobody faces after the tear-up, so both its directions have a zero and nothing else has
a row. -/
theorem mem_imRequirements_iff_tornUp :
    ∃ out : StateTransitionOutputs, stateTransition unwindFold = .ok out ∧
      (∀ r ∈ out.imRequirements, r.usd = 0) ∧
      (∃ r ∈ out.imRequirements, r.pair = (maker, taker)) ∧
      ∃ r ∈ out.imRequirements, r.pair = (taker, maker) := by
  cases hrun : stateTransition unwindFold with
  | error e =>
      have haccepted := unwindFold_accepted
      rw [hrun] at haccepted
      cases haccepted
  | ok out =>
      obtain ⟨st, hst, _, _, hrows, hfaced⟩ := mem_imRequirements_iff hrun
      have hempty := unwindFold_posts
      rw [hst.postsOf_eq] at hempty
      refine ⟨out, rfl, ?_, ?_, ?_⟩
      · intro r hr
        rcases (hrows r).mp hr with ⟨p, hp, _, ⟨b, hb, _⟩, _⟩ | ⟨hzero, _, _⟩
        · have hnone := List.isEmpty_iff.mp (List.all_eq_true.mp hempty p hp)
          rw [hnone] at hb
          cases hb
        · exact hzero
      · exact hfaced _ (.inr List.mem_cons_self)
      · exact hfaced _ (.inr (List.mem_cons_of_mem _ List.mem_cons_self))

end Concrete

end StateKeeper
