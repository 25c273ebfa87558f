import StateKeeper.Engine.ResolveSpec
import StateKeeper.Foundation.SaturatingSum

/-!
# Engine - What a row's marks make

Each position that finds a mark is valued at it; the row's VM is the saturating
sum of these values in book order.

Main results:

- Theorem {lit}`accountVmFromMarks_ok_iff`: when a book is marked, and its VM.
- Theorem {lit}`positionVm_neg`: the seats of a trade have opposite values.
- Theorem {lit}`accountVm_toInt`: the VM is the clamped sum of the values.
-/

namespace StateKeeper

open Words Fallible SortedKeys SaturatingSum

/-- The seats of a book that find a mark, with the mark. -/
def markedSeats (provenMarks : List ProvenMark) (positions : List PositionRecord) :
    List (PositionRecord × ProvenMark) :=
  positions.filterMap fun b => (boundMark provenMarks b).map fun m => (b, m)

/-- The value of a seat at a mark. -/
def markSeat (e : PositionRecord × ProvenMark) : Run I128 := do
  let mark1e6 ← settleNativeTo1e6 e.2.price e.2.expo
  pure (positionVm e.1.entryRate mark1e6 e.1.notional e.1.side)

theorem mem_markedSeats {provenMarks : List ProvenMark} {positions : List PositionRecord}
    {e : PositionRecord × ProvenMark} :
    e ∈ markedSeats provenMarks positions ↔
      e.1 ∈ positions ∧ boundMark provenMarks e.1 = some e.2 := by
  rcases e with ⟨b, m⟩
  simp only [markedSeats, List.mem_filterMap, Option.map_eq_some_iff, Prod.mk.injEq]
  constructor
  · intro h
    rcases h with ⟨b', hb', m', hm', rfl, rfl⟩
    exact ⟨hb', hm'⟩
  · intro h
    exact ⟨b, h.1, m, h.2, rfl, rfl⟩

/-- The accumulating loop over a book sums the values of its marked seats in order. -/
theorem markLoop_ok_iff {provenMarks : List ProvenMark} {positions : List PositionRecord}
    {acc result : I128 × List ConsumedMark} :
    (positions.foldlM (fun (acc : I128 × List ConsumedMark) b =>
      match boundMark provenMarks b with
      | some m => do
          let mark1e6 ← settleNativeTo1e6 m.price m.expo
          pure (satAddI acc.1 (positionVm b.entryRate mark1e6 b.notional b.side),
            acc.2 ++ [m.consumed])
      | none => pure acc) acc : Run _) = .ok result ↔
      ∃ vms, (markedSeats provenMarks positions).mapM markSeat = .ok vms ∧
        result = (vms.foldl satAddI acc.1,
          acc.2 ++ (markedSeats provenMarks positions).map fun e => e.2.consumed) := by
  induction positions generalizing acc with
  | nil =>
      constructor
      · intro h
        exact ⟨[], rfl, by simpa [markedSeats] using (Except.ok.inj h).symm⟩
      · intro h
        rcases h with ⟨vms, hvms, rfl⟩
        cases hvms
        simp [markedSeats]
  | cons b positions ih =>
      rw [List.foldlM_cons]
      cases hb : boundMark provenMarks b with
      | none =>
          have hseats : markedSeats provenMarks (b :: positions) =
              markedSeats provenMarks positions := by
            simp [markedSeats, hb]
          rw [hseats]
          exact ih
      | some m =>
          have hseats : markedSeats provenMarks (b :: positions) =
              (b, m) :: markedSeats provenMarks positions := by
            simp [markedSeats, hb]
          simp only [hseats, List.mapM_cons, List.map_cons, markSeat]
          cases settleNativeTo1e6 m.price m.expo with
          | error e => simp
          | ok mark1e6 =>
              change List.foldlM _ (satAddI acc.1 (positionVm b.entryRate mark1e6 b.notional b.side),
                acc.2 ++ [m.consumed]) positions = _ ↔ _
              rw [ih]
              constructor
              · intro h
                rcases h with ⟨vms, hvms, rfl⟩
                refine ⟨positionVm b.entryRate mark1e6 b.notional b.side :: vms, ?_, by simp⟩
                change (do
                  let vms ← (markedSeats provenMarks positions).mapM markSeat
                  pure (positionVm b.entryRate mark1e6 b.notional b.side :: vms)) = _
                rw [hvms]
                rfl
              · intro h
                rcases h with ⟨vms, hvms, rfl⟩
                rcases bind_eq_ok.mp hvms with ⟨v, hv, hrest⟩
                cases hv
                rcases bind_eq_ok.mp hrest with ⟨rest, hmarked, hcons⟩
                cases hcons
                exact ⟨rest, hmarked, by simp⟩

/-- A book is marked when no pair has two marks and every marked seat is valued; the VM is
the saturating sum of the values in book order. -/
theorem accountVmFromMarks_ok_iff {positions : List PositionRecord}
    {provenMarks : List ProvenMark} {result : I128 × List ConsumedMark} :
    accountVmFromMarks positions provenMarks = .ok result ↔
      (provenMarks.map fun m => feedIdOracle m.feedId).Nodup ∧
      ∃ vms, (markedSeats provenMarks positions).mapM markSeat = .ok vms ∧
        result = (vms.foldl satAddI 0,
          (markedSeats provenMarks positions).map fun e => e.2.consumed) := by
  unfold accountVmFromMarks
  rw [bind_eq_ok]
  constructor
  · intro h
    rcases h with ⟨_, hunique, hloop⟩
    exact ⟨assertUniqueProvenMarks_eq_ok.mp hunique, markLoop_ok_iff.mp hloop⟩
  · intro h
    rcases h with ⟨hunique, hloop⟩
    exact ⟨(), assertUniqueProvenMarks_eq_ok.mpr hunique, markLoop_ok_iff.mpr hloop⟩

/-- Marks that a book's positions find alike make the same VM. -/
theorem accountVmFromMarks_congr {positions : List PositionRecord}
    {provenMarks provenMarks' : List ProvenMark} {result : I128 × List ConsumedMark}
    (hfound : ∀ b ∈ positions, boundMark provenMarks' b = boundMark provenMarks b)
    (hunique : (provenMarks'.map fun m => feedIdOracle m.feedId).Nodup)
    (h : accountVmFromMarks positions provenMarks = .ok result) :
    accountVmFromMarks positions provenMarks' = .ok result := by
  have hseats : markedSeats provenMarks' positions = markedSeats provenMarks positions := by
    unfold markedSeats
    refine List.filterMap_congr fun b hb => ?_
    rw [hfound b hb]
  rw [accountVmFromMarks_ok_iff, hseats]
  exact ⟨hunique, (accountVmFromMarks_ok_iff.mp h).2⟩

/-! ## One value -/

/-- Negating a non-negative word never saturates. -/
theorem satNegI_toInt {a : I128} (h : 0 ≤ a.toInt) : (satNegI a).toInt = -a.toInt := by
  have hmax : a.toInt ≤ i128Max := Int.le_sub_one_of_lt BitVec.toInt_lt
  rw [satNegI, clampI128_toInt]
  unfold i128Min i128Max at *
  omega

/-- The two seats of a trade realize opposite values, whatever the multiplication clamps. -/
theorem positionVm_neg (entryRate settlePrice notional : U128) {side : I8}
    (hside : side = 1 ∨ side = -1) :
    (positionVm entryRate settlePrice notional (-side)).toInt =
      -(positionVm entryRate settlePrice notional side).toInt := by
  unfold positionVm
  split
  · rfl
  · have hmag : ∀ mag : U128, 0 ≤ (clampI128 mag.toNat).toInt := by
      intro mag
      rw [clampI128_toInt]
      unfold i128Max
      omega
    rcases hside with rfl | rfl
    · cases hdown : decide (settlePrice < entryRate) with
      | false => exact satNegI_toInt (hmag _)
      | true =>
          change _ = -(satNegI _).toInt
          rw [satNegI_toInt (hmag _)]
          exact (neg_neg _).symm
    · cases hdown : decide (settlePrice < entryRate) with
      | false =>
          change _ = -(satNegI _).toInt
          rw [satNegI_toInt (hmag _)]
          exact (neg_neg _).symm
      | true => exact satNegI_toInt (hmag _)

/-! ## The VM as a sum of values -/

/-- The value of a position at the mark it finds, zero without one. -/
def markValue (provenMarks : List ProvenMark) (b : PositionRecord) : I128 :=
  match boundMark provenMarks b with
  | some m =>
      match settleNativeTo1e6 m.price m.expo with
      | .ok mark1e6 => positionVm b.entryRate mark1e6 b.notional b.side
      | .error _ => 0
  | none => 0

/-- The values of a book, as integers. -/
def markValues (provenMarks : List ProvenMark) (positions : List PositionRecord) : List Int :=
  positions.map fun b => (markValue provenMarks b).toInt

theorem markSeat_eq_ok {provenMarks : List ProvenMark} {b : PositionRecord} {m : ProvenMark}
    {v : I128} (hb : boundMark provenMarks b = some m) (h : markSeat (b, m) = .ok v) :
    markValue provenMarks b = v := by
  rcases bind_eq_ok.mp h with ⟨mark1e6, hmark, hv⟩
  change settleNativeTo1e6 m.price m.expo = .ok mark1e6 at hmark
  rw [markValue, hb]
  simp only [hmark]
  exact Except.ok.inj hv

theorem toInt_zeroI : (0 : I128).toInt = 0 := by
  decide

/-- Positions without a mark add nothing. -/
theorem satSum_markValues {provenMarks : List ProvenMark} {positions : List PositionRecord}
    {vms : List I128} (h : (markedSeats provenMarks positions).mapM markSeat = .ok vms) {s : Int}
    (hlo : i128Min ≤ s) (hhi : s ≤ i128Max) :
    satSum i128Min i128Max s (vms.map BitVec.toInt) =
      satSum i128Min i128Max s (markValues provenMarks positions) := by
  have hrange : i128Min ≤ i128Max := by decide
  induction positions generalizing vms s with
  | nil =>
      cases h
      rfl
  | cons b positions ih =>
      cases hb : boundMark provenMarks b with
      | none =>
          have hseats : markedSeats provenMarks (b :: positions) =
              markedSeats provenMarks positions := by
            simp [markedSeats, hb]
          have hzero : markValue provenMarks b = 0 := by rw [markValue, hb]
          have hstep : satStep i128Min i128Max s (markValue provenMarks b).toInt = s := by
            rw [hzero, toInt_zeroI, satStep]
            omega
          rw [hseats] at h
          rw [markValues, List.map_cons, satSum_cons, hstep]
          exact ih h hlo hhi
      | some m =>
          have hseats : markedSeats provenMarks (b :: positions) =
              (b, m) :: markedSeats provenMarks positions := by
            simp [markedSeats, hb]
          rw [hseats, List.mapM_cons] at h
          rcases bind_eq_ok.mp h with ⟨v, hv, hrest⟩
          rcases bind_eq_ok.mp hrest with ⟨vs, hvs, hcons⟩
          cases hcons
          rw [markValues, List.map_cons, List.map_cons, satSum_cons, satSum_cons,
            markSeat_eq_ok hb hv]
          have hstep : i128Min ≤ satSum i128Min i128Max s [v.toInt] ∧
              satSum i128Min i128Max s [v.toInt] ≤ i128Max := satSum_mem hrange hlo hhi
          exact ih hvs hstep.1 hstep.2

/-- The VM of a marked book is the clamped sum of its values in order. -/
theorem accountVm_toInt {positions : List PositionRecord} {provenMarks : List ProvenMark}
    {result : I128 × List ConsumedMark} (h : accountVmFromMarks positions provenMarks = .ok result) :
    result.1.toInt = satSum i128Min i128Max 0 (markValues provenMarks positions) := by
  rcases accountVmFromMarks_ok_iff.mp h with ⟨_, vms, hvms, rfl⟩
  rw [foldl_satAddI_toInt, toInt_zeroI]
  exact satSum_markValues hvms (by decide) (by decide)

/-- A book is marked exactly when no pair has two marks and every marked seat is valued. -/
theorem accountVmFromMarks_finished_iff {positions : List PositionRecord}
    {provenMarks : List ProvenMark} :
    Finished (accountVmFromMarks positions provenMarks) ↔
      (provenMarks.map fun m => feedIdOracle m.feedId).Nodup ∧
      ∀ e ∈ markedSeats provenMarks positions, Finished (markSeat e) := by
  constructor
  · intro h
    rcases h with ⟨result, hresult⟩
    rcases accountVmFromMarks_ok_iff.mp hresult with ⟨hunique, vms, hvms, _⟩
    refine ⟨hunique, fun e he => ?_⟩
    rcases exists_of_mapM hvms he with ⟨v, _, hv⟩
    exact ⟨v, hv⟩
  · intro h
    rcases mapM_finished h.2 with ⟨vms, hvms⟩
    exact ⟨_, accountVmFromMarks_ok_iff.mpr ⟨h.1, vms, hvms, rfl⟩⟩

end StateKeeper
