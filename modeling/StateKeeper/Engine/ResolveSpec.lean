import StateKeeper.Engine.OpenSpec
import StateKeeper.Engine.Resolve

/-!
# Engine - What a row's resolve does

A position is retired exactly when its pair is not paused and a price of its row
binds it; the survivors re-root in order, and their marks make the new VM.

Main results:

- Theorem {lit}`positionSettlements_ok_iff`: when the settlements of a book are
  computed, and what they are.
- Theorems {lit}`survivingOf_eq`, {lit}`survivorsForVm_eq`: the two survivor lists
  are the unretired positions.
- Theorem {lit}`resolveAccount_ok_iff`: the result of a row's resolve.
-/

namespace StateKeeper

open Words Fallible SortedKeys

/-! ## Settlements from proven prices -/

/-- A list of prices has one price a key when the check passes. -/
theorem assertUniquePositionTwaps_eq_ok {provenTwaps : List ProvenTwap} {u : Unit} :
    assertUniquePositionTwaps provenTwaps = .ok u ↔
      (provenTwaps.map ProvenTwap.bindingKey).Nodup := by
  rw [assertUniquePositionTwaps, assertUniqueKeys, ensure_eq_ok, adjacentDistinct_sort_iff]

/-- A list of marks has one mark a pair when the check passes. -/
theorem assertUniqueProvenMarks_eq_ok {provenMarks : List ProvenMark} {u : Unit} :
    assertUniqueProvenMarks provenMarks = .ok u ↔
      (provenMarks.map fun m => feedIdOracle m.feedId).Nodup := by
  rw [assertUniqueProvenMarks, assertUniqueKeys, ensure_eq_ok, adjacentDistinct_sort_iff]

/-- The seats of a book that find a price, with the price. -/
def boundSeats (provenTwaps : List ProvenTwap) (positions : List PositionRecord) :
    List (PositionRecord × ProvenTwap) :=
  positions.filterMap fun b => (boundTwap provenTwaps b).map fun p => (b, p)

/-- The settlement of a seat at a price that binds it. -/
def settleSeat (e : PositionRecord × ProvenTwap) : Run PositionSettlement := do
  let settle1e6 ← settleNativeTo1e6 e.2.settlePrice e.2.expo
  pure
    { termsId := e.1.termsId
      vmRealized := positionVm e.1.entryRate settle1e6 e.1.notional e.1.side }

theorem mem_boundSeats {provenTwaps : List ProvenTwap} {positions : List PositionRecord}
    {e : PositionRecord × ProvenTwap} :
    e ∈ boundSeats provenTwaps positions ↔
      e.1 ∈ positions ∧ boundTwap provenTwaps e.1 = some e.2 := by
  obtain ⟨b, p⟩ := e
  simp only [boundSeats, List.mem_filterMap, Option.map_eq_some_iff, Prod.mk.injEq]
  constructor
  · rintro ⟨b', hb', p', hp', rfl, rfl⟩
    exact ⟨hb', hp'⟩
  · rintro ⟨hb, hp⟩
    exact ⟨b, hb, p, hp, rfl, rfl⟩

/-- A found price binds the position and is one of the list. -/
theorem boundTwap_eq_some {provenTwaps : List ProvenTwap} {b : PositionRecord} {p : ProvenTwap}
    (h : boundTwap provenTwaps b = some p) : p ∈ provenTwaps ∧ positionTwapBindingOk b p = true :=
  ⟨List.mem_of_find?_eq_some h, List.find?_some h⟩

theorem boundTwap_isSome {provenTwaps : List ProvenTwap} {b : PositionRecord} :
    (boundTwap provenTwaps b).isSome ↔ ∃ p ∈ provenTwaps, positionTwapBindingOk b p = true := by
  rw [boundTwap, List.find?_isSome]

/-- At a binding price the settlement is the seat's. -/
theorem positionSettlementFromTwap_of_binds {b : PositionRecord} {p : ProvenTwap}
    (h : positionTwapBindingOk b p = true) :
    positionSettlementFromTwap b p = some <$> settleSeat (b, p) := by
  unfold positionSettlementFromTwap settleSeat
  rw [h]
  cases settleNativeTo1e6 p.settlePrice p.expo with
  | ok settle1e6 => rfl
  | error e => rfl

/-- The accumulating loop over a book settles its bound seats in order. -/
theorem settleLoop_ok_iff {provenTwaps : List ProvenTwap} {positions : List PositionRecord}
    {acc result : List PositionSettlement × List ConsumedTwap} :
    (positions.foldlM (fun (acc : List PositionSettlement × List ConsumedTwap) b =>
      match boundTwap provenTwaps b with
      | some p => do
          let settled ← positionSettlementFromTwap b p
          let s ← expect settled "binding-ok position must settle"
          pure (acc.1 ++ [s], acc.2 ++ [p.consumed])
      | none => pure acc) acc : Run _) = .ok result ↔
      ∃ ss, (boundSeats provenTwaps positions).mapM settleSeat = .ok ss ∧
        result = (acc.1 ++ ss,
          acc.2 ++ (boundSeats provenTwaps positions).map fun e => e.2.consumed) := by
  induction positions generalizing acc with
  | nil =>
      constructor
      · intro h
        exact ⟨[], rfl, by simpa [boundSeats] using (Except.ok.inj h).symm⟩
      · rintro ⟨ss, hss, rfl⟩
        cases hss
        simp [boundSeats]
  | cons b positions ih =>
      rw [List.foldlM_cons]
      cases hb : boundTwap provenTwaps b with
      | none =>
          have hseats : boundSeats provenTwaps (b :: positions) =
              boundSeats provenTwaps positions := by
            simp [boundSeats, hb]
          rw [hseats]
          exact ih
      | some p =>
          have hseats : boundSeats provenTwaps (b :: positions) =
              (b, p) :: boundSeats provenTwaps positions := by
            simp [boundSeats, hb]
          have hbinds := (boundTwap_eq_some hb).2
          simp only [hseats, List.mapM_cons, List.map_cons,
            positionSettlementFromTwap_of_binds hbinds]
          cases settleSeat (b, p) with
          | error e => simp [Functor.map, Except.map]
          | ok s =>
              change List.foldlM _ (acc.1 ++ [s], acc.2 ++ [p.consumed]) positions = _ ↔ _
              rw [ih]
              constructor
              · rintro ⟨ss, hss, rfl⟩
                exact ⟨s :: ss, by rw [ok_bind, hss]; rfl, by simp⟩
              · rintro ⟨ss, hss, rfl⟩
                rw [ok_bind] at hss
                obtain ⟨rest, hrest, hcons⟩ := bind_eq_ok.mp hss
                cases hcons
                exact ⟨rest, hrest, by simp⟩

/-- The settlements of a book are computed when no key has two prices and every bound
seat settles; the consumed prices are those of the bound seats. -/
theorem positionSettlements_ok_iff {positions : List PositionRecord}
    {provenTwaps : List ProvenTwap} {result : List PositionSettlement × List ConsumedTwap} :
    positionSettlementsFromTwaps positions provenTwaps = .ok result ↔
      (provenTwaps.map ProvenTwap.bindingKey).Nodup ∧
      (boundSeats provenTwaps positions).mapM settleSeat = .ok result.1 ∧
      result.2 = (boundSeats provenTwaps positions).map fun e => e.2.consumed := by
  unfold positionSettlementsFromTwaps
  rw [bind_eq_ok]
  constructor
  · rintro ⟨_, hunique, hloop⟩
    obtain ⟨ss, hss, rfl⟩ := settleLoop_ok_iff.mp hloop
    exact ⟨assertUniquePositionTwaps_eq_ok.mp hunique, by simpa using hss, by simp⟩
  · rintro ⟨hunique, hss, hconsumed⟩
    refine ⟨(), assertUniquePositionTwaps_eq_ok.mpr hunique, settleLoop_ok_iff.mpr ?_⟩
    exact ⟨result.1, hss, by rw [List.nil_append, List.nil_append, ← hconsumed]⟩

/-- Each settlement is named after its seat. -/
theorem settleSeats_ids {seats : List (PositionRecord × ProvenTwap)} {ss : List PositionSettlement}
    (h : seats.mapM settleSeat = .ok ss) :
    ss.map PositionSettlement.termsId = seats.map fun e => e.1.termsId := by
  induction mapM_eq_ok_iff.mp h with
  | nil => rfl
  | cons hseat hrest ih =>
      obtain ⟨settle1e6, -, hs⟩ := bind_eq_ok.mp hseat
      cases hs
      rw [List.map_cons, List.map_cons, ih (mapM_eq_ok_iff.mpr hrest)]

/-- The computed settlements name the bound seats. -/
theorem settlements_name_boundSeats {provenTwaps : List ProvenTwap}
    {positions : List PositionRecord} {ss : List PositionSettlement}
    (h : (boundSeats provenTwaps positions).mapM settleSeat = .ok ss) (ident : Bytes32) :
    (∃ s ∈ ss, s.termsId = ident) ↔
      ∃ b ∈ positions, (boundTwap provenTwaps b).isSome ∧ b.termsId = ident := by
  have hmem : (∃ s ∈ ss, s.termsId = ident) ↔ ident ∈ ss.map PositionSettlement.termsId := by
    simp
  rw [hmem, settleSeats_ids h]
  simp only [List.mem_map, Prod.exists, mem_boundSeats]
  constructor
  · rintro ⟨b, p, ⟨hb, hp⟩, hid⟩
    exact ⟨b, hb, by rw [hp]; rfl, hid⟩
  · rintro ⟨b, hb, hsome, hid⟩
    obtain ⟨p, hp⟩ := Option.isSome_iff_exists.mp hsome
    exact ⟨b, p, ⟨hb, hp⟩, hid⟩

/-! ## Retired positions -/

section Resolve

variable {paused : List Bytes32} {provenTwaps : List ProvenTwap} {positions : List PositionRecord}
  {ss : List PositionSettlement}

/-- Over distinct ids, a settlement names a position exactly when a price binds it. -/
theorem settlement_names_iff (hids : (positions.map PositionRecord.termsId).Nodup)
    (hss : (boundSeats provenTwaps positions).mapM settleSeat = .ok ss) {b : PositionRecord}
    (hb : b ∈ positions) :
    (∃ s ∈ ss, s.termsId = b.termsId) ↔ (boundTwap provenTwaps b).isSome := by
  rw [settlements_name_boundSeats hss]
  constructor
  · rintro ⟨b', hb', hsome, hid⟩
    rwa [← eq_of_key_eq hids hb' hb hid]
  · intro hsome
    exact ⟨b, hb, hsome, rfl⟩

variable [Primitives]

/-- The position is retired: its pair is not paused and a price of its row binds it. -/
def retires (paused : List Bytes32) (provenTwaps : List ProvenTwap) (b : PositionRecord) : Bool :=
  !positionPaused paused b && (boundTwap provenTwaps b).isSome

/-- The positions that stay. -/
def unretired (paused : List Bytes32) (provenTwaps : List ProvenTwap)
    (positions : List PositionRecord) : List PositionRecord :=
  positions.filter fun b => !retires paused provenTwaps b

theorem retires_eq_true {b : PositionRecord} :
    retires paused provenTwaps b = true ↔
      positionPaused paused b = false ∧ ∃ p ∈ provenTwaps, positionTwapBindingOk b p = true := by
  simp only [retires, Bool.and_eq_true, Bool.not_eq_true', boundTwap_isSome]

theorem mem_unretired {b : PositionRecord} :
    b ∈ unretired paused provenTwaps positions ↔
      b ∈ positions ∧ retires paused provenTwaps b = false := by
  simp [unretired]

/-- A position takes a settlement exactly when it is retired. -/
theorem settlementFor_isSome (hids : (positions.map PositionRecord.termsId).Nodup)
    (hss : (boundSeats provenTwaps positions).mapM settleSeat = .ok ss) {b : PositionRecord}
    (hb : b ∈ positions) :
    (settlementFor paused ss b).isSome = retires paused provenTwaps b := by
  unfold settlementFor retires
  cases positionPaused paused b with
  | true => rfl
  | false =>
      have hnames := settlement_names_iff hids hss hb
      rw [Bool.eq_iff_iff]
      simpa using hnames

/-- The PnL a seat realizes at the price it finds, zero without one. -/
def settleValue (provenTwaps : List ProvenTwap) (b : PositionRecord) : I128 :=
  match boundTwap provenTwaps b with
  | some p =>
      match settleNativeTo1e6 p.settlePrice p.expo with
      | .ok settle1e6 => positionVm b.entryRate settle1e6 b.notional b.side
      | .error _ => 0
  | none => 0

/-- A seat takes a settlement exactly when it is retired, and then its own, at its PnL. -/
theorem settlementFor_eq (hids : (positions.map PositionRecord.termsId).Nodup)
    (hss : (boundSeats provenTwaps positions).mapM settleSeat = .ok ss) {b : PositionRecord}
    (hb : b ∈ positions) :
    settlementFor paused ss b =
      if retires paused provenTwaps b then
        some { termsId := b.termsId, vmRealized := settleValue provenTwaps b }
      else none := by
  have hsome : (settlementFor paused ss b).isSome = retires paused provenTwaps b :=
    settlementFor_isSome hids hss hb
  cases hretires : retires paused provenTwaps b with
  | false =>
      rw [hretires] at hsome
      rw [if_neg Bool.false_ne_true]
      exact Option.isNone_iff_eq_none.mp (by simpa using hsome)
  | true =>
      rw [hretires] at hsome
      rw [if_pos rfl]
      rcases Option.isSome_iff_exists.mp hsome with ⟨s, hs⟩
      have hfind : ss.find? (fun s => s.termsId = b.termsId) = some s := by
        unfold settlementFor at hs
        split at hs
        · cases hs
        · exact hs
      have hid : s.termsId = b.termsId := by simpa using List.find?_some hfind
      -- the settlement found is that of a seat of the same id, so of this seat
      rcases exists_of_mem_mapM hss (List.mem_of_find?_eq_some hfind) with ⟨seat, hseat, hsettle⟩
      rcases mem_boundSeats.mp hseat with ⟨hmem, hbound⟩
      rcases bind_eq_ok.mp hsettle with ⟨settle1e6, hprice, hvalue⟩
      cases hvalue
      have hsame : seat.1 = b := eq_of_key_eq hids hmem hb hid
      rw [hs, settleValue, ← hsame, hbound]
      simp only [hprice]

/-- The surviving positions are the unretired ones in canonical order. -/
theorem survivingOf_eq (hids : (positions.map PositionRecord.termsId).Nodup)
    (hss : (boundSeats provenTwaps positions).mapM settleSeat = .ok ss) :
    survivingOf paused ss positions =
      sortBy PositionRecord.termsId (unretired paused provenTwaps positions) := by
  unfold survivingOf unretired
  refine congrArg _ (List.filter_congr fun b hb => ?_)
  rw [← settlementFor_isSome hids hss hb]
  cases settlementFor paused ss b <;> rfl

/-- The positions that make the new VM are the unretired ones. -/
theorem survivorsForVm_eq (hids : (positions.map PositionRecord.termsId).Nodup)
    (hss : (boundSeats provenTwaps positions).mapM settleSeat = .ok ss) :
    survivorsForVm paused ss positions = unretired paused provenTwaps positions := by
  unfold survivorsForVm unretired
  refine List.filter_congr fun b hb => ?_
  have hnames := settlement_names_iff hids hss hb
  have hany : (ss.any fun s => s.termsId = b.termsId) = (boundTwap provenTwaps b).isSome := by
    rw [Bool.eq_iff_iff]
    simpa using hnames
  rw [hany, retires]
  cases positionPaused paused b <;> simp

/-- A row resolves when its ids are distinct and its survivors' margin is computed. -/
theorem resolveAccount_ok_iff {owner : Address} {newVm : I128} {table : ScenarioTable}
    {r : AccountResolve} :
    resolveAccount owner positions ss newVm paused table = .ok r ↔
      (positions.map PositionRecord.termsId).Nodup ∧
      imRequirementsFor owner (survivingOf paused ss positions) table = .ok r.imRequirements ∧
      r.surviving = survivingOf paused ss positions ∧
      r.positionsLive = !r.surviving.isEmpty ∧
      r.vmEquity = (if r.positionsLive then newVm else 0) ∧
      r.positionsRoot = positionsRoot r.surviving ∧
      r.settlements = positions.filterMap (fun p =>
        (settlementFor paused ss p).bind (seatSettlement owner p)) ∧
      r.defaults = [] ∧
      r.outcome =
        (if (positions.filter fun p => (settlementFor paused ss p).isSome).length = 0 then .noOp
         else if r.positionsLive then .settledPerPosition
         else .settled) := by
  unfold resolveAccount
  rw [bind_eq_ok]
  constructor
  · rintro ⟨_, hids, h⟩
    obtain ⟨ims, hims, h⟩ := bind_eq_ok.mp h
    cases h
    exact ⟨assertUniqueTermsId_eq_ok.mp hids, hims, rfl, rfl, rfl, rfl, rfl, rfl, rfl⟩
  · rintro ⟨hids, hims, hsurviving, hlive, hvm, hroot, hcash, hdefaults, houtcome⟩
    refine ⟨(), assertUniqueTermsId_eq_ok.mpr hids, bind_eq_ok.mpr ⟨_, hims, ?_⟩⟩
    obtain ⟨vm, root, live, surviving, cash, ims, defaults, outcome⟩ := r
    simp only at hsurviving hlive hvm hroot hcash hdefaults houtcome
    rw [houtcome, hcash, hdefaults, hroot, hvm, hlive, hsurviving]
    rfl

/-- A row of distinct ids resolves when its survivors' margin is computed. -/
theorem resolveAccount_finished {owner : Address} {newVm : I128} {table : ScenarioTable}
    (hids : (positions.map PositionRecord.termsId).Nodup)
    (hmargin : Finished (imRequirementsFor owner (survivingOf paused ss positions) table)) :
    Finished (resolveAccount owner positions ss newVm paused table) := by
  rcases hmargin with ⟨ims, hims⟩
  unfold resolveAccount
  exact ⟨_, bind_eq_ok.mpr ⟨(), assertUniqueTermsId_eq_ok.mpr hids, bind_eq_ok.mpr ⟨ims, hims, rfl⟩⟩⟩

end Resolve

end StateKeeper
