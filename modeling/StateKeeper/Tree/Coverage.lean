import StateKeeper.Tree.Invariant

/-!
# Tree - What an epoch's prices and marks reach

A touched row is handed the prices and marks that bind its own prior book.  Over
all rows this loses nothing: a held position is priced or marked in its row
exactly when the epoch prices or marks it.

Main results:

- Theorem {lit}`markingEpoch_iff`: the marking flag, read off the tree.
- Theorem {lit}`retiredIn_touched_iff`: the seats an epoch retires, read off the tree.
-/

namespace StateKeeper

open Words Fallible SortedKeys KeyedMap

section Coverage

variable [Primitives]

/-- A mark of the epoch binds the position's pair. -/
def EpochInputs.MarksPosition (inputs : EpochInputs) (p : PositionRecord) : Prop :=
  ∃ m ∈ inputs.provenMarks, markBindsPosition p m = true

/-- A price of the epoch binds the position. -/
def EpochInputs.PricesPosition (inputs : EpochInputs) (p : PositionRecord) : Prop :=
  ∃ tw ∈ inputs.provenTwaps, positionTwapBindingOk p tw = true

instance (inputs : EpochInputs) (p : PositionRecord) : Decidable (inputs.MarksPosition p) :=
  inferInstanceAs (Decidable (∃ m ∈ inputs.provenMarks, _))

instance (inputs : EpochInputs) (p : PositionRecord) : Decidable (inputs.PricesPosition p) :=
  inferInstanceAs (Decidable (∃ tw ∈ inputs.provenTwaps, _))

/-- The epoch re-marks the tree: some position in it has a mark. -/
def TreeState.Marking (t : TreeState) (inputs : EpochInputs) : Prop :=
  ∃ owner p, t.Holds owner p ∧ inputs.MarksPosition p

theorem TreeState.marking_iff_seats {t : TreeState} {inputs : EpochInputs} :
    t.Marking inputs ↔ ∃ x ∈ t.seats, inputs.MarksPosition x.2 := by
  simp [TreeState.Marking, TreeState.mem_seats]

instance (t : TreeState) (inputs : EpochInputs) : Decidable (t.Marking inputs) :=
  decidable_of_iff _ TreeState.marking_iff_seats.symm

variable {prior : TreeState} {inputs : EpochInputs} {table : ScenarioTable}
  {outcome : EpochOutcome}

/-! ## Marks and prices of a row -/

/-- A position of a touched row's prior book is held by the row's owner. -/
theorem holds_of_book (inputs : EpochInputs) (hwf : prior.WellFormed) {e : Bytes32 × Address}
    {p : PositionRecord} (hp : p ∈ prior.book e.1) : prior.Holds (openedRow prior inputs e).owner p := by
  unfold TreeState.book at hp
  cases ha : prior.accounts[e.1]? with
  | none =>
      rw [ha] at hp
      cases hp
  | some a =>
      rw [ha] at hp
      rw [owner_of_openedRow inputs e ha]
      exact ⟨a, by rw [hwf.key e.1 a ha, ha], rfl, hp⟩

/-- A held position is in the prior book of its owner's touched row. -/
theorem touched_of_holds (inputs : EpochInputs) {owner : Address} {p : PositionRecord}
    (h : prior.Holds owner p) :
    ∃ e ∈ touchedOf prior inputs, (openedRow prior inputs e).owner = owner ∧
      p ∈ prior.book e.1 := by
  rcases h with ⟨a, ha, rfl, hmem⟩
  rcases exists_touched_of_present inputs ha with ⟨owner, htouched⟩
  refine ⟨_, htouched, owner_of_openedRow inputs _ ha, ?_⟩
  rw [TreeState.book, ha]
  exact hmem

omit [Primitives] in
theorem twapsFor_any {provenTwaps : List ProvenTwap} {positions : List PositionRecord}
    {p : PositionRecord} (hp : p ∈ positions) :
    (twapsFor provenTwaps positions).any (positionTwapBindingOk p) = true ↔
      ∃ tw ∈ provenTwaps, positionTwapBindingOk p tw = true := by
  have h : (boundTwap (twapsFor provenTwaps positions) p).isSome =
      (boundTwap provenTwaps p).isSome := boundTwap_twapsFor_isSome hp
  rw [Bool.eq_iff_iff, boundTwap_isSome, boundTwap_isSome] at h
  rw [List.any_eq_true]
  exact h

omit [Primitives] in
/-- A row's marks bind a position when the row's book holds a marked position on its oracle. -/
theorem marksFor_any {positions : List PositionRecord} {p : PositionRecord} :
    (marksFor inputs.provenMarks positions).any (markBindsPosition p) = true ↔
      ∃ b ∈ positions, b.oracle = p.oracle ∧ inputs.MarksPosition b := by
  have hbinds : ∀ (b : PositionRecord) (m : ProvenMark),
      markBindsPosition b m = true ↔ feedIdOracle m.feedId = b.oracle := by
    intro b m
    exact beq_iff_eq
  simp only [List.any_eq_true, marksFor, List.mem_filter, EpochInputs.MarksPosition, hbinds]
  constructor
  · intro h
    rcases h with ⟨m, ⟨hm, b, hb, hmb⟩, hmp⟩
    exact ⟨b, hb, hmb.symm.trans hmp, m, hm, hmb⟩
  · intro h
    rcases h with ⟨b, hb, horacle, m, hm, hmb⟩
    exact ⟨m, ⟨hm, b, hb, hmb⟩, hmb.trans horacle⟩

/-- The epoch's marking flag is raised when some position has a mark. -/
theorem markingEpoch_iff (hwf : prior.WellFormed) :
    markingEpochOf (epochRows prior inputs) = true ↔ prior.Marking inputs := by
  have hrow : ∀ e : Bytes32 × Address,
      (marksFor inputs.provenMarks (prior.book e.1)).isEmpty = false ↔
        ∃ p ∈ prior.book e.1, inputs.MarksPosition p := by
    intro e
    rw [List.isEmpty_eq_false_iff_exists_mem]
    simp only [marksFor, List.mem_filter, List.any_eq_true, EpochInputs.MarksPosition]
    constructor
    · intro h
      rcases h with ⟨m, hm, p, hp, hbinds⟩
      exact ⟨p, hp, m, hm, hbinds⟩
    · intro h
      rcases h with ⟨p, hp, m, hm, hbinds⟩
      exact ⟨m, hm, p, hp, hbinds⟩
  have hepoch : epochRows prior inputs =
      (touchedOf prior inputs).map fun e => priorRow prior inputs e.1 e.2 := rfl
  rw [markingEpochOf, hepoch, List.any_map, List.any_eq_true]
  simp only [Function.comp_apply, priorRow_provenMarks, Bool.not_eq_true', hrow]
  constructor
  · intro h
    rcases h with ⟨e, _, p, hp, hmark⟩
    exact ⟨_, p, holds_of_book inputs hwf hp, hmark⟩
  · intro h
    rcases h with ⟨owner, p, hp, hmark⟩
    rcases touched_of_holds inputs hp with ⟨e, he, _, hbook⟩
    exact ⟨e, he, p, hbook, hmark⟩

/-- Without a price for any seat, no row carries a price. -/
theorem twapsFor_book_nil (hwf : prior.WellFormed)
    (h : ∀ owner p, prior.Holds owner p → ¬inputs.PricesPosition p) (aid : Bytes32) :
    twapsFor inputs.provenTwaps (prior.book aid) = [] := by
  rw [twapsFor, List.filter_eq_nil_iff]
  intro tw htw hany
  rcases List.any_eq_true.mp hany with ⟨p, hp, hbinds⟩
  have hbook : p ∈ prior.book (aid, (0 : Address)).1 := hp
  exact h _ p (holds_of_book inputs hwf hbook) ⟨tw, htw, hbinds⟩

/-! ## Retired seats -/

/-- The row's own resolve takes a settlement for the seat. -/
def Row.Retires (paused : List Bytes32) (row : Row) (p : PositionRecord) : Prop :=
  p ∈ row.2.positions ∧ ∃ settled,
    positionSettlementsFromTwaps row.2.positions row.2.provenTwaps = .ok settled ∧
      (settlementFor paused settled.1 p).isSome

/-- Some row of an owner retires the seat. -/
def RetiredIn (paused : List Bytes32) (rows : List Row) (owner : Address) (p : PositionRecord) :
    Prop :=
  ∃ row ∈ rows, row.owner = owner ∧ row.Retires paused p

/-- The seat stays in the row's book, and its marks make the row's VM. -/
def Row.Stays (paused : List Bytes32) (row : Row) (p : PositionRecord) : Prop :=
  p ∈ row.2.positions ∧ ∃ settled,
    positionSettlementsFromTwaps row.2.positions row.2.provenTwaps = .ok settled ∧
      p ∈ survivorsForVm paused settled.1 row.2.positions

/-- Some row of an owner keeps and re-marks the seat. -/
def StaysIn (paused : List Bytes32) (rows : List Row) (owner : Address) (p : PositionRecord) :
    Prop :=
  ∃ row ∈ rows, row.owner = owner ∧ row.Stays paused p

/-- A row without a price retires nothing. -/
theorem Row.not_retires {paused : List Bytes32} {row : Row} {p : PositionRecord}
    (h : row.2.provenTwaps = []) : ¬row.Retires paused p := by
  intro hretires
  rcases hretires with ⟨_, settled, hsettled, hsome⟩
  have hnone : settled.1 = [] := by
    have hss := (positionSettlements_ok_iff.mp hsettled).2.1
    have hseats : boundSeats row.2.provenTwaps row.2.positions = [] := by
      rw [h, boundSeats, List.filterMap_eq_nil_iff]
      intro b _
      rfl
    rw [hseats] at hss
    exact (Except.ok.inj hss).symm
  rw [hnone, settlementFor] at hsome
  split at hsome
  · cases hsome
  · cases hsome

/-- Rows without prices retire nothing. -/
theorem not_retiredIn {paused : List Bytes32} {rows : List Row} {owner : Address}
    {p : PositionRecord} (h : ∀ row ∈ rows, row.2.provenTwaps = []) :
    ¬RetiredIn paused rows owner p := by
  intro hretired
  rcases hretired with ⟨row, hrow, _, hretires⟩
  exact Row.not_retires (h row hrow) hretires

/-- A row of distinct seats whose settlements are computed retires the seats its prices
retire. -/
theorem Row.retires_iff {paused : List Bytes32} {row : Row} {p : PositionRecord}
    (hids : (row.2.positions.map PositionRecord.termsId).Nodup)
    (hsettles : Finished (positionSettlementsFromTwaps row.2.positions row.2.provenTwaps)) :
    row.Retires paused p ↔
      p ∈ row.2.positions ∧ StateKeeper.retires paused row.2.provenTwaps p = true := by
  rcases hsettles with ⟨settled, hsettled⟩
  have hss := (positionSettlements_ok_iff.mp hsettled).2.1
  constructor
  · intro h
    rcases h with ⟨hp, settled', hsettled', hsome⟩
    rw [ok_unique hsettled' hsettled, settlementFor_isSome hids hss hp] at hsome
    exact ⟨hp, hsome⟩
  · intro h
    rcases h with ⟨hp, hretires⟩
    refine ⟨hp, settled, hsettled, ?_⟩
    rw [settlementFor_isSome hids hss hp]
    exact hretires

/-- It keeps the others. -/
theorem Row.stays_iff {paused : List Bytes32} {row : Row} {p : PositionRecord}
    (hids : (row.2.positions.map PositionRecord.termsId).Nodup)
    (hsettles : Finished (positionSettlementsFromTwaps row.2.positions row.2.provenTwaps)) :
    row.Stays paused p ↔
      p ∈ row.2.positions ∧ StateKeeper.retires paused row.2.provenTwaps p = false := by
  rcases hsettles with ⟨settled, hsettled⟩
  have hss := (positionSettlements_ok_iff.mp hsettled).2.1
  constructor
  · intro h
    rcases h with ⟨_, settled', hsettled', hmem⟩
    rw [ok_unique hsettled' hsettled, survivorsForVm_eq hids hss] at hmem
    exact mem_unretired.mp hmem
  · intro h
    refine ⟨h.1, settled, hsettled, ?_⟩
    rw [survivorsForVm_eq hids hss]
    exact mem_unretired.mpr h

/-- The settlements of each touched row of a resolved epoch are computed. -/
theorem openedRow_settles (hwf : prior.WellFormed)
    (h : resolveEpoch prior inputs table = .ok outcome) {e : Bytes32 × Address}
    (he : e ∈ touchedOf prior inputs) :
    Finished (positionSettlementsFromTwaps (openedRow prior inputs e).2.positions
      (openedRow prior inputs e).2.provenTwaps) := by
  rcases bind_eq_ok.mp (post_of_touched hwf h he) with ⟨r, hr, _⟩
  rcases replayRow_ok_iff.mp hr with ⟨settled, _, hsettled, _, _⟩
  exact ⟨settled, hsettled⟩

/-- A price that binds a seat of a touched row binds a seat of its prior book with the same
oracle and expiry. -/
theorem exists_priced_of_openedRow {e : Bytes32 × Address} {p : PositionRecord}
    (h : (boundTwap (openedRow prior inputs e).2.provenTwaps p).isSome) :
    ∃ q ∈ prior.book e.1, q.oracle = p.oracle ∧ q.expiry = p.expiry ∧
      inputs.PricesPosition q := by
  rw [openedRow_provenTwaps, boundTwap_isSome] at h
  rcases h with ⟨tw, htw, hbinds⟩
  rcases List.mem_filter.mp htw with ⟨hmem, hany⟩
  rcases List.any_eq_true.mp hany with ⟨q, hq, hq'⟩
  have hq'' := hq'
  simp only [positionTwapBindingOk, Bool.and_eq_true, beq_iff_eq] at hbinds hq''
  exact ⟨q, hq, hq''.1.symm.trans hbinds.1, hq''.2.trans hbinds.2.symm, tw, hmem, hq'⟩

/-- A held seat is retired by the touched rows exactly when the epoch retires it. -/
theorem retiredIn_touched_iff (hwf : prior.WellFormed)
    (h : resolveEpoch prior inputs table = .ok outcome) {paused : List Bytes32}
    {owner : Address} {p : PositionRecord} (hp : prior.Holds owner p) :
    RetiredIn paused ((touchedOf prior inputs).map (openedRow prior inputs)) owner p ↔
      retires paused inputs.provenTwaps p = true := by
  have hids := ((resolveEpoch_ok_iff hwf).mp h).2.1
  constructor
  · intro hretired
    rcases hretired with ⟨row, hrow, howner, hretires⟩
    rcases List.mem_map.mp hrow with ⟨e, he, rfl⟩
    have hown := ((Row.retires_iff (hids e he) (openedRow_settles hwf h he)).mp hretires).2
    rw [openedRow_provenTwaps] at hown
    have hbook : p ∈ prior.book e.1 := by
      rcases hp with ⟨a, ha, _, hmem⟩
      rw [← howner, accountId_of_openedRow hwf he] at ha
      rw [TreeState.book, ha]
      exact hmem
    rw [retires_twapsFor hbook] at hown
    exact hown
  · intro hretires
    rcases touched_of_holds inputs hp with ⟨e, he, howner, hbook⟩
    refine ⟨_, List.mem_map_of_mem he, howner, ?_⟩
    refine (Row.retires_iff (hids e he) (openedRow_settles hwf h he)).mpr ⟨?_, ?_⟩
    · rw [openedRow_positions]
      exact List.mem_append_left _ hbook
    · rw [openedRow_provenTwaps, retires_twapsFor hbook]
      exact hretires

end Coverage

end StateKeeper
