import StateKeeper.Keeper.Concrete
import StateKeeper.Tree.Coverage
import StateKeeper.Tree.OpenConversion
import StateKeeper.Tree.Prediction
import StateKeeper.Tree.RebuildSpec

/-!
# Keeper - Which of the keeper's epochs the guest accepts

The keeper frames an epoch from whatever the chain has bound so far.  The guest
asks for more: a price for every due position, and on a marking epoch a mark for
every live one, those just opened included, all carried by the position's own
row.

Main results:

- Theorem {lit}`freshEpoch_accepted_iff`: when the guest completes on a fresh epoch.
-/

namespace StateKeeper

open Words Fallible SortedKeys KeyedMap

section Conditions

variable [Primitives]

/-- The open locks in the epoch. -/
def TreeState.Locks (t : TreeState) (inputs : EpochInputs) (nb : NewPosition) : Prop :=
  nb ∈ inputs.newPositions ∧ nb.locks inputs.proofNow (ownersIn (epochRows t inputs))

/-- What the guest asks of an epoch beyond its resolve. -/
structure TreeState.Complete (t : TreeState) (inputs : EpochInputs) : Prop where
  /-- Every due position on an open pair has a bound price. -/
  priced : ∀ owner p, t.Holds owner p → MustSettle inputs.pausedPairs inputs.proofNow p →
    inputs.PricesPosition p
  /-- When the epoch marks, every live position on an open pair has a mark. -/
  marked : t.Marking inputs → ∀ owner p, t.Holds owner p →
    MustMark inputs.pausedPairs inputs.proofNow p → inputs.MarksPosition p
  /-- When the epoch marks, each party of a locked open already holds a marked position
  on the open's oracle. -/
  carried : t.Marking inputs → ∀ nb, t.Locks inputs nb → ∀ party,
    party = nb.partyA ∨ party = nb.partyB →
      ∃ p, t.Holds party p ∧ p.oracle = nb.oracle ∧ inputs.MarksPosition p

/-- A party holds a marked seat on an oracle. -/
def TreeState.Carries (t : TreeState) (inputs : EpochInputs) (party oracle : Address) : Prop :=
  ∃ p, t.Holds party p ∧ p.oracle = oracle ∧ inputs.MarksPosition p

theorem TreeState.carries_iff_seats {t : TreeState} {inputs : EpochInputs}
    {party oracle : Address} :
    t.Carries inputs party oracle ↔
      ∃ x ∈ t.seats, x.1 = party ∧ x.2.oracle = oracle ∧ inputs.MarksPosition x.2 := by
  constructor
  · rintro ⟨p, hp, hmarked⟩
    exact ⟨(party, p), t.mem_seats.mpr hp, rfl, hmarked⟩
  · rintro ⟨⟨owner, p⟩, hx, rfl, hmarked⟩
    exact ⟨p, t.mem_seats.mp hx, hmarked⟩

instance (t : TreeState) (inputs : EpochInputs) (party oracle : Address) :
    Decidable (t.Carries inputs party oracle) :=
  decidable_of_iff _ TreeState.carries_iff_seats.symm

/-- What the guest asks, read off the seats and the opens listed. -/
theorem TreeState.complete_iff_seats {t : TreeState} {inputs : EpochInputs} :
    t.Complete inputs ↔
      (∀ x ∈ t.seats, MustSettle inputs.pausedPairs inputs.proofNow x.2 →
        inputs.PricesPosition x.2) ∧
      (t.Marking inputs →
        (∀ x ∈ t.seats, MustMark inputs.pausedPairs inputs.proofNow x.2 →
          inputs.MarksPosition x.2) ∧
        ∀ nb ∈ inputs.newPositions, nb.locks inputs.proofNow (ownersIn (epochRows t inputs)) →
          t.Carries inputs nb.partyA nb.oracle ∧ t.Carries inputs nb.partyB nb.oracle) := by
  constructor
  · intro h
    refine ⟨fun x hx => h.priced x.1 x.2 (t.mem_seats.mp hx), ?_⟩
    intro hmarking
    refine ⟨fun x hx => h.marked hmarking x.1 x.2 (t.mem_seats.mp hx), ?_⟩
    intro nb hnb hlock
    have hcarried := h.carried hmarking nb ⟨hnb, hlock⟩
    exact ⟨hcarried nb.partyA (Or.inl rfl), hcarried nb.partyB (Or.inr rfl)⟩
  · rintro ⟨hpriced, hmarks⟩
    refine ⟨fun owner p hp => hpriced (owner, p) (t.mem_seats.mpr hp),
      fun hmarking owner p hp => (hmarks hmarking).1 (owner, p) (t.mem_seats.mpr hp), ?_⟩
    intro hmarking nb hnb party hparty
    obtain ⟨hcarriesA, hcarriesB⟩ := (hmarks hmarking).2 nb hnb.1 hnb.2
    rcases hparty with rfl | rfl
    · exact hcarriesA
    · exact hcarriesB

instance (t : TreeState) (inputs : EpochInputs) : Decidable (t.Complete inputs) :=
  decidable_of_iff _ TreeState.complete_iff_seats.symm

variable {prior : TreeState} {inputs : EpochInputs} {table : ScenarioTable}
  {outcome : EpochOutcome}

/-- An account with a book is kept. -/
theorem kept_of_book {e : Bytes32 × Address} (he : e ∈ touchedOf prior inputs)
    {p : PositionRecord} (hp : p ∈ prior.book e.1) : e ∈ keptOf prior outcome.post inputs := by
  refine mem_keptOf.mpr ⟨he, .inl ?_⟩
  unfold TreeState.book at hp
  cases ha : prior.accounts[e.1]? with
  | none =>
      rw [ha] at hp
      cases hp
  | some a => rfl

/-! ## One framed row -/

/-- A framed row binds when the due positions of its book are priced. -/
theorem binds_iff (hwf : prior.WellFormed) {e : Bytes32 × Address}
    (he : e ∈ touchedOf prior inputs) {ta : TouchedAccount}
    (hta : (entryOf prior outcome.post inputs e).Emits ta) :
    ta.Binds inputs.pausedPairs inputs.proofNow ↔
      ∀ b ∈ prior.book e.1, MustSettle inputs.pausedPairs inputs.proofNow b →
        inputs.PricesPosition b := by
  have haccount : ta.account = (priorRow prior inputs e.1 e.2).1 := hta.account
  have hrisk : ta.risk = (priorRow prior inputs e.1 e.2).2 := hta.risk
  have haid : ta.aid = e.1 := by
    rw [TouchedAccount.aid, haccount]
    exact accountId_of_openedRow hwf he
  have hpresent : ta.present = (prior.leafAt e.1).isSome := hta.present
  have hpositions : ta.risk.positions = prior.book e.1 := by rw [hrisk, priorRow_positions]
  have hprices : ∀ b ∈ prior.book e.1,
      ta.risk.provenTwaps.any (positionTwapBindingOk b) = true ↔ inputs.PricesPosition b := by
    intro b hb
    rw [hrisk, priorRow_provenTwaps]
    exact twapsFor_any hb
  constructor
  · intro h b hb hdue
    exact (hprices b hb).mp (h.due b (hpositions ▸ hb) hdue)
  · intro h
    refine
      { stateKey := hta.stateKey.trans haid.symm
        registryKey := fun rw hrw => (hta.registryKey rw hrw).trans haid.symm
        absentAccount := ?_
        absentRisk := ?_
        distinct := ?_
        opens := ?_
        due := ?_ }
    · cases ha : prior.accounts[e.1]? with
      | some a =>
          left
          rw [hpresent, TreeState.leafAt, ha]
          rfl
      | none =>
          right
          rw [haccount, priorRow, ha]
          exact ⟨rfl, rfl, rfl⟩
    · cases ha : prior.accounts[e.1]? with
      | some a =>
          left
          rw [hpresent, TreeState.leafAt, ha]
          rfl
      | none =>
          right
          rw [hrisk, priorRow, ha]
          exact ⟨rfl, rfl, rfl⟩
    · rw [hpositions, TreeState.book]
      cases ha : prior.accounts[e.1]? with
      | some a => exact (hwf.ascending e.1 a ha).nodup_map
      | none => exact List.nodup_nil
    · rw [hrisk, haccount, priorRow]
      cases ha : prior.accounts[e.1]? with
      | some a => rfl
      | none => rfl
    · intro b hb hdue
      rw [hpositions] at hb
      exact (hprices b hb).mpr (h b hb hdue)

/-- A framed row resolves when, on a marking epoch, its row marks every live position on
an open pair; it then surfaces its live exempt positions. -/
theorem resolveRow_framed_iff (hwf : prior.WellFormed)
    (h : resolveEpoch prior inputs table = .ok outcome)
    (hfresh : ∀ m ∈ inputs.provenMarks, markFresh m.markTime inputs.proofNow = true)
    {e : Bytes32 × Address} (he : e ∈ touchedOf prior inputs) {leaf : Option Bytes32} :
    (∃ result, resolveRow (framedInputs prior inputs table outcome)
        (markingEpochOf (epochRows prior inputs)) (openedRow prior inputs e, leaf) = .ok result) ↔
      (prior.Marking inputs → ∀ b ∈ (openedRow prior inputs e).2.positions,
        MustMark inputs.pausedPairs inputs.proofNow b →
          ∃ p ∈ prior.book e.1, p.oracle = b.oracle ∧ inputs.MarksPosition p) := by
  have hplain : (framedInputs prior inputs table outcome).Plain := ⟨rfl, rfl, rfl⟩
  have hmarks : ∀ holds, assertMarksComplete (openedRow prior inputs e).2.positions
      (openedRow prior inputs e).2.provenMarks inputs.pausedPairs inputs.proofNow
      (markingEpochOf (epochRows prior inputs)) = .ok holds ↔
        (prior.Marking inputs → ∀ b ∈ (openedRow prior inputs e).2.positions,
          MustMark inputs.pausedPairs inputs.proofNow b →
            ∃ p ∈ prior.book e.1, p.oracle = b.oracle ∧ inputs.MarksPosition p) ∧
        holds = liveHolds (markingEpochOf (epochRows prior inputs)) inputs.pausedPairs
          inputs.proofNow (openedRow prior inputs e).2.positions := by
    intro holds
    rw [assertMarksComplete_ok_iff, markingEpoch_iff hwf, openedRow_provenMarks]
    simp only [marksFor_any]
  constructor
  · intro hresolves
    rcases hresolves with ⟨result, hresult⟩
    rcases (resolveRow_plain_iff hplain).mp hresult with ⟨_, _, holds, rs, hholds, _, _⟩
    exact ((hmarks holds).mp hholds).1
  · intro hcomplete
    rcases bind_eq_ok.mp (post_of_touched hwf h he) with ⟨r, hr, _⟩
    rcases replayRow_ok_iff.mp hr with ⟨settled, vm, hsettles, hvm, hresolves⟩
    refine ⟨_, (resolveRow_plain_iff hplain).mpr ⟨?_, ?_, _, ⟨settled, vm, r⟩,
      (hmarks _).mpr ⟨hcomplete, rfl⟩, ⟨hsettles, hvm, hresolves⟩, rfl⟩⟩
    · exact priorRow_unconsumed prior inputs e.1 e.2
    · intro m hm
      rw [openedRow_provenMarks] at hm
      exact hfresh m (List.mem_filter.mp hm).1

/-! ## All framed rows -/

/-- Each framed row is emitted for a kept account. -/
theorem emits_of_framed (hwf : prior.WellFormed)
    (h : resolveEpoch prior inputs table = .ok outcome) {ta : TouchedAccount}
    (hta : ta ∈ (stagedFor prior outcome).touched) :
    ∃ e ∈ keptOf prior outcome.post inputs, (entryOf prior outcome.post inputs e).Emits ta := by
  have hemits := (stagedFor_spec hwf h).1
  rw [List.forall₂_map_left_iff] at hemits
  generalize keptOf prior outcome.post inputs = kept at hemits ⊢
  generalize (stagedFor prior outcome).touched = touched at hemits hta
  induction hemits with
  | nil => cases hta
  | @cons e ta' kept' touched' hfirst _ ih =>
      rcases List.mem_cons.mp hta with rfl | hrest
      · exact ⟨e, List.mem_cons_self, hfirst⟩
      · rcases ih hrest with ⟨e', he', hemits'⟩
        exact ⟨e', List.mem_cons_of_mem e he', hemits'⟩

/-- Each kept account has a framed row. -/
theorem framed_of_kept (hwf : prior.WellFormed)
    (h : resolveEpoch prior inputs table = .ok outcome) {e : Bytes32 × Address}
    (he : e ∈ keptOf prior outcome.post inputs) :
    ∃ ta ∈ (stagedFor prior outcome).touched, (entryOf prior outcome.post inputs e).Emits ta := by
  have hemits := (stagedFor_spec hwf h).1
  rw [List.forall₂_map_left_iff] at hemits
  generalize keptOf prior outcome.post inputs = kept at hemits he
  generalize (stagedFor prior outcome).touched = touched at hemits ⊢
  induction hemits with
  | nil => cases he
  | @cons e' ta kept' touched' hfirst _ ih =>
      rcases List.mem_cons.mp he with rfl | hrest
      · exact ⟨ta, List.mem_cons_self, hfirst⟩
      · rcases ih hrest with ⟨ta', hta', hemits'⟩
        exact ⟨ta', List.mem_cons_of_mem ta hta', hemits'⟩

/-- The framed rows bind when every due position on an open pair is priced. -/
theorem framed_binds_iff (hwf : prior.WellFormed)
    (h : resolveEpoch prior inputs table = .ok outcome) :
    (∀ ta ∈ (stagedFor prior outcome).touched, ta.Binds inputs.pausedPairs inputs.proofNow) ↔
      ∀ owner p, prior.Holds owner p → MustSettle inputs.pausedPairs inputs.proofNow p →
        inputs.PricesPosition p := by
  constructor
  · intro hbinds owner p hp hdue
    rcases touched_of_holds inputs hp with ⟨e, he, _, hbook⟩
    rcases framed_of_kept hwf h (kept_of_book he hbook) with ⟨ta, hta, hemits⟩
    exact (binds_iff hwf he hemits).mp (hbinds ta hta) p hbook hdue
  · intro hpriced ta hta
    rcases emits_of_framed hwf h hta with ⟨e, he, hemits⟩
    refine (binds_iff hwf (mem_keptOf.mp he).1 hemits).mpr ?_
    intro b hb hdue
    exact hpriced _ b (holds_of_book inputs hwf hb) hdue

/-- Every kept row marks its live positions when every live position of the tree is
marked and every locked open is on an oracle its parties carry a mark for. -/
theorem framed_marks_iff (hwf : prior.WellFormed)
    (h : resolveEpoch prior inputs table = .ok outcome)
    (hopen : prior.Marking inputs → ∀ nb, prior.Locks inputs nb →
      positionPaused inputs.pausedPairs nb.seatA = false) :
    (∀ e ∈ keptOf prior outcome.post inputs, prior.Marking inputs →
        ∀ b ∈ (openedRow prior inputs e).2.positions,
          MustMark inputs.pausedPairs inputs.proofNow b →
            ∃ p ∈ prior.book e.1, p.oracle = b.oracle ∧ inputs.MarksPosition p) ↔
      (prior.Marking inputs → ∀ owner p, prior.Holds owner p →
        MustMark inputs.pausedPairs inputs.proofNow p → inputs.MarksPosition p) ∧
      (prior.Marking inputs → ∀ nb, prior.Locks inputs nb → ∀ party,
        party = nb.partyA ∨ party = nb.partyB →
          ∃ p, prior.Holds party p ∧ p.oracle = nb.oracle ∧ inputs.MarksPosition p) := by
  have hmarked : ∀ {p q : PositionRecord}, p.oracle = q.oracle → inputs.MarksPosition p →
      inputs.MarksPosition q := by
    intro p q horacle hp
    rcases hp with ⟨m, hm, hbinds⟩
    refine ⟨m, hm, ?_⟩
    rw [markBindsPosition, ← horacle]
    exact hbinds
  constructor
  · intro hrows
    refine ⟨?_, ?_⟩
    · intro hmarking owner p hp hlive
      rcases touched_of_holds inputs hp with ⟨e, he, _, hbook⟩
      have hmem : p ∈ (openedRow prior inputs e).2.positions := by
        rw [openedRow_positions]
        exact List.mem_append_left _ hbook
      rcases hrows e (kept_of_book he hbook) hmarking p hmem hlive with ⟨q, _, horacle, hq⟩
      exact hmarked horacle hq
    · intro hmarking nb hnb party hparty
      -- the seat of that party, on the party's own row
      have hseat : ∃ seat, seat.oracle = nb.oracle ∧ seat.expiry = nb.expiry ∧
          party ∈ ownersIn (epochRows prior inputs) ∧
          seat ∈ newSeats inputs.proofNow (ownersIn (epochRows prior inputs))
            inputs.newPositions party := by
        rcases hparty with rfl | rfl
        · exact ⟨nb.seatA, rfl, rfl, hnb.2.2.1,
            mem_newSeats.mpr ⟨nb, hnb.1, hnb.2, .inl ⟨rfl, rfl⟩⟩⟩
        · exact ⟨nb.seatB, rfl, rfl, hnb.2.2.2.1,
            mem_newSeats.mpr ⟨nb, hnb.1, hnb.2, .inr ⟨rfl, rfl⟩⟩⟩
      rcases hseat with ⟨seat, horacle, hexpiry, howns, hnew⟩
      rcases exists_openedRow howns with ⟨e, he, rfl⟩
      have hkept := kept_of_newSeats hwf h he hnew
      have hmem : seat ∈ (openedRow prior inputs e).2.positions := by
        rw [openedRow_positions]
        exact List.mem_append_right _ hnew
      have hlive : MustMark inputs.pausedPairs inputs.proofNow seat := by
        refine ⟨expiry_of_mem_newSeats hnew, ?_⟩
        rw [positionPaused, horacle]
        exact hopen hmarking nb hnb
      rcases hrows e hkept hmarking seat hmem hlive with ⟨p, hbook, hsame, hp⟩
      exact ⟨p, holds_of_book inputs hwf hbook, hsame.trans horacle, hp⟩
  · intro hcomplete e he hmarking b hb hlive
    rcases hcomplete with ⟨hall, hcarried⟩
    rw [openedRow_positions, List.mem_append] at hb
    rcases hb with hbook | hnew
    · exact ⟨b, hbook, rfl, hall hmarking _ b (holds_of_book inputs hwf hbook) hlive⟩
    · rcases mem_newSeats.mp hnew with ⟨nb, hnb, hlock, hseat⟩
      have hparty : ∃ p, prior.Holds (openedRow prior inputs e).owner p ∧
          p.oracle = b.oracle ∧ inputs.MarksPosition p := by
        rcases hseat with ⟨hparty, rfl⟩ | ⟨hparty, rfl⟩
        · exact hcarried hmarking nb ⟨hnb, hlock⟩ _ (.inl hparty.symm)
        · exact hcarried hmarking nb ⟨hnb, hlock⟩ _ (.inr hparty.symm)
      rcases hparty with ⟨p, ⟨a, ha, _, hmem⟩, horacle, hp⟩
      refine ⟨p, ?_, horacle, hp⟩
      rw [accountId_of_openedRow hwf (mem_keptOf.mp he).1] at ha
      rw [TreeState.book, ha]
      exact hmem

/-- The positions the pause surface is counted over are the kept books. -/
theorem framed_priorPositions (hwf : prior.WellFormed)
    (h : resolveEpoch prior inputs table = .ok outcome) :
    (framedInputs prior inputs table outcome).priorPositions =
      (keptOf prior outcome.post inputs).flatMap fun e => prior.book e.1 := by
  have hrows := framed_rows hwf h
  have hpositions : (framedInputs prior inputs table outcome).priorPositions =
      (framedInputs prior inputs table outcome).rows.flatMap fun row => row.2.positions := by
    rw [StateTransitionInputs.priorPositions, StateTransitionInputs.rows, List.flatMap_map]
    rfl
  rw [hpositions, hrows, List.flatMap_map]
  simp only [priorRow_positions]

/-- The holds a row's own opens surface. -/
def newHolds (prior : TreeState) (inputs : EpochInputs) (e : Bytes32 × Address) :
    List PausedHold :=
  liveHolds (markingEpochOf (epochRows prior inputs)) inputs.pausedPairs inputs.proofNow
    (newSeats inputs.proofNow (ownersIn (epochRows prior inputs)) inputs.newPositions
      (openedRow prior inputs e).owner)

/-- Binding and resolving the framed rows surfaces the skipped positions, and the exempt
seats opened on a marking epoch, which the guest's count leaves out. -/
theorem framed_holds_perm (hwf : prior.WellFormed)
    (h : resolveEpoch prior inputs table = .ok outcome)
    {bound : List BoundRow} {results : List RowResult}
    (hbound : bindRows inputs.pausedPairs inputs.proofNow none (stagedFor prior outcome).touched =
      .ok bound)
    (hresults : ((keptOf prior outcome.post inputs).map fun e =>
      (openedRow prior inputs e, prior.leafAt e.1)).mapM
        (resolveRow (framedInputs prior inputs table outcome)
          (markingEpochOf (epochRows prior inputs))) = .ok results) :
    (canonicalHolds (bound.flatMap BoundRow.holds ++ results.flatMap RowResult.pausedHolds)).Perm
      ((((framedInputs prior inputs table outcome).priorPositions.filter
        (heldOnPause inputs.pausedPairs inputs.proofNow
          (markingEpochOf (epochRows prior inputs)))).map PositionRecord.hold) ++
        (keptOf prior outcome.post inputs).flatMap (newHolds prior inputs)) := by
  let due (e : Bytes32 × Address) : List PausedHold :=
    ((prior.book e.1).filter (duePaused inputs.pausedPairs inputs.proofNow)).map
      PositionRecord.hold
  let live (e : Bytes32 × Address) : List PausedHold :=
    liveHolds (markingEpochOf (epochRows prior inputs)) inputs.pausedPairs inputs.proofNow
      (prior.book e.1)
  have hdue : bound.flatMap BoundRow.holds = (keptOf prior outcome.post inputs).flatMap due := by
    have hrows := framed_rows hwf h
    rw [(bindRows_ok_iff.mp hbound).2.2, List.flatMap_map]
    have hbook : (stagedFor prior outcome).touched.flatMap (fun ta =>
        (ta.boundRow inputs.pausedPairs inputs.proofNow).holds) =
        (framedInputs prior inputs table outcome).rows.flatMap fun row =>
          (row.2.positions.filter (duePaused inputs.pausedPairs inputs.proofNow)).map
            PositionRecord.hold := by
      rw [StateTransitionInputs.rows, List.flatMap_map]
      rfl
    rw [hbook, hrows, List.flatMap_map]
    simp only [priorRow_positions]
    rfl
  have hlive : results.flatMap RowResult.pausedHolds =
      (keptOf prior outcome.post inputs).flatMap fun e => live e ++ newHolds prior inputs e := by
    have hplain : (framedInputs prior inputs table outcome).Plain := ⟨rfl, rfl, rfl⟩
    rw [List.mapM_map] at hresults
    have hall := mapM_eq_ok_iff.mp hresults
    clear hresults
    generalize keptOf prior outcome.post inputs = kept at hall ⊢
    induction hall with
    | nil => rfl
    | @cons e result rest results' hresult _ ih =>
        rw [List.flatMap_cons, List.flatMap_cons, ih]
        congr 1
        rcases (resolveRow_plain_iff hplain).mp hresult with ⟨_, _, holds, rs, hholds, _, rfl⟩
        refine (assertMarksComplete_ok_iff.mp hholds).2.trans ?_
        rw [openedRow_positions, liveHolds_append]
        rfl
  have hsplit : (((framedInputs prior inputs table outcome).priorPositions.filter
      (heldOnPause inputs.pausedPairs inputs.proofNow
        (markingEpochOf (epochRows prior inputs)))).map PositionRecord.hold) =
      (keptOf prior outcome.post inputs).flatMap fun e => ((prior.book e.1).filter
        (heldOnPause inputs.pausedPairs inputs.proofNow
          (markingEpochOf (epochRows prior inputs)))).map PositionRecord.hold := by
    rw [framed_priorPositions hwf h, List.filter_flatMap, List.map_flatMap]
  rw [hdue, hlive, hsplit]
  have hjoin : ((keptOf prior outcome.post inputs).flatMap due ++
      (keptOf prior outcome.post inputs).flatMap live).Perm
      ((keptOf prior outcome.post inputs).flatMap fun e => ((prior.book e.1).filter
        (heldOnPause inputs.pausedPairs inputs.proofNow
          (markingEpochOf (epochRows prior inputs)))).map PositionRecord.hold) := by
    refine (List.flatMap_append_perm _ due live).trans ?_
    exact List.Perm.flatMap_left _ fun e _ => heldOnPause_perm _ _ _ _
  have hnew := (List.flatMap_append_perm (keptOf prior outcome.post inputs) live
    (newHolds prior inputs)).symm
  refine (canonicalHolds_perm _).trans ((hnew.append_left _).trans ?_)
  rw [← List.append_assoc]
  exact hjoin.append_right _

/-- No open locks on a paused pair of a marking epoch exactly when the opens surface no
hold. -/
theorem newHolds_eq_nil_iff (hwf : prior.WellFormed)
    (h : resolveEpoch prior inputs table = .ok outcome) :
    (keptOf prior outcome.post inputs).flatMap (newHolds prior inputs) = [] ↔
      (prior.Marking inputs → ∀ nb, prior.Locks inputs nb →
        positionPaused inputs.pausedPairs nb.seatA = false) := by
  rw [List.flatMap_eq_nil_iff]
  constructor
  · intro hnil hmarking nb hnb
    have hnew : nb.seatA ∈ newSeats inputs.proofNow (ownersIn (epochRows prior inputs))
        inputs.newPositions nb.partyA :=
      mem_newSeats.mpr ⟨nb, hnb.1, hnb.2, .inl ⟨rfl, rfl⟩⟩
    rcases exists_openedRow hnb.2.2.1 with ⟨e, he, howner⟩
    rw [← howner] at hnew
    have hrow := hnil e (kept_of_newSeats hwf h he hnew)
    rw [newHolds, liveHolds, if_pos ((markingEpoch_iff hwf).mpr hmarking), List.map_eq_nil_iff,
      List.filter_eq_nil_iff] at hrow
    have hlive := hrow nb.seatA hnew
    rw [livePaused, decide_eq_true (expiry_of_mem_newSeats hnew), Bool.true_and] at hlive
    exact Bool.eq_false_iff.mpr hlive
  · intro hopen e _
    unfold newHolds liveHolds
    split
    · rename_i hmarking
      rw [List.map_eq_nil_iff, List.filter_eq_nil_iff]
      intro b hb
      rcases mem_newSeats.mp hb with ⟨nb, hnb, hlock, hseat⟩
      have hpaused := hopen ((markingEpoch_iff hwf).mp hmarking) nb ⟨hnb, hlock⟩
      have hsame : positionPaused inputs.pausedPairs b = false := by
        rcases hseat with ⟨_, rfl⟩ | ⟨_, rfl⟩
        · exact hpaused
        · exact hpaused
      rw [livePaused, hsame, Bool.and_false]
      exact Bool.false_ne_true
    · rfl

/-- A completed transition on the framed rows is a completed run of its stages over the
replay's own rows. -/
theorem framed_stages (hwf : prior.WellFormed)
    (h : resolveEpoch prior inputs table = .ok outcome) {out : StateTransitionOutputs}
    (hout : stateTransition (framedInputs prior inputs table outcome) = .ok out) :
    ∃ scenarioRoot bound results requirements roots,
      (Stages.ofPlain (framedInputs prior inputs table outcome) scenarioRoot bound results
        requirements roots).Completed (framedInputs prior inputs table outcome) ∧
      ((keptOf prior outcome.post inputs).map fun e =>
        (openedRow prior inputs e, prior.leafAt e.1)).mapM
          (resolveRow (framedInputs prior inputs table outcome)
            (markingEpochOf (epochRows prior inputs))) = .ok results ∧
      out = (Stages.ofPlain (framedInputs prior inputs table outcome) scenarioRoot bound results
        requirements roots).outputs (framedInputs prior inputs table outcome) := by
  have hplain : (framedInputs prior inputs table outcome).Plain := ⟨rfl, rfl, rfl⟩
  rcases (stateTransition_plain_iff hplain).mp hout with
    ⟨scenarioRoot, bound, results, requirements, roots, hst, hcommits⟩
  have hresolved := hst.resolved
  change ((rowsAfter inputs.proofNow _ inputs.newPositions).zip _).mapM _ = _ at hresolved
  rw [framed_pairs hwf h hst.bound, markingEpoch_framed hwf h] at hresolved
  exact ⟨scenarioRoot, bound, results, requirements, roots, hst, hresolved, hcommits⟩

/-- The guest's count admits no open on a paused pair of a marking epoch. -/
theorem open_of_accepted (hwf : prior.WellFormed)
    (h : resolveEpoch prior inputs table = .ok outcome) {out : StateTransitionOutputs}
    (hout : stateTransition (framedInputs prior inputs table outcome) = .ok out) :
    prior.Marking inputs → ∀ nb, prior.Locks inputs nb →
      positionPaused inputs.pausedPairs nb.seatA = false := by
  rcases framed_stages hwf h hout with
    ⟨scenarioRoot, bound, results, requirements, roots, hst, hresolved, _⟩
  have hheld := hst.held
  rw [markingEpoch_framed hwf h] at hheld
  rcases bind_eq_ok.mp hheld with ⟨_, _, hcount⟩
  rw [ensure_eq_ok] at hcount
  have hlength := (framed_holds_perm hwf h hst.bound hresolved).length_eq
  rw [List.length_append, List.length_map] at hlength
  refine (newHolds_eq_nil_iff hwf h).mp (List.length_eq_zero_iff.mp ?_)
  exact Nat.add_eq_left.mp (hlength.symm.trans hcount)

/-- The account keys of the framed rows ascend. -/
theorem framed_chain (hwf : prior.WellFormed)
    (h : resolveEpoch prior inputs table = .ok outcome) :
    ((none : Option Bytes32).toList ++
      (stagedFor prior outcome).touched.map TouchedAccount.aid).IsChain (· < ·) := by
  have haids : (stagedFor prior outcome).touched.map TouchedAccount.aid =
      (stagedFor prior outcome).touched.map fun ta => ta.stateWitness.key := by
    refine List.map_congr_left fun ta hta => ?_
    rcases emits_of_framed hwf h hta with ⟨e, he, hemits⟩
    have haccount : ta.account = (priorRow prior inputs e.1 e.2).1 := hemits.account
    have hkey : ta.stateWitness.key = e.1 := hemits.stateKey
    rw [hkey, TouchedAccount.aid, haccount]
    exact accountId_of_openedRow hwf (mem_keptOf.mp he).1
  rw [haids]
  exact List.Pairwise.isChain (framed_ascending hwf h)

/-- The requirements of the framed rows are computed when the rows resolve. -/
theorem framed_requirements {results : List RowResult}
    (hresults : ((keptOf prior outcome.post inputs).map fun e =>
      (openedRow prior inputs e, prior.leafAt e.1)).mapM
        (resolveRow (framedInputs prior inputs table outcome)
          (markingEpochOf (epochRows prior inputs))) = .ok results) :
    ∃ requirements, requirementsOf (results.map RowResult.post) [] table = .ok requirements := by
  have hplain : (framedInputs prior inputs table outcome).Plain := ⟨rfl, rfl, rfl⟩
  have hrows : Finished ((results.map RowResult.post).mapM fun p =>
      imRequirementsFor p.owner p.positions table) := by
    refine mapM_finished fun p hp => ?_
    rcases List.mem_map.mp hp with ⟨result, hresult, rfl⟩
    rcases exists_of_mem_mapM hresults hresult with ⟨⟨row, leaf⟩, _, hrow⟩
    rcases (resolveRow_plain_iff hplain).mp hrow with ⟨_, _, holds, rs, _, hrs, rfl⟩
    rcases resolveAccount_ok_iff.mp hrs.resolves with ⟨_, hims, hsurviving, _⟩
    refine ⟨rs.resolved.imRequirements, ?_⟩
    change imRequirementsFor row.1.accountOwner rs.resolved.surviving table = _
    rw [hsurviving]
    exact hims
  rcases hrows with ⟨rows, hrows⟩
  exact ⟨_, bind_eq_ok.mpr ⟨rows, hrows, rfl⟩⟩

/-- The guest completes on the framed rows exactly when the epoch is complete, as long as
no open that locks is on a paused pair of a marking epoch. -/
theorem framed_accepted_iff (hz : NonzeroOn (stagedPreimages prior outcome))
    (hwf : prior.WellFormed)
    (h : resolveEpoch prior inputs table = .ok outcome)
    (hscenario : ∃ root, table.scenarioRoot = .ok root)
    (hfresh : ∀ m ∈ inputs.provenMarks, markFresh m.markTime inputs.proofNow = true)
    (hdomain : ∀ nb ∈ inputs.newPositions, nb.domainSeparator = inputs.domainSeparator)
    (hopen : prior.Marking inputs → ∀ nb, prior.Locks inputs nb →
      positionPaused inputs.pausedPairs nb.seatA = false) :
    (∃ out, stateTransition (framedInputs prior inputs table outcome) = .ok out) ↔
      prior.Complete inputs := by
  have hplain : (framedInputs prior inputs table outcome).Plain := ⟨rfl, rfl, rfl⟩
  have hmarking := markingEpoch_framed hwf h
  constructor
  · intro haccepted
    rcases haccepted with ⟨out, hout⟩
    rcases framed_stages hwf h hout with ⟨_, _, results, _, _, hst, hresolved, _⟩
    have hbinds := (bindRows_ok_iff.mp hst.bound).2.1
    rw [List.mapM_map] at hresolved
    have hrows : ∀ e ∈ keptOf prior outcome.post inputs, prior.Marking inputs →
        ∀ b ∈ (openedRow prior inputs e).2.positions,
          MustMark inputs.pausedPairs inputs.proofNow b →
            ∃ p ∈ prior.book e.1, p.oracle = b.oracle ∧ inputs.MarksPosition p := by
      intro e he
      rcases exists_of_mapM hresolved he with ⟨result, _, hresult⟩
      exact (resolveRow_framed_iff hwf h hfresh (mem_keptOf.mp he).1).mp ⟨result, hresult⟩
    rcases (framed_marks_iff hwf h hopen).mp hrows with ⟨hmarked, hcarried⟩
    exact ⟨(framed_binds_iff hwf h).mp hbinds, hmarked, hcarried⟩
  · intro hcomplete
    rcases hscenario with ⟨scenarioRoot, hscenario⟩
    rcases (resolveEpoch_ok_iff hwf).mp h with ⟨hopens, hids, _⟩
    have hbound := bindRows_ok_iff.mpr
      ⟨framed_chain hwf h, (framed_binds_iff hwf h).mpr hcomplete.priced, rfl⟩
    have hresolved : Finished (((keptOf prior outcome.post inputs).map fun e =>
        (openedRow prior inputs e, prior.leafAt e.1)).mapM
          (resolveRow (framedInputs prior inputs table outcome)
            (markingEpochOf (epochRows prior inputs)))) := by
      refine mapM_finished fun x hx => ?_
      rcases List.mem_map.mp hx with ⟨e, he, rfl⟩
      refine (resolveRow_framed_iff hwf h hfresh (mem_keptOf.mp he).1).mpr ?_
      exact (framed_marks_iff hwf h hopen).mpr ⟨hcomplete.marked, hcomplete.carried⟩ e he
    rcases hresolved with ⟨results, hresults⟩
    rcases framed_requirements hresults with ⟨requirements, hrequired⟩
    have hfolded := (stagedFor_spec hwf h).2.2 hz _ (framed_posts hwf h hresults)
    have hheld := framed_holds_perm hwf h hbound hresults
    rw [(newHolds_eq_nil_iff hwf h).mpr hopen, List.append_nil] at hheld
    refine ⟨_, (stateTransition_plain_iff hplain).mpr ⟨scenarioRoot, _, results, requirements, _,
      Stages.ofPlain_completed hplain hscenario ?_ hbound hopens ?_ ?_ hrequired hfolded ?_
        (assertOpenedPositionIdsComplete_canonical _), rfl⟩⟩
    · unfold gateInputs
      refine ensure_bind_eq_ok.mpr ⟨rfl, ensure_bind_eq_ok.mpr ⟨rfl, ensure_bind_eq_ok.mpr
        ⟨rfl, ensure_bind_eq_ok.mpr ⟨?_, ensure_of hdomain⟩⟩⟩⟩
      intro m hm
      cases hm
    · change ∀ row ∈ rowsAfter inputs.proofNow _ inputs.newPositions, _
      rw [rowsAfter_framed hwf h]
      intro row hrow
      rcases List.mem_map.mp hrow with ⟨e, he, rfl⟩
      exact hids e (mem_keptOf.mp he).1
    · change ((rowsAfter inputs.proofNow _ inputs.newPositions).zip _).mapM _ = _
      rw [framed_pairs hwf h hbound, hmarking]
      exact hresults
    · rw [hmarking]
      exact assertPausedHoldsComplete_of_perm hheld

/-! ## Fresh epochs -/

omit [Primitives] in
/-- A fresh epoch's marks are fresh at its clock. -/
theorem freshMarks_fresh {twaps : List TwapBoundRecord} {now : U64} {m : ProvenMark}
    (h : m ∈ freshMarks twaps now) : markFresh m.markTime now = true := by
  rcases List.mem_map.mp h with ⟨t, ht, rfl⟩
  rcases Bool.and_eq_true_iff.mp (List.mem_filter.mp ht).2 with ⟨hfresh, _⟩
  exact hfresh

omit [Primitives] in
/-- A converted open carries the requested domain. -/
theorem openToNewPosition_domain {o : OpenRecord} {domain : Bytes32} {nb : NewPosition}
    (h : openToNewPosition o domain = .ok nb) : nb.domainSeparator = domain :=
  (openToNewPosition_carriedBy h).1.domainSeparator

/-- The guest accepts a fresh epoch exactly when the epoch is complete.  Left aside is a
marking epoch that opens a trade on a paused pair. -/
theorem freshEpoch_accepted_iff (hk : KeccakNonzero) {recorded history : ChainHistory}
    {domain : Bytes32} {now : U64} {chainAccountsRoot : Bytes32} {frames : AdvanceFrames}
    {inp : StateTransitionInputs} (hrebuild : rebuild recorded table = .ok prior)
    (hinputs : freshEpochInputs history prior domain now = .ok inputs)
    (hbuild : buildAdvanceFrames prior inputs table chainAccountsRoot = .ok frames)
    (hread : readFrames frames.frames = some inp)
    (hopen : prior.Marking inputs → ∀ nb, prior.Locks inputs nb →
      positionPaused inputs.pausedPairs nb.seatA = false) :
    Finished (stateTransition inp) ↔ prior.Complete inputs := by
  have hwf := rebuild_wellFormed hrebuild
  rcases buildAdvanceFrames_ok hbuild with
    ⟨hscenario, _, outcome, hresolve, hframes, _, _, _⟩
  rw [hread] at hframes
  have hinp : inp = framedInputs prior inputs table outcome := Option.some.inj hframes
  subst hinp
  rcases bind_eq_ok.mp hinputs with ⟨newPositions, hopens, heq⟩
  cases heq
  refine framed_accepted_iff hk.on hwf hresolve hscenario ?_ ?_ hopen
  · intro m hm
    exact freshMarks_fresh hm
  · intro nb hnb
    rcases exists_of_mem_mapM hopens hnb with ⟨o, _, ho⟩
    exact openToNewPosition_domain ho

end Conditions

/-! ## A marking epoch, and a due trade without a price -/

section Concrete

attribute [local instance] concretePrimitives

/-- The fold of two trades between two parties, one expiring at 200 and one at 300, proved at
clock 100. -/
def pairFold : List FoldRecord :=
  landed 2 (prepare (openedHistory [(unitTerms 200 1).record, (unitTerms 300 2).record])
    flatTable 92 100)

/-- A chain with that fold, a third open between the parties, and a price bound at 200. -/
def markedHistory : ChainHistory :=
  { openedHistory [(unitTerms 200 1).record, (unitTerms 300 2).record, (unitTerms 400 3).record]
      with
    folds := pairFold
    twaps := [{ feedId := 3, closeTime := 200, twap := 1100000, expo := -6, block := 3 }] }

/-- At clock 250 the price is that of the trade that is due and the mark of the one that is
live, and the third open locks. -/
theorem markedHistory_prepared :
    (fun p => decide (p.state.Complete p.inputs ∧ p.state.Marking p.inputs ∧
      p.inputs.pausedPairs = [] ∧
      (∃ x ∈ p.state.seats, MustSettle p.inputs.pausedPairs p.inputs.proofNow x.2) ∧
      (∃ x ∈ p.state.seats, MustMark p.inputs.pausedPairs p.inputs.proofNow x.2) ∧
      ∃ nb ∈ p.inputs.newPositions,
        nb.locks p.inputs.proofNow (ownersIn (epochRows p.state p.inputs)))) <$>
      prepare markedHistory flatTable 92 250 = .ok true := by
  decide +kernel

/-- The guest accepts a marking epoch with a due seat, a live one and an open that locks. -/
theorem freshEpoch_accepted_marked :
    ∃ p, prepare markedHistory flatTable 92 250 = .ok p ∧ p.state.Marking p.inputs ∧
      (∃ owner q, p.state.Holds owner q ∧
        MustSettle p.inputs.pausedPairs p.inputs.proofNow q ∧ p.inputs.PricesPosition q) ∧
      (∃ owner q, p.state.Holds owner q ∧
        MustMark p.inputs.pausedPairs p.inputs.proofNow q ∧ p.inputs.MarksPosition q) ∧
      (∃ nb, p.state.Locks p.inputs nb) ∧ Finished (stateTransition p.guest) := by
  obtain ⟨p, hp, hfacts⟩ := map_eq_ok.mp markedHistory_prepared
  obtain ⟨hcomplete, hmarking, hpaused, hdue, hlive, nb, hnb, hlock⟩ := of_decide_eq_true hfacts
  obtain ⟨⟨owner, q⟩, hheld, hsettle⟩ := hdue
  obtain ⟨⟨owner', q'⟩, hheld', hmark⟩ := hlive
  have hseat := TreeState.mem_seats.mp hheld
  have hseat' := TreeState.mem_seats.mp hheld'
  obtain ⟨hstate, hinputs, hframes, hguest⟩ := prepare_ok hp
  refine ⟨p, hp, hmarking, ⟨owner, q, hseat, hsettle, hcomplete.priced owner q hseat hsettle⟩,
    ⟨owner', q', hseat', hmark, hcomplete.marked hmarking owner' q' hseat' hmark⟩,
    ⟨nb, hnb, hlock⟩, ?_⟩
  refine (freshEpoch_accepted_iff Keccak.positiveKeccak256_ne_zero hstate hinputs hframes hguest
    ?_).mpr hcomplete
  intro _ nb _
  rw [hpaused]
  rfl

/-- The epoch over a due trade without a price would change the tree, and the guest refuses
it. -/
theorem dueHistory_prepared :
    (fun p => (decide (p.frames.predictedRoot ≠ p.frames.rootPrev),
      (stateTransition p.guest).isOk)) <$> prepare dueHistory flatTable 92 250 =
      .ok (true, false) := by
  decide +kernel

/-- The keeper builds an advance over a due trade without a price; the guest refuses it. -/
theorem freshEpoch_refused_due :
    ∃ p, prepare dueHistory flatTable 92 250 = .ok p ∧
      p.frames.predictedRoot ≠ p.frames.rootPrev ∧ ¬Finished (stateTransition p.guest) := by
  have hrun := dueHistory_prepared
  rcases map_eq_ok.mp hrun with ⟨p, hp, hresult⟩
  rw [Prod.mk.injEq, decide_eq_true_eq] at hresult
  refine ⟨p, hp, hresult.1, ?_⟩
  intro h
  rcases h with ⟨out, hout⟩
  have hrefused := hresult.2
  rw [hout] at hrefused
  cases hrefused

end Concrete

end StateKeeper
