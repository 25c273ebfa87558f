import StateKeeper.Engine.HandoffSpec
import StateKeeper.Engine.MarkSpec

/-!
# Engine - What an unwind does

An accepted fold tears a trade up only when both its parties signed the price, and
then from both of their books at once.  A proven price comes before a signed one,
and a paused pair keeps the seat.

Main results:

- Theorem {lit}`resolveRow_closes`: the seats a row keeps and the cash it emits.
- Theorem {lit}`unwinds_retire`: what every committed unwind of a fold does.
-/

namespace StateKeeper

open Words Fallible SortedKeys

/-! ## What closes a seat -/

/-- The PnL a seat would realize: at the price that binds it, else at a signed one. -/
def closeValue (provenTwaps : List ProvenTwap) (unwinds : List Unwind) (b : PositionRecord) :
    Option I128 :=
  if (boundTwap provenTwaps b).isSome then some (settleValue provenTwaps b)
  else (unwinds.find? fun u => u.oldId = b.termsId).map fun u =>
    positionVm b.entryRate u.closePrice b.notional b.side

/-- A seat of an id some unwind names has a value. -/
theorem closeValue_isSome {provenTwaps : List ProvenTwap} {unwinds : List Unwind}
    {b : PositionRecord} {u : Unwind} (hu : u ∈ unwinds) (hid : u.oldId = b.termsId) :
    (closeValue provenTwaps unwinds b).isSome = true := by
  unfold closeValue
  by_cases hbound : (boundTwap provenTwaps b).isSome = true
  · rw [if_pos hbound]
    rfl
  · rw [if_neg hbound, Option.isSome_map, List.find?_isSome]
    exact ⟨u, hu, by simpa using hid⟩

/-- The unwind settlement that names a seat of the book is at the first unwind of its id. -/
theorem find_unwindSettlements {positions : List PositionRecord} {unwinds : List Unwind}
    (hids : (positions.map PositionRecord.termsId).Nodup) {b : PositionRecord}
    (hb : b ∈ positions) :
    (unwindSettlementsForAccount positions unwinds).find? (fun s => s.termsId = b.termsId) =
      (unwinds.find? fun u => u.oldId = b.termsId).map fun u =>
        { termsId := b.termsId
          vmRealized := positionVm b.entryRate u.closePrice b.notional b.side } := by
  unfold unwindSettlementsForAccount
  induction positions with
  | nil => cases hb
  | cons p rest ih =>
      rw [List.map_cons, List.nodup_cons] at hids
      rw [List.filterMap_cons]
      rcases List.mem_cons.mp hb with rfl | hrest
      · cases hfind : unwinds.find? fun u => u.oldId = b.termsId with
        | some u =>
            rw [Option.map_some, List.find?_cons_of_pos (by simp)]
        | none =>
            rw [Option.map_none, List.find?_eq_none]
            intro s hs
            -- a later settlement is named after a later seat
            rcases List.mem_filterMap.mp hs with ⟨q, hq, hsome⟩
            rcases Option.map_eq_some_iff.mp hsome with ⟨u, _, rfl⟩
            have hne : q.termsId ≠ b.termsId := by
              intro heq
              apply hids.1
              rw [← heq]
              exact List.mem_map_of_mem hq
            simpa using hne
      · have hne : p.termsId ≠ b.termsId := by
          intro heq
          apply hids.1
          rw [heq]
          exact List.mem_map_of_mem hrest
        cases hfind : unwinds.find? fun u => u.oldId = p.termsId with
        | none =>
            rw [Option.map_none]
            exact ih hids.2 hrest
        | some u =>
            rw [Option.map_some, List.find?_cons_of_neg (by simpa using hne)]
            exact ih hids.2 hrest

section Closing

variable [Primitives] {paused : List Bytes32} {provenTwaps : List ProvenTwap}
  {positions : List PositionRecord} {ss : List PositionSettlement} {unwinds : List Unwind}

/-- What a seat closes at: nothing while its pair is paused. -/
def closesAt (paused : List Bytes32) (provenTwaps : List ProvenTwap) (unwinds : List Unwind)
    (b : PositionRecord) : Option I128 :=
  if positionPaused paused b then none else closeValue provenTwaps unwinds b

/-- Over distinct ids, a seat takes its own settlement, at what it closes at. -/
theorem settlementFor_unwinds (hids : (positions.map PositionRecord.termsId).Nodup)
    (hss : (boundSeats provenTwaps positions).mapM settleSeat = .ok ss) {b : PositionRecord}
    (hb : b ∈ positions) :
    settlementFor paused (ss ++ unwindSettlementsForAccount positions unwinds) b =
      (closesAt paused provenTwaps unwinds b).map fun v =>
        { termsId := b.termsId, vmRealized := v } := by
  have hpriced : settlementFor paused ss b = _ := settlementFor_eq hids hss hb
  unfold settlementFor retires at hpriced
  unfold settlementFor closesAt closeValue
  cases hpaused : positionPaused paused b with
  | true => rfl
  | false =>
      simp only [hpaused, Bool.not_false, Bool.true_and, Bool.false_eq_true, if_false] at hpriced ⊢
      rw [List.find?_append, hpriced]
      by_cases hbound : (boundTwap provenTwaps b).isSome = true
      · rw [if_pos hbound, if_pos hbound]
        rfl
      · rw [if_neg hbound, if_neg hbound, Option.none_or, find_unwindSettlements hids hb,
          Option.map_map]
        rfl

/-! ## What a row keeps and emits -/

/-- The seats of a row that stay. -/
def stayingSeats (inp : StateTransitionInputs) (row : Row) : List PositionRecord :=
  row.2.positions.filter fun b => (closesAt inp.pausedPairs row.2.provenTwaps inp.unwinds b).isNone

/-- A row keeps the seats nothing closes and emits each loss of a seat that closes. -/
structure RowCloses (inp : StateTransitionInputs) (row : Row) (r : RowResult) : Prop where
  ids : (row.2.positions.map PositionRecord.termsId).Nodup
  owner : r.post.owner = row.owner
  kept : r.post.positions = sortBy PositionRecord.termsId (stayingSeats inp row)
  cash : r.settlements = row.2.positions.filterMap fun b =>
    (closesAt inp.pausedPairs row.2.provenTwaps inp.unwinds b).bind fun v =>
      seatSettlement row.owner b { termsId := b.termsId, vmRealized := v }
  prices : r.consumedTwaps = (boundSeats row.2.provenTwaps row.2.positions).map fun e =>
    e.2.consumed

/-- A resolved row of any fold closes its seats. -/
theorem resolveRow_closes {inp : StateTransitionInputs} {markingEpoch : Bool}
    {e : Row × Option Bytes32} {r : RowResult} (h : resolveRow inp markingEpoch e = .ok r) :
    RowCloses inp e.1 r := by
  unfold resolveRow at h
  rcases bind_eq_ok.mp h with ⟨_, _, h⟩
  rcases bind_eq_ok.mp h with ⟨settled, hsettled, h⟩
  rcases ensure_bind_eq_ok.mp h with ⟨_, h⟩
  rcases bind_eq_ok.mp h with ⟨holds, _, h⟩
  rcases bind_eq_ok.mp h with ⟨vm, _, h⟩
  rcases bind_eq_ok.mp h with ⟨resolved, hresolved, h⟩
  rcases positionSettlements_ok_iff.mp hsettled with ⟨_, hss, hconsumed⟩
  rcases resolveAccount_ok_iff.mp hresolved with
    ⟨hids, _, hsurviving, _, _, _, hcash, _, _⟩
  have hr := Except.ok.inj h
  have hclose : ∀ b ∈ e.1.2.positions,
      settlementFor inp.pausedPairs
        (settled.1 ++ unwindSettlementsForAccount e.1.2.positions inp.unwinds) b =
      (closesAt inp.pausedPairs e.1.2.provenTwaps inp.unwinds b).map fun v =>
        { termsId := b.termsId, vmRealized := v } := by
    intro b hb
    exact settlementFor_unwinds hids hss hb
  constructor
  · exact hids
  · rw [← hr]
    rfl
  · have hkept : resolved.surviving =
        sortBy PositionRecord.termsId (stayingSeats inp e.1) := by
      rw [hsurviving]
      unfold survivingOf stayingSeats
      apply congrArg
      apply List.filter_congr
      intro b hb
      rw [hclose b hb, Option.isNone_map]
    rw [← hr]
    exact hkept
  · have hemitted : resolved.settlements = e.1.2.positions.filterMap fun b =>
        (closesAt inp.pausedPairs e.1.2.provenTwaps inp.unwinds b).bind fun v =>
          seatSettlement e.1.owner b { termsId := b.termsId, vmRealized := v } := by
      rw [hcash]
      apply List.filterMap_congr
      intro b hb
      rw [hclose b hb, Option.bind_map]
      rfl
    rw [← hr]
    exact hemitted
  · rw [← hr]
    exact hconsumed

/-- What a kept or torn seat leaves in its row's result. -/
structure SeatCloses (inp : StateTransitionInputs) (row : Row) (r : RowResult)
    (seat : PositionRecord) : Prop where
  held : seat ∈ row.2.positions
  closes : RowCloses inp row r
  /-- On a paused pair the seat stays and no cash names it. -/
  paused : positionPaused inp.pausedPairs seat = true →
    seat ∈ r.post.positions ∧ ∀ s ∈ r.settlements, s.id ≠ seat.termsId
  /-- Otherwise it leaves with its own loss, if it is one. -/
  torn : positionPaused inp.pausedPairs seat = false → ∃ v : I128,
    closeValue row.2.provenTwaps inp.unwinds seat = some v ∧
    (∀ b ∈ r.post.positions, b.termsId ≠ seat.termsId) ∧
    (r.settlements.filter fun s => s.id = seat.termsId) =
      (seatSettlement row.owner seat { termsId := seat.termsId, vmRealized := v }).toList

omit [Primitives] in
theorem seatSettlement_id {owner : Address} {b : PositionRecord} {s : PositionSettlement}
    {t : Settlement} (h : seatSettlement owner b s = some t) : t.id = b.termsId := by
  unfold seatSettlement at h
  split at h
  · cases h
    rfl
  · cases h

omit [Primitives] in
/-- Over distinct ids, the cash that names a seat is the seat's own. -/
theorem filter_seatCash (owner : Address) (value : PositionRecord → Option I128)
    (hids : (positions.map PositionRecord.termsId).Nodup) {seat : PositionRecord}
    (hseat : seat ∈ positions) :
    ((positions.filterMap fun b => (value b).bind fun v =>
        seatSettlement owner b { termsId := b.termsId, vmRealized := v }).filter
          fun s => s.id = seat.termsId) =
      ((value seat).bind fun v =>
        seatSettlement owner seat { termsId := seat.termsId, vmRealized := v }).toList := by
  have hother : ∀ b ∈ positions, b.termsId ≠ seat.termsId → ∀ s,
      ((value b).bind fun v =>
        seatSettlement owner b { termsId := b.termsId, vmRealized := v }) = some s →
          s.id ≠ seat.termsId := by
    intro b _ hne s hs
    rcases Option.bind_eq_some_iff.mp hs with ⟨v, _, hs⟩
    rw [seatSettlement_id hs]
    exact hne
  rcases List.mem_iff_append.mp hseat with ⟨before, after, rfl⟩
  rw [List.map_append, List.map_cons, List.nodup_middle, List.nodup_cons] at hids
  have hnone : ∀ bs : List PositionRecord, (∀ b ∈ bs, b ∈ before ++ seat :: after) →
      (∀ b ∈ bs, b.termsId ≠ seat.termsId) →
      ((bs.filterMap fun b => (value b).bind fun v =>
        seatSettlement owner b { termsId := b.termsId, vmRealized := v }).filter
          fun s => s.id = seat.termsId) = [] := by
    intro bs hsub hne
    rw [List.filter_eq_nil_iff]
    intro s hs
    rcases List.mem_filterMap.mp hs with ⟨b, hb, hsome⟩
    simpa using hother b (hsub b hb) (hne b hb) s hsome
  have hfresh : ∀ b ∈ before ++ after, b.termsId ≠ seat.termsId := by
    intro b hb heq
    apply hids.1
    rw [← heq, ← List.map_append]
    exact List.mem_map_of_mem hb
  rw [List.filterMap_append, List.filter_append, List.filterMap_cons,
    hnone before (fun b hb => List.mem_append_left _ hb)
      (fun b hb => hfresh b (List.mem_append_left _ hb)), List.nil_append]
  have hrest := hnone after (fun b hb => List.mem_append_right _ (List.mem_cons_of_mem _ hb))
    (fun b hb => hfresh b (List.mem_append_right _ hb))
  cases hown : (value seat).bind fun v =>
      seatSettlement owner seat { termsId := seat.termsId, vmRealized := v } with
  | none => exact hrest
  | some t =>
      rcases Option.bind_eq_some_iff.mp hown with ⟨v, _, ht⟩
      have hself : decide (t.id = seat.termsId) = true := decide_eq_true (seatSettlement_id ht)
      dsimp only
      rw [List.filter_cons, if_pos hself, hrest]
      rfl

/-- A seat of a resolved row that some unwind names stays while its pair is paused, and
otherwise leaves with its loss. -/
theorem RowCloses.seat {inp : StateTransitionInputs} {row : Row} {r : RowResult}
    (h : RowCloses inp row r) {seat : PositionRecord} (hseat : seat ∈ row.2.positions)
    {u : Unwind} (hu : u ∈ inp.unwinds) (hid : u.oldId = seat.termsId) :
    SeatCloses inp row r seat := by
  have hcash := filter_seatCash row.owner
    (closesAt inp.pausedPairs row.2.provenTwaps inp.unwinds) h.ids hseat
  rw [← h.cash] at hcash
  refine ⟨hseat, h, ?_, ?_⟩
  · intro hpaused
    have hstays : closesAt inp.pausedPairs row.2.provenTwaps inp.unwinds seat = none := by
      unfold closesAt
      rw [if_pos hpaused]
    constructor
    · rw [h.kept, mem_sortBy, stayingSeats, List.mem_filter, hstays]
      exact ⟨hseat, rfl⟩
    · rw [hstays] at hcash
      intro s hs
      simpa using List.filter_eq_nil_iff.mp hcash s hs
  · intro hpaused
    have hsome : (closeValue row.2.provenTwaps inp.unwinds seat).isSome = true :=
      closeValue_isSome hu hid
    rcases Option.isSome_iff_exists.mp hsome with ⟨v, hv⟩
    have hleaves : closesAt inp.pausedPairs row.2.provenTwaps inp.unwinds seat = some v := by
      unfold closesAt
      rw [if_neg (by rw [hpaused]; exact Bool.false_ne_true), hv]
    refine ⟨v, hv, ?_, ?_⟩
    · intro b hb heq
      rw [h.kept, mem_sortBy, stayingSeats, List.mem_filter] at hb
      rw [eq_of_key_eq h.ids hb.1 hseat heq, hleaves] at hb
      exact absurd hb.2 Bool.false_ne_true
    · rw [hcash, hleaves]
      rfl

/-! ## The consent -/

/-- What both parties of an unwind sign. -/
def Unwind.digest (u : Unwind) (domainSeparator : Bytes32) : Bytes32 :=
  eip712Digest domainSeparator (closeoutStructHash u.oldId u.closePrice u.nonce u.deadline)

/-- The witness carries the signatures of both parties of the unwind, in either order, over
its id, price, nonce and deadline under the domain. -/
def Unwind.Consented (u : Unwind) (w : UnwindWitness) (domainSeparator : Bytes32) : Prop :=
  (recoverEthSigner (u.digest domainSeparator) w.sigA = .ok u.partyA ∧
      recoverEthSigner (u.digest domainSeparator) w.sigB = .ok u.partyB) ∨
    (recoverEthSigner (u.digest domainSeparator) w.sigA = .ok u.partyB ∧
      recoverEthSigner (u.digest domainSeparator) w.sigB = .ok u.partyA)

/-- A witness that makes a committed entry valid carries both consents. -/
theorem unwindEntryValid_consented {w : UnwindWitness} {u : Unwind} {domainSeparator : Bytes32}
    (hdomain : w.domainSeparator = domainSeparator) (h : unwindEntryValid w u = .ok true) :
    u.Consented w domainSeparator ∧ u.oldId = w.aPosition.termsId ∧
      u.partyB = w.aPosition.counterparty := by
  rcases bind_eq_ok.mp h with ⟨entry, hentry, hsame⟩
  have hsame : entry = u := of_decide_eq_true (Except.ok.inj hsame)
  unfold unwindClose at hentry
  dsimp only at hentry
  rcases ensure_bind_eq_ok.mp hentry with ⟨hfaces, hentry⟩
  rcases bind_eq_ok.mp hentry with ⟨signerA, hsignerA, hentry⟩
  rcases bind_eq_ok.mp hentry with ⟨signerB, hsignerB, hentry⟩
  rcases ensure_bind_eq_ok.mp hentry with ⟨hboth, hentry⟩
  have hresult := (Except.ok.inj hentry).trans hsame
  subst hresult hdomain
  refine ⟨?_, rfl, hfaces.symm⟩
  rcases hboth with ⟨rfl, rfl⟩ | ⟨rfl, rfl⟩
  · exact .inl ⟨hsignerA, hsignerB⟩
  · exact .inr ⟨hsignerA, hsignerB⟩

omit [Primitives] in
theorem heldBy_ok {accounts : List Row} {party : Address} {oldId : Bytes32} {noRow noLeg : String}
    {seat : PositionRecord} (h : heldBy accounts party oldId noRow noLeg = .ok seat) :
    ∃ row ∈ accounts, row.owner = party ∧ seat ∈ row.2.positions ∧ seat.termsId = oldId := by
  rcases bind_eq_ok.mp h with ⟨row, hrow, hseat⟩
  have hrow := expect_eq_ok.mp hrow
  have hseat := expect_eq_ok.mp hseat
  have howner := List.find?_some hrow
  have hid := List.find?_some hseat
  exact ⟨row, List.mem_of_find?_eq_some hrow, of_decide_eq_true howner,
    List.mem_of_find?_eq_some hseat, of_decide_eq_true hid⟩

/-- A committed unwind is consented to, and both its parties hold a seat of its id that
faces the other. -/
theorem checkUnwind_ok {accounts : List Row} {domainSeparator : Bytes32}
    {e : Unwind × UnwindWitness} (h : checkUnwind accounts domainSeparator e = .ok ()) :
    e.1.Consented e.2 domainSeparator ∧
      (∃ row ∈ accounts, row.owner = e.1.partyA ∧ e.2.aPosition ∈ row.2.positions ∧
        e.2.aPosition.termsId = e.1.oldId ∧ e.2.aPosition.counterparty = e.1.partyB) ∧
      ∃ row ∈ accounts, row.owner = e.1.partyB ∧ ∃ mirror ∈ row.2.positions,
        mirror.termsId = e.1.oldId ∧ mirror.counterparty = e.1.partyA := by
  unfold checkUnwind at h
  dsimp only at h
  rcases ensure_bind_eq_ok.mp h with ⟨hdomain, h⟩
  rcases bind_eq_ok.mp h with ⟨valid, hvalid, h⟩
  rcases ensure_bind_eq_ok.mp h with ⟨hsound, h⟩
  rcases bind_eq_ok.mp h with ⟨src, hsrc, h⟩
  rcases ensure_bind_eq_ok.mp h with ⟨hleg, h⟩
  rcases bind_eq_ok.mp h with ⟨mirror, hmirror, h⟩
  rw [hsound] at hvalid
  rcases unwindEntryValid_consented hdomain hvalid with ⟨hconsented, hid, hfaces⟩
  have hback := ensure_eq_ok.mp h
  rcases heldBy_ok hsrc with ⟨row, hrow, howner, hseat, _⟩
  rcases heldBy_ok hmirror with ⟨row', hrow', howner', hseat', hid'⟩
  rw [← hleg] at hseat
  exact ⟨hconsented, ⟨row, hrow, howner, hseat, hid.symm, hfaces.symm⟩,
    ⟨row', hrow', howner', mirror, hseat', hid', hback⟩⟩

/-! ## The unwinds of a fold -/

section Fold

variable {inp : StateTransitionInputs} {out : StateTransitionOutputs} {st : Stages}

/-- A party's row of a fold and its seat of an unwound trade, facing the other party. -/
structure UnwoundSeat (inp : StateTransitionInputs) (st : Stages) (u : Unwind)
    (party facing : Address) (row : Row) (r : RowResult) (seat : PositionRecord) : Prop where
  resolved : (row, r) ∈ st.accounts.zip st.results
  owner : row.owner = party
  termsId : seat.termsId = u.oldId
  counterparty : seat.counterparty = facing
  closes : SeatCloses inp row r seat

/-- The cash of a trade torn up: what one party loses, the other is paid. -/
def tornCash (partyA partyB : Address) (ident : Bytes32) (v : I128) : List Settlement :=
  if v.toInt < 0 then [{ payer := partyA, payee := partyB, usd := unsignedAbs v, id := ident }]
  else if 0 < v.toInt then
    [{ payer := partyB, payee := partyA, usd := unsignedAbs v, id := ident }]
  else []

/-- A fold resolves its rows one to one. -/
theorem Stages.Completed.row_closes (h : st.Completed inp) {row : Row}
    (hrow : row ∈ st.accounts) :
    ∃ r, (row, r) ∈ st.accounts.zip st.results ∧ RowCloses inp row r := by
  rcases bindRows_ok_iff.mp h.bound with ⟨_, _, hbound⟩
  have hpriors : st.accounts.length = (st.bound.map BoundRow.prior).length := by
    have howners := congrArg List.length (ownersIn_rowsAfter inp.proofNow inp.rows inp.newPositions)
    rw [h.opens_eq.1, hbound]
    simpa [ownersIn, StateTransitionInputs.rows] using howners
  rcases List.getElem_of_mem hrow with ⟨i, hi, hget⟩
  have hresults := mapM_length h.resolved
  rw [List.length_zip, ← hpriors, min_self] at hresults
  have hi' : i < st.results.length := by omega
  have hrun := (mapM_eq_ok_iff.mp h.resolved).get
    (by rw [List.length_zip]; omega) hi'
  rw [List.get_eq_getElem, List.get_eq_getElem, List.getElem_zip, hget] at hrun
  refine ⟨st.results[i], ?_, resolveRow_closes hrun⟩
  rw [← hget]
  apply List.mem_iff_getElem.mpr
  refine ⟨i, ?_, List.getElem_zip⟩
  rw [List.length_zip]
  omega

omit [Primitives] in
/-- The losses of the two seats of a trade at one price are the trade's one payment. -/
theorem seatLosses_eq_tornCash {partyA partyB : Address} {seatA seatB : PositionRecord}
    (hid : seatB.termsId = seatA.termsId) (hB : seatA.counterparty = partyB)
    (hA : seatB.counterparty = partyA) {v w : I128} (hneg : w.toInt = -v.toInt) :
    (seatSettlement partyA seatA { termsId := seatA.termsId, vmRealized := v }).toList ++
        (seatSettlement partyB seatB { termsId := seatB.termsId, vmRealized := w }).toList =
      tornCash partyA partyB seatA.termsId v := by
  have habs : unsignedAbs w = unsignedAbs v := by
    apply BitVec.eq_of_toNat_eq
    rw [unsignedAbs_toNat, unsignedAbs_toNat, hneg, Int.natAbs_neg]
  unfold seatSettlement tornCash
  dsimp only
  rw [hneg, habs, hB, hA, hid]
  by_cases hloss : v.toInt < 0
  · have hgain : ¬-v.toInt < 0 := by omega
    rw [if_pos hloss, if_neg hgain, if_pos hloss]
    rfl
  · rw [if_neg hloss, if_neg hloss]
    by_cases hgain : 0 < v.toInt
    · have hpays : -v.toInt < 0 := by omega
      rw [if_pos hpays, if_pos hgain]
      rfl
    · have hnone : ¬-v.toInt < 0 := by omega
      rw [if_neg hnone, if_neg hgain]
      rfl

/-- Every committed unwind of an accepted fold comes with a witness that carries both its
parties' signatures over it, and each party holds a seat of its id in the fold's book that
faces the other.  On a paused pair the seat stays and emits nothing; otherwise both leave.
Where the seats offset each other and no proven price binds them, the price is that of an
unwind of that id whose witness carries both signatures, and the cash of the two rows under
that id is one payment, of the loser to the winner. -/
theorem unwinds_retire (h : stateTransition inp = .ok out) :
    ∃ st : Stages, st.Completed inp ∧ out = st.outputs inp ∧
      (inp.unwinds.zip inp.unwindWitnesses).map Prod.fst = inp.unwinds ∧
      ∀ e ∈ inp.unwinds.zip inp.unwindWitnesses, e.1.Consented e.2 inp.domainSeparator ∧
        ∃ (rowA rowB : Row) (rA rB : RowResult) (seatB : PositionRecord),
          UnwoundSeat inp st e.1 e.1.partyA e.1.partyB rowA rA e.2.aPosition ∧
          UnwoundSeat inp st e.1 e.1.partyB e.1.partyA rowB rB seatB ∧
          (positionPaused inp.pausedPairs e.2.aPosition = false →
            positionPaused inp.pausedPairs seatB = false →
            boundTwap rowA.2.provenTwaps e.2.aPosition = none →
            boundTwap rowB.2.provenTwaps seatB = none →
            seatB.entryRate = e.2.aPosition.entryRate →
            seatB.notional = e.2.aPosition.notional →
            (e.2.aPosition.side = 1 ∨ e.2.aPosition.side = -1) →
            seatB.side = -e.2.aPosition.side →
            ∃ signed ∈ inp.unwinds.zip inp.unwindWitnesses, signed.1.oldId = e.1.oldId ∧
              signed.1.Consented signed.2 inp.domainSeparator ∧
              (rA.settlements ++ rB.settlements).filter (fun s => s.id = e.1.oldId) =
                tornCash e.1.partyA e.1.partyB e.1.oldId
                  (positionVm e.2.aPosition.entryRate signed.1.closePrice
                    e.2.aPosition.notional e.2.aPosition.side)) := by
  obtain ⟨st, hst, rfl⟩ := stateTransition_ok_iff.mp h
  have hwitnessed : (inp.unwinds.zip inp.unwindWitnesses).map Prod.fst = inp.unwinds := by
    apply List.map_fst_zip
    exact hst.gated.unwinds.ge
  have hchecked := forM_eq_ok_iff.mp hst.unwound
  refine ⟨st, hst, rfl, hwitnessed, ?_⟩
  intro e he
  obtain ⟨hconsented, ⟨rowA, hrowA, hownA, hseatA, hidA, hfacesA⟩,
    ⟨rowB, hrowB, hownB, seatB, hseatB, hidB, hfacesB⟩⟩ := checkUnwind_ok (hchecked e he)
  have hu : e.1 ∈ inp.unwinds := (List.of_mem_zip he).1
  obtain ⟨rA, hzipA, hclosesA⟩ := hst.row_closes hrowA
  obtain ⟨rB, hzipB, hclosesB⟩ := hst.row_closes hrowB
  have hcloseA := hclosesA.seat hseatA hu hidA.symm
  have hcloseB := hclosesB.seat hseatB hu hidB.symm
  refine ⟨hconsented, rowA, rowB, rA, rB, seatB,
    ⟨hzipA, hownA, hidA, hfacesA, hcloseA⟩, ⟨hzipB, hownB, hidB, hfacesB, hcloseB⟩, ?_⟩
  intro hpausedA hpausedB hboundA hboundB hrate hnotional hpolar hside
  obtain ⟨vA, hvA, _, hcashA⟩ := hcloseA.torn hpausedA
  obtain ⟨vB, hvB, _, hcashB⟩ := hcloseB.torn hpausedB
  unfold closeValue at hvA hvB
  rw [hboundA, hidA] at hvA
  rw [hboundB, hidB] at hvB
  rw [if_neg (by simp)] at hvA hvB
  obtain ⟨u, hfound, rfl⟩ := Option.map_eq_some_iff.mp hvA
  rw [hfound] at hvB
  have hvB := Option.some.inj hvB
  have hsame := List.find?_some hfound
  have hmem := List.mem_of_find?_eq_some hfound
  rw [← hwitnessed] at hmem
  obtain ⟨signed, hsigned, rfl⟩ := List.mem_map.mp hmem
  refine ⟨signed, hsigned, of_decide_eq_true hsame,
    (checkUnwind_ok (hchecked signed hsigned)).1, ?_⟩
  have hneg : vB.toInt =
      -(positionVm e.2.aPosition.entryRate signed.1.closePrice e.2.aPosition.notional
        e.2.aPosition.side).toInt := by
    rw [← hvB, hrate, hnotional, hside]
    exact positionVm_neg _ _ _ hpolar
  have hcash := seatLosses_eq_tornCash (hidB.trans hidA.symm) hfacesA hfacesB hneg
  rw [hidA, hownA] at hcashA
  rw [hidB, hownB] at hcashB
  rw [hidA, hidB] at hcash
  rw [List.filter_append, hcashA, hcashB]
  exact hcash

end Fold

end Closing

section Concrete

attribute [local instance] signingPrimitives

def longLeg : PositionRecord := { oldLeg with counterparty := taker }
def shortLeg : PositionRecord := { oldLeg with counterparty := maker, side := -1 }

def tearUp : UnwindWitness where
  aPosition := longLeg
  closePrice := 1100000
  partyA := maker
  partyB := taker
  nonce := 1
  deadline := 1000
  domainSeparator := 92
  sigA := takerCloseout.sig
  sigB := makerCloseout.sig

def tornUp : Unwind where
  oldId := oldLeg.termsId
  partyA := maker
  partyB := taker
  closePrice := 1100000
  nonce := 1
  deadline := 1000

/-- A fold that tears up the only trade of its tree, signatures in the other order. -/
def unwindFold : StateTransitionInputs :=
  let aidA := accountIdSingle maker
  let aidB := accountIdSingle taker
  let state := Smt2.fromLeaves
    [(aidA, accountLeaf aidA 0 (positionsRoot [longLeg])),
     (aidB, accountLeaf aidB 0 (positionsRoot [shortLeg]))]
  let registry := Smt2.fromLeaves [(aidA, registryLeaf), (aidB, registryLeaf)]
  let rowA : TouchedAccount :=
    { account := { Account.default with
        accountOwner := maker
        positionsRoot := positionsRoot [longLeg] }
      risk := emptyRisk [longLeg]
      stateWitness := (state.assign aidB none).witness aidA
      registryWitness := some ((registry.assign aidB none).witness aidA) }
  let rowB : TouchedAccount :=
    { account := { Account.default with
        accountOwner := taker
        positionsRoot := positionsRoot [shortLeg] }
      risk := emptyRisk [shortLeg]
      stateWitness := state.witness aidB
      registryWitness := some (registry.witness aidB) }
  { book :=
      { rootPrev := state.root
        accountsRootPrev := registry.root
        touched := [rowB, rowA] }
    marks := []
    pausedPairs := []
    novations := []
    newPositions := []
    novationWitnesses := []
    closeoutNovations := []
    closeoutNovationWitnesses := []
    proofNow := 100
    domainSeparator := 92
    scenarioTable := flatTable
    unwinds := [tornUp]
    unwindWitnesses := [tearUp] }

theorem unwindFold_accepted : (stateTransition unwindFold).isOk = true := by
  decide +kernel

theorem maker_ne_taker : maker ≠ taker := by
  decide

/-- The two rows of the fold, without a proven price. -/
theorem unwindFold_rows {row : Row} (h : row ∈ unwindFold.rows) :
    row.2.provenTwaps = [] ∧ (row.owner = maker → row.2.positions = [longLeg]) ∧
      (row.owner = taker → row.2.positions = [shortLeg]) := by
  have hne := maker_ne_taker
  rcases List.mem_map.mp h with ⟨ta, hta, rfl⟩
  rcases List.mem_cons.mp hta with rfl | hta
  · exact ⟨rfl, fun howner => absurd howner.symm hne, fun _ => rfl⟩
  · rcases List.mem_singleton.mp hta with rfl
    exact ⟨rfl, fun _ => rfl, fun howner => absurd howner hne⟩

/-- The long seat gained a tenth of the notional, and the short party pays it. -/
theorem unwinds_retire_tornUp :
    ∃ (out : StateTransitionOutputs) (st : Stages) (rA rB : RowResult),
      stateTransition unwindFold = .ok out ∧ st.Completed unwindFold ∧
      tornUp.Consented tearUp 92 ∧ rA ∈ st.results ∧ rB ∈ st.results ∧
      (rA.settlements ++ rB.settlements).filter (fun s => s.id = 5) =
        [{ payer := taker, payee := maker, usd := 100000, id := 5 }] := by
  cases hrun : stateTransition unwindFold with
  | error e =>
      have haccepted := unwindFold_accepted
      rw [hrun] at haccepted
      cases haccepted
  | ok out =>
      obtain ⟨st, hst, _, _, hunwinds⟩ := unwinds_retire hrun
      obtain ⟨hconsented, rowA, rowB, rA, rB, seatB, hseatA, hseatB, hcash⟩ :=
        hunwinds (tornUp, tearUp) List.mem_cons_self
      have haccounts : st.accounts = unwindFold.rows := hst.opens_eq.1
      have hmemA := List.of_mem_zip hseatA.resolved
      have hmemB := List.of_mem_zip hseatB.resolved
      rw [haccounts] at hmemA hmemB
      obtain ⟨htwapsA, _, _⟩ := unwindFold_rows hmemA.1
      obtain ⟨htwapsB, _, hshort⟩ := unwindFold_rows hmemB.1
      have hheldB := hseatB.closes.held
      rw [hshort hseatB.owner, List.mem_singleton] at hheldB
      subst hheldB
      rw [htwapsA, htwapsB] at hcash
      obtain ⟨signed, hsigned, _, _, hpaid⟩ := hcash rfl rfl rfl rfl rfl rfl (.inl rfl) rfl
      rw [List.mem_singleton.mp hsigned] at hpaid
      exact ⟨out, st, rA, rB, rfl, hst, hconsented, hmemA.2, hmemB.2, hpaid⟩

end Concrete

end StateKeeper
