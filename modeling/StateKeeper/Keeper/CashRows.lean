import StateKeeper.Keeper.Acceptance
import StateKeeper.Engine.MarkSpec
import StateKeeper.Tree.Provenance

/-!
# Keeper - Each settled trade moves cash once

A retired seat adds a row to the fold's cash exactly when it loses.  Both seats of
a trade are framed, find the same price and realize opposite values, and no third
seat carries the trade's id, so a trade with a non-zero value adds one row: from
the loser to the other party.

Main results:

- Theorem {lit}`settlements_framed`: the guest's rows, seat by seat.
- Theorem {lit}`settlements_of_retired`: the rows of each id.
-/

namespace StateKeeper

open Words Fallible SortedKeys KeyedMap

section Cash

variable [Primitives]

/-- The row a seat adds to the cash of its fold. -/
def cashOf (paused : List Bytes32) (provenTwaps : List ProvenTwap)
    (s : Address × PositionRecord) : Option Settlement :=
  if retires paused provenTwaps s.2 then
    seatSettlement s.1 s.2
      { termsId := s.2.termsId, vmRealized := settleValue provenTwaps s.2 }
  else none

theorem cashOf_id {paused : List Bytes32} {provenTwaps : List ProvenTwap}
    {s : Address × PositionRecord} {row : Settlement} (h : cashOf paused provenTwaps s = some row) :
    row.id = s.2.termsId := by
  unfold cashOf seatSettlement at h
  split at h
  · split at h
    · cases h
      rfl
    · cases h
  · cases h

/-- A row's settlements, seat by seat. -/
theorem resolved_settlements {rs : RowStages} {paused : List Bytes32} {table : ScenarioTable}
    {markingEpoch : Bool} {row : Row} (hrs : rs.Completed paused table markingEpoch row) :
    rs.resolved.settlements =
      row.2.positions.filterMap fun p => cashOf paused row.2.provenTwaps (row.owner, p) := by
  have hss := (positionSettlements_ok_iff.mp hrs.settles).2.1
  rcases resolveAccount_ok_iff.mp hrs.resolves with ⟨hids, _, _, _, _, _, hcash, _, _⟩
  rw [hcash]
  refine List.filterMap_congr fun p hp => ?_
  rw [settlementFor_eq hids hss hp]
  unfold cashOf
  split
  · rfl
  · rfl

omit [Primitives] in
/-- Mirrored seats realize opposite values at the same prices. -/
theorem settleValue_mirror {provenTwaps : List ProvenTwap} {owner : Address}
    {p q : PositionRecord} (hpolar : p.side = 1 ∨ p.side = -1) (h : Mirrors owner p q) :
    (settleValue provenTwaps q).toInt = -(settleValue provenTwaps p).toInt := by
  unfold settleValue
  rw [boundTwap_of_mirrors h]
  cases boundTwap provenTwaps p with
  | none => rfl
  | some tw =>
      dsimp only
      cases settleNativeTo1e6 tw.settlePrice tw.expo with
      | error e => rfl
      | ok settle1e6 =>
          dsimp only
          rw [h.entryRate, h.notional, h.side]
          exact positionVm_neg _ _ _ hpolar

/-! ## The framed seats -/

variable {prior : TreeState} {inputs : EpochInputs} {table : ScenarioTable}
  {outcome : EpochOutcome} {out : StateTransitionOutputs}

/-- The seats of the framed rows after the opens, with their owners. -/
def framedSeats (prior post : TreeState) (inputs : EpochInputs) :
    List (Address × PositionRecord) :=
  (keptOf prior post inputs).flatMap fun e =>
    (openedRow prior inputs e).2.positions.map fun p => ((openedRow prior inputs e).owner, p)

/-- A framed row settles its seats as the epoch's prices do. -/
theorem cashOf_framed (hclosed : inputs.PricesClosed)
    {e : Bytes32 × Address} {p : PositionRecord}
    (hp : p ∈ (openedRow prior inputs e).2.positions) (owner : Address) :
    cashOf inputs.pausedPairs (openedRow prior inputs e).2.provenTwaps (owner, p) =
      cashOf inputs.pausedPairs inputs.provenTwaps (owner, p) := by
  rw [openedRow_provenTwaps]
  have hmem := hp
  rw [openedRow_positions, List.mem_append] at hmem
  rcases hmem with hbook | hnew
  · unfold cashOf settleValue
    rw [retires_twapsFor hbook, boundTwap_twapsFor hbook]
  · -- a new seat is live, so no price retires it
    have hlive := expiry_of_mem_newSeats hnew
    have hrow : retires inputs.pausedPairs (twapsFor inputs.provenTwaps (prior.book e.1)) p =
        false :=
      retires_of_live hlive fun tw htw => hclosed tw (List.mem_filter.mp htw).1
    unfold cashOf
    rw [hrow, retires_of_live hlive hclosed, if_neg Bool.false_ne_true, if_neg Bool.false_ne_true]

/-- The guest's cash is the rows of the framed seats. -/
theorem settlements_framed (hwf : prior.WellFormed)
    (h : resolveEpoch prior inputs table = .ok outcome) (hclosed : inputs.PricesClosed)
    (hout : stateTransition (framedInputs prior inputs table outcome) = .ok out) :
    out.settlements = (framedSeats prior outcome.post inputs).filterMap
      (cashOf inputs.pausedPairs inputs.provenTwaps) := by
  have hplain : (framedInputs prior inputs table outcome).Plain := ⟨rfl, rfl, rfl⟩
  rcases framed_stages hwf h hout with ⟨_, _, results, _, _, hst, hresolved, hcommits⟩
  have hcash : out.settlements = results.flatMap RowResult.settlements := by
    rw [hcommits]
    change results.flatMap RowResult.settlements ++ [] ++ [] = _
    rw [List.append_nil, List.append_nil]
  rw [hcash, framedSeats, List.filterMap_flatMap]
  rw [List.mapM_map] at hresolved
  have hall := mapM_eq_ok_iff.mp hresolved
  clear hst hresolved hcommits hcash
  generalize keptOf prior outcome.post inputs = kept at hall ⊢
  induction hall with
  | nil => rfl
  | @cons e result rest results' hresult _ ih =>
      rw [List.flatMap_cons, List.flatMap_cons, ih]
      congr 1
      rcases (resolveRow_plain_iff hplain).mp hresult with ⟨_, _, holds, rs, _, hrs, rfl⟩
      rw [List.filterMap_map]
      refine (resolved_settlements hrs).trans (List.filterMap_congr fun p hp => ?_)
      exact cashOf_framed hclosed hp _

theorem mem_framedSeats {x : Address} {p : PositionRecord} :
    (x, p) ∈ framedSeats prior outcome.post inputs ↔
      ∃ e ∈ keptOf prior outcome.post inputs, (openedRow prior inputs e).owner = x ∧
        p ∈ (openedRow prior inputs e).2.positions := by
  simp only [framedSeats, List.mem_flatMap, List.mem_map, Prod.mk.injEq]
  constructor
  · intro h
    rcases h with ⟨e, he, p', hp, howner, rfl⟩
    exact ⟨e, he, howner, hp⟩
  · intro h
    rcases h with ⟨e, he, howner, hp⟩
    exact ⟨e, he, p, hp, howner, rfl⟩

theorem framedSeats_nodup (hwf : prior.WellFormed)
    (h : resolveEpoch prior inputs table = .ok outcome) :
    (framedSeats prior outcome.post inputs).Nodup := by
  have howners : ((keptOf prior outcome.post inputs).map fun e =>
      (openedRow prior inputs e).owner).Nodup := by
    have hall : ownersIn (epochRows prior inputs) =
        (touchedOf prior inputs).map fun e => (openedRow prior inputs e).owner := by
      rw [ownersIn, epochRows, List.map_map]
      rfl
    have hnodup := ownersIn_epochRows_nodup hwf inputs
    rw [hall] at hnodup
    exact hnodup.sublist (List.filter_sublist.map _)
  refine nodup_flatMap_tagged howners fun e he => ?_
  exact List.Nodup.of_map _ (((resolveEpoch_ok_iff hwf).mp h).2.1 e (mem_keptOf.mp he).1)

/-- An owner has at most one framed seat of an id. -/
theorem framedSeats_unique (hwf : prior.WellFormed)
    (h : resolveEpoch prior inputs table = .ok outcome) {x : Address} {p q : PositionRecord}
    (hp : (x, p) ∈ framedSeats prior outcome.post inputs)
    (hq : (x, q) ∈ framedSeats prior outcome.post inputs) (hid : q.termsId = p.termsId) :
    q = p := by
  rcases mem_framedSeats.mp hp with ⟨e, he, rfl, hmemp⟩
  rcases mem_framedSeats.mp hq with ⟨f, hf, howner, hmemq⟩
  have htouched := (mem_keptOf.mp he).1
  have hkey : f.1 = e.1 := by
    rw [← accountId_of_openedRow hwf (mem_keptOf.mp hf).1, howner,
      accountId_of_openedRow hwf htouched]
  have hsame : f = e :=
    eq_of_key_eq (touchedOf_keys_nodup prior inputs) (mem_keptOf.mp hf).1 htouched hkey
  subst hsame
  exact eq_of_key_eq (((resolveEpoch_ok_iff hwf).mp h).2.1 f htouched) hmemq hmemp hid

/-- A held seat is framed. -/
theorem framed_of_holds {x : Address} {p : PositionRecord} (hp : prior.Holds x p) :
    (x, p) ∈ framedSeats prior outcome.post inputs := by
  rcases touched_of_holds inputs hp with ⟨e, he, howner, hbook⟩
  refine mem_framedSeats.mpr ⟨e, kept_of_book he hbook, howner, ?_⟩
  rw [openedRow_positions]
  exact List.mem_append_left _ hbook

/-- The framed seats of a held trade's id are its two seats. -/
theorem framedSeats_of_id (hwf : prior.WellFormed) (hmatched : prior.Matched)
    (h : resolveEpoch prior inputs table = .ok outcome) {opens : List NewPosition}
    (hopened : prior.OpenedBy opens) (hdistinct : TermsDistinct (opens ++ inputs.newPositions))
    {owner : Address} {p q : PositionRecord} (hp : prior.Holds owner p)
    (hq : prior.Holds p.counterparty q) (hmirror : Mirrors owner p q) :
    ((framedSeats prior outcome.post inputs).filter fun s => s.2.termsId = p.termsId).Perm
      [(owner, p), (p.counterparty, q)] := by
  have hpq : (owner, p) ≠ (p.counterparty, q) := by
    intro hsame
    have hside := hmirror.side
    rw [← (Prod.mk.inj hsame).2] at hside
    rcases hmatched.polar owner p hp with hpolar | hpolar
    · rw [hpolar] at hside
      exact absurd hside (by decide)
    · rw [hpolar] at hside
      exact absurd hside (by decide)
  have hpair : [(owner, p), (p.counterparty, q)].Nodup := by simpa using hpq
  refine (List.perm_ext_iff_of_nodup ((framedSeats_nodup hwf h).filter _) hpair).mpr ?_
  intro s
  rw [List.mem_filter, decide_eq_true_iff, List.mem_pair]
  constructor
  · intro hs
    rcases hs with ⟨hframed, hid⟩
    rcases mem_framedSeats.mp hframed with ⟨e, _, howner, hmem⟩
    rcases hopened.openedRow hwf h hmem with ⟨nb, hnb, hident, hseat⟩
    rcases hopened owner p hp with ⟨nb', hnb', hident', hseat'⟩
    -- one id, one pair of parties
    have hsame : nb.recomputedId = nb'.recomputedId := by
      rw [hident, hident', ← hseat.termsId, ← hseat'.termsId, hid]
    rcases hdistinct.parties hnb (List.mem_append_left _ hnb') hsame with ⟨hA, hB⟩
    have hparty : s.1 = owner ∨ s.1 = p.counterparty := by
      rw [← howner]
      rcases hseat with ⟨hown, _⟩ | ⟨hown, _⟩
      · rcases hseat' with ⟨hown', _⟩ | ⟨_, rfl⟩
        · exact .inl (by rw [← hown, hA, hown'])
        · exact .inr (by rw [← hown, hA]; rfl)
      · rcases hseat' with ⟨_, rfl⟩ | ⟨hown', _⟩
        · exact .inr (by rw [← hown, hB]; rfl)
        · exact .inl (by rw [← hown, hB, hown'])
    rcases s with ⟨x, p'⟩
    rcases hparty with rfl | rfl
    · left
      rw [framedSeats_unique hwf h (framed_of_holds hp) hframed hid]
    · right
      have hid' : p'.termsId = q.termsId := hid.trans hmirror.termsId.symm
      rw [framedSeats_unique hwf h (framed_of_holds hq) hframed hid']
  · intro hs
    rcases hs with rfl | rfl
    · exact ⟨framed_of_holds hp, rfl⟩
    · exact ⟨framed_of_holds hq, hmirror.termsId⟩

/-! ## The rows of an id -/

omit [Primitives] in
/-- Keeping the rows of an id keeps what the seats of that id add. -/
theorem filter_rows {f : Address × PositionRecord → Option Settlement}
    (hf : ∀ s row, f s = some row → row.id = s.2.termsId) (ident : Bytes32)
    (seats : List (Address × PositionRecord)) :
    (seats.filterMap f).filter (fun row => row.id = ident) =
      (seats.filter fun s => s.2.termsId = ident).filterMap f := by
  induction seats with
  | nil => rfl
  | cons s seats ih =>
      cases hs : f s with
      | none =>
          by_cases hid : s.2.termsId = ident
          · simp [hs, hid, ih]
          · simp [hs, hid, ih]
      | some row =>
          have hrow := hf s row hs
          by_cases hid : s.2.termsId = ident
          · simp [hs, hid, hrow, ih]
          · simp [hs, hid, hrow, ih]

/-- The rows of a trade whose seat realizes a value: one from the loser to the other
party, none at zero. -/
def tradeRows (owner : Address) (p : PositionRecord) (vm : I128) : List Settlement :=
  if vm.toInt < 0 then
    [{ payer := owner, payee := p.counterparty, usd := unsignedAbs vm, id := p.termsId }]
  else if 0 < vm.toInt then
    [{ payer := p.counterparty, payee := owner, usd := unsignedAbs vm, id := p.termsId }]
  else []

/-- The two seats of a retired trade add the trade's rows. -/
theorem cashOf_pair {paused : List Bytes32} {provenTwaps : List ProvenTwap} {owner : Address}
    {p q : PositionRecord} (hpolar : p.side = 1 ∨ p.side = -1) (hmirror : Mirrors owner p q)
    (hretires : retires paused provenTwaps p = true) :
    [(owner, p), (p.counterparty, q)].filterMap (cashOf paused provenTwaps) =
      tradeRows owner p (settleValue provenTwaps p) := by
  have hneg : (settleValue provenTwaps q).toInt = -(settleValue provenTwaps p).toInt :=
    settleValue_mirror hpolar hmirror
  have habs : unsignedAbs (settleValue provenTwaps q) = unsignedAbs (settleValue provenTwaps p) := by
    rw [unsignedAbs, unsignedAbs, hneg, Int.natAbs_neg]
  have hq : retires paused provenTwaps q = true := by
    rw [retires_of_mirrors hmirror, hretires]
  rw [List.filterMap_cons, List.filterMap_cons, List.filterMap_nil]
  simp only [cashOf, hretires, hq, if_true, seatSettlement, tradeRows]
  rw [hneg, habs, hmirror.counterparty, hmirror.termsId]
  by_cases hloss : (settleValue provenTwaps p).toInt < 0
  · have hgain : ¬0 < (settleValue provenTwaps p).toInt := by omega
    simp [hloss, hgain]
  · by_cases hzero : 0 < (settleValue provenTwaps p).toInt
    · simp [hloss, hzero]
    · simp [hloss, hzero]

omit [Primitives] in
theorem tradeRows_length (owner : Address) (p : PositionRecord) (vm : I128) :
    (tradeRows owner p vm).length ≤ 1 := by
  unfold tradeRows
  split
  · exact le_rfl
  · split
    · exact le_rfl
    · exact Nat.zero_le 1

/-- A seat leaves the tree exactly when the epoch retires it. -/
theorem retires_of_left (hwf : prior.WellFormed)
    (h : resolveEpoch prior inputs table = .ok outcome) (hclosed : inputs.PricesClosed)
    {owner : Address} {p : PositionRecord} (hp : prior.Holds owner p) :
    ¬outcome.post.Holds owner p ↔ retires inputs.pausedPairs inputs.provenTwaps p = true := by
  rw [holds_after_iff hwf h hclosed, not_or]
  constructor
  · intro hleft
    by_contra hnot
    exact hleft.1 ⟨hp, Bool.eq_false_iff.mpr hnot⟩
  · intro hretires
    refine ⟨fun hstays => ?_, fun hnew => ?_⟩
    · rw [hstays.2] at hretires
      exact Bool.false_ne_true hretires
    · rw [retires_of_live (expiry_of_mem_newSeats hnew) hclosed] at hretires
      exact Bool.false_ne_true hretires

/-- A retired seat found a price of the epoch, and the price converts. -/
theorem settles_of_retires (hwf : prior.WellFormed)
    (h : resolveEpoch prior inputs table = .ok outcome) {owner : Address} {p : PositionRecord}
    (hp : prior.Holds owner p)
    (hretires : retires inputs.pausedPairs inputs.provenTwaps p = true) :
    ∃ tw settle1e6, boundTwap inputs.provenTwaps p = some tw ∧
      settleNativeTo1e6 tw.settlePrice tw.expo = .ok settle1e6 := by
  rcases touched_of_holds inputs hp with ⟨e, he, _, hbook⟩
  have hsome : (boundTwap inputs.provenTwaps p).isSome :=
    boundTwap_isSome.mpr (retires_eq_true.mp hretires).2
  rcases Option.isSome_iff_exists.mp hsome with ⟨tw, htw⟩
  rcases openedRow_settles hwf h he with ⟨settled, hsettled⟩
  have hss := (positionSettlements_ok_iff.mp hsettled).2.1
  have hseat : (p, tw) ∈ boundSeats (openedRow prior inputs e).2.provenTwaps
      (openedRow prior inputs e).2.positions := by
    refine mem_boundSeats.mpr ⟨?_, ?_⟩
    · rw [openedRow_positions]
      exact List.mem_append_left _ hbook
    · rw [openedRow_provenTwaps]
      exact (boundTwap_twapsFor hbook).trans htw
  rcases exists_of_mapM hss hseat with ⟨settlement, _, hsettlement⟩
  rcases bind_eq_ok.mp hsettlement with ⟨settle1e6, hprice, _⟩
  exact ⟨tw, settle1e6, htw, hprice⟩

/-- Each trade the epoch retires moves its cash once.  Whenever a seat leaves the tree, its
mirror leaves with it; both found one price and realize opposite values at it; and the
guest's rows of their id are exactly the trade's: one from the loser to the other party
over the realized value, none when it is zero.  A row of any other id does not exist. -/
theorem settlements_of_retired {opens : List NewPosition}
    (hreached : TreeState.ReachedBy opens prior) (hclosed : inputs.PricesClosed)
    (hdistinct : TermsDistinct (opens ++ inputs.newPositions)) {chainAccountsRoot : Bytes32}
    {frames : AdvanceFrames} {inp : StateTransitionInputs}
    (hbuild : buildAdvanceFrames prior inputs table chainAccountsRoot = .ok frames)
    (hread : readFrames frames.frames = some inp) (hout : stateTransition inp = .ok out)
    (h : resolveEpoch prior inputs table = .ok outcome) :
    (∀ owner p, prior.Holds owner p → ¬outcome.post.Holds owner p →
      ∃ q tw settle1e6, prior.Holds p.counterparty q ∧ ¬outcome.post.Holds p.counterparty q ∧
        Mirrors owner p q ∧ boundTwap inputs.provenTwaps p = some tw ∧
        boundTwap inputs.provenTwaps q = some tw ∧
        settleNativeTo1e6 tw.settlePrice tw.expo = .ok settle1e6 ∧
        (positionVm q.entryRate settle1e6 q.notional q.side).toInt =
          -(positionVm p.entryRate settle1e6 p.notional p.side).toInt ∧
        out.settlements.filter (fun row => row.id = p.termsId) =
          tradeRows owner p (positionVm p.entryRate settle1e6 p.notional p.side)) ∧
    ∀ row ∈ out.settlements, ∃ owner p, prior.Holds owner p ∧ ¬outcome.post.Holds owner p ∧
      p.termsId = row.id := by
  rcases hreached.reachable.wellFormed_matched with ⟨hwf, hmatched⟩
  rcases buildAdvanceFrames_ok hbuild with ⟨_, _, outcome', h', hframes, _⟩
  have hsame := ok_unique h' h
  subst hsame
  rw [hread] at hframes
  have hinp : inp = framedInputs prior inputs table outcome' := Option.some.inj hframes
  subst hinp
  have hcash := settlements_framed hwf h hclosed hout
  constructor
  · intro owner p hp hleft
    have hretires := (retires_of_left hwf h hclosed hp).mp hleft
    rcases hmatched.mirrored owner p hp with ⟨q, hq, hmirror⟩
    rcases settles_of_retires hwf h hp hretires with ⟨tw, settle1e6, htw, hprice⟩
    have hpolar := hmatched.polar owner p hp
    have hqleft : ¬outcome'.post.Holds p.counterparty q := by
      rw [retires_of_left hwf h hclosed hq, retires_of_mirrors hmirror, hretires]
    have htwq : boundTwap inputs.provenTwaps q = some tw := by
      rw [boundTwap_of_mirrors hmirror, htw]
    have hvalue : ∀ b, boundTwap inputs.provenTwaps b = some tw →
        settleValue inputs.provenTwaps b = positionVm b.entryRate settle1e6 b.notional b.side := by
      intro b hb
      rw [settleValue, hb]
      simp only [hprice]
    refine ⟨q, tw, settle1e6, hq, hqleft, hmirror, htw, htwq, hprice, ?_, ?_⟩
    · rw [← hvalue p htw, ← hvalue q htwq]
      exact settleValue_mirror hpolar hmirror
    · rw [hcash, filter_rows (fun s row hrow => cashOf_id hrow), ← hvalue p htw]
      have hperm := (framedSeats_of_id hwf hmatched h hreached.openedBy hdistinct hp hq
        hmirror).filterMap (cashOf inputs.pausedPairs inputs.provenTwaps)
      rw [cashOf_pair hpolar hmirror hretires] at hperm
      exact eq_of_perm_of_length hperm (tradeRows_length _ _ _)
  · intro row hrow
    rw [hcash] at hrow
    rcases List.mem_filterMap.mp hrow with ⟨⟨owner, p⟩, hseat, hrow⟩
    have hretires : retires inputs.pausedPairs inputs.provenTwaps p = true := by
      by_contra hnot
      rw [cashOf, if_neg hnot] at hrow
      cases hrow
    rcases mem_framedSeats.mp hseat with ⟨e, _, rfl, hmem⟩
    rcases seat_of_openedRow hwf hmem with hp | ⟨nb, _, hlive, _⟩
    · exact ⟨_, p, hp, (retires_of_left hwf h hclosed hp).mpr hretires, (cashOf_id hrow).symm⟩
    · rw [retires_of_live hlive hclosed] at hretires
      exact absurd hretires Bool.false_ne_true

end Cash

section Samples

attribute [local instance] concretePrimitives

/-- An epoch that settles the unit trade at its expiry, ten percent up. -/
def settledEpoch : EpochInputs where
  newPositions := []
  provenMarks := []
  provenTwaps := [{ feedId := 3, closeTime := 200, settlePrice := 1100000, expo := -6 }]
  pausedPairs := []
  proofNow := 200
  domainSeparator := 92

/-- The seat of party 11 of the unit trade leaves its book in one row. -/
theorem settledEpoch_proved :
    let p : PositionRecord := (unitTerms 200 1).bound.seatB
    unitTree.accounts[accountIdSingle 11]?.map (fun a => (a.owner, a.positions)) =
      some (11, [p]) ∧
    (fun r => r.2.2.settlements.length) <$>
      advanceRun unitTree settledEpoch flatTable unitTree.accountsRoot = .ok 1 ∧
    (fun outcome => (outcome.post.accounts[accountIdSingle 11]?).isNone) <$>
      resolveEpoch unitTree settledEpoch flatTable = .ok true ∧
    tradeRows 11 p (settleValue settledEpoch.provenTwaps p) =
      [{ payer := 11, payee := 10, usd := 100000, id := p.termsId }] := by
  decide +kernel

/-- The unit trade settles with one row: party 11 pays party 10. -/
theorem settlements_of_retired_unit :
    ∃ frames inp out, buildAdvanceFrames unitTree settledEpoch flatTable unitTree.accountsRoot =
        .ok frames ∧
      readFrames frames.frames = some inp ∧ stateTransition inp = .ok out ∧
      ∃ p, unitTree.Holds 11 p ∧
        out.settlements.filter (fun row => row.id = p.termsId) =
          [{ payer := 11, payee := 10, usd := 100000, id := p.termsId }] := by
  have hreached : TreeState.ReachedBy [(unitTerms 200 1).bound] unitTree := by
    rcases treeAfter_eq unitTree_opened.1 with ⟨outcome, hresolve, hpost⟩
    rw [unitTree, ← hpost]
    exact .epoch .empty (by simp [EpochInputs.PricesClosed, singleOpenEpoch]) hresolve
  have hclosed : settledEpoch.PricesClosed := by
    intro tw htw
    rw [List.mem_singleton.mp htw]
    decide
  have hdistinct : TermsDistinct ([(unitTerms 200 1).bound] ++ settledEpoch.newPositions) := by
    intro x hx y hy _
    rcases hx with ⟨nb, hnb, rfl⟩
    rcases hy with ⟨nb', hnb', rfl⟩
    rw [List.mem_singleton.mp hnb, List.mem_singleton.mp hnb']
  let p : PositionRecord := (unitTerms 200 1).bound.seatB
  obtain ⟨hbook, hrun, hafter, hrows⟩ := settledEpoch_proved
  rcases map_eq_ok.mp hrun with ⟨⟨frames, inp, out⟩, hr, _⟩
  rcases advanceRun_ok hr with ⟨hbuild, hread, hout⟩
  rcases map_eq_ok.mp hafter with ⟨outcome, houtcome, hnone⟩
  have hp : unitTree.Holds 11 p := by
    rcases Option.map_eq_some_iff.mp hbook with ⟨a, ha, hseat⟩
    rcases Prod.mk.inj hseat with ⟨howner, hpositions⟩
    exact ⟨a, ha, howner, by rw [hpositions]; exact List.mem_singleton_self p⟩
  have hleft : ¬outcome.post.Holds 11 p := by
    intro hholds
    rcases hholds with ⟨a, ha, _, _⟩
    rw [ha] at hnone
    cases hnone
  rcases (settlements_of_retired hreached hclosed hdistinct hbuild hread hout houtcome).1 11 p
    hp hleft with ⟨q, tw, settle1e6, _, _, _, htw, _, hprice, _, hfilter⟩
  have hvalue : settleValue settledEpoch.provenTwaps p =
      positionVm p.entryRate settle1e6 p.notional p.side := by
    rw [settleValue, htw]
    simp only [hprice]
  rw [← hvalue, hrows] at hfilter
  exact ⟨frames, inp, out, hbuild, hread, hout, p, hp, hfilter⟩

end Samples

end StateKeeper
