import StateKeeper.Keeper.Acceptance

/-!
# Keeper - Recovering the settle prices

The guest emits one consumed price for each seat that a price binds, and the
replay reads that list back as the epoch's prices without removing repeats.  A
trade has two seats with one binding key, so the recovered list of any settled
trade fails the engine's uniqueness check.

Main results:

- Theorem {lit}`settles_recovered_iff`: the recovered prices retire what the
  guest retired exactly when no price bound a seat.
-/

namespace StateKeeper

open Words Fallible SortedKeys KeyedMap

section Recovery

variable [Primitives]

/-- The epoch with its prices replaced. -/
def EpochInputs.withTwaps (inputs : EpochInputs) (provenTwaps : List ProvenTwap) : EpochInputs :=
  { inputs with provenTwaps := provenTwaps }

/-- The committed prices replay: they read back as prices with which the epoch resolves
and retires exactly the seats the guest retired. -/
def SettlesRecovered (prior : TreeState) (inputs : EpochInputs) (table : ScenarioTable)
    (inp : StateTransitionInputs) (out : StateTransitionOutputs) : Prop :=
  ∃ recovered, out.decoded.consumedTwaps.mapM provenTwapOf = .ok recovered ∧
    Finished (resolveEpoch prior (inputs.withTwaps recovered) table) ∧
    ∀ owner p,
      RetiredIn inputs.pausedPairs (rowsAfter inputs.proofNow
          (epochRows prior (inputs.withTwaps recovered)) inputs.newPositions) owner p ↔
        RetiredIn inp.pausedPairs (rowsAfter inp.proofNow inp.rows inp.newPositions) owner p

variable {prior : TreeState} {inputs : EpochInputs} {table : ScenarioTable}
  {outcome : EpochOutcome}

/-- What the guest commits as consumed: the prices of each framed row's bound seats. -/
theorem consumedTwaps_framed (hwf : prior.WellFormed)
    (h : resolveEpoch prior inputs table = .ok outcome) {out : StateTransitionOutputs}
    (hout : stateTransition (framedInputs prior inputs table outcome) = .ok out) :
    out.consumedTwaps = (keptOf prior outcome.post inputs).flatMap fun e =>
      (boundSeats (twapsFor inputs.provenTwaps (prior.book e.1))
        (openedRow prior inputs e).2.positions).map fun s => s.2.consumed := by
  have hplain : (framedInputs prior inputs table outcome).Plain := ⟨rfl, rfl, rfl⟩
  rcases (stateTransition_plain_iff hplain).mp hout with
    ⟨scenarioRoot, bound, results, requirements, roots, hst, rfl⟩
  change results.flatMap RowResult.consumedTwaps ++ [] = _
  rw [List.append_nil]
  have hresolved := hst.resolved
  change ((rowsAfter inputs.proofNow _ inputs.newPositions).zip _).mapM _ = Except.ok results
    at hresolved
  rw [framed_pairs hwf h hst.bound, List.mapM_map] at hresolved
  have hall := mapM_eq_ok_iff.mp hresolved
  clear hresolved hst hout
  generalize keptOf prior outcome.post inputs = kept at hall ⊢
  induction hall with
  | nil => rfl
  | @cons e result rest results' hresult _ ih =>
      rw [List.flatMap_cons, List.flatMap_cons, ih]
      rcases (resolveRow_plain_iff hplain).mp hresult with ⟨_, _, holds, rs, _, hrs, rfl⟩
      have hconsumed := (positionSettlements_ok_iff.mp hrs.settles).2.2
      change rs.settled.2 ++ _ = _
      rw [hconsumed, openedRow_provenTwaps]

/-! ## No price bound a seat -/

/-- Two price lists that bind no seat give the same rows. -/
theorem epochRows_withTwaps_nil (hwf : prior.WellFormed)
    (h : ∀ owner p, prior.Holds owner p → ¬inputs.PricesPosition p) :
    epochRows prior (inputs.withTwaps []) = epochRows prior inputs := by
  have hnil := twapsFor_book_nil hwf h
  unfold epochRows
  refine List.map_congr_left fun e _ => ?_
  have hbook := hnil e.1
  unfold TreeState.book at hbook
  unfold priorRow EpochInputs.withTwaps
  cases ha : prior.accounts[e.1]? with
  | none => rfl
  | some a =>
      rw [ha] at hbook
      simp only at hbook ⊢
      rw [hbook]
      rfl

/-- The epoch resolves as before when its prices, which bind no seat, are dropped. -/
theorem resolveEpoch_withTwaps_nil (hwf : prior.WellFormed)
    (h : ∀ owner p, prior.Holds owner p → ¬inputs.PricesPosition p) :
    resolveEpoch prior (inputs.withTwaps []) table = resolveEpoch prior inputs table := by
  have hrows := epochRows_withTwaps_nil hwf h
  unfold resolveEpoch
  rw [hrows]
  rfl

/-! ## A price bound a seat -/

/-- The consumed form of the binding key. -/
def ConsumedTwap.bindingKey (c : ConsumedTwap) : Address ×ₗ U64 :=
  toLex (feedIdOracle c.feedId, c.closeTime)

omit [Primitives] in
/-- A price binds a position exactly when its key is the position's. -/
theorem positionTwapBindingOk_iff {p : PositionRecord} {tw : ProvenTwap} :
    positionTwapBindingOk p tw = true ↔ tw.bindingKey = toLex (p.oracle, p.expiry) := by
  rw [positionTwapBindingOk, Bool.and_eq_true, beq_iff_eq, beq_iff_eq, ProvenTwap.bindingKey,
    toLex_inj, Prod.mk.injEq, eq_comm (a := tw.closeTime)]

omit [Primitives] in
/-- Reading committed prices back keeps their keys. -/
theorem recovered_keys {consumed : List ConsumedTwap} {recovered : List ProvenTwap}
    (h : consumed.mapM provenTwapOf = .ok recovered) :
    recovered.map ProvenTwap.bindingKey = consumed.map ConsumedTwap.bindingKey := by
  induction mapM_eq_ok_iff.mp h with
  | nil => rfl
  | cons hone hrest ih =>
      rw [List.map_cons, List.map_cons, ih (mapM_eq_ok_iff.mpr hrest)]
      unfold provenTwapOf at hone
      split at hone
      · cases hone
      · cases hone
        rfl

/-- A framed row that holds a priced position consumes a price of its key. -/
theorem consumed_of_priced {e : Bytes32 × Address} {p : PositionRecord}
    (hp : p ∈ prior.book e.1) (hpriced : inputs.PricesPosition p) :
    ∃ c ∈ (boundSeats (twapsFor inputs.provenTwaps (prior.book e.1))
        (openedRow prior inputs e).2.positions).map (fun s => s.2.consumed),
      c.bindingKey = toLex (p.oracle, p.expiry) := by
  have hsome : (boundTwap (twapsFor inputs.provenTwaps (prior.book e.1)) p).isSome := by
    rw [boundTwap_twapsFor_isSome hp, boundTwap_isSome]
    exact hpriced
  rcases Option.isSome_iff_exists.mp hsome with ⟨tw, htw⟩
  have hmem : p ∈ (openedRow prior inputs e).2.positions := by
    rw [openedRow_positions]
    exact List.mem_append_left _ hp
  refine ⟨tw.consumed, List.mem_map.mpr ⟨(p, tw), mem_boundSeats.mpr ⟨hmem, htw⟩, rfl⟩, ?_⟩
  exact positionTwapBindingOk_iff.mp (boundTwap_eq_some htw).2

/-- The mirror of a held position is held by another owner. -/
theorem TreeState.Matched.counterparty_ne (hwf : prior.WellFormed) (hmatched : prior.Matched)
    {owner : Address} {p : PositionRecord} (hp : prior.Holds owner p) :
    p.counterparty ≠ owner := by
  intro hself
  rcases hmatched.mirrored owner p hp with ⟨q, hq, hmirror⟩
  rw [hself] at hq
  have hsame := hwf.holds_unique hp hq hmirror.termsId
  have hside := hmirror.side
  rw [hsame] at hside
  rcases hmatched.polar owner p hp with hone | hone
  · rw [hone] at hside
    exact absurd hside (by decide)
  · rw [hone] at hside
    exact absurd hside (by decide)

/-- Both seats of a priced trade emit its price, so the recovered list has it twice. -/
theorem two_le_recovered (hwf : prior.WellFormed) (hmatched : prior.Matched)
    (h : resolveEpoch prior inputs table = .ok outcome) {out : StateTransitionOutputs}
    (hout : stateTransition (framedInputs prior inputs table outcome) = .ok out)
    {recovered : List ProvenTwap} (hrecovered : out.consumedTwaps.mapM provenTwapOf = .ok recovered)
    {owner : Address} {p : PositionRecord} (hp : prior.Holds owner p)
    (hpriced : inputs.PricesPosition p) :
    2 ≤ recovered.countP (fun tw => positionTwapBindingOk p tw) := by
  rcases hmatched.mirrored owner p hp with ⟨q, hq, hmirror⟩
  have hpricedq : inputs.PricesPosition q := by
    rcases hpriced with ⟨tw, htw, hbinds⟩
    refine ⟨tw, htw, ?_⟩
    rw [positionTwapBindingOk_iff, hmirror.oracle, hmirror.expiry]
    exact positionTwapBindingOk_iff.mp hbinds
  rcases touched_of_holds inputs hp with ⟨e, he, howner, hbook⟩
  rcases touched_of_holds inputs hq with ⟨e', he', howner', hbook'⟩
  have hne : e ≠ e' := by
    intro heq
    rw [heq, howner'] at howner
    exact hmatched.counterparty_ne hwf hp howner
  have hcount : recovered.countP (fun tw => positionTwapBindingOk p tw) =
      out.consumedTwaps.countP (fun c => c.bindingKey = toLex (p.oracle, p.expiry)) := by
    have hkeys := congrArg (List.countP fun k => decide (k = toLex (p.oracle, p.expiry)))
      (recovered_keys hrecovered)
    rw [List.countP_map, List.countP_map] at hkeys
    refine Eq.trans (List.countP_congr fun tw _ => ?_) hkeys
    rw [positionTwapBindingOk_iff, Function.comp_apply, decide_eq_true_eq]
  rw [hcount, consumedTwaps_framed hwf h hout]
  refine two_le_countP_flatMap (kept_of_book he hbook) (kept_of_book he' hbook') hne ?_ ?_
  · rcases consumed_of_priced hbook hpriced with ⟨c, hc, hkey⟩
    exact ⟨c, hc, decide_eq_true hkey⟩
  · rcases consumed_of_priced hbook' hpricedq with ⟨c, hc, hkey⟩
    rw [hmirror.oracle, hmirror.expiry] at hkey
    exact ⟨c, hc, decide_eq_true hkey⟩

/-- An epoch that resolves has at most one price for a held position. -/
theorem countP_binding_le_one (hwf : prior.WellFormed)
    (h : resolveEpoch prior inputs table = .ok outcome) {owner : Address} {p : PositionRecord}
    (hp : prior.Holds owner p) :
    inputs.provenTwaps.countP (fun tw => positionTwapBindingOk p tw) ≤ 1 := by
  rcases touched_of_holds inputs hp with ⟨e, he, _, hbook⟩
  rcases bind_eq_ok.mp (post_of_touched hwf h he) with ⟨r, hr, _⟩
  rcases replayRow_ok_iff.mp hr with ⟨settled, _, hsettled, _, _⟩
  have hunique := (positionSettlements_ok_iff.mp hsettled).1
  rw [openedRow_provenTwaps] at hunique
  have hone := countP_key_le_one hunique (toLex (p.oracle, p.expiry))
  rw [twapsFor, List.countP_filter] at hone
  refine le_trans (le_of_eq (List.countP_congr fun tw _ => ?_)) hone
  rw [Bool.and_eq_true, decide_eq_true_eq, positionTwapBindingOk_iff]
  constructor
  · intro hkey
    refine ⟨hkey, List.any_eq_true.mpr ⟨p, hbook, ?_⟩⟩
    exact positionTwapBindingOk_iff.mpr hkey
  · intro hboth
    exact hboth.1

/-- The committed prices replay exactly when no price of the epoch binds a seat of the
tree: any settled trade commits its price twice. -/
theorem settles_recovered_iff (hwf : prior.WellFormed)
    (hmatched : prior.Matched) {chainAccountsRoot : Bytes32} {frames : AdvanceFrames}
    {inp : StateTransitionInputs} {out : StateTransitionOutputs}
    (hbuild : buildAdvanceFrames prior inputs table chainAccountsRoot = .ok frames)
    (hread : readFrames frames.frames = some inp) (hout : stateTransition inp = .ok out) :
    SettlesRecovered prior inputs table inp out ↔
      ∀ owner p, prior.Holds owner p → ¬inputs.PricesPosition p := by
  rcases buildAdvanceFrames_ok hbuild with ⟨_, _, outcome, hresolve, hframes, _, _, _⟩
  rw [hread] at hframes
  have hinp : inp = framedInputs prior inputs table outcome := Option.some.inj hframes
  subst hinp
  constructor
  · intro hrecovers owner p hp hpriced
    rcases hrecovers with ⟨recovered, hrecovered, ⟨replayed, hreplayed⟩, _⟩
    have htwo := two_le_recovered hwf hmatched hresolve hout hrecovered hp hpriced
    have hone := countP_binding_le_one hwf hreplayed hp
    change recovered.countP _ ≤ 1 at hone
    omega
  · intro hnone
    have hnil := twapsFor_book_nil hwf hnone
    have hconsumed : out.consumedTwaps = [] := by
      rw [consumedTwaps_framed hwf hresolve hout, List.flatMap_eq_nil_iff]
      intro e _
      rw [hnil e.1, List.map_eq_nil_iff, boundSeats, List.filterMap_eq_nil_iff]
      intro b _
      rfl
    refine ⟨[], ?_, ?_, ?_⟩
    · change out.consumedTwaps.mapM provenTwapOf = _
      rw [hconsumed]
      rfl
    · rw [resolveEpoch_withTwaps_nil hwf hnone]
      exact ⟨outcome, hresolve⟩
    · intro owner p
      rw [epochRows_withTwaps_nil hwf hnone, rowsAfter_epochRows hwf]
      change _ ↔ RetiredIn inputs.pausedPairs
        (rowsAfter inputs.proofNow _ inputs.newPositions) owner p
      rw [rowsAfter_framed hwf hresolve]
      have hrow : ∀ e, (openedRow prior inputs e).2.provenTwaps = [] := by
        intro e
        rw [openedRow_provenTwaps, hnil e.1]
      refine iff_of_false (not_retiredIn ?_) (not_retiredIn ?_)
      · intro row hmem
        rcases List.mem_map.mp hmem with ⟨e, _, rfl⟩
        exact hrow e
      · intro row hmem
        rcases List.mem_map.mp hmem with ⟨e, _, rfl⟩
        exact hrow e

end Recovery

/-! ## A quiet epoch, and one that settles the unit trade -/

section Concrete

attribute [local instance] concretePrimitives

/-- The price one of the unit trade's oracle at a close time. -/
def unitPrice (closeTime : U64) : ProvenTwap where
  feedId := 3
  closeTime := closeTime
  settlePrice := 1000000
  expo := -6

/-- An epoch over the unit trade: a second open, with one price on offer. -/
def pricedEpoch (closeTime now : U64) : EpochInputs where
  newPositions := [(unitTerms 300 2).bound]
  provenMarks := []
  provenTwaps := [unitPrice closeTime]
  pausedPairs := []
  proofNow := now
  domainSeparator := 92

/-- Every seat of the unit trade expires at 200. -/
theorem unitTree_expiry {owner : Address} {p : PositionRecord} (hp : unitTree.Holds owner p) :
    p.expiry = 200 := by
  have hall := unitTree_opened.2.2.1
  rcases hp with ⟨a, ha, _, hmem⟩
  have hbook := List.all_eq_true.mp hall _ (mem_toList (e := (_, a)).mpr ha)
  exact beq_iff_eq.mp (List.all_eq_true.mp hbook p hmem)

/-- Both epochs prove: with a price that closes too early, and with one that settles the
trade, whose committed prices do not replay. -/
theorem pricedEpoch_proved :
    (advanceRun unitTree (pricedEpoch 120 150) flatTable unitTree.accountsRoot).isOk = true ∧
      (fun r => (do
        let recovered ← r.2.2.decoded.consumedTwaps.mapM provenTwapOf
        resolveEpoch unitTree ((pricedEpoch 200 250).withTwaps recovered) flatTable).isOk) <$>
        advanceRun unitTree (pricedEpoch 200 250) flatTable unitTree.accountsRoot = .ok false := by
  decide +kernel

/-- A price that closes before the trade expires is not consumed, and nothing is lost. -/
theorem settles_recovered_quiet :
    ∃ inp out, stateTransition inp = .ok out ∧
      SettlesRecovered unitTree (pricedEpoch 120 150) flatTable inp out := by
  have hrun := pricedEpoch_proved.1
  cases hr : advanceRun unitTree (pricedEpoch 120 150) flatTable unitTree.accountsRoot with
  | error e =>
      rw [hr] at hrun
      cases hrun
  | ok r =>
      rcases advanceRun_ok hr with ⟨hbuild, hread, hout⟩
      rcases unitTree_reachable.wellFormed_matched with ⟨hwf, hmatched⟩
      refine ⟨r.2.1, r.2.2, hout,
        (settles_recovered_iff hwf hmatched hbuild hread hout).mpr ?_⟩
      intro owner p hp hpriced
      rcases hpriced with ⟨tw, htw, hbinds⟩
      rw [List.mem_singleton.mp htw, positionTwapBindingOk_iff, unitTree_expiry hp] at hbinds
      have hclose : (120 : U64) = 200 := congrArg (fun k => (ofLex k).2) hbinds
      exact absurd hclose (by decide)

/-- The unit trade settles at its expiry; its price is committed twice and the replay of
the committed prices fails. -/
theorem settles_not_recovered :
    unitTree.WellFormed ∧ unitTree.Matched ∧ ∃ frames inp out,
      buildAdvanceFrames unitTree (pricedEpoch 200 250) flatTable unitTree.accountsRoot =
        .ok frames ∧
      readFrames frames.frames = some inp ∧ stateTransition inp = .ok out ∧
      ¬SettlesRecovered unitTree (pricedEpoch 200 250) flatTable inp out := by
  have hrun := pricedEpoch_proved.2
  rcases unitTree_reachable.wellFormed_matched with ⟨hwf, hmatched⟩
  rcases map_eq_ok.mp hrun with ⟨⟨frames, inp, out⟩, hr, hfails⟩
  rcases advanceRun_ok hr with ⟨hbuild, hread, hout⟩
  refine ⟨hwf, hmatched, frames, inp, out, hbuild, hread, hout, ?_⟩
  intro hrecovers
  rcases hrecovers with ⟨recovered, hrecovered, ⟨outcome, houtcome⟩, _⟩
  rw [hrecovered, ok_bind, houtcome] at hfails
  cases hfails

end Concrete

end StateKeeper
