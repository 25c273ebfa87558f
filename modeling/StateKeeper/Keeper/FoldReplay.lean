import StateKeeper.Keeper.PauseRecovery
import StateKeeper.Keeper.SettleRecovery
import StateKeeper.Keeper.ZeroSum
import StateKeeper.Tree.OpenRecovery
import StateKeeper.Tree.RebuildSpec

/-!
# Keeper - Replaying a fold from what it committed

The replay knows a fold by its public values: the opened ids in order, the marks
some kept seat found, a consumed price for each seat a price binds, and a block.
From a fold that carries no price of a held seat and rejects no open these recover
the epoch up to the order of its opens.

Main results:

- Theorem {lit}`marks_recovered`: the committed marks are those that bind the tree.
- Theorem {lit}`fold_replayed`: the replay of a fold takes the fold's step.
-/

namespace StateKeeper

open Words Fallible SortedKeys

/-! ## Marks read back -/

/-- The mark that was consumed. -/
def ConsumedMark.proven (m : ConsumedMark) : ProvenMark where
  feedId := m.feedId
  markTime := m.markTime
  price := m.price
  expo := m.expo

@[simp]
theorem ProvenMark.proven_consumed (m : ProvenMark) : m.consumed.proven = m :=
  rfl

/-- Non-negative marks are read back as they were. -/
theorem provenMarks_read {marks : List ConsumedMark} (h : ∀ m ∈ marks, 0 ≤ m.price.toInt) :
    marks.mapM provenMarkOf = .ok (marks.map ConsumedMark.proven) := by
  apply mapM_eq_map
  intro m hm
  have hprice : ¬m.price.toInt < 0 := not_lt.mpr (h m hm)
  rw [provenMarkOf, if_neg hprice]
  rfl

/-- The marks of the epoch with others in their place. -/
def EpochInputs.withMarks (inputs : EpochInputs) (provenMarks : List ProvenMark) : EpochInputs :=
  { inputs with provenMarks := provenMarks }

section Replay

variable [Primitives] {prior : TreeState} {inputs : EpochInputs} {table : ScenarioTable}
  {outcome : EpochOutcome}

/-- No price of the epoch binds a held seat. -/
def TreeState.Unpriced (t : TreeState) (inputs : EpochInputs) : Prop :=
  ∀ owner p, t.Holds owner p → ¬inputs.PricesPosition p

/-- An unpriced epoch keeps every seat. -/
theorem keptSeats_of_unpriced (hwf : prior.WellFormed) (h : prior.Unpriced inputs)
    (e : Bytes32 × Address) : keptSeats prior inputs e = (openedRow prior inputs e).2.positions := by
  have hnil : (openedRow prior inputs e).2.provenTwaps = [] := by
    rw [openedRow_provenTwaps]
    exact twapsFor_book_nil hwf h e.1
  rw [keptSeats, hnil]
  apply List.filter_eq_self.mpr
  intro b _
  simp [retires, boundTwap]

/-! ## What a fold commits of its marks -/

/-- The marks a touched row's kept seats find in a marking epoch. -/
def consumedBy (prior : TreeState) (inputs : EpochInputs) (e : Bytes32 × Address) :
    List ConsumedMark :=
  if markingEpochOf (epochRows prior inputs) then
    (markedSeats (openedRow prior inputs e).2.provenMarks (keptSeats prior inputs e)).map
      fun s => s.2.consumed
  else []

/-- A row consumes the marks its kept seats find. -/
theorem newVmOf_consumed {e : Bytes32 × Address} {a : Account} {vm : I128 × List ConsumedMark}
    (h : newVmOf (markingEpochOf (epochRows prior inputs)) a (keptSeats prior inputs e)
      (openedRow prior inputs e).2.provenMarks = .ok vm) : vm.2 = consumedBy prior inputs e := by
  unfold newVmOf at h
  unfold consumedBy
  by_cases hmarking : markingEpochOf (epochRows prior inputs) = true
  · rw [if_pos hmarking] at h ⊢
    obtain ⟨_, vms, _, rfl⟩ := accountVmFromMarks_ok_iff.mp h
    rfl
  · rw [if_neg hmarking] at h ⊢
    cases h
    rfl

/-- What the guest commits as consumed marks: those its framed rows found. -/
theorem consumedMarks_framed (hwf : prior.WellFormed)
    (h : resolveEpoch prior inputs table = .ok outcome) {out : StateTransitionOutputs}
    (hout : stateTransition (framedInputs prior inputs table outcome) = .ok out) :
    out.consumedMarks =
      canonicalMarks ((keptOf prior outcome.post inputs).flatMap (consumedBy prior inputs)) := by
  have hplain : (framedInputs prior inputs table outcome).Plain := ⟨rfl, rfl, rfl⟩
  obtain ⟨scenarioRoot, bound, results, requirements, roots, hst, rfl⟩ :=
    (stateTransition_plain_iff hplain).mp hout
  change canonicalMarks (results.flatMap RowResult.consumedMarks) = _
  have hids := ((resolveEpoch_ok_iff hwf).mp h).2.1
  have hresolved := hst.resolved
  change ((rowsAfter inputs.proofNow _ inputs.newPositions).zip _).mapM _ = Except.ok results
    at hresolved
  rw [framed_pairs hwf h hst.bound, List.mapM_map, markingEpoch_framed hwf h] at hresolved
  have hall := mapM_eq_ok_iff.mp hresolved
  have hkept : ∀ e ∈ keptOf prior outcome.post inputs, e ∈ touchedOf prior inputs :=
    fun e he => (mem_keptOf.mp he).1
  clear hresolved hst hout
  generalize keptOf prior outcome.post inputs = kept at hall hkept ⊢
  apply congrArg
  induction hall with
  | nil => rfl
  | @cons e result rest results' hresult _ ih =>
      rw [List.flatMap_cons, List.flatMap_cons,
        ih fun x hx => hkept x (List.mem_cons_of_mem _ hx)]
      obtain ⟨_, _, holds, rs, _, hrs, rfl⟩ := (resolveRow_plain_iff hplain).mp hresult
      have hmarks := hrs.marks
      have hss := (positionSettlements_ok_iff.mp hrs.settles).2.1
      change newVmOf _ _ (survivorsForVm inputs.pausedPairs _ _) _ = _ at hmarks
      rw [survivorsForVm_eq (hids e (hkept e List.mem_cons_self)) hss] at hmarks
      have hconsumed : rs.vm.2 = consumedBy prior inputs e := newVmOf_consumed hmarks
      rw [← hconsumed]
      rfl

/-! ## The marks that bind the tree -/

/-- The marks of the epoch that bind a held seat. -/
def bindingMarks (prior : TreeState) (inputs : EpochInputs) : List ProvenMark :=
  inputs.provenMarks.filter fun m => prior.seats.any fun s => markBindsPosition s.2 m

theorem mem_bindingMarks {m : ProvenMark} :
    m ∈ bindingMarks prior inputs ↔ m ∈ inputs.provenMarks ∧
      ∃ owner p, prior.Holds owner p ∧ markBindsPosition p m = true := by
  rw [bindingMarks, List.mem_filter, List.any_eq_true]
  simp only [Prod.exists, TreeState.mem_seats]

/-- In a marking epoch no row has two marks of one pair. -/
theorem marksFor_unique (hwf : prior.WellFormed)
    (h : resolveEpoch prior inputs table = .ok outcome) (hmarking : prior.Marking inputs)
    {e : Bytes32 × Address} (he : e ∈ touchedOf prior inputs) :
    ((marksFor inputs.provenMarks (prior.book e.1)).map fun m => feedIdOracle m.feedId).Nodup := by
  have hrow := ((resolveEpoch_finished_iff hwf).mp ⟨outcome, h⟩).2 e he
  have hunique := (accountVmFromMarks_finished_iff.mp
    (hrow.marks ((markingEpoch_iff hwf).mpr hmarking))).1
  rw [openedRow_provenMarks] at hunique
  exact hunique

/-- In a marking epoch the marks that bind held seats are one for each pair. -/
theorem bindingMarks_unique (hwf : prior.WellFormed)
    (h : resolveEpoch prior inputs table = .ok outcome) (hmarking : prior.Marking inputs)
    {m m' : ProvenMark} (hm : m ∈ bindingMarks prior inputs)
    (hm' : m' ∈ bindingMarks prior inputs) (hfeed : feedIdOracle m.feedId = feedIdOracle m'.feedId) :
    m = m' := by
  obtain ⟨hmem, owner, p, hp, hbinds⟩ := mem_bindingMarks.mp hm
  obtain ⟨hmem', _⟩ := mem_bindingMarks.mp hm'
  obtain ⟨e, he, _, hbook⟩ := touched_of_holds inputs hp
  have hfor : ∀ k ∈ inputs.provenMarks, feedIdOracle k.feedId = feedIdOracle m.feedId →
      k ∈ marksFor inputs.provenMarks (prior.book e.1) := by
    intro k hk hsame
    rw [marksFor, List.mem_filter, List.any_eq_true]
    refine ⟨hk, p, hbook, ?_⟩
    rw [markBindsPosition, hsame]
    exact hbinds
  apply eq_of_key_eq (marksFor_unique hwf h hmarking he)
  · exact hfor m hmem rfl
  · exact hfor m' hmem' hfeed.symm
  · exact hfeed

theorem bindingMarks_nodup (hwf : prior.WellFormed)
    (h : resolveEpoch prior inputs table = .ok outcome) (hmarking : prior.Marking inputs) :
    (bindingMarks prior inputs).Nodup := by
  rw [List.nodup_iff_count_le_one]
  intro m
  by_cases hm : m ∈ bindingMarks prior inputs
  · obtain ⟨_, owner, p, hp, hbinds⟩ := mem_bindingMarks.mp hm
    obtain ⟨e, he, _, hbook⟩ := touched_of_holds inputs hp
    have hrow : (marksFor inputs.provenMarks (prior.book e.1)).Nodup :=
      List.Nodup.of_map _ (marksFor_unique hwf h hmarking he)
    have hcount := List.nodup_iff_count_le_one.mp hrow m
    have hany : ((prior.book e.1).any fun b => markBindsPosition b m) = true :=
      List.any_eq_true.mpr ⟨p, hbook, hbinds⟩
    have hfor : (marksFor inputs.provenMarks (prior.book e.1)).count m =
        inputs.provenMarks.count m := List.count_filter hany
    rw [hfor] at hcount
    exact (List.filter_sublist.count_le m).trans hcount
  · rw [List.count_eq_zero_of_not_mem hm]
    exact Nat.zero_le 1

/-- Without a mark for a held seat the epoch re-marks nothing. -/
theorem bindingMarks_eq_nil (h : ¬prior.Marking inputs) :
    bindingMarks prior inputs = [] := by
  rw [List.eq_nil_iff_forall_not_mem]
  intro m hm
  obtain ⟨hmem, owner, p, hp, hbinds⟩ := mem_bindingMarks.mp hm
  exact h ⟨owner, p, hp, m, hmem, hbinds⟩

/-- A touched row of a kept book consumes each mark that binds a seat of it, and no mark
that binds no held seat. -/
theorem mem_consumedMarks (hwf : prior.WellFormed)
    (h : resolveEpoch prior inputs table = .ok outcome) {out : StateTransitionOutputs}
    (hout : stateTransition (framedInputs prior inputs table outcome) = .ok out)
    (hunpriced : prior.Unpriced inputs) {c : ConsumedMark} :
    c ∈ out.consumedMarks ↔ ∃ m ∈ bindingMarks prior inputs, m.consumed = c := by
  have hmem : ∀ cs : List ConsumedMark, c ∈ canonicalMarks cs ↔ c ∈ cs := by
    intro cs
    rw [canonicalMarks, mem_dedupAdjacent, mem_sortBy]
  rw [consumedMarks_framed hwf h hout, hmem, List.mem_flatMap]
  constructor
  · rintro ⟨e, he, hc⟩
    unfold consumedBy at hc
    split at hc
    · obtain ⟨s, hs, rfl⟩ := List.mem_map.mp hc
      obtain ⟨_, hbound⟩ := mem_markedSeats.mp hs
      have hrow := List.mem_of_find?_eq_some hbound
      rw [openedRow_provenMarks, marksFor, List.mem_filter, List.any_eq_true] at hrow
      obtain ⟨hmark, p, hp, hbinds⟩ := hrow
      have hheld := holds_of_book inputs hwf hp
      exact ⟨s.2, mem_bindingMarks.mpr ⟨hmark, _, p, hheld, hbinds⟩, rfl⟩
    · cases hc
  · rintro ⟨m, hm, rfl⟩
    obtain ⟨hmark, owner, p, hp, hbinds⟩ := mem_bindingMarks.mp hm
    have hmarking : prior.Marking inputs := ⟨owner, p, hp, m, hmark, hbinds⟩
    obtain ⟨e, he, _, hbook⟩ := touched_of_holds inputs hp
    have hfor : m ∈ marksFor inputs.provenMarks (prior.book e.1) := by
      rw [marksFor, List.mem_filter, List.any_eq_true]
      exact ⟨hmark, p, hbook, hbinds⟩
    have hfound : (boundMark (marksFor inputs.provenMarks (prior.book e.1)) p).isSome := by
      rw [boundMark, List.find?_isSome]
      exact ⟨m, hfor, hbinds⟩
    obtain ⟨m', hm'⟩ := Option.isSome_iff_exists.mp hfound
    -- the row's marks are one a pair, so the one the seat finds is this one
    have hsame : m' = m := by
      apply eq_of_key_eq (marksFor_unique hwf h hmarking he) (List.mem_of_find?_eq_some hm') hfor
      have hbinds' := List.find?_some hm'
      rw [markBindsPosition, beq_iff_eq] at hbinds hbinds'
      exact hbinds'.trans hbinds.symm
    rw [hsame] at hm'
    refine ⟨e, kept_of_book he hbook, ?_⟩
    unfold consumedBy
    rw [if_pos ((markingEpoch_iff hwf).mpr hmarking), List.mem_map]
    refine ⟨(p, m), mem_markedSeats.mpr ⟨?_, ?_⟩, rfl⟩
    · rw [keptSeats_of_unpriced hwf hunpriced, openedRow_positions]
      exact List.mem_append_left _ hbook
    · rw [openedRow_provenMarks]
      exact hm'

/-- The marks an unpriced fold commits read back as those of its epoch that bind the tree. -/
theorem marks_recovered (hwf : prior.WellFormed)
    (h : resolveEpoch prior inputs table = .ok outcome) {out : StateTransitionOutputs}
    (hout : stateTransition (framedInputs prior inputs table outcome) = .ok out)
    (hunpriced : prior.Unpriced inputs) (hprices : ∀ m ∈ inputs.provenMarks, 0 ≤ m.price.toInt) :
    ∃ recovered, out.consumedMarks.mapM provenMarkOf = .ok recovered ∧
      recovered.Perm (bindingMarks prior inputs) := by
  have hmem : ∀ c, c ∈ out.consumedMarks ↔ ∃ m ∈ bindingMarks prior inputs, m.consumed = c :=
    fun c => mem_consumedMarks hwf h hout hunpriced
  refine ⟨out.consumedMarks.map ConsumedMark.proven, provenMarks_read ?_, ?_⟩
  · intro c hc
    obtain ⟨m, hm, rfl⟩ := (hmem c).mp hc
    exact hprices m (mem_bindingMarks.mp hm).1
  · have hread : ∀ m, m ∈ out.consumedMarks.map ConsumedMark.proven ↔
        m ∈ bindingMarks prior inputs := by
      intro m
      rw [List.mem_map]
      constructor
      · rintro ⟨c, hc, rfl⟩
        obtain ⟨m', hm', rfl⟩ := (hmem c).mp hc
        exact hm'
      · intro hm
        exact ⟨m.consumed, (hmem _).mpr ⟨m, hm, rfl⟩, rfl⟩
    by_cases hmarking : prior.Marking inputs
    · apply (List.perm_ext_iff_of_nodup _ (bindingMarks_nodup hwf h hmarking)).mpr hread
      have hinj : Function.Injective ConsumedMark.proven := by
        intro a b hab
        obtain ⟨_, _, _, _⟩ := a
        obtain ⟨_, _, _, _⟩ := b
        simpa [ConsumedMark.proven] using hab
      apply List.Nodup.map hinj
      rw [consumedMarks_framed hwf h hout, canonicalMarks]
      apply dedupAdjacent_sortBy_nodup
      -- consumed marks of one feed and time are marks of one pair
      intro a ha b hb hkey
      have hin : ∀ c ∈ (keptOf prior outcome.post inputs).flatMap (consumedBy prior inputs),
          c ∈ out.consumedMarks := by
        intro c hc
        rw [consumedMarks_framed hwf h hout, canonicalMarks, mem_dedupAdjacent, mem_sortBy]
        exact hc
      obtain ⟨m, hm, rfl⟩ := (hmem a).mp (hin a ha)
      obtain ⟨m', hm', rfl⟩ := (hmem b).mp (hin b hb)
      have hfeed : m.feedId = m'.feedId := (Prod.mk.inj (toLex_inj.mp hkey)).1
      rw [bindingMarks_unique hwf h hmarking hm hm' (congrArg feedIdOracle hfeed)]
    · have hnil := bindingMarks_eq_nil hmarking
      rw [hnil, List.perm_nil, List.eq_nil_iff_forall_not_mem]
      intro m hm
      rw [hread, hnil] at hm
      cases hm

/-! ## The recovered epoch -/

/-- Marks that reach every row alike resolve the epoch alike. -/
theorem resolveEpoch_withMarks {provenMarks : List ProvenMark}
    (h : ∀ aid, marksFor provenMarks (prior.book aid) =
      marksFor inputs.provenMarks (prior.book aid)) :
    resolveEpoch prior (inputs.withMarks provenMarks) table = resolveEpoch prior inputs table := by
  have hrows : epochRows prior (inputs.withMarks provenMarks) = epochRows prior inputs := by
    unfold epochRows
    apply List.map_congr_left
    intro e _
    have hbook := h e.1
    unfold TreeState.book at hbook
    unfold priorRow EpochInputs.withMarks
    cases ha : prior.accounts[e.1]? with
    | none => rfl
    | some a =>
        rw [ha] at hbook
        simp only at hbook ⊢
        rw [hbook]
  unfold resolveEpoch
  rw [hrows]
  rfl

/-- The marks of the epoch that bind no held seat. -/
def idleMarks (prior : TreeState) (inputs : EpochInputs) : List ProvenMark :=
  inputs.provenMarks.filter fun m => !prior.seats.any fun s => markBindsPosition s.2 m

/-- Marks that bind no held seat reach no row. -/
theorem marksFor_append_idle (hwf : prior.WellFormed) (ms : List ProvenMark) (aid : Bytes32) :
    marksFor (ms ++ idleMarks prior inputs) (prior.book aid) = marksFor ms (prior.book aid) := by
  have hidle : marksFor (idleMarks prior inputs) (prior.book aid) = [] := by
    rw [marksFor, List.filter_eq_nil_iff]
    intro m hm hany
    have hfree := (List.mem_filter.mp hm).2
    obtain ⟨p, hp, hbinds⟩ := List.any_eq_true.mp hany
    have hbook : p ∈ prior.book (aid, (0 : Address)).1 := hp
    have hheld := holds_of_book inputs hwf hbook
    rw [Bool.not_eq_true', List.any_eq_false] at hfree
    exact hfree _ (TreeState.mem_seats.mpr hheld) hbinds
  unfold marksFor at hidle ⊢
  rw [List.filter_append, hidle, List.append_nil]

/-- Replayable folds: no price binds a held seat, one on a paused pair included; no open is
rejected; and the VM of new seats does not depend on the order of their opens. -/
structure TreeState.Replayable (t : TreeState) (inputs : EpochInputs) : Prop where
  unpriced : t.Unpriced inputs
  locks : ∀ nb ∈ inputs.newPositions, nb.locks inputs.proofNow (ownersIn (epochRows t inputs))
  orderFree : t.OrderFree inputs

/-- With its opens in another order, its binding marks alone, no prices and any pauses, a
replayable epoch leaves the same tree. -/
theorem resolveEpoch_recovered (hwf : prior.WellFormed) (hdistinct : inputs.DistinctParties)
    (h : resolveEpoch prior inputs table = .ok outcome) (hreplay : prior.Replayable inputs)
    {newPositions : List NewPosition} {provenMarks : List ProvenMark}
    (hopens : inputs.newPositions.Perm newPositions)
    (hmarks : provenMarks.Perm (bindingMarks prior inputs)) (pausedPairs : List Bytes32) :
    ∃ outcome', resolveEpoch prior
        { inputs with
          newPositions := newPositions
          provenMarks := provenMarks
          provenTwaps := []
          pausedPairs := pausedPairs } table = .ok outcome' ∧
      outcome'.post = outcome.post ∧
      outcome.processedOpenIds.Perm outcome'.processedOpenIds := by
  have hresolves := (resolveEpoch_finished_iff hwf).mp ⟨outcome, h⟩
  let permuted : EpochInputs :=
    { inputs with
      newPositions := newPositions
      provenMarks := provenMarks ++ idleMarks prior inputs }
  have hpermuted : inputs.Permuted permuted := by
    refine ⟨hopens, ?_, .refl _, .refl _, rfl, rfl⟩
    apply (List.filter_append_perm (fun m => prior.seats.any fun s => markBindsPosition s.2 m)
      inputs.provenMarks).symm.trans
    exact hmarks.symm.append_right _
  rcases sameEpoch_of_orderFree hwf hpermuted hdistinct hresolves hreplay.orderFree with
    ⟨hfails, _⟩ | ⟨outcome₁, outcome', hsame, hrun, hpost, _, hprocessed⟩
  · exact absurd ⟨outcome, h⟩ hfails
  · have hfirst : outcome₁ = outcome := ok_unique hsame h
    subst hfirst
    refine ⟨outcome', ?_, hpost, hprocessed⟩
    -- the idle marks, the prices and the pause set touch no seat of an unpriced tree
    have hbinding : resolveEpoch prior (permuted.withMarks provenMarks) table = .ok outcome' := by
      rw [← hrun]
      apply resolveEpoch_withMarks
      intro aid
      exact (marksFor_append_idle hwf provenMarks aid).symm
    have hfree : prior.Unpriced (permuted.withMarks provenMarks) := hreplay.unpriced
    have hunpriced := (resolveEpoch_withTwaps_nil hwf hfree).trans hbinding
    apply resolveEpoch_withPaused hwf hunpriced
    intro owner p _ hpriced
    obtain ⟨tw, htw, _⟩ := hpriced
    cases htw

/-! ## The replay of a fold -/

/-- An unpriced epoch consumes no price. -/
theorem consumedTwaps_eq_nil (hwf : prior.WellFormed)
    (h : resolveEpoch prior inputs table = .ok outcome) {out : StateTransitionOutputs}
    (hout : stateTransition (framedInputs prior inputs table outcome) = .ok out)
    (hunpriced : prior.Unpriced inputs) : out.consumedTwaps = [] := by
  rw [consumedTwaps_framed hwf h hout, List.flatMap_eq_nil_iff]
  intro e _
  rw [twapsFor_book_nil hwf hunpriced]
  simp [boundSeats, boundTwap]

/-- What a framed fold commits beside its trees and its marks. -/
structure CommitsEpoch (out : StateTransitionOutputs) (inputs : EpochInputs)
    (table : ScenarioTable) : Prop where
  novations : out.novations = []
  closeouts : out.closeoutNovations = []
  unwinds : out.unwinds = []
  clock : out.committedNow = inputs.proofNow
  domain : out.committedDomain = inputs.domainSeparator
  scenario : table.scenarioRoot = .ok out.scenarioRoot
  opened : out.openedPositionIds = canonicalIds (inputs.newPositions.map NewPosition.termsId)

theorem commitsEpoch_framed {out : StateTransitionOutputs}
    (hout : stateTransition (framedInputs prior inputs table outcome) = .ok out) :
    CommitsEpoch out inputs table := by
  have hopened := stateTransition_opened hout
  obtain ⟨st, hst, rfl⟩ := stateTransition_ok_iff.mp hout
  exact ⟨rfl, rfl, rfl, rfl, rfl, hst.scenario, hopened⟩

/-- The replay of a replayable fold takes the fold's step: the inputs it recovers resolve
over the prover's tree to the tree the fold left, and every committed value it compares
agrees.  The fold's own opens are recovered one by one; its block plays no part. -/
theorem fold_replayed (hz : NonzeroOn (stagedPreimages prior outcome)) (hwf : prior.WellFormed)
    (hdistinct : inputs.DistinctParties) (h : resolveEpoch prior inputs table = .ok outcome)
    {out : StateTransitionOutputs}
    (hout : stateTransition (framedInputs prior inputs table outcome) = .ok out)
    (hreplay : prior.Replayable inputs) (hprices : ∀ m ∈ inputs.provenMarks, 0 ≤ m.price.toInt)
    (hids : (inputs.newPositions.map NewPosition.termsId).Nodup) {history : ChainHistory}
    {fold : FoldRecord} (hpv : fold.pv = out.decoded)
    (hopens : (inputs.newPositions.map NewPosition.termsId).mapM (recoverOpen history fold) =
      .ok inputs.newPositions) :
    ∃ inputs' outcome', foldInputs fold history = .ok inputs' ∧
      resolveEpoch prior inputs' table = .ok outcome' ∧
      fold.Reproduced table prior outcome' ∧ outcome'.post = outcome.post := by
  have hcommits : CommitsEpoch out inputs table := commitsEpoch_framed hout
  have hroots := committed_roots hz hwf h hout
  have htwaps := consumedTwaps_eq_nil hwf h hout hreplay.unpriced
  obtain ⟨marks, hread, hmarks⟩ := marks_recovered hwf h hout hreplay.unpriced hprices
  -- the ids are committed in order, so the opens come back in that order
  have hcanonical : (inputs.newPositions.map NewPosition.termsId).Perm out.openedPositionIds := by
    rw [hcommits.opened, canonicalIds_of_nodup hids]
    exact (sortBy_perm id _).symm
  obtain ⟨opens, hrecovered, hperm⟩ := mapM_perm hcanonical hopens
  obtain ⟨outcome', hrun, hpost, hprocessed⟩ := resolveEpoch_recovered hwf hdistinct h hreplay
    hperm hmarks (history.pausedPairsAt (if fold.block = 0 then 0 else fold.block - 1))
  have hinputs : foldInputs fold history = .ok
      { inputs with
        newPositions := opens
        provenMarks := marks
        provenTwaps := []
        pausedPairs := history.pausedPairsAt (if fold.block = 0 then 0 else fold.block - 1) } := by
    have hplain : ¬(fold.pv.novations ≠ [] ∨ fold.pv.closeoutNovationsLen > 0 ∨
        fold.pv.unwindsLen > 0) := by
      simp [hpv, StateTransitionOutputs.decoded, hcommits.novations, hcommits.closeouts,
        hcommits.unwinds]
    have hids' : fold.pv.openedPositionIds = out.openedPositionIds := by rw [hpv]; rfl
    have hmarks' : fold.pv.consumedMarks = out.consumedMarks := by rw [hpv]; rfl
    have htwaps' : fold.pv.consumedTwaps = [] := by rw [hpv]; exact htwaps
    have hclock : fold.pv.proofTime = inputs.proofNow := by rw [hpv]; exact hcommits.clock
    have hdomain : fold.pv.domainSeparator = inputs.domainSeparator := by
      rw [hpv]
      exact hcommits.domain
    rw [foldInputs, if_neg hplain, hids', hrecovered, ok_bind, hmarks', hread, ok_bind, htwaps',
      hclock, hdomain]
    rfl
  refine ⟨_, outcome', hinputs, hrun, ?_, hpost⟩
  have hnone : rejectedIds inputs.proofNow (ownersIn (epochRows prior inputs))
      inputs.newPositions = [] := by
    rw [rejectedIds, List.map_eq_nil_iff, List.filter_eq_nil_iff]
    intro nb hnb
    simpa using hreplay.locks nb hnb
  constructor
  · rw [hpv]
    exact hcommits.scenario
  · rw [hpv]
    exact (congrArg Roots.rootPrev hroots).symm
  · rw [hpv, sortBy_eq_iff_perm]
    apply hprocessed.symm.trans
    rw [resolveEpoch_processed h, hnone, List.append_nil]
    exact hcanonical
  · rw [hpv, hpost]
    exact (congrArg Roots.rootNew hroots).symm
  · rw [hpv, hpost]
    exact (congrArg Roots.accountsRootNew hroots).symm

end Replay

end StateKeeper
