import StateKeeper.Engine.MarkSpec
import StateKeeper.Tree.Coverage
import StateKeeper.Tree.FramesSpec

/-!
# Tree - Running an epoch again

An epoch without opens leaves positions that none of its prices retire, valued at
its own marks.  Run again on the tree it left, it finds for each of them the same
price and the same mark, and returns that tree.

Main results:

- Theorem {lit}`accountAfter_again`: an account the epoch leaves resolves to itself.
- Theorem {lit}`resolveEpoch_again`: running an epoch again is a no-op.
-/

namespace StateKeeper

open Words Fallible SortedKeys KeyedMap

/-! ## One book -/

section Book

variable {provenTwaps : List ProvenTwap} {provenMarks : List ProvenMark}
  {paused : List Bytes32} {positions : List PositionRecord}

theorem boundSeats_twapsFor :
    boundSeats (twapsFor provenTwaps positions) positions = boundSeats provenTwaps positions := by
  unfold boundSeats
  refine List.filterMap_congr fun b hb => ?_
  rw [boundTwap_twapsFor hb]

/-- Prices filtered to a smaller book are among those filtered to a larger one. -/
theorem twapsFor_sublist {smaller : List PositionRecord} (h : smaller ⊆ positions) :
    (twapsFor provenTwaps smaller).Sublist (twapsFor provenTwaps positions) := by
  refine List.monotone_filter_right _ fun tw hany => ?_
  rcases List.any_eq_true.mp hany with ⟨b, hb, hbinds⟩
  exact List.any_eq_true.mpr ⟨b, h hb, hbinds⟩

/-- Marks filtered to a smaller book are among those filtered to a larger one. -/
theorem marksFor_sublist {smaller : List PositionRecord} (h : smaller ⊆ positions) :
    (marksFor provenMarks smaller).Sublist (marksFor provenMarks positions) := by
  refine List.monotone_filter_right _ fun m hany => ?_
  rcases List.any_eq_true.mp hany with ⟨b, hb, hbinds⟩
  exact List.any_eq_true.mpr ⟨b, h hb, hbinds⟩

/-- If the settlements of a book are computed, those of a part of it are. -/
theorem settlements_of_sublist {smaller : List PositionRecord}
    (hsub : smaller.Sublist positions)
    (h : Finished (positionSettlementsFromTwaps positions (twapsFor provenTwaps positions))) :
    Finished (positionSettlementsFromTwaps smaller (twapsFor provenTwaps smaller)) := by
  rcases h with ⟨settled, hsettled⟩
  rcases positionSettlements_ok_iff.mp hsettled with ⟨hunique, hss, _⟩
  rw [boundSeats_twapsFor] at hss
  have hkeys := hunique.sublist ((twapsFor_sublist hsub.subset).map ProvenTwap.bindingKey)
  have hseats : (boundSeats provenTwaps smaller).Sublist (boundSeats provenTwaps positions) :=
    hsub.filterMap _
  have hsettles : Finished ((boundSeats provenTwaps smaller).mapM settleSeat) := by
    refine mapM_finished fun e he => ?_
    rcases exists_of_mapM hss (hseats.subset he) with ⟨s, _, hs⟩
    exact ⟨s, hs⟩
  rcases hsettles with ⟨ss, hss'⟩
  refine ⟨(ss, _), positionSettlements_ok_iff.mpr ⟨hkeys, ?_, rfl⟩⟩
  rw [boundSeats_twapsFor]
  exact hss'

variable [Primitives]

theorem unretired_twapsFor :
    unretired paused (twapsFor provenTwaps positions) positions =
      unretired paused provenTwaps positions := by
  unfold unretired
  refine List.filter_congr fun b hb => ?_
  rw [retires_twapsFor hb]

/-- Nothing more is retired from what is left. -/
theorem unretired_unretired :
    unretired paused provenTwaps (unretired paused provenTwaps positions) =
      unretired paused provenTwaps positions := by
  unfold unretired
  rw [List.filter_filter]
  simp

end Book

/-! ## An epoch without opens -/

section Rerun

variable [Primitives] {prior : TreeState} {inputs : EpochInputs} {table : ScenarioTable}
  {outcome : EpochOutcome}

/-- Without opens the touched accounts are the present ones. -/
theorem mem_touchedOf_of_no_opens (hopens : inputs.newPositions = []) {e : Bytes32 × Address} :
    e ∈ touchedOf prior inputs ↔ ∃ a, prior.accounts[e.1]? = some a ∧ a.owner = e.2 := by
  have howners : ownersOf prior inputs.newPositions = prior.accounts.map fun _ a => a.owner := by
    rw [hopens]
    rfl
  rw [touchedOf, mem_toList, howners, Std.ExtTreeMap.getElem?_map, Option.map_eq_some_iff]

/-- Without opens a touched row is the prior row. -/
theorem openedRow_of_no_opens (hopens : inputs.newPositions = []) (e : Bytes32 × Address) :
    (openedRow prior inputs e).1 = (priorRow prior inputs e.1 e.2).1 ∧
      (openedRow prior inputs e).2.positions = prior.book e.1 := by
  constructor
  · rfl
  · rw [openedRow_positions, hopens]
    simp [newSeats]

/-- The tree an epoch leaves is the tree its touched accounts resolve to. -/
theorem post_eq_of_accounts (hwf : prior.WellFormed)
    (h : resolveEpoch prior inputs table = .ok outcome) {t : TreeState}
    (htouched : ∀ e ∈ touchedOf prior inputs,
      accountAfter prior inputs table e = .ok t.accounts[e.1]?)
    (hrest : ∀ aid, aid ∉ (touchedOf prior inputs).map Prod.fst → t.accounts[aid]? = none) :
    outcome.post = t := by
  have haccounts : outcome.post.accounts = t.accounts := by
    refine Std.ExtTreeMap.ext_getElem? fun aid => ?_
    by_cases haid : aid ∈ (touchedOf prior inputs).map Prod.fst
    · rcases List.mem_map.mp haid with ⟨e, he, rfl⟩
      exact Except.ok.inj ((post_of_touched hwf h he).symm.trans (htouched e he))
    · rw [post_of_untouched hwf h haid, hrest aid haid]
  rcases outcome with ⟨⟨accounts⟩, _, _, _⟩
  rcases t with ⟨accounts'⟩
  exact congrArg TreeState.mk haccounts

/-- When each account resolves to itself, the epoch returns the tree. -/
theorem resolveEpoch_fixed (hwf : prior.WellFormed) (hopens : inputs.newPositions = [])
    (h : ∀ aid a, prior.accounts[aid]? = some a →
      accountAfter prior inputs table (aid, a.owner) = .ok (some a)) :
    ∃ again, resolveEpoch prior inputs table = .ok again ∧ again.post = prior := by
  have hself : ∀ e ∈ touchedOf prior inputs,
      accountAfter prior inputs table e = .ok prior.accounts[e.1]? := by
    intro e he
    rcases (mem_touchedOf_of_no_opens hopens).mp he with ⟨a, ha, howner⟩
    have hafter := h e.1 a ha
    rw [howner] at hafter
    rw [ha]
    exact hafter
  have hrun := (resolveEpoch_ok_iff hwf).mpr
    ⟨fun nb hnb => absurd hnb (by simp [hopens]), fun e he => (accountAfter_eq e (hself e he)).1,
      _, mapM_eq_map hself, rfl⟩
  refine ⟨_, hrun, post_eq_of_accounts hwf hrun hself ?_⟩
  intro aid haid
  cases ha : prior.accounts[aid]? with
  | none => rfl
  | some a =>
      rcases exists_touched_of_present inputs ha with ⟨owner, he⟩
      exact absurd (List.mem_map_of_mem he) haid

/-- An account the epoch leaves has the row's survivors for its book, in order. -/
theorem book_after (hwf : prior.WellFormed) (hopens : inputs.newPositions = [])
    (h : resolveEpoch prior inputs table = .ok outcome) {aid : Bytes32} {a : AccountState}
    (ha : outcome.post.accounts[aid]? = some a) :
    a.positions = unretired inputs.pausedPairs inputs.provenTwaps (prior.book aid) := by
  rcases post_account hwf h ha with ⟨owner, he, _, _, _, hpositions⟩
  rcases (mem_touchedOf_of_no_opens hopens).mp he with ⟨b, hb, _⟩
  have hstrict : StrictBy PositionRecord.termsId (prior.book aid) := by
    rw [TreeState.book, hb]
    exact hwf.ascending aid b hb
  rw [hpositions, keptSeats, openedRow_provenTwaps, (openedRow_of_no_opens hopens _).2,
    unretired_twapsFor]
  exact sortBy_eq_self (hstrict.sublist List.filter_sublist)

/-- Marks of the tree the epoch leaves are marks of the tree it started from. -/
theorem marking_of_marking_after (hwf : prior.WellFormed) (hopens : inputs.newPositions = [])
    (h : resolveEpoch prior inputs table = .ok outcome) (hmarking : outcome.post.Marking inputs) :
    prior.Marking inputs := by
  rcases hmarking with ⟨owner, p, hp, hmark⟩
  rcases hp with ⟨a, ha, _, hmem⟩
  rw [book_after hwf hopens h ha] at hmem
  have hbook : p ∈ prior.book (accountIdSingle owner, owner).1 := (mem_unretired.mp hmem).1
  exact ⟨_, p, holds_of_book inputs hwf hbook, hmark⟩

/-- The VM of an account the epoch leaves is made again: from the same marks, or carried. -/
theorem newVmOf_again (hwf : prior.WellFormed) (hopens : inputs.newPositions = [])
    (h : resolveEpoch prior inputs table = .ok outcome) {aid : Bytes32} {a : AccountState}
    (ha : outcome.post.accounts[aid]? = some a) {row row' : Account} {vm : I128 × List ConsumedMark}
    (hvm : newVmOf (markingEpochOf (epochRows prior inputs)) row a.positions
      (marksFor inputs.provenMarks (prior.book aid)) = .ok vm)
    (hcarried : row'.prevVmEquity = vm.1) :
    ∃ vm', newVmOf (markingEpochOf (epochRows outcome.post inputs)) row' a.positions
      (marksFor inputs.provenMarks a.positions) = .ok vm' ∧ vm'.1 = vm.1 := by
  have hafter := wellFormed_after hwf h
  have hsub : a.positions ⊆ prior.book aid := by
    rw [book_after hwf hopens h ha]
    exact List.filter_subset_self _
  cases hagain : markingEpochOf (epochRows outcome.post inputs) with
  | false => exact ⟨_, rfl, hcarried⟩
  | true =>
      have hmarking := marking_of_marking_after hwf hopens h ((markingEpoch_iff hafter).mp hagain)
      rw [(markingEpoch_iff hwf).mpr hmarking] at hvm
      refine ⟨vm, ?_, rfl⟩
      refine accountVmFromMarks_congr (fun b hb => ?_) ?_ hvm
      · rw [boundMark_marksFor hb, boundMark_marksFor (hsub hb)]
      · have hunique := (accountVmFromMarks_ok_iff.mp hvm).1
        exact hunique.sublist ((marksFor_sublist hsub).map _)

/-- An account the epoch leaves resolves to itself when the epoch is run again. -/
theorem accountAfter_again (hwf : prior.WellFormed) (hopens : inputs.newPositions = [])
    (h : resolveEpoch prior inputs table = .ok outcome) {aid : Bytes32} {a : AccountState}
    (ha : outcome.post.accounts[aid]? = some a) :
    accountAfter outcome.post inputs table (aid, a.owner) = .ok (some a) := by
  have hbook := book_after hwf hopens h ha
  have hsub : a.positions.Sublist (prior.book aid) := by
    rw [hbook]
    exact List.filter_sublist
  -- the first run of the account
  rcases (post_account_iff hwf h).mp ha with ⟨owner, he, hfirst⟩
  rcases accountAfter_eq _ hfirst with ⟨hids, vm, hvm, haccount⟩
  rcases bind_eq_ok.mp hfirst with ⟨r, hr, _⟩
  rcases replayRow_ok_iff.mp hr with ⟨settled, _, hsettled, _, hresolve⟩
  rw [keptSeats, openedRow_provenTwaps, (openedRow_of_no_opens hopens _).2, unretired_twapsFor,
    ← hbook] at haccount hvm
  rw [openedRow_provenTwaps, (openedRow_of_no_opens hopens _).2] at hsettled
  rw [(openedRow_of_no_opens hopens _).2] at hids hresolve
  rw [openedRow_provenMarks] at hvm
  rcases accountOf_eq_some.mp haccount.symm with ⟨hne, howner, hvmEquity, _⟩
  have hmargin := (resolveAccount_ok_iff.mp hresolve).2.1
  rw [survivingOf_eq hids (positionSettlements_ok_iff.mp hsettled).2.1, unretired_twapsFor,
    ← hbook] at hmargin
  -- the second run of the account
  have hnow : outcome.post.book aid = a.positions := by rw [TreeState.book, ha]
  have hcarried : (openedRow outcome.post inputs (aid, a.owner)).1.prevVmEquity = vm.1 := by
    rw [(openedRow_of_no_opens hopens _).1, priorRow_prevVmEquity, TreeState.vm, ha]
    exact hvmEquity
  have hagain : unretired inputs.pausedPairs (twapsFor inputs.provenTwaps a.positions)
      a.positions = a.positions := by
    rw [unretired_twapsFor, hbook, unretired_unretired]
  rcases settlements_of_sublist hsub ⟨settled, hsettled⟩ with ⟨settled', hsettled'⟩
  have hss := (positionSettlements_ok_iff.mp hsettled').2.1
  have hids' : (a.positions.map PositionRecord.termsId).Nodup :=
    hids.sublist (hsub.map PositionRecord.termsId)
  rcases newVmOf_again hwf hopens h ha hvm hcarried with ⟨vm', hvm', hsame⟩
  have hfinish : Finished (resolveAccount a.owner a.positions settled'.1 vm'.1 inputs.pausedPairs
      table) := by
    refine resolveAccount_finished hids' ⟨r.imRequirements, ?_⟩
    rw [survivingOf_eq hids' hss, hagain]
    rw [howner]
    exact hmargin
  rcases hfinish with ⟨r', hr'⟩
  have howner' : (openedRow outcome.post inputs (aid, a.owner)).owner = a.owner :=
    owner_of_openedRow inputs (aid, a.owner) ha
  have hreplay : replayRow inputs table (markingEpochOf (epochRows outcome.post inputs))
      (openedRow outcome.post inputs (aid, a.owner)) = .ok r' := by
    refine replayRow_ok_iff.mpr ⟨settled', vm', ?_, ?_, ?_⟩
    · rw [openedRow_provenTwaps, (openedRow_of_no_opens hopens _).2, hnow]
      exact hsettled'
    · rw [openedRow_provenMarks, (openedRow_of_no_opens hopens _).2, hnow,
        survivorsForVm_eq hids' hss, hagain]
      exact hvm'
    · rw [(openedRow_of_no_opens hopens _).2, hnow]
      change resolveAccount (openedRow outcome.post inputs (aid, a.owner)).owner _ _ _ _ _ = _
      rw [howner']
      exact hr'
  have hafter : accountAfter outcome.post inputs table (aid, a.owner) =
      .ok (r'.account a.owner) := by
    unfold accountAfter
    rw [hreplay, ok_bind, howner']
    rfl
  rcases accountAfter_eq _ hafter with ⟨_, vm'', hvm'', haccount''⟩
  rw [keptSeats, openedRow_provenTwaps, (openedRow_of_no_opens hopens _).2, hnow, hagain]
    at haccount'' hvm''
  rw [openedRow_provenMarks, hnow] at hvm''
  rw [hafter, haccount'', howner', ok_unique hvm'' hvm', hsame]
  refine congrArg Except.ok (accountOf_eq_some.mpr ⟨hne, rfl, hvmEquity, ?_⟩)
  exact (sortBy_eq_self ((wellFormed_after hwf h).ascending aid a ha)).symm

/-- Without opens, marks and prices an epoch returns the tree it started from. -/
theorem post_eq_of_no_inputs (hwf : prior.WellFormed) (hopens : inputs.newPositions = [])
    (hmarks : inputs.provenMarks = []) (htwaps : inputs.provenTwaps = [])
    (h : resolveEpoch prior inputs table = .ok outcome) : outcome.post = prior := by
  have hquiet : markingEpochOf (epochRows prior inputs) = false := by
    rw [Bool.eq_false_iff, ne_eq, markingEpoch_iff hwf]
    intro hmarking
    rcases hmarking with ⟨_, p, _, m, hm, _⟩
    rw [hmarks] at hm
    cases hm
  refine post_eq_of_accounts hwf h (fun e he => ?_) (fun aid haid => ?_)
  · rcases (mem_touchedOf_of_no_opens hopens).mp he with ⟨a, ha, _⟩
    have hstrict := hwf.ascending e.1 a ha
    have hbook : prior.book e.1 = a.positions := by rw [TreeState.book, ha]
    have hall : keptSeats prior inputs e = a.positions := by
      rw [keptSeats, openedRow_provenTwaps, (openedRow_of_no_opens hopens _).2, hbook, htwaps]
      unfold unretired
      refine List.filter_eq_self.mpr fun b _ => ?_
      simp [retires, boundTwap, twapsFor]
    have hfirst := post_of_touched hwf h he
    rcases accountAfter_eq e hfirst with ⟨_, vm, hvm, haccount⟩
    rw [hquiet] at hvm
    have hvmEquity : vm.1 = a.vmEquity := by
      rw [← Except.ok.inj hvm, (openedRow_of_no_opens hopens e).1, priorRow_prevVmEquity,
        TreeState.vm, ha]
    rw [hfirst, haccount, hall, owner_of_openedRow inputs e ha, hvmEquity, ha]
    refine congrArg Except.ok (accountOf_eq_some.mpr ⟨hwf.nonempty e.1 a ha, rfl, rfl, ?_⟩)
    exact (sortBy_eq_self hstrict).symm
  · cases ha : prior.accounts[aid]? with
    | none => rfl
    | some a =>
        rcases exists_touched_of_present inputs ha with ⟨owner, he⟩
        exact absurd (List.mem_map_of_mem he) haid

/-- Running an epoch without opens again returns the tree it left, and its frames predict
that nothing moves; with neither marks nor prices the first run already returns the tree
it started from. -/
theorem resolveEpoch_again (hwf : prior.WellFormed) (hopens : inputs.newPositions = [])
    (h : resolveEpoch prior inputs table = .ok outcome) :
    (∃ again, resolveEpoch outcome.post inputs table = .ok again ∧ again.post = outcome.post) ∧
    (∀ root, table.scenarioRoot = .ok root → ∃ frames,
      buildAdvanceFrames outcome.post inputs table outcome.post.accountsRoot = .ok frames ∧
        frames.rootPrev = outcome.post.root ∧ frames.predictedRoot = frames.rootPrev ∧
        frames.predictedAccountsRoot = outcome.post.accountsRoot) ∧
    (inputs.provenMarks = [] → inputs.provenTwaps = [] → outcome.post = prior) := by
  have hafter := wellFormed_after hwf h
  rcases resolveEpoch_fixed hafter hopens (fun aid a ha => accountAfter_again hwf hopens h ha) with
    ⟨again, hagain, hpost⟩
  refine ⟨⟨again, hagain, hpost⟩, ?_, fun hmarks htwaps => ?_⟩
  · intro root hroot
    rcases buildAdvanceFrames_of_resolve hafter hroot hagain with
      ⟨frames, hbuild, hprev, hpredicted, haccounts⟩
    rw [hpost] at hpredicted haccounts
    exact ⟨frames, hbuild, hprev, hpredicted.trans hprev.symm, haccounts⟩
  · exact post_eq_of_no_inputs hwf hopens hmarks htwaps h

end Rerun

section Samples

attribute [local instance] concretePrimitives

/-- An epoch over the unit trade with one hourly mark. -/
def markedEpoch : EpochInputs where
  newPositions := []
  provenMarks := [{ feedId := 3, markTime := 150, price := 1100000, expo := -6 }]
  provenTwaps := []
  pausedPairs := []
  proofNow := 150
  domainSeparator := 92

/-- The unit trade is marked once; marking it again changes nothing. -/
theorem resolveEpoch_again_marked :
    ∃ outcome again, resolveEpoch unitTree markedEpoch flatTable = .ok outcome ∧
      outcome.post.root ≠ unitTree.root ∧
      resolveEpoch outcome.post markedEpoch flatTable = .ok again ∧ again.post = outcome.post := by
  have hrun : (fun outcome => decide (outcome.post.root ≠ unitTree.root)) <$>
      resolveEpoch unitTree markedEpoch flatTable = .ok true := by
    decide +kernel
  rcases map_eq_ok.mp hrun with ⟨outcome, houtcome, hmoved⟩
  have hwf := unitTree_reachable.wellFormed_matched.1
  rcases (resolveEpoch_again hwf rfl houtcome).1 with ⟨again, hagain, hsame⟩
  exact ⟨outcome, again, houtcome, of_decide_eq_true hmoved, hagain, hsame⟩

end Samples

end StateKeeper
