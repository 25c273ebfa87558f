import StateKeeper.Engine.ResolveSpec
import StateKeeper.Engine.StateTransition

/-!
# Engine - The stages of a completed transition

A completed transition is a completed run of every stage, and its outputs are
the stages' results in canonical order.  A plain fold has no novation, no
closeout and no unwind; its posts are the resolved rows themselves.

Main results:

- Theorem {lit}`stateTransition_ok_iff`: the stages of a completed transition.
- Theorem {lit}`resolveRow_plain_iff`: the stages of a row's resolve in a plain fold.
- Theorem {lit}`stateTransition_plain_iff`: the stages of a completed plain fold.
-/

namespace StateKeeper

open Words Fallible SortedKeys

/-- The results of the transition's stages. -/
structure Stages where
  scenarioRoot : Bytes32
  bound : List BoundRow
  accounts : List Row
  opens : BookOpenOutcome
  results : List RowResult
  moved : List AccountPost × List Settlement
  closed : CloseoutState
  requirements : List ImRequirement
  roots : Bytes32 × Bytes32

/-- The touched rows as the book holds them. -/
def StateTransitionInputs.rows (inp : StateTransitionInputs) : List Row :=
  inp.book.touched.map TouchedAccount.row

/-- The transition's marking gate. -/
def StateTransitionInputs.markingEpoch (inp : StateTransitionInputs) : Bool :=
  markingEpochOf inp.rows

/-- The positions the pause surface is counted over: those before the opens. -/
def StateTransitionInputs.priorPositions (inp : StateTransitionInputs) : List PositionRecord :=
  inp.book.touched.flatMap fun ta => ta.risk.positions

/-- A plain fold carries no novation, no closeout and no unwind. -/
def StateTransitionInputs.Plain (inp : StateTransitionInputs) : Prop :=
  inp.novations = [] ∧ inp.closeoutNovations = [] ∧ inp.unwinds = []

/-- The surfaced holds, in canonical order. -/
def Stages.pausedHolds (st : Stages) : List PausedHold :=
  canonicalHolds (st.bound.flatMap BoundRow.holds ++ st.results.flatMap RowResult.pausedHolds)

variable [Primitives]

/-- What the stages commit. -/
def Stages.outputs (st : Stages) (inp : StateTransitionInputs) : StateTransitionOutputs where
  roots :=
    { rootPrev := inp.book.rootPrev
      rootNew := st.roots.1
      accountsRootPrev := inp.book.accountsRootPrev
      accountsRootNew := st.roots.2 }
  defaults := st.results.flatMap RowResult.defaults
  consumedTwaps := st.results.flatMap RowResult.consumedTwaps ++ st.closed.consumedTwaps
  novations := inp.novations
  closeoutNovations := inp.closeoutNovations
  eventsCommitment := eventsCommitmentOf st.results st.opens.rejected
  committedNow := inp.proofNow
  committedDomain := inp.domainSeparator
  pausedHolds := st.pausedHolds
  scenarioRoot := st.scenarioRoot
  consumedMarks := canonicalMarks (st.results.flatMap RowResult.consumedMarks)
  openedPositionIds := canonicalIds st.opens.opened
  imRequirements := sortBy (fun r => toLex (r.acct, r.cp)) st.requirements
  settlements := st.results.flatMap RowResult.settlements ++ st.moved.2 ++ st.closed.settlements
  unwinds := inp.unwinds

/-- Every stage of the transition completed with these results. -/
structure Stages.Completed (st : Stages) (inp : StateTransitionInputs) : Prop where
  scenario : inp.scenarioTable.scenarioRoot = .ok st.scenarioRoot
  gates : gateInputs inp = .ok ()
  bound : bindRows inp.pausedPairs inp.proofNow none inp.book.touched = .ok st.bound
  opened : applyNewBoxesToBook inp.rows inp.newPositions inp.proofNow = .ok (st.accounts, st.opens)
  unwound : (inp.unwinds.zip inp.unwindWitnesses).forM
    (checkUnwind st.accounts inp.domainSeparator) = .ok ()
  resolved : (st.accounts.zip (st.bound.map BoundRow.prior)).mapM
    (resolveRow inp inp.markingEpoch) = .ok st.results
  novated : (inp.novations.zip inp.novationWitnesses).foldlM (novationStep inp.domainSeparator)
    (st.results.map RowResult.post, []) = .ok st.moved
  closedOut : (inp.closeoutNovations.zip inp.closeoutNovationWitnesses).foldlM
    (closeoutStep inp.domainSeparator inp.proofNow)
    { posts := st.moved.1, settlements := [], consumedTwaps := [] } = .ok st.closed
  required : requirementsOf st.closed.posts inp.unwinds inp.scenarioTable = .ok st.requirements
  folded : (st.closed.posts.zip inp.book.touched).foldlM foldRow
    (inp.book.rootPrev, inp.book.accountsRootPrev) = .ok st.roots
  held : assertPausedHoldsComplete inp.priorPositions inp.pausedPairs inp.proofNow st.pausedHolds
    inp.markingEpoch = .ok ()
  surfaced : assertOpenedPositionIdsComplete inp.newPositions (canonicalIds st.opens.opened) =
    .ok ()

/-- A transition completes exactly when all its stages do, and commits their results. -/
theorem stateTransition_ok_iff {inp : StateTransitionInputs} {out : StateTransitionOutputs} :
    stateTransition inp = .ok out ↔ ∃ st : Stages, st.Completed inp ∧ out = st.outputs inp := by
  constructor
  · intro h
    unfold stateTransition at h
    obtain ⟨scenarioRoot, hscenario, h⟩ := bind_eq_ok.mp h
    obtain ⟨_, hgates, h⟩ := bind_eq_ok.mp h
    obtain ⟨bound, hbound, h⟩ := bind_eq_ok.mp h
    obtain ⟨⟨accounts, opens⟩, hopened, h⟩ := bind_eq_ok.mp h
    obtain ⟨_, hunwound, h⟩ := bind_eq_ok.mp h
    obtain ⟨results, hresolved, h⟩ := bind_eq_ok.mp h
    obtain ⟨⟨posts, cash⟩, hnovated, h⟩ := bind_eq_ok.mp h
    obtain ⟨closed, hclosed, h⟩ := bind_eq_ok.mp h
    obtain ⟨requirements, hrequired, h⟩ := bind_eq_ok.mp h
    obtain ⟨roots, hfolded, h⟩ := bind_eq_ok.mp h
    obtain ⟨_, hheld, h⟩ := bind_eq_ok.mp h
    obtain ⟨_, hsurfaced, h⟩ := bind_eq_ok.mp h
    refine ⟨⟨scenarioRoot, bound, accounts, opens, results, (posts, cash), closed, requirements,
      roots⟩, ⟨hscenario, hgates, hbound, hopened, hunwound, hresolved, hnovated, hclosed,
      hrequired, hfolded, hheld, hsurfaced⟩, ?_⟩
    exact (Except.ok.inj h).symm
  · rintro ⟨st, hst, rfl⟩
    unfold stateTransition
    refine bind_eq_ok.mpr ⟨_, hst.scenario, ?_⟩
    refine bind_eq_ok.mpr ⟨_, hst.gates, ?_⟩
    refine bind_eq_ok.mpr ⟨_, hst.bound, ?_⟩
    refine bind_eq_ok.mpr ⟨_, hst.opened, ?_⟩
    refine bind_eq_ok.mpr ⟨_, hst.unwound, ?_⟩
    refine bind_eq_ok.mpr ⟨_, hst.resolved, ?_⟩
    refine bind_eq_ok.mpr ⟨_, hst.novated, ?_⟩
    refine bind_eq_ok.mpr ⟨_, hst.closedOut, ?_⟩
    refine bind_eq_ok.mpr ⟨_, hst.required, ?_⟩
    refine bind_eq_ok.mpr ⟨_, hst.folded, ?_⟩
    refine bind_eq_ok.mpr ⟨_, hst.held, ?_⟩
    refine bind_eq_ok.mpr ⟨_, hst.surfaced, ?_⟩
    rfl

/-- What the gates require of the inputs. -/
structure StateTransitionInputs.Gated (inp : StateTransitionInputs) : Prop where
  novations : inp.novationWitnesses.length = inp.novations.length
  closeouts : inp.closeoutNovationWitnesses.length = inp.closeoutNovations.length
  unwinds : inp.unwindWitnesses.length = inp.unwinds.length
  clock : ∀ m ∈ inp.marks, m.publishTime ≤ inp.proofNow
  domain : ∀ nb ∈ inp.newPositions, nb.domainSeparator = inp.domainSeparator

theorem Stages.Completed.gated {st : Stages} {inp : StateTransitionInputs}
    (h : st.Completed inp) : inp.Gated := by
  have hgates := h.gates
  unfold gateInputs at hgates
  obtain ⟨hnovations, hgates⟩ := ensure_bind_eq_ok.mp hgates
  obtain ⟨hcloseouts, hgates⟩ := ensure_bind_eq_ok.mp hgates
  obtain ⟨hunwinds, hgates⟩ := ensure_bind_eq_ok.mp hgates
  obtain ⟨hclock, hdomain⟩ := ensure_bind_eq_ok.mp hgates
  exact ⟨hnovations, hcloseouts, hunwinds, hclock, ensure_eq_ok.mp hdomain⟩

/-- What a completed transition's pre-pass did. -/
theorem Stages.Completed.opens_eq {st : Stages} {inp : StateTransitionInputs}
    (h : st.Completed inp) :
    st.accounts = rowsAfter inp.proofNow inp.rows inp.newPositions ∧
      st.opens =
        { rejected := rejectedIds inp.proofNow (ownersIn inp.rows) inp.newPositions
          opened := inp.newPositions.map NewPosition.termsId } := by
  obtain ⟨-, -, hresult⟩ := applyNewBoxesToBook_ok_iff.mp h.opened
  exact Prod.mk.inj hresult

/-- What a completed transition commits as opened. -/
theorem stateTransition_opened {inp : StateTransitionInputs} {out : StateTransitionOutputs}
    (h : stateTransition inp = .ok out) :
    out.openedPositionIds = canonicalIds (inp.newPositions.map NewPosition.termsId) := by
  obtain ⟨st, hst, rfl⟩ := stateTransition_ok_iff.mp h
  change canonicalIds st.opens.opened = _
  rw [hst.opens_eq.2]

/-! ## The rows of a plain fold -/

/-- The results of a row's resolve. -/
structure RowStages where
  settled : List PositionSettlement × List ConsumedTwap
  vm : I128 × List ConsumedMark
  resolved : AccountResolve

/-- A row settles, re-marks its survivors and resolves with these results. -/
structure RowStages.Completed (rs : RowStages) (paused : List Bytes32) (table : ScenarioTable)
    (markingEpoch : Bool) (row : Row) : Prop where
  settles : positionSettlementsFromTwaps row.2.positions row.2.provenTwaps = .ok rs.settled
  marks : newVmOf markingEpoch row.1 (survivorsForVm paused rs.settled.1 row.2.positions)
    row.2.provenMarks = .ok rs.vm
  resolves : resolveAccount row.1.accountOwner row.2.positions rs.settled.1 rs.vm.1 paused table =
    .ok rs.resolved

/-- What the row adds to the transition. -/
def RowStages.result (rs : RowStages) (row : Row) (prior : Option Bytes32)
    (holds : List PausedHold) : RowResult where
  post :=
    { aid := accountIdSingle row.1.accountOwner
      owner := row.1.accountOwner
      positions := rs.resolved.surviving
      vm := rs.resolved.vmEquity
      priorLeaf := prior }
  outcome := rs.resolved.outcome
  consumedTwaps := rs.settled.2
  consumedMarks := rs.vm.2
  pausedHolds := holds
  defaults := rs.resolved.defaults
  settlements := rs.resolved.settlements

omit [Primitives] in
theorem unwindSettlements_nil (positions : List PositionRecord) :
    unwindSettlementsForAccount positions [] = [] := by
  simp [unwindSettlementsForAccount]

/-- A row of a plain fold resolves when it trusts no residual, its marks are fresh and
complete, and its stages complete. -/
theorem resolveRow_plain_iff {inp : StateTransitionInputs} (hplain : inp.Plain)
    {markingEpoch : Bool} {row : Row} {prior : Option Bytes32} {result : RowResult} :
    resolveRow inp markingEpoch (row, prior) = .ok result ↔
      row.2.unconsumedSettleResidual = none ∧
      (∀ m ∈ row.2.provenMarks, markFresh m.markTime inp.proofNow = true) ∧
      ∃ holds rs, assertMarksComplete row.2.positions row.2.provenMarks inp.pausedPairs
          inp.proofNow markingEpoch = .ok holds ∧
        RowStages.Completed rs inp.pausedPairs inp.scenarioTable markingEpoch row ∧
        result = rs.result row prior holds := by
  unfold resolveRow assertNoTrustedSettle
  rw [hplain.2.2]
  constructor
  · intro h
    rcases ensure_bind_eq_ok.mp h with ⟨htrusted, h⟩
    rcases bind_eq_ok.mp h with ⟨settled, hsettles, h⟩
    rcases ensure_bind_eq_ok.mp h with ⟨hfresh, h⟩
    rcases bind_eq_ok.mp h with ⟨holds, hholds, h⟩
    rcases bind_eq_ok.mp h with ⟨vm, hmarks, h⟩
    rcases bind_eq_ok.mp h with ⟨resolved, hresolves, h⟩
    rw [unwindSettlements_nil, List.append_nil] at hmarks hresolves
    refine ⟨htrusted, hfresh, holds, ⟨settled, vm, resolved⟩, hholds,
      ⟨hsettles, hmarks, hresolves⟩, ?_⟩
    exact (Except.ok.inj h).symm
  · intro h
    rcases h with ⟨htrusted, hfresh, holds, rs, hholds, hrs, rfl⟩
    refine ensure_bind_eq_ok.mpr ⟨htrusted, ?_⟩
    refine bind_eq_ok.mpr ⟨rs.settled, hrs.settles, ?_⟩
    refine ensure_bind_eq_ok.mpr ⟨hfresh, ?_⟩
    refine bind_eq_ok.mpr ⟨holds, hholds, ?_⟩
    refine bind_eq_ok.mpr ⟨rs.vm, ?_, ?_⟩
    · rw [unwindSettlements_nil, List.append_nil]
      exact hrs.marks
    · refine bind_eq_ok.mpr ⟨rs.resolved, ?_, rfl⟩
      rw [unwindSettlements_nil, List.append_nil]
      exact hrs.resolves

/-! ## Plain folds -/

/-- The stages of a plain fold: nothing is handed off and nothing unwound. -/
def Stages.ofPlain (inp : StateTransitionInputs) (scenarioRoot : Bytes32) (bound : List BoundRow)
    (results : List RowResult) (requirements : List ImRequirement)
    (roots : Bytes32 × Bytes32) : Stages where
  scenarioRoot := scenarioRoot
  bound := bound
  accounts := rowsAfter inp.proofNow inp.rows inp.newPositions
  opens :=
    { rejected := rejectedIds inp.proofNow (ownersIn inp.rows) inp.newPositions
      opened := inp.newPositions.map NewPosition.termsId }
  results := results
  moved := (results.map RowResult.post, [])
  closed := { posts := results.map RowResult.post, settlements := [], consumedTwaps := [] }
  requirements := requirements
  roots := roots

/-- The stages of a completed plain fold are determined by its own results. -/
theorem Stages.Completed.eq_ofPlain {st : Stages} {inp : StateTransitionInputs}
    (h : st.Completed inp) (hplain : inp.Plain) :
    st = Stages.ofPlain inp st.scenarioRoot st.bound st.results st.requirements st.roots := by
  rcases h.opens_eq with ⟨haccounts, hopens⟩
  have hmoved := h.novated
  have hclosed := h.closedOut
  rw [hplain.1] at hmoved
  rw [hplain.2.1] at hclosed
  have hmoved : (st.results.map RowResult.post, []) = st.moved := Except.ok.inj hmoved
  have hclosed : ({ posts := st.moved.1, settlements := [], consumedTwaps := [] } : CloseoutState) =
      st.closed := Except.ok.inj hclosed
  obtain ⟨scenarioRoot, bound, accounts, opens, results, moved, closed, requirements, roots⟩ := st
  simp only at haccounts hopens hmoved hclosed
  subst hmoved hclosed haccounts hopens
  rfl

/-- The stages of a plain fold complete when its own do. -/
theorem Stages.ofPlain_completed {inp : StateTransitionInputs} (hplain : inp.Plain)
    {scenarioRoot : Bytes32} {bound : List BoundRow} {results : List RowResult}
    {requirements : List ImRequirement} {roots : Bytes32 × Bytes32}
    (hscenario : inp.scenarioTable.scenarioRoot = .ok scenarioRoot)
    (hgates : gateInputs inp = .ok ())
    (hbound : bindRows inp.pausedPairs inp.proofNow none inp.book.touched = .ok bound)
    (hopens : ∀ nb ∈ inp.newPositions, assertNewPositionBound nb = .ok ())
    (hids : ∀ row ∈ rowsAfter inp.proofNow inp.rows inp.newPositions,
      (row.2.positions.map PositionRecord.termsId).Nodup)
    (hresolved : ((rowsAfter inp.proofNow inp.rows inp.newPositions).zip
      (bound.map BoundRow.prior)).mapM (resolveRow inp inp.markingEpoch) = .ok results)
    (hrequired : requirementsOf (results.map RowResult.post) [] inp.scenarioTable =
      .ok requirements)
    (hfolded : ((results.map RowResult.post).zip inp.book.touched).foldlM foldRow
      (inp.book.rootPrev, inp.book.accountsRootPrev) = .ok roots)
    (hheld : assertPausedHoldsComplete inp.priorPositions inp.pausedPairs inp.proofNow
      (Stages.ofPlain inp scenarioRoot bound results requirements roots).pausedHolds
      inp.markingEpoch = .ok ())
    (hsurfaced : assertOpenedPositionIdsComplete inp.newPositions
      (canonicalIds (inp.newPositions.map NewPosition.termsId)) = .ok ()) :
    (Stages.ofPlain inp scenarioRoot bound results requirements roots).Completed inp where
  scenario := hscenario
  gates := hgates
  bound := hbound
  opened := applyNewBoxesToBook_ok_iff.mpr ⟨hopens, hids, rfl⟩
  unwound := by
    rw [hplain.2.2]
    rfl
  resolved := hresolved
  novated := by
    rw [hplain.1]
    rfl
  closedOut := by
    rw [hplain.2.1]
    rfl
  required := by
    rw [hplain.2.2]
    exact hrequired
  folded := hfolded
  held := hheld
  surfaced := hsurfaced

/-- A plain fold completes exactly when its own stages do. -/
theorem stateTransition_plain_iff {inp : StateTransitionInputs} (hplain : inp.Plain)
    {out : StateTransitionOutputs} :
    stateTransition inp = .ok out ↔ ∃ scenarioRoot bound results requirements roots,
      (Stages.ofPlain inp scenarioRoot bound results requirements roots).Completed inp ∧
        out = (Stages.ofPlain inp scenarioRoot bound results requirements roots).outputs inp := by
  rw [stateTransition_ok_iff]
  constructor
  · intro h
    rcases h with ⟨st, hst, rfl⟩
    have heq := hst.eq_ofPlain hplain
    refine ⟨st.scenarioRoot, st.bound, st.results, st.requirements, st.roots, ?_, ?_⟩
    · rw [← heq]
      exact hst
    · rw [← heq]
  · intro h
    rcases h with ⟨scenarioRoot, bound, results, requirements, roots, hst, rfl⟩
    exact ⟨_, hst, rfl⟩

/-! ## The post rows of a fold -/

/-- The post rows a fold resolves to, without the checks around them. -/
def postsOf (inp : StateTransitionInputs) : Run (List AccountPost) := do
  let bound ← bindRows inp.pausedPairs inp.proofNow none inp.book.touched
  let opened ← applyNewBoxesToBook inp.rows inp.newPositions inp.proofNow
  let results ← (opened.1.zip (bound.map BoundRow.prior)).mapM (resolveRow inp inp.markingEpoch)
  let moved ← (inp.novations.zip inp.novationWitnesses).foldlM
    (novationStep inp.domainSeparator) (results.map RowResult.post, [])
  let closed ← (inp.closeoutNovations.zip inp.closeoutNovationWitnesses).foldlM
    (closeoutStep inp.domainSeparator inp.proofNow)
    { posts := moved.1, settlements := [], consumedTwaps := [] }
  pure closed.posts

theorem Stages.Completed.postsOf_eq {inp : StateTransitionInputs} {st : Stages}
    (h : st.Completed inp) : postsOf inp = .ok st.closed.posts := by
  unfold postsOf
  rw [h.bound, ok_bind, h.opened, ok_bind, h.resolved, ok_bind, h.novated, ok_bind, h.closedOut]
  rfl

end StateKeeper
