import StateKeeper.Foundation.Runs
import StateKeeper.Keeper.Advance
import StateKeeper.Keeper.Concrete
import StateKeeper.Tree.Prediction
import StateKeeper.Tree.RebuildSpec
import StateKeeper.Tree.RootBinding

/-!
# Keeper - No lost or double fold

The core's roots fix its tree, so a fold that lands was computed from the tree the
accepted epochs leave, however long ago its keeper scanned.  What a keeper holds while
it waits is a function of the scan it holds; only the landing step moves the core.

Main results:

- Theorem {lit}`Lane.Good.step`: every step keeps the accepted epochs in line.
- Theorem {lit}`racing_keepers`: no lost or double fold, in every run.
-/

namespace StateKeeper

open Words Fallible SortedKeys Runs

section Applied

variable [Primitives]

/-- The tree the epochs leave, applied in order from the empty tree. -/
def applyEpochs (table : ScenarioTable) (epochs : List EpochInputs) : Run TreeState :=
  epochs.foldlM (fun t inputs => EpochOutcome.post <$> resolveEpoch t inputs table)
    TreeState.default

theorem applyEpochs_concat {table : ScenarioTable} {epochs : List EpochInputs}
    {inputs : EpochInputs} {t : TreeState} {outcome : EpochOutcome}
    (happlied : applyEpochs table epochs = .ok t)
    (hresolve : resolveEpoch t inputs table = .ok outcome) :
    applyEpochs table (epochs ++ [inputs]) = .ok outcome.post := by
  rw [applyEpochs, List.foldlM_append]
  apply bind_eq_ok.mpr
  refine ⟨t, happlied, ?_⟩
  rw [List.foldlM_cons, hresolve]
  rfl

variable {ctx : Ctx} {K : Type}

/-- The epochs of accepted advances. -/
def epochsOf (accepted : List (Proved ctx)) : List EpochInputs :=
  accepted.map fun p => p.inputs

/-- The tree an advance leaves. -/
def Proved.post (p : Proved ctx) : TreeState :=
  treeAfter p.state p.inputs ctx.table

/-- The strings hashed for the accepted advances, from the tree each keeper rebuilt and the
tree its epoch leaves. -/
def Lane.preimages (s : Lane ctx K) : List Bytes :=
  s.accepted.flatMap fun p => p.state.preimages ++ p.post.preimages

/-- The strings an advance's keeper hashes to stage its rows. -/
def Proved.stagedPreimages (p : Proved ctx) : List Bytes :=
  match resolveEpoch p.state p.inputs ctx.table with
  | .ok outcome => StateKeeper.stagedPreimages p.state outcome
  | .error _ => []

/-- The strings hashed for the accepted advances, with those that stage their rows. -/
def Lane.hashed (s : Lane ctx K) : List Bytes :=
  s.preimages ++ s.accepted.flatMap Proved.stagedPreimages

/-- The advance applies its epoch to the tree the advances before it leave, and commits
the roots of that tree before and after; a seat leaves the tree only by settling. -/
structure Proved.AppliedAfter (p : Proved ctx) (front : List (Proved ctx)) : Prop where
  before : applyEpochs ctx.table (epochsOf front) = .ok p.state
  resolves : ∃ outcome, resolveEpoch p.state p.inputs ctx.table = .ok outcome ∧
    outcome.post = p.post
  after : applyEpochs ctx.table (epochsOf (front ++ [p])) = .ok p.post
  commits : p.publicValues.roots =
    { rootPrev := p.state.root
      rootNew := p.post.root
      accountsRootPrev := p.state.accountsRoot
      accountsRootNew := p.post.accountsRoot }
  keeps : ∀ owner q, p.state.Holds owner q →
    retires p.inputs.pausedPairs p.inputs.provenTwaps q = false → p.post.Holds owner q

/-- The core stands on the tree of its accepted epochs. -/
structure Lane.Applied (s : Lane ctx K) (t : TreeState) : Prop where
  applies : applyEpochs ctx.table (epochsOf s.accepted) = .ok t
  wellFormed : t.WellFormed
  standing : t.preimages ⊆ s.preimages
  root : s.core.root = t.root
  accountsRoot : s.core.accountsRoot = t.accountsRoot
  each : ∀ front p rest, s.accepted = front ++ p :: rest → p.AppliedAfter front

/-- What holds in every run: the log's folds are the accepted ones, the consumed ids are
theirs, once each and opened before, and the core stands on their tree. -/
structure Lane.Good (s : Lane ctx K) : Prop where
  folds : (s.log.filterMap ChainEvent.fold?).map FoldRecord.pv =
    s.accepted.map fun p => p.publicValues.decoded
  consumed : s.consumed = s.accepted.flatMap fun p => p.publicValues.openedPositionIds
  once : s.consumed.Nodup
  opened : ∀ i ∈ s.consumed, ∃ o, ChainEvent.termsOpened o ∈ s.log ∧ o.ident = i
  applied : NonzeroOn s.hashed → NoCollision s.preimages → ∃ t, s.Applied t

/-! ## One advance -/

/-- What a planned epoch comes from. -/
theorem plan_next {chain : ChainState} {history : ChainHistory} {now : U64} {p : Plan}
    (h : plan ctx chain history now = .ok (.next p)) :
    rebuild history ctx.table = .ok p.state ∧ p.state.root = chain.root ∧
      freshEpochInputs history p.state chain.domain now = .ok p.inputs ∧
      buildAdvanceFrames p.state p.inputs ctx.table chain.accountsRoot = .ok p.frames ∧
      p.frames.predictedRoot ≠ p.frames.rootPrev := by
  unfold plan at h
  rcases bind_eq_ok.mp h with ⟨state, hstate, h⟩
  split at h
  · cases h
  · rename_i hroot
    rcases bind_eq_ok.mp h with ⟨inputs, hinputs, h⟩
    rcases bind_eq_ok.mp h with ⟨frames, hframes, h⟩
    split at h
    · cases h
    · rename_i hadvances
      cases h
      exact ⟨hstate, not_not.mp hroot, hinputs, hframes, hadvances⟩

/-- A proved advance resolves its epoch and commits the roots of its trees. -/
theorem Proved.committed (p : Proved ctx) (hz : NonzeroOn p.stagedPreimages) :
    p.state.WellFormed ∧
      (∃ outcome, resolveEpoch p.state p.inputs ctx.table = .ok outcome ∧
        outcome.post = p.post) ∧
      p.publicValues.roots =
        { rootPrev := p.state.root
          rootNew := p.post.root
          accountsRootPrev := p.state.accountsRoot
          accountsRootNew := p.post.accountsRoot } := by
  rcases plan_next p.planned with ⟨hrebuild, _, _, hframes, _⟩
  have hwf := rebuild_wellFormed hrebuild
  rcases buildAdvanceFrames_ok hframes with ⟨_, _, outcome, hresolve, hread, _⟩
  rcases bind_eq_ok.mp p.proved with ⟨inp, hinp, hout⟩
  rw [expect_eq_ok, hread, Option.some.injEq] at hinp
  subst hinp
  have hpost : outcome.post = p.post := by
    rw [Proved.post, treeAfter, hresolve]
  refine ⟨hwf, ⟨outcome, hresolve, hpost⟩, ?_⟩
  rw [Proved.stagedPreimages, hresolve] at hz
  rw [committed_roots hz hwf hresolve hout, hpost]

/-- A proved advance surfaces no id twice. -/
theorem Proved.opened_nodup (p : Proved ctx) : p.publicValues.openedPositionIds.Nodup := by
  rcases bind_eq_ok.mp p.proved with ⟨inp, _, hout⟩
  rw [stateTransition_opened hout]
  exact canonicalIds_nodup _

/-! ## One step -/

theorem TreeState.preimages_default : TreeState.default.preimages = [] :=
  rfl

/-- The lane before its first event is in line. -/
theorem Lane.Genesis.good {s : Lane ctx K} (h : s.Genesis) : s.Good where
  folds := by rw [h.log, h.accepted]; rfl
  consumed := by rw [h.consumed, h.accepted]; rfl
  once := by rw [h.consumed]; exact List.nodup_nil
  opened := by
    intro i hi
    rw [h.consumed] at hi
    cases hi
  applied := by
    intro _ _
    refine ⟨TreeState.default, ?_⟩
    constructor
    · rw [h.accepted]
      rfl
    · exact TreeState.default_wellFormed
    · rw [TreeState.preimages_default]
      exact List.nil_subset _
    · exact h.root
    · exact h.accountsRoot
    · intro front p rest hsplit
      rw [h.accepted] at hsplit
      simp at hsplit

/-- A step that leaves the core, its folds and its accepted advances alone keeps them in
line. -/
theorem Lane.Good.of_frame {s s' : Lane ctx K} (h : s.Good)
    (hlog : ∃ later, s'.log = s.log ++ later ∧ later.filterMap ChainEvent.fold? = [])
    (hcore : s'.core = s.core) (hconsumed : s'.consumed = s.consumed)
    (haccepted : s'.accepted = s.accepted) : s'.Good := by
  rcases hlog with ⟨later, hlog, hfolds⟩
  constructor
  · rw [hlog, List.filterMap_append, hfolds, List.append_nil, haccepted]
    exact h.folds
  · rw [hconsumed, haccepted]
    exact h.consumed
  · rw [hconsumed]
    exact h.once
  · intro i hi
    rw [hconsumed] at hi
    rcases h.opened i hi with ⟨o, ho, hident⟩
    rw [hlog]
    exact ⟨o, List.mem_append_left _ ho, hident⟩
  · intro hz hc
    have hstrings : s'.preimages = s.preimages := by
      rw [Lane.preimages, haccepted]
      rfl
    have hhashed : s'.hashed = s.hashed := by
      rw [Lane.hashed, hstrings, haccepted]
      rfl
    rw [hstrings] at hc
    rw [hhashed] at hz
    rcases h.applied hz hc with ⟨t, ht⟩
    refine ⟨t, ?_⟩
    constructor
    · rw [haccepted]
      exact ht.applies
    · exact ht.wellFormed
    · rw [hstrings]
      exact ht.standing
    · rw [hcore]
      exact ht.root
    · rw [hcore]
      exact ht.accountsRoot
    · rw [haccepted]
      exact ht.each

/-- An accepted advance applies to the tree the core stands on. -/
theorem Lane.Applied.land {s : Lane ctx K} {t : TreeState} {p : Proved ctx}
    (h : s.Applied t) (haccepts : s.Accepts p.publicValues) (hstaged : NonzeroOn p.stagedPreimages)
    (hz : NonzeroOn (p.state.preimages ++ t.preimages))
    (hc : NoCollision (p.state.preimages ++ t.preimages)) (block : U64) :
    (s.land p block).Applied p.post := by
  rcases p.committed hstaged with ⟨hwf, ⟨outcome, hresolve, hpost⟩, hcommits⟩
  have hstate : p.state = t := by
    apply TreeState.eq_of_root_eq hwf h.wellFormed hz hc
    rw [← h.root, ← haccepts.rootPrev, hcommits]
  have happlied : p.AppliedAfter s.accepted := by
    constructor
    · rw [hstate]
      exact h.applies
    · exact ⟨outcome, hresolve, hpost⟩
    · rw [epochsOf, List.map_append, ← hpost]
      apply applyEpochs_concat _ hresolve
      rw [hstate]
      exact h.applies
    · exact hcommits
    · intro owner q hq hstays
      rw [← hpost]
      exact holds_of_unretired hwf hresolve hq hstays
  constructor
  · exact happlied.after
  · rw [← hpost]
    exact wellFormed_after hwf hresolve
  · intro bs hbs
    rw [Lane.preimages, Lane.land, List.flatMap_append]
    apply List.mem_append_right
    simp [hbs]
  · rw [Lane.land, hcommits]
  · rw [Lane.land, hcommits]
  · intro front q rest hsplit
    change s.accepted ++ [p] = front ++ q :: rest at hsplit
    rcases List.eq_nil_or_concat rest with rfl | ⟨rest', last, rfl⟩
    · rcases List.append_inj' hsplit rfl with ⟨rfl, hlast⟩
      cases hlast
      exact happlied
    · rw [List.concat_eq_append, ← List.cons_append, ← List.append_assoc] at hsplit
      rcases List.append_inj' hsplit rfl with ⟨hfront, _⟩
      exact h.each front q rest' hfront

/-- The core's step keeps the accepted epochs in line. -/
theorem Lane.Good.land {s : Lane ctx K} {p : Proved ctx} (h : s.Good)
    (haccepts : s.Accepts p.publicValues) (block : U64) : (s.land p block).Good := by
  constructor
  · change ((s.log ++ [_]).filterMap ChainEvent.fold?).map _ = (s.accepted ++ [p]).map _
    rw [List.filterMap_append, List.map_append, List.map_append, h.folds]
    rfl
  · change s.consumed ++ _ = (s.accepted ++ [p]).flatMap _
    rw [List.flatMap_append, ← h.consumed]
    simp
  · change (s.consumed ++ _).Nodup
    rw [List.nodup_append]
    refine ⟨h.once, p.opened_nodup, ?_⟩
    intro i hi j hj hij
    rw [hij] at hi
    exact haccepts.unconsumed j hj hi
  · intro i hi
    have hopened : ∃ o, ChainEvent.termsOpened o ∈ s.log ∧ o.ident = i := by
      rcases List.mem_append.mp hi with hi | hi
      · exact h.opened i hi
      · exact haccepts.opened i hi
    rcases hopened with ⟨o, ho, hident⟩
    exact ⟨o, List.mem_append_left _ ho, hident⟩
  · intro hz hc
    have hstrings : (s.land p block).preimages =
        s.preimages ++ (p.state.preimages ++ p.post.preimages) := by
      rw [Lane.preimages, Lane.land, List.flatMap_append]
      simp [Lane.preimages]
    have hstaged : (s.land p block).accepted.flatMap Proved.stagedPreimages =
        s.accepted.flatMap Proved.stagedPreimages ++ p.stagedPreimages := by
      rw [Lane.land, List.flatMap_append]
      simp
    rw [Lane.hashed, hstrings, hstaged] at hz
    rw [hstrings] at hc
    have hbefore : s.hashed ⊆ s.preimages ++ (p.state.preimages ++ p.post.preimages) ++
        (s.accepted.flatMap Proved.stagedPreimages ++ p.stagedPreimages) := by
      unfold Lane.hashed
      grind
    rcases h.applied (hz.mono hbefore) (hc.mono (List.subset_append_left _ _)) with ⟨t, ht⟩
    have htrees : p.state.preimages ++ t.preimages ⊆
        s.preimages ++ (p.state.preimages ++ p.post.preimages) := by
      intro bs hbs
      rcases List.mem_append.mp hbs with hbs | hbs
      · simp [hbs]
      · exact List.mem_append_left _ (ht.standing hbs)
    refine ⟨p.post, ht.land haccepts (hz.mono ?_) (hz.mono ?_) (hc.mono htrees) block⟩
    · exact List.subset_append_of_subset_right _ (List.subset_append_right _ _)
    · exact List.subset_append_of_subset_left _ htrees

/-- Every step keeps the accepted epochs in line. -/
theorem Lane.Good.step [DecidableEq K] {s s' : Lane ctx K} (h : s.Good)
    (hstep : Lane.Step s s') : s'.Good := by
  cases hstep with
  | resume k r _ => exact h.of_frame ⟨[], (List.append_nil _).symm, rfl⟩ rfl rfl rfl
  | send k p _ => exact h.of_frame ⟨[], (List.append_nil _).symm, rfl⟩ rfl rfl rfl
  | land p block _ haccepts => exact h.land haccepts block
  | openLock o => exact h.of_frame ⟨[_], rfl, rfl⟩ rfl rfl rfl
  | bindTwap t => exact h.of_frame ⟨[_], rfl, rfl⟩ rfl rfl rfl
  | setMarket m => exact h.of_frame ⟨[_], rfl, rfl⟩ rfl rfl rfl

/-! ## Every run -/

/-- An id that no fold of the log consumed is among the unfolded opens of a scan. -/
theorem Lane.Good.unfolded {s : Lane ctx K} (h : s.Good) {n : Nat} {head : U64} {o : OpenRecord}
    (ho : o ∈ (s.scan n head).opens) (hfree : o.ident ∉ s.consumed) :
    o ∈ (s.scan n head).unfoldedOpens := by
  rw [ChainHistory.unfoldedOpens, List.mem_filter, decide_eq_true_eq]
  refine ⟨ho, ?_⟩
  intro hfolded
  apply hfree
  rcases List.mem_flatMap.mp hfolded with ⟨f, hf, hident⟩
  rcases List.mem_filterMap.mp hf with ⟨event, hevent, hfold⟩
  have hpv : f.pv ∈ (s.log.filterMap ChainEvent.fold?).map FoldRecord.pv := by
    apply List.mem_map_of_mem
    exact List.mem_filterMap.mpr ⟨event, List.mem_of_mem_take hevent, hfold⟩
  rw [h.folds] at hpv
  rcases List.mem_map.mp hpv with ⟨p, hp, hdecoded⟩
  rw [h.consumed]
  refine List.mem_flatMap.mpr ⟨p, hp, ?_⟩
  rw [← hdecoded] at hident
  exact hident

/-- No lost or double fold among racing keepers, in every run.  The core's roots are those
of the tree its accepted epochs leave, applied in order from empty, and each accepted
advance was computed from the tree of the ones before it; the log holds the accepted
folds in order; no two of them consume one id, and each consumed id was opened; and an
unconsumed id is among the unfolded opens of every scan that shows its event.  The strings
hashed for the trees of the accepted advances do not collide, and nothing hashes to the
empty root. -/
theorem racing_keepers [DecidableEq K] (hk : KeccakNonzero) {s : Lane ctx K}
    (h : Reachable Lane.Genesis Lane.Step s) (hc : NoCollision s.preimages) :
    (∃ t, applyEpochs ctx.table (epochsOf s.accepted) = .ok t ∧ s.core.root = t.root ∧
      s.core.accountsRoot = t.accountsRoot) ∧
    (∀ front p rest, s.accepted = front ++ p :: rest → p.AppliedAfter front) ∧
    ((s.log.filterMap ChainEvent.fold?).map FoldRecord.pv =
      s.accepted.map fun p => p.publicValues.decoded) ∧
    (s.accepted.flatMap fun p => p.publicValues.openedPositionIds).Nodup ∧
    (∀ p ∈ s.accepted, ∀ i ∈ p.publicValues.openedPositionIds,
      ∃ o, ChainEvent.termsOpened o ∈ s.log ∧ o.ident = i) ∧
    ∀ n head, ∀ o ∈ (s.scan n head).opens,
      (∀ p ∈ s.accepted, o.ident ∉ p.publicValues.openedPositionIds) →
        o ∈ (s.scan n head).unfoldedOpens := by
  have hgood : s.Good := by
    apply h.invariant
    · exact fun _ hs => hs.good
    · exact fun _ _ hs hstep => hs.step hstep
  rcases hgood.applied hk.on hc with ⟨t, ht⟩
  refine ⟨⟨t, ht.applies, ht.root, ht.accountsRoot⟩, ht.each, hgood.folds, ?_, ?_, ?_⟩
  · rw [← hgood.consumed]
    exact hgood.once
  · intro p hp i hi
    apply hgood.opened
    rw [hgood.consumed]
    exact List.mem_flatMap.mpr ⟨p, hp, hi⟩
  · intro n head o ho hfree
    apply hgood.unfolded ho
    rw [hgood.consumed, List.mem_flatMap]
    intro hused
    rcases hused with ⟨p, hp, hi⟩
    exact hfree p hp hi

/-! ## A keeper alone -/

/-- The lane with one keeper in its first attempt. -/
def Lane.withPhase [DecidableEq K] (s : Lane ctx K) (k : K) (phase : Phase ctx) : Lane ctx K :=
  { s with keepers := Function.update s.keepers k { attempt := 1, phase := phase } }

/-- One part of a first attempt. -/
theorem reachable_withPhase [DecidableEq K] {init : Lane ctx K → Prop} {s : Lane ctx K} {k : K}
    {phase phase' : Phase ctx} (h : Reachable init Lane.Step (s.withPhase k phase))
    (hresumes : (s.withPhase k phase).Resumes phase (.ok (.next phase'))) :
    Reachable init Lane.Step (s.withPhase k phase') := by
  have hself : (s.withPhase k phase).keepers k = { attempt := 1, phase := phase } :=
    Function.update_self k _ _
  have hnext := h.next (Lane.Step.resume k (.ok (.next phase')) (by rw [hself]; exact hresumes))
  rw [hself] at hnext
  simp only [Lane.withPhase, Function.update_idem] at hnext
  exact hnext

/-- A keeper whose scan shows the whole log proves its advance. -/
theorem reachable_withProved [DecidableEq K] {init : Lane ctx K → Prop} {s : Lane ctx K} {k : K}
    (h : Reachable init Lane.Step s) (hnew : s.keepers k = Keeper.new) (p : Proved ctx)
    {head : U64} (hchain : p.chain = s.core) (hhistory : p.history = s.scan s.log.length head)
    (hgeneration : checkGeneration ctx s.core = .ok ()) :
    Reachable init Lane.Step (s.withPhase k (.proved p)) := by
  have hstart : s.withPhase k .start = s := by
    rw [Lane.withPhase, ← Keeper.new, ← hnew, Function.update_eq_self]
  rw [← hstart] at h
  have hreading := reachable_withPhase h Lane.Resumes.readRoot
  have hread := reachable_withPhase hreading (Lane.Resumes.readRest hgeneration)
  change Reachable _ _ (s.withPhase k (.read s.core s.log.length)) at hread
  rw [← hchain] at hread
  have hplanned := reachable_withPhase hread
    (Lane.Resumes.scan p.toAdvance s.log.length head le_rfl hhistory)
  have hexecuted := reachable_withPhase hplanned (Lane.Resumes.execute p.toExecuted)
  exact reachable_withPhase hexecuted (Lane.Resumes.prove p)

/-- A keeper whose scan shows the whole log carries its advance to the mempool. -/
theorem reachable_sent [DecidableEq K] {init : Lane ctx K → Prop} {s : Lane ctx K} {k : K}
    (h : Reachable init Lane.Step s) (hnew : s.keepers k = Keeper.new) (p : Proved ctx)
    {head : U64} (hchain : p.chain = s.core) (hhistory : p.history = s.scan s.log.length head)
    (hgeneration : checkGeneration ctx s.core = .ok ()) :
    Reachable init Lane.Step
      { s with
        mempool := s.mempool ++ [p]
        keepers := Function.update s.keepers k { attempt := 1, phase := .sent p } } := by
  have hproved := reachable_withProved h hnew p hchain hhistory hgeneration
  have hcurrent := reachable_withPhase hproved (Lane.Resumes.unmoved p ?_)
  · have hself : (s.withPhase k (.current p)).keepers k = { attempt := 1, phase := .current p } :=
      Function.update_self k _ _
    have hsent := hcurrent.next (Lane.Step.send k p (by rw [hself]))
    rw [hself] at hsent
    simp only [Lane.withPhase, Function.update_idem] at hsent
    exact hsent
  · change s.core.root = _
    rcases plan_next p.planned with ⟨_, hroot, _, hframes, _⟩
    rcases buildAdvanceFrames_ok hframes with ⟨_, _, _, _, _, hprev, _⟩
    rw [hprev, hroot, hchain]

/-- A planned epoch and its guest run. -/
def planRun (ctx : Ctx) (chain : ChainState) (history : ChainHistory) (now : U64) :
    Run (Option (Plan × StateTransitionOutputs)) := do
  match ← plan ctx chain history now with
  | .next p =>
      let out ← executeGate p.frames
      pure (some (p, out))
  | _ => pure none

/-- A finished run is a proved advance. -/
theorem exists_proved {chain : ChainState} {history : ChainHistory} {now : U64} {p : Plan}
    {out : StateTransitionOutputs} (h : planRun ctx chain history now = .ok (some (p, out))) :
    ∃ q : Proved ctx, q.toPlan = p ∧ q.chain = chain ∧ q.history = history ∧
      q.publicValues = out := by
  rcases bind_eq_ok.mp h with ⟨flow, hplan, h⟩
  cases flow with
  | rebase => cases h
  | done => cases h
  | next p' =>
      rcases bind_eq_ok.mp h with ⟨out', hgate, h⟩
      cases h
      have hguest := hgate
      unfold executeGate at hguest
      rcases bind_eq_ok.mp hguest with ⟨committed, hcommitted, hsame⟩
      split at hsame
      · cases hsame
      · cases hsame
        exact ⟨⟨⟨⟨p, chain, history, now, hplan⟩, out, hgate⟩, out, hcommitted⟩, rfl, rfl, rfl, rfl⟩

end Applied

/-! ## Two keepers on one open -/

section Concrete

attribute [local instance] concretePrimitives

/-- The generation of the flat table. -/
def raceCtx : Ctx where
  vkey := 1
  table := flatTable
  tableRoot := flatTable.scenarioRoot.toOption.getD 0

/-- A core of that generation on the empty tree. -/
def raceCore : ChainState where
  root := TreeState.default.root
  accountsRoot := TreeState.default.accountsRoot
  scenarioRoot := raceCtx.tableRoot
  domain := 92
  vkey := 1

/-- The lane before its first event, with two keepers. -/
def raceGenesis : Lane raceCtx Bool where
  log := []
  core := raceCore
  consumed := []
  mempool := []
  accepted := []
  keepers := fun _ => Keeper.new

/-- The open of the unit trade. -/
def raceOpen : OpenRecord :=
  (unitTerms 200 1).record

/-- A keeper that scans the open proves its fold, and the strings of the tree it leaves have
distinct digests. -/
theorem race_proved :
    (fun r => r.map fun x => (x.2.openedPositionIds,
      decide ((x.1.state.preimages ++ (treeAfter x.1.state x.1.inputs flatTable).preimages).map
        Primitives.keccak256).Nodup)) <$>
      planRun raceCtx raceCore (openedHistory [raceOpen]) 100 =
        .ok (some ([raceOpen.ident], true)) := by
  decide +kernel

/-- Both keepers prove the open and send; one fold lands, on the empty tree. -/
theorem racing_keepers_open :
    ∃ (s : Lane raceCtx Bool) (p : Proved raceCtx), Reachable Lane.Genesis Lane.Step s ∧
      s.mempool = [p, p] ∧ s.accepted = [p] ∧
      p.publicValues.openedPositionIds = [raceOpen.ident] ∧ p.AppliedAfter [] ∧
      ∃ t, applyEpochs flatTable [p.inputs] = .ok t ∧ s.core.root = t.root ∧
        s.core.accountsRoot = t.accountsRoot := by
  have hk : KeccakNonzero := Keccak.positiveKeccak256_ne_zero
  rcases map_eq_ok.mp race_proved with ⟨r, hr, hfacts⟩
  rcases Option.map_eq_some_iff.mp hfacts with ⟨⟨plan, out⟩, rfl, hx⟩
  simp only [Prod.mk.injEq, decide_eq_true_eq] at hx
  rcases hx with ⟨hids, hnodup⟩
  rcases exists_proved hr with ⟨p, rfl, hchain, hhistory, rfl⟩
  rcases p.committed hk.on with ⟨_, _, hcommits⟩
  have hroot : p.state.root = raceCore.root := by
    rw [(plan_next p.planned).2.1, hchain]
  have haccounts : p.state.accountsRoot = raceCore.accountsRoot := by
    rcases buildAdvanceFrames_ok (plan_next p.planned).2.2.2.1 with ⟨_, hsame, _⟩
    rw [← hsame, hchain]
  have hgenesis : Reachable Lane.Genesis Lane.Step raceGenesis :=
    .start ⟨rfl, rfl, rfl, rfl, rfl, rfl, fun _ => rfl⟩
  have hopened := hgenesis.next (Lane.Step.openLock raceOpen)
  have hgeneration : checkGeneration raceCtx raceCore = .ok () := by
    have hvkey : ¬raceCore.vkey ≠ raceCtx.vkey := not_not.mpr rfl
    have htable : ¬raceCtx.tableRoot ≠ raceCore.scenarioRoot := not_not.mpr rfl
    rw [checkGeneration, if_neg hvkey, if_neg htable]
    rfl
  have hfirst := reachable_sent (k := false) hopened rfl p hchain
    (show p.history = historyOf [.termsOpened raceOpen] 1 from hhistory) hgeneration
  have hsecond := reachable_sent (k := true) hfirst rfl p hchain
    (show p.history = historyOf [.termsOpened raceOpen] 1 from hhistory) hgeneration
  have hlanded := hsecond.next (Lane.Step.land p 2 List.mem_cons_self ?_)
  · have hstrings : NoCollision (p.state.preimages ++ p.post.preimages) :=
      NoCollision.of_nodup hnodup
    rw [← List.append_nil (p.state.preimages ++ p.post.preimages)] at hstrings
    rcases racing_keepers hk hlanded hstrings with ⟨happlied, heach, _⟩
    exact ⟨_, p, hlanded, rfl, rfl, hids, heach [] p [] rfl, happlied⟩
  · constructor
    · rw [hcommits]
      exact hroot
    · rw [hcommits]
      exact haccounts
    · intro i hi
      rw [hids, List.mem_singleton] at hi
      exact ⟨raceOpen, List.mem_cons_self, hi.symm⟩
    · intro i _ hused
      cases hused

end Concrete

end StateKeeper
