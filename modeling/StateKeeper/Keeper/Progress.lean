import StateKeeper.Keeper.RebuildRun

/-!
# Keeper - Progress of the lane

A keeper only rebases when the core has moved since the keeper read it, so each rebase
is paid by a fold that landed in the meantime.  A lane on which no fold lands holds no
keeper back, and a keeper that gives up has seen as many folds land as it had attempts.
A rebuild that goes through ends on the root its last fold commits, so a keeper that
scans what it read finds the root it read.

Main results:

- Theorem {lit}`rebuild_root`: a rebuilt tree has the root of its last fold.
- Theorem {lit}`Lane.ReadAt.moved`: a rebase means that the core moved on.
- Theorem {lit}`rebases_paid`: the folds that land while a keeper rebases.
-/

namespace StateKeeper

open Words Fallible SortedKeys Runs

section Progress

variable [Primitives]

variable {ctx : Ctx} {K : Type}

/-! ## The root the folds leave -/

omit [Primitives] in
/-- The folds a log shows. -/
def foldsOf (log : List ChainEvent) : List FoldRecord :=
  log.filterMap ChainEvent.fold?

/-- The root the last of the folds commits; before the first, the empty tree's. -/
def landedRoot (folds : List FoldRecord) : Bytes32 :=
  folds.foldl (fun _ f => f.pv.roots.rootNew) TreeState.default.root

/-- A rebuilt tree has the root of its last fold. -/
theorem rebuild_root {history : ChainHistory} {table : ScenarioTable} {t : TreeState}
    (h : rebuild history table = .ok t) : t.root = landedRoot history.folds := by
  have hrun : ∀ (es : List (FoldRecord × Nat)) (prior : TreeState),
      es.foldlM (rebuildStep history table) prior = .ok t →
        t.root = es.foldl (fun _ e => e.1.pv.roots.rootNew) prior.root := by
    intro es
    induction es with
    | nil =>
        intro prior hnil
        cases hnil
        rfl
    | cons e es ih =>
        intro prior hcons
        obtain ⟨mid, hstep, hrest⟩ := bind_eq_ok.mp hcons
        obtain ⟨_, outcome, _, _, hsame, rfl⟩ := rebuildStep_ok_iff.mp hstep
        rw [ih _ hrest, hsame.rootNew]
        rfl
  have hnumbered : (history.folds.zipIdx 1).map Prod.fst = history.folds := by simp
  rw [hrun _ _ h, landedRoot]
  conv_rhs => rw [← hnumbered, List.foldl_map]

/-- The core stands at the root of its last fold, one fold for each accepted advance. -/
structure Lane.Rooted (s : Lane ctx K) : Prop where
  root : s.core.root = landedRoot (foldsOf s.log)
  count : s.accepted.length = (foldsOf s.log).length

/-- Every step of the lane keeps the core at the root of its last fold. -/
theorem Lane.Rooted.step [DecidableEq K] {s s' : Lane ctx K} (h : s.Rooted)
    (hstep : Lane.Step s s') : s'.Rooted := by
  have hquiet : ∀ event : ChainEvent, event.fold? = none →
      foldsOf (s.log ++ [event]) = foldsOf s.log := by
    intro event hevent
    rw [foldsOf, List.filterMap_append, List.filterMap_cons, hevent]
    exact List.append_nil _
  cases hstep with
  | resume k r _ => exact ⟨h.root, h.count⟩
  | send k p _ => exact ⟨h.root, h.count⟩
  | land p block _ _ =>
      have hlanded : foldsOf (s.land p block).log =
          foldsOf s.log ++ [{ block := block, pv := p.publicValues.decoded }] := by
        rw [Lane.land, foldsOf, List.filterMap_append]
        rfl
      constructor
      · rw [hlanded, landedRoot, List.foldl_append]
        rfl
      · rw [hlanded, Lane.land, List.length_append, List.length_append, h.count]
        rfl
  | openLock o =>
      constructor
      · rw [hquiet _ rfl]
        exact h.root
      · rw [hquiet _ rfl]
        exact h.count
  | bindTwap t =>
      constructor
      · rw [hquiet _ rfl]
        exact h.root
      · rw [hquiet _ rfl]
        exact h.count
  | setMarket m =>
      constructor
      · rw [hquiet _ rfl]
        exact h.root
      · rw [hquiet _ rfl]
        exact h.count

theorem Lane.reachable_rooted [DecidableEq K] {s : Lane ctx K}
    (h : Reachable Lane.Genesis Lane.Step s) : s.Rooted := by
  apply h.invariant
  · intro s hs
    constructor
    · rw [hs.root, hs.log]
      rfl
    · rw [hs.accepted, hs.log]
      rfl
  · exact fun _ _ hs hstep => hs.step hstep

/-! ## What an attempt has read -/

/-- The root a waiting keeper's attempt read. -/
def Phase.root? : Phase ctx → Option Bytes32
  | .reading root _ => some root
  | .read chain _ => some chain.root
  | phase => phase.advance?.map fun adv => adv.chain.root

/-- The length of the log when the keeper's attempt read the root. -/
def Phase.position? : Phase ctx → Option Nat
  | .reading _ position => some position
  | .read _ position => some position
  | _ => none

/-- The attempt read the core after its first {lit}`n` folds. -/
structure Lane.ReadAt (s : Lane ctx K) (phase : Phase ctx) (n : Nat) : Prop where
  bound : n ≤ (foldsOf s.log).length
  root : ∀ root, phase.root? = some root → root = landedRoot ((foldsOf s.log).take n)
  seen : ∀ position, phase.position? = some position → position ≤ s.log.length ∧
    (foldsOf (s.log.take position)).length = n

/-- A step of the lane only adds to the log. -/
theorem Lane.Step.log_prefix [DecidableEq K] {s s' : Lane ctx K} (h : Lane.Step s s') :
    s.log <+: s'.log := by
  cases h with
  | resume k r _ => exact List.prefix_rfl
  | send k p _ => exact List.prefix_rfl
  | land p block _ _ => exact List.prefix_append _ _
  | openLock o => exact List.prefix_append _ _
  | bindTwap t => exact List.prefix_append _ _
  | setMarket m => exact List.prefix_append _ _

/-- What an attempt has read stays read. -/
theorem Lane.ReadAt.mono {s s' : Lane ctx K} {phase : Phase ctx} {n : Nat}
    (h : s.ReadAt phase n) (hgrows : s.log <+: s'.log) : s'.ReadAt phase n := by
  obtain ⟨later, hlater⟩ := hgrows
  have hfolds : foldsOf s'.log = foldsOf s.log ++ foldsOf later := by
    rw [← hlater, foldsOf, List.filterMap_append]
    rfl
  constructor
  · rw [hfolds, List.length_append]
    exact h.bound.trans (Nat.le_add_right _ _)
  · intro root hroot
    rw [hfolds, List.take_append_of_le_length h.bound]
    exact h.root root hroot
  · intro position hposition
    obtain ⟨hle, hcount⟩ := h.seen position hposition
    rw [← hlater, List.take_append_of_le_length hle, List.length_append]
    exact ⟨hle.trans (Nat.le_add_right _ _), hcount⟩

/-- The root an advance's frames start from is the one its attempt read. -/
theorem Advance.rootPrev (adv : Advance ctx) : adv.frames.rootPrev = adv.chain.root := by
  obtain ⟨_, hroot, _, hframes, _⟩ := plan_next adv.planned
  obtain ⟨_, _, _, _, _, hprev, _⟩ := buildAdvanceFrames_ok hframes
  exact hprev.trans hroot

/-- The proof commits the root its attempt read. -/
theorem Proved.rootPrev (p : Proved ctx) : p.publicValues.roots.rootPrev = p.chain.root := by
  obtain ⟨_, hroot, _, hframes, _⟩ := plan_next p.planned
  obtain ⟨_, _, _, _, hread, _⟩ := buildAdvanceFrames_ok hframes
  obtain ⟨inp, hinp, hout⟩ := bind_eq_ok.mp p.proved
  rw [expect_eq_ok, hread, Option.some.injEq] at hinp
  subst hinp
  obtain ⟨st, _, hcommits⟩ := stateTransition_ok_iff.mp hout
  rw [hcommits]
  exact hroot

/-- A proved advance moves the root. -/
theorem Proved.advances (p : Proved ctx) :
    p.publicValues.roots.rootNew ≠ p.frames.rootPrev := by
  obtain ⟨_, _, _, _, hadvances⟩ := plan_next p.planned
  have hgate := p.executed
  unfold executeGate at hgate
  obtain ⟨out, hout, hgate⟩ := bind_eq_ok.mp hgate
  rw [ok_unique p.proved hout]
  split at hgate
  · cases hgate
  · rename_i hpredicted
    rw [not_not.mp hpredicted]
    exact hadvances

/-! ## Rebases -/

/-- A rebase means that the core moved on since the attempt read it. -/
theorem Lane.ReadAt.moved {s : Lane ctx K} (hrooted : s.Rooted) {phase : Phase ctx} {n : Nat}
    (h : s.ReadAt phase n) (hrebase : s.Resumes phase (.ok .rebase)) :
    n < (foldsOf s.log).length := by
  apply lt_of_le_of_ne h.bound
  intro hall
  have hcore : ∀ root, phase.root? = some root → root = s.core.root := by
    intro root hroot
    rw [hrooted.root, h.root root hroot, hall, List.take_length]
  cases hrebase with
  | @rescan chain position seen head now hle hplan =>
      obtain ⟨_, hcount⟩ := h.seen position rfl
      -- the scan shows the folds of the read, and there are no others
      have hless : foldsOf (s.log.take seen) <+: foldsOf s.log :=
        (List.take_prefix _ _).filterMap _
      have hshown : foldsOf (s.log.take seen) = foldsOf s.log := by
        have hmore : foldsOf (s.log.take position) <+: foldsOf (s.log.take seen) :=
          (List.take_prefix_take_left hle).filterMap _
        apply hless.eq_of_length
        have := hmore.length_le
        have := hless.length_le
        omega
      obtain ⟨state, hstate, hrest⟩ := bind_eq_ok.mp hplan
      have hroot : state.root = chain.root := by
        rw [rebuild_root hstate, hcore chain.root rfl, hrooted.root, ← hshown]
        rfl
      rw [if_neg (not_not.mpr hroot)] at hrest
      obtain ⟨_, _, hrest⟩ := bind_eq_ok.mp hrest
      obtain ⟨_, _, hrest⟩ := bind_eq_ok.mp hrest
      split at hrest <;> cases hrest
  | moved p hmoved =>
      apply hmoved
      rw [p.toAdvance.rootPrev]
      exact (hcore p.chain.root rfl).symm
  | staleRoot p hstale =>
      apply hstale
      rw [p.rootPrev]
      exact hcore p.chain.root rfl

/-- A part of an attempt that goes on has read what it had, or reads the core as it
stands. -/
theorem Lane.ReadAt.resumes {s : Lane ctx K} (hrooted : s.Rooted) {phase phase' : Phase ctx}
    {n : Nat} (h : s.ReadAt phase n) (hresumes : s.Resumes phase (.ok (.next phase'))) :
    ∃ n', n ≤ n' ∧ s.ReadAt phase' n' := by
  -- past the read an attempt carries the root of its plan's chain, and no position
  have hcarries : phase'.root? = phase.root? → phase'.position? = none →
      ∃ n', n ≤ n' ∧ s.ReadAt phase' n' := by
    intro hroot hposition
    refine ⟨n, le_rfl, h.bound, ?_, ?_⟩
    · intro root hread
      exact h.root root (hroot ▸ hread)
    · intro position hread
      rw [hposition] at hread
      cases hread
  cases hresumes with
  | readRoot =>
      refine ⟨(foldsOf s.log).length, h.bound, le_rfl, ?_, ?_⟩
      · intro root hread
        cases hread
        rw [List.take_length]
        exact hrooted.root
      · intro position hread
        cases hread
        rw [List.take_length]
        exact ⟨le_rfl, rfl⟩
  | readRest _ =>
      refine ⟨n, le_rfl, h.bound, ?_, ?_⟩
      · exact fun root hread => h.root root hread
      · exact fun position hread => h.seen position hread
  | scan adv _ _ _ _ => exact hcarries rfl rfl
  | execute e => exact hcarries rfl rfl
  | prove p => exact hcarries rfl rfl
  | unmoved p _ => exact hcarries rfl rfl

/-- A keeper that waits for no answer has read nothing. -/
theorem Lane.ReadAt.of_none {s : Lane ctx K} {phase : Phase ctx} (hroot : phase.root? = none)
    (hposition : phase.position? = none) : s.ReadAt phase (foldsOf s.log).length := by
  refine ⟨le_rfl, ?_, ?_⟩
  · intro root hread
    rw [hroot] at hread
    cases hread
  · intro position hread
    rw [hposition] at hread
    cases hread

/-- Since {lit}`first` attempts and {lit}`landed` folds ago, the keeper has read the core
after at least one more fold for each attempt more. -/
def Lane.Paid (s : Lane ctx K) (k : K) (first landed : Nat) : Prop :=
  first ≤ (s.keepers k).attempt ∧
    ∃ n, landed + ((s.keepers k).attempt - first) ≤ n ∧ s.ReadAt (s.keepers k).phase n

/-- A rebasing keeper starts over or stops, at most one attempt further. -/
theorem Keeper.resume_rebase (attempt : Nat) :
    ∃ attempt' phase, (Keeper.resume attempt (.ok .rebase) : Keeper ctx) =
        { attempt := attempt', phase := phase } ∧
      attempt ≤ attempt' ∧ attempt' ≤ attempt + 1 ∧ phase.root? = none ∧
      phase.position? = none := by
  by_cases hagain : attempt < MAX_REBASE
  · exact ⟨attempt + 1, .start, if_pos hagain, by omega, le_rfl, rfl, rfl⟩
  · exact ⟨attempt, _, if_neg hagain, le_rfl, by omega, rfl, rfl⟩

/-- Every part of an attempt keeps it paid. -/
theorem Lane.Paid.resume [DecidableEq K] {s : Lane ctx K} (hrooted : s.Rooted) {k : K}
    {first landed : Nat} (h : s.Paid k first landed) {r : Run (Flow (Phase ctx))}
    (hresumes : s.Resumes (s.keepers k).phase r) :
    Lane.Paid { s with
      keepers := Function.update s.keepers k (Keeper.resume (s.keepers k).attempt r) }
      k first landed := by
  obtain ⟨hfirst, n, hpaid, hread⟩ := h
  have hlater : ∀ keeper : Keeper ctx, first ≤ keeper.attempt →
      (∃ n, landed + (keeper.attempt - first) ≤ n ∧ s.ReadAt keeper.phase n) →
      Lane.Paid { s with keepers := Function.update s.keepers k keeper } k first landed := by
    intro keeper hattempt hreads
    obtain ⟨n', hpaid', hread'⟩ := hreads
    unfold Lane.Paid
    simp only [Function.update_self]
    exact ⟨hattempt, n', hpaid', hread'.mono List.prefix_rfl⟩
  -- an attempt that ends as it is leaves its keeper at the core's folds
  have hstopped : ∀ result, Lane.Paid { s with
      keepers := Function.update s.keepers k
        { attempt := (s.keepers k).attempt, phase := .stopped result } } k first landed := by
    intro result
    exact hlater _ hfirst ⟨_, hpaid.trans hread.bound, .of_none rfl rfl⟩
  match r, hresumes with
  | .ok (.next phase'), hresumes =>
      obtain ⟨n', hle, hread'⟩ := hread.resumes hrooted hresumes
      exact hlater _ hfirst ⟨n', hpaid.trans hle, hread'⟩
  | .ok .rebase, hresumes =>
      have hmoved := hread.moved hrooted hresumes
      obtain ⟨attempt', phase, hkeeper, hless, hmore, hroot, hposition⟩ :=
        Keeper.resume_rebase (s.keepers k).attempt
      rw [hkeeper]
      apply hlater _ (hfirst.trans hless)
      refine ⟨_, ?_, .of_none hroot hposition⟩
      change landed + (attempt' - first) ≤ _
      omega
  | .ok .done, _ => exact hstopped (pure ())
  | .error e, _ => exact hstopped (.error e)

/-- Every step of the lane keeps a keeper's attempt paid. -/
theorem Lane.Paid.step [DecidableEq K] {s s' : Lane ctx K} (hrooted : s.Rooted) {k : K}
    {first landed : Nat} (h : s.Paid k first landed) (hstep : Lane.Step s s') :
    s'.Paid k first landed := by
  have hgrows := hstep.log_prefix
  have hother : s'.keepers k = s.keepers k → s'.Paid k first landed := by
    intro hsame
    obtain ⟨hfirst, n, hpaid, hread⟩ := h
    unfold Lane.Paid
    rw [hsame]
    exact ⟨hfirst, n, hpaid, hread.mono hgrows⟩
  cases hstep with
  | resume k' r hresumes =>
      by_cases hsame : k = k'
      · subst hsame
        exact h.resume hrooted hresumes
      · exact hother (Function.update_of_ne hsame _ _)
  | send k' p hcurrent =>
      by_cases hsame : k = k'
      · subst hsame
        obtain ⟨hfirst, n, hpaid, hread⟩ := h
        rw [hcurrent] at hread
        have hsent : s.ReadAt (.sent p) n := ⟨hread.bound, hread.root, hread.seen⟩
        unfold Lane.Paid
        simp only [Function.update_self]
        exact ⟨hfirst, n, hpaid, hsent.mono hgrows⟩
      · exact hother (Function.update_of_ne hsame _ _)
  | land p block _ _ => exact hother rfl
  | openLock o => exact hother rfl
  | bindTwap t => exact hother rfl
  | setMarket m => exact hother rfl

/-! ## Every run -/

/-- Every rebase of a keeper is paid by a fold that landed while it ran.  From a reachable
lane on which the keeper is about to start an attempt, on any run and whatever the others
do: when an attempt of the keeper ends in a rebase, more folds have landed in the meantime
than it had rebased before; so a keeper that gives up has seen {lit}`MAX_REBASE` folds land
since its first attempt. -/
theorem rebases_paid [DecidableEq K] {s₀ s : Lane ctx K} {k : K}
    (h₀ : Reachable Lane.Genesis Lane.Step s₀) (hstart : (s₀.keepers k).phase = .start)
    (h : Reachable (fun x => x = s₀) Lane.Step s)
    (hrebase : s.Resumes (s.keepers k).phase (.ok .rebase)) :
    (s₀.keepers k).attempt ≤ (s.keepers k).attempt ∧
      s₀.accepted.length + ((s.keepers k).attempt - (s₀.keepers k).attempt) <
        s.accepted.length := by
  have hpaid : s.Paid k (s₀.keepers k).attempt s₀.accepted.length := by
    clear hrebase
    induction h with
    | start heq =>
        rw [heq, (Lane.reachable_rooted h₀).count]
        refine ⟨le_rfl, (foldsOf s₀.log).length, by omega, ?_⟩
        apply Lane.ReadAt.of_none
        · rw [hstart]
          rfl
        · rw [hstart]
          rfl
    | next hrun hstep ih => exact ih.step (Lane.reachable_rooted (h₀.trans hrun)) hstep
  have hrooted := Lane.reachable_rooted (h₀.trans h)
  obtain ⟨hfirst, n, hpays, hread⟩ := hpaid
  rw [hrooted.count]
  exact ⟨hfirst, hpays.trans_lt (hread.moved hrooted hrebase)⟩

end Progress

/-! ## One rebase -/

section Concrete

attribute [local instance] concretePrimitives

/-- Both keepers prove the unit trade; while the first re-reads the root the second's fold
lands, and the first rebases. -/
theorem rebases_paid_race :
    ∃ (s : Lane raceCtx Bool) (p : Proved raceCtx),
      Reachable (fun x => x = raceOpened) Lane.Step s ∧ s.accepted = [p] ∧
      s.Resumes (s.keepers false).phase (.ok .rebase) ∧
      raceOpened.accepted.length + ((s.keepers false).attempt -
        (raceOpened.keepers false).attempt) < s.accepted.length := by
  obtain ⟨p, hp⟩ := exists_foldsRace
  have hstart : Reachable (fun x => x = raceOpened) Lane.Step raceOpened := .start rfl
  have hproved := reachable_withProved (k := false) hstart rfl p hp.chain hp.history
    raceCore_generation
  have hsent := reachable_sent (k := true) hproved rfl p hp.chain hp.history raceCore_generation
  have hlanded := hsent.next (Lane.Step.land p 2 List.mem_cons_self (hp.accepts rfl rfl rfl))
  have hrebase : ∀ s : Lane raceCtx Bool,
      (s.land p 2).Resumes (.proved p) (.ok .rebase) := fun _ => .moved p p.advances
  refine ⟨_, p, hlanded, rfl, hrebase _, ?_⟩
  exact (rebases_paid raceOpened_reachable rfl hlanded (hrebase _)).2

end Concrete

end StateKeeper
