import StateKeeper.Keeper.FoldReplay
import StateKeeper.Keeper.RacingKeepers

/-!
# Keeper - Rebuilding what the keepers folded

A rebuild replays the folds of a scan one after another.  On a lane whose folds are
all replayable it never stops: every scan, of whatever prefix of the log, rebuilds the
tree of the folds it shows, and a complete one the tree the core stands on.

Main results:

- Theorem {lit}`Lane.Traced.step`: every fold was planned from a scan of the log before it.
- Theorem {lit}`rebuild_of_lane`: what every scan of a run rebuilds.
-/

namespace StateKeeper

open Words Fallible SortedKeys Runs

/-! ## Opens found again -/

/-- Among records of distinct ids, each is found under its own. -/
theorem openById_of_mem {opens : List OpenRecord} (hids : (opens.map OpenRecord.ident).Nodup)
    {o : OpenRecord} (ho : o ∈ opens) : openById opens o.ident = some o := by
  have hfound : (openById opens o.ident).isSome := by
    rw [openById, List.find?_isSome]
    exact ⟨o, List.mem_reverse.mpr ho, decide_eq_true rfl⟩
  obtain ⟨o', ho'⟩ := Option.isSome_iff_exists.mp hfound
  have hmem : o' ∈ opens := List.mem_reverse.mp (List.mem_of_find?_eq_some ho')
  have hident := List.find?_some ho'
  rw [ho', eq_of_key_eq hids hmem ho (of_decide_eq_true hident)]

section Rebuild

variable [Primitives]

omit [Primitives] in
/-- The opens a fold converted come back from their ids. -/
theorem recoverOpens {history : ChainHistory} {fold : FoldRecord}
    (hids : (history.opens.map OpenRecord.ident).Nodup) {opens : List OpenRecord}
    {newPositions : List NewPosition}
    (h : (opens.mapM fun o => openToNewPosition o fold.pv.domainSeparator) = .ok newPositions)
    (hmem : ∀ o ∈ opens, o ∈ history.opens) :
    (newPositions.map NewPosition.termsId).mapM (recoverOpen history fold) = .ok newPositions := by
  induction mapM_eq_ok_iff.mp h with
  | nil => rfl
  | @cons o nb opens newPositions ho hrest ih =>
      have hid : nb.termsId = o.ident := (openToNewPosition_carriedBy ho).1.termsId
      have hrecovered : recoverOpen history fold nb.termsId = .ok nb := by
        rw [recoverOpen, hid, openById_of_mem hids (hmem o List.mem_cons_self)]
        exact ho
      have htail := ih (mapM_eq_ok_iff.mpr hrest) fun x hx => hmem x (List.mem_cons_of_mem _ hx)
      rw [List.map_cons, List.mapM_cons, hrecovered, ok_bind, htail]
      rfl

/-! ## Scans of the log before a fold -/

variable {ctx : Ctx} {K : Type}

/-- The advance was planned from a scan of a prefix of the log. -/
def Advance.ScannedFrom (adv : Advance ctx) (log : List ChainEvent) : Prop :=
  ∃ seen head, seen <+: log ∧ adv.history = historyOf seen head

theorem Advance.ScannedFrom.mono {adv : Advance ctx} {log log' : List ChainEvent}
    (h : adv.ScannedFrom log) (hgrows : log <+: log') : adv.ScannedFrom log' := by
  obtain ⟨seen, head, hseen, hhistory⟩ := h
  exact ⟨seen, head, hseen.trans hgrows, hhistory⟩

/-- The advance a waiting keeper holds. -/
def Phase.advance? : Phase ctx → Option (Advance ctx)
  | .planned adv => some adv
  | .executed e => some e.toAdvance
  | .proved p => some p.toAdvance
  | .current p => some p.toAdvance
  | .sent p => some p.toAdvance
  | _ => none

/-- Whatever a keeper holds, a transaction carries or a fold of the log commits was planned
from a scan of the log before it. -/
structure Lane.Traced (s : Lane ctx K) : Prop where
  held : ∀ k adv, (s.keepers k).phase.advance? = some adv → adv.ScannedFrom s.log
  inFlight : ∀ p ∈ s.mempool, p.toAdvance.ScannedFrom s.log
  landed : ∀ before f rest, s.log = before ++ .rootAdvanced f :: rest →
    ∃ p, s.accepted[(before.filterMap ChainEvent.fold?).length]? = some p ∧
      f.pv = p.publicValues.decoded ∧ p.toAdvance.ScannedFrom before

theorem Lane.Genesis.traced {s : Lane ctx K} (h : s.Genesis) : s.Traced where
  held k adv hadv := by
    rw [h.keepers] at hadv
    cases hadv
  inFlight p hp := by
    rw [h.mempool] at hp
    cases hp
  landed before f rest hlog := by
    rw [h.log] at hlog
    simp at hlog

/-- A part of an attempt holds the advance it held, or plans one from a scan. -/
theorem Lane.Resumes.scanned {s : Lane ctx K} {phase phase' : Phase ctx}
    (h : s.Resumes phase (.ok (.next phase')))
    (hphase : ∀ adv, phase.advance? = some adv → adv.ScannedFrom s.log) (adv : Advance ctx)
    (hadv : phase'.advance? = some adv) : adv.ScannedFrom s.log := by
  cases h with
  | readRoot => cases hadv
  | readRest _ => cases hadv
  | scan adv' n head _ hhistory =>
      cases hadv
      exact ⟨s.log.take n, head, List.take_prefix n s.log, hhistory⟩
  | execute e => exact hphase adv hadv
  | prove p => exact hphase adv hadv
  | unmoved p _ => exact hphase adv hadv

/-- A resumed keeper holds what its part of the attempt holds. -/
theorem Keeper.advance_resume {attempt : Nat} {r : Run (Flow (Phase ctx))} {adv : Advance ctx}
    (h : (Keeper.resume attempt r).phase.advance? = some adv) :
    ∃ phase, r = .ok (.next phase) ∧ phase.advance? = some adv := by
  unfold Keeper.resume at h
  split at h
  · exact ⟨_, rfl, h⟩
  · split at h <;> cases h
  · cases h
  · cases h

/-- An event that is no fold leaves the folds before it where they were. -/
theorem Lane.Traced.emit {s : Lane ctx K} (h : s.Traced) {event : ChainEvent}
    (hevent : event.fold? = none) : Lane.Traced { s with log := s.log ++ [event] } where
  held k adv hadv := (h.held k adv hadv).mono (List.prefix_append _ _)
  inFlight p hp := (h.inFlight p hp).mono (List.prefix_append _ _)
  landed before f rest hlog := by
    rcases List.eq_nil_or_concat rest with rfl | ⟨rest', last, rfl⟩
    · obtain ⟨_, hlast⟩ := List.append_inj' hlog rfl
      cases hlast
      cases hevent
    · rw [List.concat_eq_append, ← List.cons_append, ← List.append_assoc] at hlog
      obtain ⟨hfront, _⟩ := List.append_inj' hlog rfl
      exact h.landed before f rest' hfront

/-- Every step keeps the lane traced. -/
theorem Lane.Traced.step [DecidableEq K] {s s' : Lane ctx K} (hgood : s.Good) (h : s.Traced)
    (hstep : Lane.Step s s') : s'.Traced := by
  cases hstep with
  | resume k r hresumes =>
      constructor
      · intro k' adv hadv
        by_cases hk : k' = k
        · subst hk
          simp only [Function.update_self] at hadv
          obtain ⟨phase, rfl, hphase⟩ := Keeper.advance_resume hadv
          exact hresumes.scanned (h.held k') adv hphase
        · simp only [Function.update_of_ne hk] at hadv
          exact h.held k' adv hadv
      · exact h.inFlight
      · exact h.landed
  | send k p hcurrent =>
      have hown : p.toAdvance.ScannedFrom s.log := by
        apply h.held k
        rw [hcurrent]
        rfl
      constructor
      · intro k' adv hadv
        by_cases hk : k' = k
        · subst hk
          simp only [Function.update_self] at hadv
          cases hadv
          exact hown
        · simp only [Function.update_of_ne hk] at hadv
          exact h.held k' adv hadv
      · intro q hq
        rcases List.mem_append.mp hq with hq | hq
        · exact h.inFlight q hq
        · rw [List.mem_singleton.mp hq]
          exact hown
      · exact h.landed
  | land p block hp _ =>
      have hlength : (s.log.filterMap ChainEvent.fold?).length = s.accepted.length := by
        have hfolds := congrArg List.length hgood.folds
        simpa using hfolds
      constructor
      · intro k adv hadv
        exact (h.held k adv hadv).mono (List.prefix_append _ _)
      · intro q hq
        exact (h.inFlight q hq).mono (List.prefix_append _ _)
      · intro before f rest hlog
        change s.log ++ [.rootAdvanced _] = _ at hlog
        change ∃ q, (s.accepted ++ [p])[_]? = some q ∧ _
        rcases List.eq_nil_or_concat rest with rfl | ⟨rest', last, rfl⟩
        · obtain ⟨rfl, hlast⟩ := List.append_inj' hlog rfl
          cases hlast
          refine ⟨p, ?_, rfl, h.inFlight p hp⟩
          rw [hlength, List.getElem?_concat_length]
        · rw [List.concat_eq_append, ← List.cons_append, ← List.append_assoc] at hlog
          obtain ⟨hfront, _⟩ := List.append_inj' hlog rfl
          obtain ⟨q, hq, hpv, hscanned⟩ := h.landed before f rest' hfront
          refine ⟨q, ?_, hpv, hscanned⟩
          rw [List.getElem?_append_left (List.getElem?_eq_some_iff.mp hq).1]
          exact hq
  | openLock o => exact h.emit rfl
  | bindTwap t => exact h.emit rfl
  | setMarket m => exact h.emit rfl

/-! ## One fold of the run -/

/-- The epochs of the parties' opens have distinct account ids when the strings of the tree
they enter do not collide. -/
theorem TreeState.Replayable.distinct {prior : TreeState} {inputs : EpochInputs}
    {table : ScenarioTable} {outcome : EpochOutcome} (h : prior.Replayable inputs)
    (hwf : prior.WellFormed) (hresolve : resolveEpoch prior inputs table = .ok outcome)
    (hc : NoCollision outcome.post.preimages) : inputs.DistinctParties := by
  -- each party ends with a seat, so its id string is one of the tree's
  have hheld : ∀ x ∈ inputs.parties, zeros 12 ++ beBytes 20 x ∈ outcome.post.preimages := by
    intro x hx
    obtain ⟨nb, hnb, hparty⟩ := List.mem_flatMap.mp hx
    have hlock := h.locks nb hnb
    have hseat : ∃ p, p ∈ newSeats inputs.proofNow (ownersIn (epochRows prior inputs))
        inputs.newPositions x := by
      simp only [List.mem_cons, List.not_mem_nil, or_false] at hparty
      rcases hparty with rfl | rfl
      · exact ⟨nb.seatA, mem_newSeats.mpr ⟨nb, hnb, hlock, Or.inl ⟨rfl, rfl⟩⟩⟩
      · exact ⟨nb.seatB, mem_newSeats.mpr ⟨nb, hnb, hlock, Or.inr ⟨rfl, rfl⟩⟩⟩
    have hrow : x ∈ ownersIn (epochRows prior inputs) := by
      simp only [List.mem_cons, List.not_mem_nil, or_false] at hparty
      rcases hparty with rfl | rfl
      · exact hlock.2.1
      · exact hlock.2.2.1
    obtain ⟨p, hp⟩ := hseat
    obtain ⟨e, he, rfl⟩ := exists_openedRow hrow
    have hkept : p ∈ keptSeats prior inputs e := by
      rw [keptSeats_of_unpriced hwf h.unpriced, openedRow_positions]
      exact List.mem_append_right _ hp
    obtain ⟨a, ha, howner, _⟩ := holds_of_kept hwf hresolve he hkept
    apply List.mem_append_right
    refine List.mem_flatMap.mpr ⟨(_, a), KeyedMap.mem_toList.mpr ha, ?_⟩
    rw [← howner]
    simp [AccountState.preimages]
  intro x hx y hy hsame
  unfold accountIdSingle at hsame
  rw [keccak_singleton, keccak_singleton] at hsame
  have hbytes := hc _ (hheld x hx) _ (hheld y hy) hsame
  exact beBytes_injective (by omega) (List.append_cancel_left hbytes)

omit [Primitives] in
/-- A fresh epoch's marks are not negative. -/
theorem freshMarks_nonneg {twaps : List TwapBoundRecord} {now : U64} {m : ProvenMark}
    (h : m ∈ freshMarks twaps now) : 0 ≤ m.price.toInt := by
  obtain ⟨t, ht, rfl⟩ := List.mem_map.mp h
  obtain ⟨_, hprice⟩ := Bool.and_eq_true_iff.mp (List.mem_filter.mp ht).2
  have hwide : (t.twap.signExtend 128).toInt = t.twap.toInt :=
    BitVec.toInt_signExtend_of_le (by omega)
  rw [TwapBoundRecord.provenMark, hwide]
  exact of_decide_eq_true hprice

/-- The replay of a landed fold, from any history that shows the opens its keeper saw. -/
theorem Proved.replayed {p : Proved ctx} (hz : NonzeroOn p.stagedPreimages)
    (hc : NoCollision p.post.preimages)
    (hreplay : p.state.Replayable p.inputs) {history : ChainHistory}
    (hids : (history.opens.map OpenRecord.ident).Nodup)
    (hseen : ∀ o ∈ p.history.opens, o ∈ history.opens)
    (hown : (p.history.opens.map OpenRecord.ident).Nodup) {fold : FoldRecord}
    (hpv : fold.pv = p.publicValues.decoded) (n : Nat) :
    rebuildStep history ctx.table p.state (fold, n) = .ok p.post := by
  obtain ⟨hrebuild, _, hinputs, hframes, _⟩ := plan_next p.planned
  have hwf := rebuild_wellFormed hrebuild
  obtain ⟨_, _, outcome, hresolve, hread, _⟩ := buildAdvanceFrames_ok hframes
  have hpost : outcome.post = p.post := by
    rw [Proved.post, treeAfter, hresolve]
  obtain ⟨inp, hinp, hout⟩ := bind_eq_ok.mp p.proved
  rw [expect_eq_ok, hread, Option.some.injEq] at hinp
  subst hinp
  rw [← hpost] at hc ⊢
  obtain ⟨newPositions, hopens, heq⟩ := bind_eq_ok.mp hinputs
  have heq := (Except.ok.inj heq).symm
  have hnew : p.inputs.newPositions = newPositions := by rw [heq]
  have hmarks : p.inputs.provenMarks = freshMarks p.history.twaps p.now := by rw [heq]
  have hdomain : fold.pv.domainSeparator = p.chain.domain := by
    rw [hpv]
    change p.publicValues.committedDomain = _
    rw [(commitsEpoch_framed hout).domain, heq]
  have hconverted : (p.inputs.newPositions.map NewPosition.termsId) =
      p.history.unfoldedOpens.map OpenRecord.ident := by
    have hids := (mapM_eq_ok_iff.mp hopens).imp fun o nb ho =>
      (openToNewPosition_carriedBy ho).1.termsId.symm
    rw [hnew]
    exact (List.forall₂_eq_eq_eq ▸
      List.forall₂_map_left_iff.mpr (List.forall₂_map_right_iff.mpr hids)).symm
  have hrecovered : (p.inputs.newPositions.map NewPosition.termsId).mapM
      (recoverOpen history fold) = .ok p.inputs.newPositions := by
    rw [← hdomain] at hopens
    rw [hnew]
    apply recoverOpens hids hopens
    intro o ho
    exact hseen o (List.mem_filter.mp ho).1
  have hdistinct : (p.inputs.newPositions.map NewPosition.termsId).Nodup := by
    rw [hconverted]
    exact hown.sublist (List.filter_sublist.map _)
  have hprices : ∀ m ∈ p.inputs.provenMarks, 0 ≤ m.price.toInt := by
    intro m hm
    rw [hmarks] at hm
    exact freshMarks_nonneg hm
  rw [Proved.stagedPreimages, hresolve] at hz
  obtain ⟨inputs', outcome', hrun, hsame, hreproduced, hafter⟩ := fold_replayed hz hwf
    (hreplay.distinct hwf hresolve hc) hresolve hout hreplay hprices hdistinct hpv hrecovered
  exact rebuildStep_ok_iff.mpr ⟨inputs', outcome', hrun, hsame, hreproduced, hafter.symm⟩

/-! ## The folds of a scan -/

/-- Replaying the folds of a prefix of the log, from a history of distinct opens that shows
those of the prefix, gives the tree the accepted epochs of the prefix leave. -/
theorem Lane.Traced.replays {s : Lane ctx K} (h : s.Traced) (hz : NonzeroOn s.hashed)
    (hc : NoCollision s.preimages)
    (heach : ∀ front p rest, s.accepted = front ++ p :: rest → p.AppliedAfter front)
    (hreplay : ∀ p ∈ s.accepted, p.state.Replayable p.inputs) {history : ChainHistory}
    (hids : (history.opens.map OpenRecord.ident).Nodup) (before : List ChainEvent) :
    before <+: s.log → (∀ o ∈ before.filterMap ChainEvent.open?, o ∈ history.opens) →
      ((before.filterMap ChainEvent.open?).map OpenRecord.ident).Nodup →
      ∃ t, ((before.filterMap ChainEvent.fold?).zipIdx 1).foldlM (rebuildStep history ctx.table)
          TreeState.default = .ok t ∧
        applyEpochs ctx.table
          (epochsOf (s.accepted.take (before.filterMap ChainEvent.fold?).length)) = .ok t := by
  induction before using List.reverseRecOn with
  | nil =>
      intro _ _ _
      exact ⟨TreeState.default, rfl, rfl⟩
  | append_singleton before event ih =>
      intro hprefix hshown hnodup
      rw [List.filterMap_append] at hshown hnodup ⊢
      rw [List.map_append, List.nodup_append] at hnodup
      obtain ⟨t, hrun, happlied⟩ := ih ((List.prefix_append _ _).trans hprefix)
        (fun o ho => hshown o (List.mem_append_left _ ho)) hnodup.1
      cases hevent : event.fold? with
      | none =>
          have hsame : [event].filterMap ChainEvent.fold? = [] := by simp [hevent]
          rw [hsame, List.append_nil]
          exact ⟨t, hrun, happlied⟩
      | some fold =>
          have hfold : event = .rootAdvanced fold := by
            cases event with
            | rootAdvanced f => exact congrArg _ (Option.some.inj hevent)
            | termsOpened o => cases hevent
            | twapBound tw => cases hevent
            | marketSet m => cases hevent
          subst hfold
          obtain ⟨later, hlog⟩ := hprefix
          rw [List.append_assoc, List.singleton_append] at hlog
          obtain ⟨p, hp, hpv, seen, head, hseen, hhistory⟩ := h.landed before fold later hlog.symm
          obtain ⟨hindex, hat⟩ := List.getElem?_eq_some_iff.mp hp
          have hmem : p ∈ s.accepted := List.mem_of_getElem? hp
          have htake : s.accepted.take ((before.filterMap ChainEvent.fold?).length + 1) =
              s.accepted.take (before.filterMap ChainEvent.fold?).length ++ [p] := by
            rw [List.take_add_one, hp, Option.toList_some]
          have hafter : p.AppliedAfter
              (s.accepted.take (before.filterMap ChainEvent.fold?).length) := by
            apply heach _ p (s.accepted.drop ((before.filterMap ChainEvent.fold?).length + 1))
            rw [← List.singleton_append, ← List.append_assoc, ← htake, List.take_append_drop]
          -- the keeper rebuilt the tree the replay stands on
          have hstate : t = p.state := ok_unique happlied hafter.before
          subst hstate
          have hopens : p.history.opens <+: before.filterMap ChainEvent.open? := by
            rw [hhistory]
            exact hseen.filterMap _
          have hclear : NoCollision p.post.preimages := by
            apply hc.mono
            intro bs hbs
            exact List.mem_flatMap.mpr ⟨p, hmem, List.mem_append_right _ hbs⟩
          have hstaged : NonzeroOn p.stagedPreimages := by
            apply hz.mono
            intro bs hbs
            exact List.mem_append_right _ (List.mem_flatMap.mpr ⟨p, hmem, hbs⟩)
          have hstep := p.replayed hstaged hclear (hreplay p hmem) hids
            (fun o ho => hshown o (List.mem_append_left _ (hopens.subset ho)))
            (hnodup.1.sublist (hopens.sublist.map _)) hpv
            (1 + (before.filterMap ChainEvent.fold?).length)
          refine ⟨p.post, ?_, ?_⟩
          · change ((before.filterMap ChainEvent.fold? ++ [fold]).zipIdx 1).foldlM _ _ = _
            rw [List.zipIdx_append, List.foldlM_append, hrun, ok_bind, List.zipIdx_singleton]
            exact bind_eq_ok.mpr ⟨p.post, hstep, rfl⟩
          · change applyEpochs ctx.table (epochsOf (s.accepted.take
              (before.filterMap ChainEvent.fold? ++ [fold]).length)) = _
            rw [List.length_append, List.length_singleton, htake]
            exact hafter.after

/-! ## Every scan -/

/-- On a lane whose landed folds are all replayable every scan rebuilds, however many events
it shows: the replay reaches the tree the accepted epochs it shows leave, and a complete
scan the tree of the core's roots, so that no keeper on it rebases.  The core opens no id
twice, the strings hashed for the trees of the accepted advances do not collide, and nothing
hashes to the empty root. -/
theorem rebuild_of_lane [DecidableEq K] {s : Lane ctx K}
    (h : Reachable Lane.Genesis Lane.Step s) (hz : NonzeroOn s.hashed)
    (hc : NoCollision s.preimages)
    (hids : ((s.log.filterMap ChainEvent.open?).map OpenRecord.ident).Nodup)
    (hreplay : ∀ p ∈ s.accepted, p.state.Replayable p.inputs) (n : Nat) (head : U64) :
    ∃ t, rebuild (s.scan n head) ctx.table = .ok t ∧
      applyEpochs ctx.table (epochsOf (s.accepted.take (s.scan n head).folds.length)) = .ok t ∧
      (s.log.length ≤ n → t.root = s.core.root ∧ t.accountsRoot = s.core.accountsRoot ∧
        ∀ now, plan ctx s.core (s.scan n head) now ≠ .ok .rebase) := by
  have hboth : s.Good ∧ s.Traced := by
    apply h.invariant
    · exact fun _ hs => ⟨hs.good, hs.traced⟩
    · exact fun _ _ hs hstep => ⟨hs.1.step hstep, hs.2.step hs.1 hstep⟩
  obtain ⟨hgood, htraced⟩ := hboth
  obtain ⟨tree, htree⟩ := hgood.applied hz hc
  have hshown : ((s.scan n head).opens.map OpenRecord.ident).Nodup :=
    hids.sublist (((List.take_sublist n s.log).filterMap _).map _)
  obtain ⟨t, hrun, happlied⟩ := htraced.replays hz hc htree.each hreplay hshown (s.log.take n)
    (List.take_prefix n s.log) (fun _ ho => ho) hshown
  refine ⟨t, hrun, happlied, ?_⟩
  intro hwhole
  have hlength : (s.log.filterMap ChainEvent.fold?).length = s.accepted.length := by
    have hfolds := congrArg List.length hgood.folds
    simpa using hfolds
  rw [List.take_of_length_le hwhole, hlength, List.take_length] at happlied
  have hsame : t = tree := ok_unique happlied htree.applies
  subst hsame
  refine ⟨htree.root.symm, htree.accountsRoot.symm, ?_⟩
  intro now hrebase
  rw [plan] at hrebase
  obtain ⟨state, hstate, hrest⟩ := bind_eq_ok.mp hrebase
  have hsame : state = t := ok_unique hstate hrun
  subst hsame
  rw [if_neg (not_not.mpr htree.root.symm)] at hrest
  obtain ⟨inputs, _, hrest⟩ := bind_eq_ok.mp hrest
  obtain ⟨frames, _, hrest⟩ := bind_eq_ok.mp hrest
  split at hrest <;> cases hrest

end Rebuild

/-! ## One fold replayed -/

section Concrete

attribute [local instance] concretePrimitives

/-- The epoch that folds the unit trade into the empty tree opens its lock. -/
theorem race_locks :
    (fun r => r.map fun x => decide (∀ nb ∈ x.1.inputs.newPositions, nb.locks x.1.inputs.proofNow
      (ownersIn (epochRows TreeState.default x.1.inputs)))) <$>
      planRun raceCtx raceCore (openedHistory [raceOpen]) 100 = .ok (some true) := by
  decide +kernel

/-- The lane of two keepers after the unit trade's open. -/
def raceOpened : Lane raceCtx Bool :=
  { raceGenesis with log := [.termsOpened raceOpen] }

theorem raceOpened_reachable : Reachable Lane.Genesis Lane.Step raceOpened := by
  have hgenesis : Reachable Lane.Genesis Lane.Step raceGenesis :=
    .start ⟨rfl, rfl, rfl, rfl, rfl, rfl, fun _ => rfl⟩
  exact hgenesis.next (Lane.Step.openLock raceOpen)

theorem raceCore_generation : checkGeneration raceCtx raceCore = .ok () := by
  have hvkey : ¬raceCore.vkey ≠ raceCtx.vkey := not_not.mpr rfl
  have htable : ¬raceCtx.tableRoot ≠ raceCore.scenarioRoot := not_not.mpr rfl
  rw [checkGeneration, if_neg hvkey, if_neg htable]
  rfl

/-- The advance a keeper proves from a scan of the open: a replayable fold that the core of
the empty tree accepts. -/
structure Proved.FoldsRace (p : Proved raceCtx) : Prop where
  chain : p.chain = raceCore
  history : p.history = raceOpened.scan raceOpened.log.length 1
  opened : p.publicValues.openedPositionIds = [raceOpen.ident]
  replayable : p.state.Replayable p.inputs
  distinct : NoCollision (p.state.preimages ++ p.post.preimages)
  rootPrev : p.publicValues.roots.rootPrev = raceCore.root
  accountsRootPrev : p.publicValues.roots.accountsRootPrev = raceCore.accountsRoot

theorem exists_foldsRace : ∃ p : Proved raceCtx, p.FoldsRace := by
  have hk : KeccakNonzero := Keccak.positiveKeccak256_ne_zero
  obtain ⟨r, hr, hfacts⟩ := map_eq_ok.mp race_proved
  obtain ⟨⟨planned, out⟩, rfl, hx⟩ := Option.map_eq_some_iff.mp hfacts
  simp only [Prod.mk.injEq, decide_eq_true_eq] at hx
  obtain ⟨hopened, hnodup⟩ := hx
  obtain ⟨_, hr', hlocks⟩ := map_eq_ok.mp race_locks
  rw [ok_unique hr' hr, Option.map_some, Option.some.injEq, decide_eq_true_eq] at hlocks
  obtain ⟨p, rfl, hchain, hhistory, rfl⟩ := exists_proved hr
  have hempty : p.state = TreeState.default := by
    have hrebuild := (plan_next p.planned).1
    rw [hhistory] at hrebuild
    exact ok_unique hrebuild rfl
  obtain ⟨_, _, hcommits⟩ := p.committed hk.on
  refine ⟨p, hchain, hhistory, hopened, ?_, NoCollision.of_nodup hnodup, ?_, ?_⟩
  · constructor
    · intro owner q hq
      rw [hempty] at hq
      exact absurd hq TreeState.not_holds_default
    · rw [hempty]
      exact hlocks
    · rintro ⟨owner, q, hq, _⟩
      rw [hempty] at hq
      exact absurd hq TreeState.not_holds_default
  · rw [hcommits, hempty]
    rfl
  · rw [hcommits, hempty]
    rfl

/-- The advance's strings, as those of a lane that accepted it alone. -/
theorem Proved.FoldsRace.strings {p : Proved raceCtx} (h : p.FoldsRace) {s : Lane raceCtx Bool}
    (haccepted : s.accepted = [p]) : NoCollision s.preimages := by
  rw [Lane.preimages, haccepted, List.flatMap_cons, List.flatMap_nil, List.append_nil]
  exact h.distinct

/-- A lane that has only seen the open accepts the advance. -/
theorem Proved.FoldsRace.accepts {p : Proved raceCtx} (h : p.FoldsRace) {s : Lane raceCtx Bool}
    (hcore : s.core = raceCore) (hlog : s.log = raceOpened.log) (hconsumed : s.consumed = []) :
    s.Accepts p.publicValues := by
  constructor
  · rw [hcore]
    exact h.rootPrev
  · rw [hcore]
    exact h.accountsRootPrev
  · intro i hi
    rw [h.opened, List.mem_singleton] at hi
    refine ⟨raceOpen, ?_, hi.symm⟩
    rw [hlog]
    exact List.mem_cons_self
  · intro i _ hused
    rw [hconsumed] at hused
    cases hused

/-- The unit trade lands: a scan of its open alone rebuilds the empty tree, and one that shows
the fold too the tree of the core. -/
theorem rebuild_of_lane_open :
    ∃ (s : Lane raceCtx Bool) (p : Proved raceCtx), Reachable Lane.Genesis Lane.Step s ∧
      s.accepted = [p] ∧ p.publicValues.openedPositionIds = [raceOpen.ident] ∧
      rebuild (s.scan 1 1) flatTable = .ok TreeState.default ∧
      ∃ t, rebuild (s.scan 2 1) flatTable = .ok t ∧ t.root = s.core.root := by
  have hk : KeccakNonzero := Keccak.positiveKeccak256_ne_zero
  obtain ⟨p, hp⟩ := exists_foldsRace
  have hsent := reachable_sent (k := false) raceOpened_reachable rfl p hp.chain hp.history
    raceCore_generation
  have hlanded := hsent.next (Lane.Step.land p 2 List.mem_cons_self (hp.accepts rfl rfl rfl))
  have hall : ∀ q ∈ [p], q.state.Replayable q.inputs := by
    simpa using hp.replayable
  refine ⟨_, p, hlanded, rfl, hp.opened, ?_, ?_⟩
  · obtain ⟨t, hrun, happlied, _⟩ := rebuild_of_lane hlanded hk.on (hp.strings rfl)
      (List.nodup_singleton _) hall 1 1
    rw [ok_unique (show _ = Except.ok TreeState.default from rfl) happlied]
    exact hrun
  · obtain ⟨t, hrun, _, hwhole⟩ := rebuild_of_lane hlanded hk.on (hp.strings rfl)
      (List.nodup_singleton _) hall 2 1
    exact ⟨t, hrun, (hwhole le_rfl).1⟩

end Concrete

end StateKeeper
