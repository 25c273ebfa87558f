import StateKeeper.Tree.FramesSpec

/-!
# Tree - The predicted advance is the committed one

The host predicts the roots of an advance from its own maps, the guest commits
the roots its witnesses fold to, and a rebuild computes the roots of the tree
the epoch leaves.  The three agree.

Main results:

- Theorem {lit}`predictedRoots_committed`: the roots of the host, the guest and
  the replay.
-/

namespace StateKeeper

open Words Fallible SortedKeys KeyedMap

section Prediction

variable [Primitives]

/-- The post row of a framed account, read off the trees before and after. -/
def postRowOf (prior post : TreeState) (ta : TouchedAccount) : AccountPost where
  aid := ta.stateWitness.key
  owner := ta.account.accountOwner
  positions := post.book ta.stateWitness.key
  vm := post.vm ta.stateWitness.key
  priorLeaf := prior.leafAt ta.stateWitness.key

/-- In a well-formed tree the post row commits the tree's leaf. -/
theorem postRowOf_newLeaf {prior post : TreeState} (hwf : post.WellFormed) (ta : TouchedAccount) :
    (postRowOf prior post ta).newLeaf = post.leafAt ta.stateWitness.key := by
  unfold AccountPost.newLeaf postRowOf TreeState.leafAt TreeState.book TreeState.vm
  cases ha : post.accounts[ta.stateWitness.key]? with
  | none => rfl
  | some a =>
      have hne := hwf.nonempty _ a ha
      simp only [List.isEmpty_iff, hne, if_false]
      rfl

variable {prior : TreeState} {inputs : EpochInputs} {table : ScenarioTable}
  {outcome : EpochOutcome}

/-- The keys of the framed rows are the kept aids. -/
theorem framed_keys (hwf : prior.WellFormed)
    (h : resolveEpoch prior inputs table = .ok outcome) :
    (stagedFor prior outcome).touched.map (fun ta => ta.stateWitness.key) =
      (keptOf prior outcome.post inputs).map Prod.fst := by
  have hemits := (stagedFor_spec hwf h).1
  rw [List.forall₂_map_left_iff] at hemits
  generalize keptOf prior outcome.post inputs = kept at hemits ⊢
  generalize (stagedFor prior outcome).touched = touched at hemits ⊢
  induction hemits with
  | nil => rfl
  | cons hta _ ih =>
      rw [List.map_cons, List.map_cons, ih, hta.stateKey]
      rfl

/-- The framed rows stand in ascending order of their aids. -/
theorem framed_ascending (hwf : prior.WellFormed)
    (h : resolveEpoch prior inputs table = .ok outcome) :
    ((stagedFor prior outcome).touched.map fun ta => ta.stateWitness.key).Pairwise (· < ·) := by
  rw [framed_keys hwf h]
  have hall : ((touchedOf prior inputs).map Prod.fst).Pairwise (· < ·) :=
    List.pairwise_map.mpr (toList_strict _)
  exact hall.sublist (List.filter_sublist.map _)

/-- The guest's fold of the framed rows, over the accounts of the replay. -/
theorem framed_fold (hz : NonzeroOn (stagedPreimages prior outcome)) (hwf : prior.WellFormed)
    (h : resolveEpoch prior inputs table = .ok outcome) :
    (((stagedFor prior outcome).touched.map (postRowOf prior outcome.post)).zip
        (stagedFor prior outcome).touched).foldlM foldRow (prior.root, prior.accountsRoot) =
      .ok (outcome.post.root, outcome.post.accountsRoot) := by
  rcases stagedFor_spec hwf h with ⟨hemits, _, hfold⟩
  refine hfold hz _ ?_
  have hafter := wellFormed_after hwf h
  rw [List.forall₂_map_right_iff]
  refine (List.forall₂_map_left_iff.mpr ((List.forall₂_map_left_iff.mp hemits).imp ?_))
  intro e ta hta
  have hkey : ta.stateWitness.key = e.1 := hta.stateKey
  refine ⟨?_, ?_⟩
  · rw [postRowOf, hkey]
    rfl
  · rw [postRowOf_newLeaf hafter, hkey]
    rfl

/-- A completed transition on the framed rows commits the roots of the tree the epoch
leaves. -/
theorem committed_roots (hz : NonzeroOn (stagedPreimages prior outcome)) (hwf : prior.WellFormed)
    (h : resolveEpoch prior inputs table = .ok outcome) {out : StateTransitionOutputs}
    (hout : stateTransition (framedInputs prior inputs table outcome) = .ok out) :
    out.roots =
      { rootPrev := prior.root
        rootNew := outcome.post.root
        accountsRootPrev := prior.accountsRoot
        accountsRootNew := outcome.post.accountsRoot } := by
  rcases (stateTransition_plain_iff ⟨rfl, rfl, rfl⟩).mp hout with
    ⟨scenarioRoot, bound, results, requirements, roots, hst, rfl⟩
  have hresolved := hst.resolved
  change ((rowsAfter inputs.proofNow _ inputs.newPositions).zip _).mapM _ = _ at hresolved
  rw [framed_pairs hwf h hst.bound, markingEpoch_framed hwf h] at hresolved
  have hposts := framed_posts hwf h hresolved
  have hroots := ok_unique hst.folded ((stagedFor_spec hwf h).2.2 hz _ hposts)
  change roots = _ at hroots
  subst hroots
  rfl

/-- The host's prediction, the guest's commitment and the replay's tree agree.  Whenever
the frames are built: the predicted roots are those of the tree the epoch leaves; every
witness is accepted at its turn, in ascending order, by the guest's fold over that tree's
accounts; a dropped account is absent before and after, and each framed account resolves
to what it has in that tree; and a completed transition commits exactly the predicted
roots. -/
theorem predictedRoots_committed (hk : KeccakNonzero) (hwf : prior.WellFormed)
    {chainAccountsRoot : Bytes32} {frames : AdvanceFrames} {inp : StateTransitionInputs}
    (hbuild : buildAdvanceFrames prior inputs table chainAccountsRoot = .ok frames)
    (hread : readFrames frames.frames = some inp) :
    ∃ outcome, resolveEpoch prior inputs table = .ok outcome ∧
      frames.rootPrev = prior.root ∧ chainAccountsRoot = prior.accountsRoot ∧
      frames.predictedRoot = outcome.post.root ∧
      frames.predictedAccountsRoot = outcome.post.accountsRoot ∧
      (inp.book.touched.map fun ta => ta.stateWitness.key).Pairwise (· < ·) ∧
      ((inp.book.touched.map (postRowOf prior outcome.post)).zip inp.book.touched).foldlM foldRow
          (frames.rootPrev, chainAccountsRoot) =
        .ok (frames.predictedRoot, frames.predictedAccountsRoot) ∧
      (∀ aid, aid ∉ inp.book.touched.map (fun ta => ta.stateWitness.key) →
        prior.accounts[aid]? = none ∧ outcome.post.accounts[aid]? = none) ∧
      (∀ row ∈ rowsAfter inp.proofNow inp.rows inp.newPositions, ∃ r,
        replayRow inputs table inp.markingEpoch row = .ok r ∧
          r.account row.owner = outcome.post.accounts[accountIdSingle row.owner]?) ∧
      ∀ out, stateTransition inp = .ok out →
        out.roots =
          { rootPrev := frames.rootPrev
            rootNew := frames.predictedRoot
            accountsRootPrev := chainAccountsRoot
            accountsRootNew := frames.predictedAccountsRoot } := by
  rcases buildAdvanceFrames_ok hbuild with
    ⟨_, hchain, outcome, hresolve, hframes, hrootPrev, hroot, haccounts⟩
  rw [hread] at hframes
  have hinp : inp = framedInputs prior inputs table outcome := Option.some.inj hframes
  subst hinp
  rcases (stagedFor_spec hwf hresolve).2.1.roots with ⟨hstateRoot, hregistryRoot⟩
  rw [hstateRoot] at hroot
  rw [hregistryRoot] at haccounts
  refine ⟨outcome, hresolve, hrootPrev, hchain, hroot, haccounts,
    framed_ascending hwf hresolve, ?_, ?_, ?_, ?_⟩
  · rw [hrootPrev, hchain, hroot, haccounts]
    exact framed_fold hk.on hwf hresolve
  · intro aid haid
    change aid ∉ (stagedFor prior outcome).touched.map _ at haid
    rw [framed_keys hwf hresolve] at haid
    have hnone : ∀ owner, (aid, owner) ∈ touchedOf prior inputs →
        prior.accounts[aid]? = none ∧ outcome.post.accounts[aid]? = none := by
      intro owner htouched
      by_contra hnot
      apply haid
      refine List.mem_map.mpr ⟨(aid, owner), mem_keptOf.mpr ⟨htouched, ?_⟩, rfl⟩
      by_contra hkept
      simp only [not_or, Bool.not_eq_true, Option.isSome_eq_false_iff, Option.isNone_iff_eq_none]
        at hkept
      exact hnot hkept
    by_cases htouched : aid ∈ (touchedOf prior inputs).map Prod.fst
    · rcases List.mem_map.mp htouched with ⟨⟨aid', owner⟩, he, rfl⟩
      exact hnone owner he
    · refine ⟨?_, post_of_untouched hwf hresolve htouched⟩
      cases ha : prior.accounts[aid]? with
      | none => rfl
      | some a =>
          rcases exists_touched_of_present inputs ha with ⟨owner, he⟩
          exact absurd (List.mem_map_of_mem he) htouched
  · intro row hrow
    change row ∈ rowsAfter inputs.proofNow _ inputs.newPositions at hrow
    rw [rowsAfter_framed hwf hresolve] at hrow
    rcases List.mem_map.mp hrow with ⟨e, he, rfl⟩
    have htouched := (mem_keptOf.mp he).1
    rcases bind_eq_ok.mp (post_of_touched hwf hresolve htouched) with ⟨r, hr, haccount⟩
    refine ⟨r, ?_, ?_⟩
    · rw [markingEpoch_framed hwf hresolve]
      exact hr
    · rw [accountId_of_openedRow hwf htouched]
      exact Except.ok.inj haccount
  · intro out hout
    rw [committed_roots hk.on hwf hresolve hout, hrootPrev, hchain, hroot, haccounts]

end Prediction

/-! ## The advance that opens one trade -/

section Concrete

attribute [local instance] concretePrimitives

/-- The first trade's advance: two parties enter, and the committed roots are those of
the tree with their two seats. -/
theorem predictedRoots_committed_unit_open :
    ∃ frames inp out,
      buildAdvanceFrames TreeState.default (singleOpenEpoch 200) flatTable 0 = .ok frames ∧
      readFrames frames.frames = some inp ∧ stateTransition inp = .ok out ∧
      inp.book.touched.length = 2 ∧
      out.roots = ⟨0, unitTree.root, 0, unitTree.accountsRoot⟩ := by
  have hrun : (fun r => r.2.1.book.touched.length) <$>
      advanceRun TreeState.default (singleOpenEpoch 200) flatTable 0 = .ok 2 := by
    decide +kernel
  rcases map_eq_ok.mp hrun with ⟨⟨frames, inp, out⟩, hr, hlength⟩
  rcases advanceRun_ok hr with ⟨hbuild, hread, hout⟩
  have hk : KeccakNonzero := Keccak.positiveKeccak256_ne_zero
  rcases predictedRoots_committed hk TreeState.default_wellFormed hbuild hread with
    ⟨outcome, hresolve, hprev, _, hroot, haccounts, _, _, _, _, hcommits⟩
  have hpost : outcome.post = unitTree := by
    rw [unitTree, treeAfter, hresolve]
  refine ⟨frames, inp, out, hbuild, hread, hout, hlength, ?_⟩
  rw [hcommits out hout, hprev, hroot, haccounts, hpost]
  rfl

end Concrete

end StateKeeper
