import StateKeeper.Engine.CompletenessSpec
import StateKeeper.Tree.Invariant
import StateKeeper.Tree.Staging

/-!
# Tree - What the framed rows do in the guest

The framed rows are the touched accounts that are not absent before and after.
An account dropped from the frames had every open of its party rejected, so the
guest's pre-pass and marking flag are those of the replay, and the rows fold to
the replay's own tree.

Main results:

- Theorem {lit}`buildAdvanceFrames_ok`: what built frames carry.
- Theorem {lit}`stagedFor_spec`: the emitted rows and the guest's fold of them.
- Theorem {lit}`rowsAfter_framed`: the guest's pre-pass on the framed rows.
- Theorem {lit}`framed_posts`: the guest's post rows are the replay's accounts.
-/

namespace StateKeeper

open Words Fallible SortedKeys KeyedMap

section Leaves

variable [Primitives]

/-! ## The tree's two maps -/

/-- The committed leaf at an aid. -/
def TreeState.leafAt (t : TreeState) (aid : Bytes32) : Option Bytes32 :=
  t.accounts[aid]?.map fun a => a.leaf aid

/-- The registry over a list of keys. -/
def registryOf (keys : List Bytes32) : Smt2 :=
  keys.foldl (fun t k => t.insert k registryLeaf) Smt2.new

theorem TreeState.leaves_keys (t : TreeState) : t.leaves.map Prod.fst = t.accounts.keys := by
  rw [TreeState.leaves, List.map_map, ← Std.ExtTreeMap.map_fst_toList_eq_keys]
  rfl

theorem TreeState.leaves_nodup (t : TreeState) : (t.leaves.map Prod.fst).Nodup := by
  rw [t.leaves_keys]
  exact (keys_strict t.accounts).imp fun h => ne_of_lt h

theorem TreeState.leafAt_isSome (t : TreeState) (aid : Bytes32) :
    (t.leafAt aid).isSome ↔ aid ∈ t.leaves.map Prod.fst := by
  rw [t.leaves_keys, Std.ExtTreeMap.mem_keys, Std.ExtTreeMap.mem_iff_isSome_getElem?,
    TreeState.leafAt, Option.isSome_map]

/-- The state map holds each account's leaf. -/
theorem TreeState.get_leaves (t : TreeState) (aid : Bytes32) :
    (Smt2.fromLeaves t.leaves).get aid = t.leafAt aid := by
  cases ha : t.accounts[aid]? with
  | some a =>
      rw [TreeState.leafAt, ha]
      refine Smt2.get_fromLeaves_of_mem t.leaves_nodup ?_
      exact List.mem_map.mpr ⟨(aid, a), mem_toList.mpr ha, rfl⟩
  | none =>
      have habsent : aid ∉ t.leaves.map Prod.fst := by
        rw [← t.leafAt_isSome, TreeState.leafAt, ha]
        simp
      rw [TreeState.leafAt, ha]
      exact Smt2.get_fromLeaves_of_notMem habsent

/-- The registry map holds the member leaf of each present aid. -/
theorem TreeState.get_registry (t : TreeState) (aid : Bytes32) :
    (registryOf t.accounts.keys).get aid = memberLeaf (t.leafAt aid) := by
  have hentries : registryOf t.accounts.keys =
      Smt2.fromLeaves (t.accounts.keys.map fun k => (k, registryLeaf)) := by
    rw [registryOf, Smt2.fromLeaves, List.foldl_map]
  have hkeys : (t.accounts.keys.map fun k => (k, registryLeaf)).map Prod.fst =
      t.accounts.keys := by
    rw [List.map_map]
    exact List.map_id _
  have hpresent := t.leafAt_isSome aid
  rw [t.leaves_keys] at hpresent
  rw [hentries]
  cases hleaf : t.leafAt aid with
  | some v =>
      refine Smt2.get_fromLeaves_of_mem ?_ ?_
      · rw [hkeys, ← t.leaves_keys]
        exact t.leaves_nodup
      · have hmem : aid ∈ t.accounts.keys := hpresent.mp (by rw [hleaf]; rfl)
        exact List.mem_map.mpr ⟨aid, hmem, rfl⟩
  | none =>
      refine Smt2.get_fromLeaves_of_notMem ?_
      rw [hkeys, ← hpresent, hleaf]
      simp

/-- The trees the staging starts from. -/
def TreeState.staging (t : TreeState) : Staging where
  smt := Smt2.fromLeaves t.leaves
  registry := registryOf (t.leaves.map Prod.fst)
  touched := []

theorem TreeState.staging_at (t : TreeState) : t.staging.At t.leafAt where
  state := t.get_leaves
  registry k := by
    rw [TreeState.staging, t.leaves_keys]
    exact t.get_registry k

theorem TreeState.accountsRoot_eq (t : TreeState) :
    t.accountsRoot = (registryOf (t.leaves.map Prod.fst)).root := by
  rw [t.leaves_keys]
  rfl

/-- Trees staged to a tree's leaves have that tree's roots. -/
theorem Staging.At.roots {s : Staging} {t : TreeState} (hs : s.At t.leafAt) :
    s.smt.root = t.root ∧ s.registry.root = t.accountsRoot := by
  have hstate : s.smt = Smt2.fromLeaves t.leaves :=
    Smt2.ext_get fun k => (hs.state k).trans (t.get_leaves k).symm
  have hregistry : s.registry = registryOf t.accounts.keys :=
    Smt2.ext_get fun k => (hs.registry k).trans (t.get_registry k).symm
  rw [hstate, hregistry]
  exact ⟨rfl, rfl⟩

/-! ## The entries of an epoch -/

/-- A touched account as an entry: its leaves before and after the epoch. -/
def entryOf (prior post : TreeState) (inputs : EpochInputs) (e : Bytes32 × Address) : Entry where
  aid := e.1
  prior := prior.leafAt e.1
  new := post.leafAt e.1
  row := priorRow prior inputs e.1 e.2

/-- The touched accounts that the frames keep. -/
def keptOf (prior post : TreeState) (inputs : EpochInputs) : List (Bytes32 × Address) :=
  (touchedOf prior inputs).filter fun e => (entryOf prior post inputs e).kept

variable {prior : TreeState} {inputs : EpochInputs} {table : ScenarioTable}
  {outcome : EpochOutcome}

theorem resolveEpoch_priorRows (hwf : prior.WellFormed)
    (h : resolveEpoch prior inputs table = .ok outcome) :
    outcome.priorRows = epochRows prior inputs := by
  obtain ⟨_, _, _, _, rfl⟩ := (resolveEpoch_ok_iff hwf).mp h
  rfl

/-- The replay's steps and prior rows are the entries, in order. -/
theorem steps_zip_rows (hwf : prior.WellFormed)
    (h : resolveEpoch prior inputs table = .ok outcome) :
    outcome.steps.zip outcome.priorRows =
      ((touchedOf prior inputs).map (entryOf prior outcome.post inputs)).map Entry.staged := by
  have hposts := mapM_eq_map fun e he => post_of_touched hwf h he
  rcases (resolveEpoch_ok_iff hwf).mp h with ⟨_, _, accounts, haccounts, houtcome⟩
  have heq := ok_unique haccounts hposts
  have hsteps : outcome.steps =
      (((touchedOf prior inputs).map Prod.fst).zip accounts).map stepOf := by
    conv_lhs => rw [houtcome]
  have hrows := resolveEpoch_priorRows hwf h
  have hepoch : epochRows prior inputs =
      (touchedOf prior inputs).map fun e => priorRow prior inputs e.1 e.2 := rfl
  rw [hsteps, hrows, heq, hepoch, List.zip_map', List.map_map, List.zip_map', List.map_map]
  rfl

/-! ## The frames -/

/-- The trees and rows staged for an epoch. -/
def stagedFor (prior : TreeState) (outcome : EpochOutcome) : Staging :=
  (outcome.steps.zip outcome.priorRows).foldl (stageAccount (prior.leaves.map Prod.fst))
    prior.staging

/-- The strings hashed for the trees that an epoch is staged on. -/
def stagedPreimages (prior : TreeState) (outcome : EpochOutcome) : List Bytes :=
  stagingPreimages (prior.leaves.map Prod.fst) prior.staging (outcome.steps.zip outcome.priorRows)

/-- What the guest reads from the frames. -/
def framedInputs (prior : TreeState) (inputs : EpochInputs) (table : ScenarioTable)
    (outcome : EpochOutcome) : StateTransitionInputs where
  book :=
    { rootPrev := prior.root
      accountsRootPrev := prior.accountsRoot
      touched := (stagedFor prior outcome).touched }
  marks := []
  pausedPairs := inputs.pausedPairs
  novations := []
  newPositions := inputs.newPositions
  novationWitnesses := []
  closeoutNovations := []
  closeoutNovationWitnesses := []
  proofNow := inputs.proofNow
  domainSeparator := inputs.domainSeparator
  scenarioTable := table
  unwinds := []
  unwindWitnesses := []

/-- Built frames carry the resolved epoch, and predict its staged roots. -/
theorem buildAdvanceFrames_ok {chainAccountsRoot : Bytes32} {frames : AdvanceFrames}
    (h : buildAdvanceFrames prior inputs table chainAccountsRoot = .ok frames) :
    (∃ root, table.scenarioRoot = .ok root) ∧ chainAccountsRoot = prior.accountsRoot ∧
      ∃ outcome, resolveEpoch prior inputs table = .ok outcome ∧
        readFrames frames.frames = some (framedInputs prior inputs table outcome) ∧
        frames.rootPrev = prior.root ∧
        frames.predictedRoot = (stagedFor prior outcome).smt.root ∧
        frames.predictedAccountsRoot = (stagedFor prior outcome).registry.root := by
  unfold buildAdvanceFrames at h
  rcases bind_eq_ok.mp h with ⟨root, hroot, h⟩
  rcases bind_eq_ok.mp h with ⟨outcome, houtcome, h⟩
  dsimp only at h
  split at h
  · cases h
  · rename_i hdrift
    have hchain := (prior.accountsRoot_eq.trans (not_not.mp hdrift)).symm
    subst hchain
    cases h
    exact ⟨⟨root, hroot⟩, rfl, outcome, houtcome, rfl, rfl, rfl, rfl⟩

/-! ## The framed rows -/

/-- The entries of an epoch start from the prior tree's leaves, each at its own key. -/
theorem entries_of_prior (prior post : TreeState) (inputs : EpochInputs) :
    (∀ e ∈ (touchedOf prior inputs).map (entryOf prior post inputs),
      prior.leafAt e.aid = e.prior ∧
        (e.prior.isSome ↔ e.aid ∈ prior.leaves.map Prod.fst)) ∧
    (((touchedOf prior inputs).map (entryOf prior post inputs)).map Entry.aid).Nodup := by
  constructor
  · intro e he
    rcases List.mem_map.mp he with ⟨x, _, rfl⟩
    exact ⟨rfl, prior.leafAt_isSome x.1⟩
  · rw [List.map_map]
    exact touchedOf_keys_nodup prior inputs

/-- Both trees are staged to the leaves of the tree the epoch leaves. -/
theorem stagedFor_at (hwf : prior.WellFormed)
    (h : resolveEpoch prior inputs table = .ok outcome) :
    (stagedFor prior outcome).At outcome.post.leafAt := by
  rcases entries_of_prior prior outcome.post inputs with ⟨hentries, hnodup⟩
  have hat := prior.staging_at.stageAll (fun e he => (hentries e he).1)
    (fun e he => (hentries e he).2) hnodup
  rw [← steps_zip_rows hwf h] at hat
  -- a key outside the touched set is absent before and after
  have hafter : leafAfter prior.leafAt
      ((touchedOf prior inputs).map (entryOf prior outcome.post inputs)) = outcome.post.leafAt := by
    funext k
    by_cases hmem : k ∈ (touchedOf prior inputs).map Prod.fst
    · rcases List.mem_map.mp hmem with ⟨x, hx, rfl⟩
      exact leafAfter_of_mem hnodup (List.mem_map_of_mem hx)
    · have hkeys : k ∉ ((touchedOf prior inputs).map (entryOf prior outcome.post inputs)).map
          Entry.aid := by
        rw [List.map_map]
        exact hmem
      rw [leafAfter_of_notMem hkeys, TreeState.leafAt, TreeState.leafAt,
        post_of_untouched hwf h hmem]
      cases ha : prior.accounts[k]? with
      | none => rfl
      | some a =>
          rcases exists_touched_of_present inputs ha with ⟨owner, howner⟩
          exact absurd (List.mem_map_of_mem howner) hmem
  rw [hafter] at hat
  exact hat

/-- Frames are built over a valid table for an epoch that resolves, and predict the roots
of the tree it leaves. -/
theorem buildAdvanceFrames_of_resolve (hwf : prior.WellFormed) {root : Bytes32}
    (htable : table.scenarioRoot = .ok root) (h : resolveEpoch prior inputs table = .ok outcome) :
    ∃ frames, buildAdvanceFrames prior inputs table prior.accountsRoot = .ok frames ∧
      frames.rootPrev = prior.root ∧ frames.predictedRoot = outcome.post.root ∧
      frames.predictedAccountsRoot = outcome.post.accountsRoot := by
  have hbuild : Finished (buildAdvanceFrames prior inputs table prior.accountsRoot) := by
    unfold buildAdvanceFrames
    rw [htable, ok_bind, h, ok_bind]
    dsimp only
    split
    · rename_i hdrift
      exact absurd prior.accountsRoot_eq.symm hdrift
    · exact ⟨_, rfl⟩
  rcases hbuild with ⟨frames, hframes⟩
  rcases buildAdvanceFrames_ok hframes with ⟨_, _, outcome', h', _, hprev, hroot, haccounts⟩
  rw [ok_unique h' h] at hroot haccounts
  rcases (stagedFor_at hwf h).roots with ⟨hstate, hregistry⟩
  exact ⟨frames, hframes, hprev, hroot.trans hstate, haccounts.trans hregistry⟩

/-- The facts of staging an epoch: the emitted rows are the kept accounts', in order,
and they fold from the prior roots to those of the tree after it when none of the staged
trees' strings hashes to the empty root. -/
theorem stagedFor_spec (hwf : prior.WellFormed)
    (h : resolveEpoch prior inputs table = .ok outcome) :
    List.Forall₂ Entry.Emits
      ((keptOf prior outcome.post inputs).map (entryOf prior outcome.post inputs))
      (stagedFor prior outcome).touched ∧
    (stagedFor prior outcome).At outcome.post.leafAt ∧
    (NonzeroOn (stagedPreimages prior outcome) → ∀ posts, List.Forall₂ Entry.FoldsTo
        ((keptOf prior outcome.post inputs).map (entryOf prior outcome.post inputs)) posts →
      (posts.zip (stagedFor prior outcome).touched).foldlM foldRow
        (prior.root, prior.accountsRoot) =
          .ok (outcome.post.root, outcome.post.accountsRoot)) := by
  rcases entries_of_prior prior outcome.post inputs with ⟨hentries, hnodup⟩
  rcases prior.staging_at.run (fun e he => (hentries e he).1)
    (fun e he => (hentries e he).2) hnodup with ⟨rows, htouched, hemits, hfold⟩
  rw [← steps_zip_rows hwf h] at htouched hfold
  have hkept : ((touchedOf prior inputs).map (entryOf prior outcome.post inputs)).filter
      Entry.kept = (keptOf prior outcome.post inputs).map (entryOf prior outcome.post inputs) := by
    rw [List.filter_map]
    rfl
  have hrows : (stagedFor prior outcome).touched = rows := htouched
  have hat := stagedFor_at hwf h
  rw [hkept] at hemits hfold
  rw [hrows]
  refine ⟨hemits, hat, ?_⟩
  intro hz posts hposts
  have hrun := hfold hz posts hposts
  change _ = Except.ok ((stagedFor prior outcome).smt.root, (stagedFor prior outcome).registry.root)
    at hrun
  rw [hat.roots.1, hat.roots.2] at hrun
  have hstart := prior.staging_at.roots
  rw [hstart.1, hstart.2] at hrun
  exact hrun

omit [Primitives] in
theorem rows_of_emits {entries : List Entry} {touched : List TouchedAccount}
    (h : List.Forall₂ Entry.Emits entries touched) :
    touched.map TouchedAccount.row = entries.map Entry.row := by
  induction h with
  | nil => rfl
  | cons hta _ ih =>
      rw [List.map_cons, List.map_cons, ih, TouchedAccount.row, hta.account, hta.risk]

/-- The guest's rows are the kept accounts' prior rows. -/
theorem framed_rows (hwf : prior.WellFormed)
    (h : resolveEpoch prior inputs table = .ok outcome) :
    (framedInputs prior inputs table outcome).rows =
      (keptOf prior outcome.post inputs).map fun e => priorRow prior inputs e.1 e.2 := by
  refine (rows_of_emits (stagedFor_spec hwf h).1).trans ?_
  rw [List.map_map]
  rfl

theorem mem_keptOf {e : Bytes32 × Address} :
    e ∈ keptOf prior outcome.post inputs ↔ e ∈ touchedOf prior inputs ∧
      ((prior.accounts[e.1]?).isSome ∨ (outcome.post.accounts[e.1]?).isSome) := by
  simp [keptOf, Entry.kept, entryOf, TreeState.leafAt]

/-- A touched account that gains a seat is kept. -/
theorem kept_of_newSeats (hwf : prior.WellFormed)
    (h : resolveEpoch prior inputs table = .ok outcome) {e : Bytes32 × Address}
    (he : e ∈ touchedOf prior inputs) {p : PositionRecord}
    (hp : p ∈ newSeats inputs.proofNow (ownersIn (epochRows prior inputs)) inputs.newPositions
      (openedRow prior inputs e).owner) : e ∈ keptOf prior outcome.post inputs := by
  refine mem_keptOf.mpr ⟨he, ?_⟩
  cases ha : prior.accounts[e.1]? with
  | some a => exact .inl rfl
  | none =>
      -- an absent row carries no price, so nothing retires its new seats
      have hbook : prior.book e.1 = [] := by rw [TreeState.book, ha]
      have hkept : p ∈ keptSeats prior inputs e := by
        refine mem_unretired.mpr ⟨?_, ?_⟩
        · rw [openedRow_positions]
          exact List.mem_append_right _ hp
        · rw [openedRow_provenTwaps, hbook]
          simp [retires, boundTwap, twapsFor]
      rcases holds_of_kept hwf h he hkept with ⟨a, hpost, _, _⟩
      rw [accountId_of_openedRow hwf he] at hpost
      rw [hpost]
      exact .inr rfl

/-- A dropped account has no position to resolve. -/
theorem positions_of_dropped (hwf : prior.WellFormed)
    (h : resolveEpoch prior inputs table = .ok outcome) {e : Bytes32 × Address}
    (he : e ∈ touchedOf prior inputs) (hdropped : e ∉ keptOf prior outcome.post inputs) :
    (openedRow prior inputs e).2.positions = [] := by
  rw [openedRow_positions, List.append_eq_nil_iff]
  constructor
  · unfold TreeState.book
    cases ha : prior.accounts[e.1]? with
    | none => rfl
    | some a =>
        have hkept : e ∈ keptOf prior outcome.post inputs := by
          refine mem_keptOf.mpr ⟨he, .inl ?_⟩
          rw [ha]
          rfl
        exact absurd hkept hdropped
  · rw [List.eq_nil_iff_forall_not_mem]
    intro p hp
    exact hdropped (kept_of_newSeats hwf h he hp)

/-- What some touched row with a position does, some kept row does. -/
theorem exists_kept_iff (hwf : prior.WellFormed)
    (h : resolveEpoch prior inputs table = .ok outcome) {P : Row → Prop}
    (hP : ∀ row, P row → row.2.positions ≠ []) :
    (∃ row ∈ (keptOf prior outcome.post inputs).map (openedRow prior inputs), P row) ↔
      ∃ row ∈ (touchedOf prior inputs).map (openedRow prior inputs), P row := by
  constructor
  · intro hrow
    rcases hrow with ⟨row, hrow, hp⟩
    rcases List.mem_map.mp hrow with ⟨e, he, rfl⟩
    exact ⟨_, List.mem_map_of_mem (mem_keptOf.mp he).1, hp⟩
  · intro hrow
    rcases hrow with ⟨row, hrow, hp⟩
    rcases List.mem_map.mp hrow with ⟨e, he, rfl⟩
    by_cases hkept : e ∈ keptOf prior outcome.post inputs
    · exact ⟨_, List.mem_map_of_mem hkept, hp⟩
    · exact absurd (positions_of_dropped hwf h he hkept) (hP _ hp)

/-- The owners of the framed rows. -/
def keptOwners (prior post : TreeState) (inputs : EpochInputs) : List Address :=
  (keptOf prior post inputs).map fun e => (openedRow prior inputs e).owner

/-- An open locks against the framed rows exactly when it locks against all rows. -/
theorem locks_framed (hwf : prior.WellFormed)
    (h : resolveEpoch prior inputs table = .ok outcome) {nb : NewPosition}
    (hnb : nb ∈ inputs.newPositions) :
    nb.locks inputs.proofNow (keptOwners prior outcome.post inputs) ↔
      nb.locks inputs.proofNow (ownersIn (epochRows prior inputs)) := by
  have hsub : ∀ x ∈ keptOwners prior outcome.post inputs,
      x ∈ ownersIn (epochRows prior inputs) := by
    intro x hx
    rcases List.mem_map.mp hx with ⟨e, he, rfl⟩
    have hrow : priorRow prior inputs e.1 e.2 ∈ epochRows prior inputs :=
      List.mem_map_of_mem (mem_keptOf.mp he).1
    exact List.mem_map.mpr ⟨_, hrow, rfl⟩
  constructor
  · intro hlock
    exact ⟨hlock.1, hsub _ hlock.2.1, hsub _ hlock.2.2.1, hlock.2.2.2⟩
  · intro hlock
    refine ⟨hlock.1, ?_, ?_, hlock.2.2.2⟩
    · rcases exists_openedRow hlock.2.1 with ⟨e, he, howner⟩
      have hseat : nb.seatA ∈ newSeats inputs.proofNow (ownersIn (epochRows prior inputs))
          inputs.newPositions (openedRow prior inputs e).owner := by
        rw [howner]
        exact mem_newSeats.mpr ⟨nb, hnb, hlock, .inl ⟨rfl, rfl⟩⟩
      exact List.mem_map.mpr ⟨e, kept_of_newSeats hwf h he hseat, howner⟩
    · rcases exists_openedRow hlock.2.2.1 with ⟨e, he, howner⟩
      have hseat : nb.seatB ∈ newSeats inputs.proofNow (ownersIn (epochRows prior inputs))
          inputs.newPositions (openedRow prior inputs e).owner := by
        rw [howner]
        exact mem_newSeats.mpr ⟨nb, hnb, hlock, .inr ⟨rfl, rfl⟩⟩
      exact List.mem_map.mpr ⟨e, kept_of_newSeats hwf h he hseat, howner⟩

theorem ownersIn_framed (hwf : prior.WellFormed)
    (h : resolveEpoch prior inputs table = .ok outcome) :
    ownersIn (framedInputs prior inputs table outcome).rows =
      keptOwners prior outcome.post inputs := by
  rw [framed_rows hwf h, ownersIn, List.map_map]
  rfl

/-- The guest's pre-pass on the framed rows leaves the replay's rows of the kept accounts. -/
theorem rowsAfter_framed (hwf : prior.WellFormed)
    (h : resolveEpoch prior inputs table = .ok outcome) :
    rowsAfter inputs.proofNow (framedInputs prior inputs table outcome).rows
        inputs.newPositions =
      (keptOf prior outcome.post inputs).map (openedRow prior inputs) := by
  have howners := ownersIn_framed hwf h
  have hnodup : (ownersIn (framedInputs prior inputs table outcome).rows).Nodup := by
    rw [howners]
    have hsub : (keptOwners prior outcome.post inputs).Sublist
        (ownersIn (epochRows prior inputs)) := by
      have hall : ownersIn (epochRows prior inputs) =
          (touchedOf prior inputs).map fun e => (openedRow prior inputs e).owner := by
        rw [ownersIn, epochRows, List.map_map]
        rfl
      rw [hall]
      exact List.filter_sublist.map _
    exact hsub.nodup (ownersIn_epochRows_nodup hwf inputs)
  have hseats : ∀ owner, newSeats inputs.proofNow (keptOwners prior outcome.post inputs)
      inputs.newPositions owner = newSeats inputs.proofNow (ownersIn (epochRows prior inputs))
        inputs.newPositions owner := by
    intro owner
    unfold newSeats
    congr 1
    refine List.filter_congr fun nb hnb => ?_
    exact decide_eq_decide.mpr (locks_framed hwf h hnb)
  rw [rowsAfter_eq_map hnodup, howners, framed_rows hwf h, List.map_map]
  refine List.map_congr_left fun e _ => ?_
  simp only [Function.comp_apply, hseats]
  rfl

/-- The guest's marking flag is the replay's. -/
theorem markingEpoch_framed (hwf : prior.WellFormed)
    (h : resolveEpoch prior inputs table = .ok outcome) :
    (framedInputs prior inputs table outcome).markingEpoch =
      markingEpochOf (epochRows prior inputs) := by
  rw [StateTransitionInputs.markingEpoch, framed_rows hwf h, markingEpochOf, markingEpochOf,
    epochRows, Bool.eq_iff_iff]
  simp only [List.any_map, List.any_eq_true, Function.comp_apply, priorRow_provenMarks]
  constructor
  · intro hmark
    rcases hmark with ⟨e, he, hmarks⟩
    exact ⟨e, (mem_keptOf.mp he).1, hmarks⟩
  · intro hmark
    rcases hmark with ⟨e, he, hmarks⟩
    refine ⟨e, mem_keptOf.mpr ⟨he, .inl ?_⟩, hmarks⟩
    -- an absent row has no book, so no mark binds it
    cases ha : prior.accounts[e.1]? with
    | some a => rfl
    | none => simp [TreeState.book, ha, marksFor] at hmarks

/-! ## The guest's post rows -/

/-- An emitted row is bound to its account's prior leaf. -/
theorem boundLeaf_of_emits (hwf : prior.WellFormed) {e : Bytes32 × Address}
    {ta : TouchedAccount} (hta : (entryOf prior outcome.post inputs e).Emits ta) :
    ta.boundLeaf = prior.leafAt e.1 := by
  have hpresent : ta.present = (prior.leafAt e.1).isSome := hta.present
  have haccount : ta.account = (priorRow prior inputs e.1 e.2).1 := hta.account
  unfold TouchedAccount.boundLeaf
  rw [hpresent, haccount]
  unfold priorRow TreeState.leafAt
  cases ha : prior.accounts[e.1]? with
  | none => rfl
  | some a =>
      simp only [Option.map_some, Option.isSome_some, if_true, AccountState.leaf]
      rw [hwf.key e.1 a ha]

theorem boundLeaves_framed (hwf : prior.WellFormed)
    (h : resolveEpoch prior inputs table = .ok outcome) :
    (stagedFor prior outcome).touched.map TouchedAccount.boundLeaf =
      (keptOf prior outcome.post inputs).map fun e => prior.leafAt e.1 := by
  have hemits := (stagedFor_spec hwf h).1
  rw [List.forall₂_map_left_iff] at hemits
  generalize keptOf prior outcome.post inputs = kept at hemits ⊢
  generalize (stagedFor prior outcome).touched = touched at hemits ⊢
  induction hemits with
  | nil => rfl
  | cons hta _ ih =>
      rw [List.map_cons, List.map_cons, ih, boundLeaf_of_emits hwf hta]

/-- The stages of a row are a replay of that row. -/
theorem RowStages.Completed.replayRow {rs : RowStages} {markingEpoch : Bool} {row : Row}
    (hrs : rs.Completed inputs.pausedPairs table markingEpoch row) :
    StateKeeper.replayRow inputs table markingEpoch row = .ok rs.resolved :=
  replayRow_ok_iff.mpr ⟨rs.settled, rs.vm, hrs.settles, hrs.marks, hrs.resolves⟩

/-- A resolved row's post takes its account to the leaf the replay gives it. -/
theorem newLeaf_eq {rs : RowStages} {markingEpoch : Bool} {row : Row} {leaf : Option Bytes32}
    {holds : List PausedHold}
    (hrs : rs.Completed inputs.pausedPairs table markingEpoch row) :
    (rs.result row leaf holds).post.newLeaf =
      (rs.resolved.account row.owner).map fun a => a.leaf (accountIdSingle row.owner) := by
  have hlive := (resolveAccount_ok_iff.mp hrs.resolves).2.2.2.1
  unfold AccountPost.newLeaf AccountResolve.account
  rw [hlive]
  change (if rs.resolved.surviving.isEmpty then none else some _) = _
  cases rs.resolved.surviving.isEmpty with
  | true => rfl
  | false => rfl

/-- The guest resolves the replay's rows of the kept accounts, bound to their leaves. -/
theorem framed_pairs (hwf : prior.WellFormed)
    (h : resolveEpoch prior inputs table = .ok outcome) {bound : List BoundRow}
    (hbound : bindRows inputs.pausedPairs inputs.proofNow none (stagedFor prior outcome).touched =
      .ok bound) :
    (rowsAfter inputs.proofNow (framedInputs prior inputs table outcome).rows
        inputs.newPositions).zip (bound.map BoundRow.prior) =
      (keptOf prior outcome.post inputs).map fun e =>
        (openedRow prior inputs e, prior.leafAt e.1) := by
  have hpriors : bound.map BoundRow.prior =
      (keptOf prior outcome.post inputs).map fun e => prior.leafAt e.1 := by
    rw [(bindRows_ok_iff.mp hbound).2.2, List.map_map, ← boundLeaves_framed hwf h]
    rfl
  rw [rowsAfter_framed hwf h, hpriors, List.zip_map']

/-- The guest's post rows take the kept accounts from their leaves before to their
leaves after. -/
theorem framed_posts (hwf : prior.WellFormed)
    (h : resolveEpoch prior inputs table = .ok outcome) {results : List RowResult}
    (hresults : ((keptOf prior outcome.post inputs).map fun e =>
      (openedRow prior inputs e, prior.leafAt e.1)).mapM
        (resolveRow (framedInputs prior inputs table outcome)
          (markingEpochOf (epochRows prior inputs))) = .ok results) :
    List.Forall₂ Entry.FoldsTo
      ((keptOf prior outcome.post inputs).map (entryOf prior outcome.post inputs))
      (results.map RowResult.post) := by
  have hplain : (framedInputs prior inputs table outcome).Plain := ⟨rfl, rfl, rfl⟩
  rw [List.mapM_map] at hresults
  have hall := mapM_eq_ok_iff.mp hresults
  rw [List.forall₂_map_left_iff, List.forall₂_map_right_iff]
  have hmem : ∀ e ∈ keptOf prior outcome.post inputs, e ∈ touchedOf prior inputs :=
    fun e he => (mem_keptOf.mp he).1
  clear hresults
  generalize keptOf prior outcome.post inputs = kept at hall hmem ⊢
  induction hall with
  | nil => exact .nil
  | @cons e result rest results' hresult _ ih =>
      refine .cons ?_ (ih fun e' he' => hmem e' (List.mem_cons_of_mem _ he'))
      have he := hmem e List.mem_cons_self
      rcases (resolveRow_plain_iff hplain).mp hresult with ⟨_, _, holds, rs, _, hrs, rfl⟩
      have hreplay : accountAfter prior inputs table e =
          .ok (rs.resolved.account (openedRow prior inputs e).owner) := by
        exact bind_eq_ok.mpr ⟨rs.resolved, hrs.replayRow, rfl⟩
      rw [post_of_touched hwf h he] at hreplay
      refine ⟨rfl, ?_⟩
      rw [newLeaf_eq hrs, ← Except.ok.inj hreplay, accountId_of_openedRow hwf he]
      rfl

end Leaves

end StateKeeper
