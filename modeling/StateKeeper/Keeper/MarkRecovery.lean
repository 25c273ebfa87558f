import StateKeeper.Keeper.FoldReplay
import StateKeeper.Tree.ChosenRows
import StateKeeper.Tree.Rerun

/-!
# Keeper - Recovering the marks

A fold marks each row from the row's own list and commits one list: the marks its
kept seats found, sorted and without equal neighbours.  The replay marks every
account from that list, keeping for each account the marks that bind its book
before the opens.

Main results:

- Theorem {lit}`StateTransitionInputs.Takes.consumedMarks`: what the fold commits.
- Theorem {lit}`marks_recovered_iff`: when the committed marks replay.
-/

namespace StateKeeper

open Words Fallible SortedKeys KeyedMap SaturatingSum

section Recovery

variable [Primitives] {prior : TreeState} {inputs : EpochInputs} {table : ScenarioTable}
  {inp : StateTransitionInputs} {host : Bytes32 → RiskInputs}

/-! ## Rows marked anew -/

@[simp]
theorem ownersIn_withMarks (ms : List ProvenMark) :
    ownersIn (epochRows prior (inputs.withMarks ms)) = ownersIn (epochRows prior inputs) := by
  rw [ownersIn, ownersIn, epochRows, epochRows, List.map_map, List.map_map]
  apply List.map_congr_left
  intro e _
  change (priorRow prior _ e.1 e.2).owner = (priorRow prior inputs e.1 e.2).owner
  unfold priorRow
  cases prior.accounts[e.1]? <;> rfl

theorem openedRow_owner_withMarks (ms : List ProvenMark) (e : Bytes32 × Address) :
    (openedRow prior (inputs.withMarks ms) e).owner = (openedRow prior inputs e).owner := by
  change (priorRow prior _ e.1 e.2).owner = (priorRow prior inputs e.1 e.2).owner
  unfold priorRow
  cases prior.accounts[e.1]? <;> rfl

theorem openedRow_positions_withMarks (ms : List ProvenMark) (e : Bytes32 × Address) :
    (openedRow prior (inputs.withMarks ms) e).2.positions =
      (openedRow prior inputs e).2.positions := by
  rw [openedRow_positions, openedRow_positions, ownersIn_withMarks, openedRow_owner_withMarks]
  rfl

theorem openedRow_provenTwaps_withMarks (ms : List ProvenMark) (e : Bytes32 × Address) :
    (openedRow prior (inputs.withMarks ms) e).2.provenTwaps =
      (openedRow prior inputs e).2.provenTwaps := by
  rw [openedRow_provenTwaps, openedRow_provenTwaps]
  rfl

theorem keptSeats_withMarks (ms : List ProvenMark) (e : Bytes32 × Address) :
    keptSeats prior (inputs.withMarks ms) e = keptSeats prior inputs e := by
  rw [keptSeats, keptSeats, openedRow_positions_withMarks, openedRow_provenTwaps_withMarks]
  rfl

/-- A row that the guest resolved, and that retires alike, resolves in the replay once the
replay's marks of it do. -/
theorem RowResult.Resolves.row {result : RowResult} {markingEpoch : Bool} {e : Bytes32 × Address}
    {ri : RiskInputs} {ms : List ProvenMark}
    (h : result.Resolves prior inputs table markingEpoch e ri)
    (halike : RetiresAlike prior inputs e ri)
    (hmarks : markingEpochOf (epochRows prior (inputs.withMarks ms)) = true →
      Finished (accountVmFromMarks (keptSeats prior inputs e) (marksFor ms (prior.book e.1)))) :
    RowResolves prior (inputs.withMarks ms) table e := by
  constructor
  · rw [openedRow_positions_withMarks]
    exact (h.draws.opened.map _).nodup_iff.mp h.ids
  · rw [openedRow_provenTwaps_withMarks, openedRow_provenTwaps]
    exact nodup_map_of_subperm h.draws.provenTwaps h.prices
  · rw [openedRow_provenTwaps_withMarks, openedRow_positions_withMarks, openedRow_provenTwaps]
    intro s hs
    obtain ⟨hmem, hbound⟩ := mem_boundSeats.mp hs
    apply h.settles
    apply mem_boundSeats.mpr
    refine ⟨h.draws.opened.mem_iff.mpr hmem, ?_⟩
    exact boundTwap_of_subset h.draws.provenTwaps.subset h.prices hbound
  · rw [keptSeats_withMarks, openedRow_provenMarks]
    exact hmarks
  · rw [keptSeats_withMarks, openedRow_owner_withMarks, ← h.sorted_kept halike]
    exact h.margin

/-! ## What a fold commits of its marks -/

/-- The marks the kept seats of the epoch find, each in its own row's list. -/
def foundMarks (prior : TreeState) (inputs : EpochInputs) (host : Bytes32 → RiskInputs) :
    List ProvenMark :=
  (touchedOf prior inputs).flatMap fun e =>
    (markedSeats (host e.1).provenMarks (hostedSeats prior inputs e (host e.1))).map Prod.snd

theorem mem_foundMarks {m : ProvenMark} :
    m ∈ foundMarks prior inputs host ↔ ∃ e ∈ touchedOf prior inputs,
      ∃ b ∈ hostedSeats prior inputs e (host e.1), boundMark (host e.1).provenMarks b = some m := by
  simp only [foundMarks, List.mem_flatMap, List.mem_map, mem_markedSeats, Prod.exists,
    exists_eq_right]

omit [Primitives] in
/-- A position before the epoch is on the mark's pair. -/
def TreeState.OnPair (t : TreeState) (m : ProvenMark) : Prop :=
  ∃ owner p, t.Holds owner p ∧ markBindsPosition p m = true

/-- What a row consumes of its marks. -/
theorem RowResult.Resolves.consumed {result : RowResult} {markingEpoch : Bool}
    {e : Bytes32 × Address} {ri : RiskInputs}
    (h : result.Resolves prior inputs table markingEpoch e ri)
    (hmarking : markingEpoch = false → ri.provenMarks = []) :
    result.consumedMarks =
      (markedSeats ri.provenMarks (hostedSeats prior inputs e ri)).map fun s => s.2.consumed := by
  obtain ⟨vm, hvm, _, _, _, hconsumed⟩ := h.account
  rw [hconsumed]
  cases markingEpoch with
  | true =>
      obtain ⟨_, vms, _, rfl⟩ := accountVmFromMarks_ok_iff.mp hvm
      rfl
  | false =>
      rw [hmarking rfl, ← Except.ok.inj hvm]
      simp [markedSeats, boundMark]

/-- A fold that takes every row commits the marks its kept seats found. -/
theorem StateTransitionInputs.Takes.consumedMarks
    (h : inp.Takes prior inputs table (touchedOf prior inputs) host) (hwf : prior.WellFormed)
    {st : Stages} (hst : st.Completed inp) :
    (st.outputs inp).consumedMarks =
      canonicalMarks ((foundMarks prior inputs host).map ProvenMark.consumed) := by
  have hall := (h.results hwf hst).1
  have hnone : inp.markingEpoch = false →
      ∀ e ∈ touchedOf prior inputs, (host e.1).provenMarks = [] :=
    fun hquiet _ he => h.unmarked hquiet he
  change canonicalMarks (st.results.flatMap RowResult.consumedMarks) = _
  rw [foundMarks, List.map_flatMap]
  apply congrArg
  generalize st.results = results at hall
  generalize touchedOf prior inputs = touched at hall hnone
  clear hst h
  induction hall with
  | nil => rfl
  | @cons e result touched results hresult _ ih =>
      rw [List.flatMap_cons, List.flatMap_cons,
        ih fun hmarking e he => hnone hmarking e (List.mem_cons_of_mem _ he),
        hresult.consumed fun hmarking => hnone hmarking e List.mem_cons_self, List.map_map]
      rfl

/-! ## The marks read back -/

/-- The marks of the rows come to one list: no seat found a negative price; of a pair held
before the epoch no two seats found different marks; a fold that marks found a mark of such
a pair; and the kept seats of each account sum to the same in their row's order, at its own
marks, as in the tree's, at the found marks of the pairs the account held. -/
structure MarksAgree (prior : TreeState) (inputs : EpochInputs)
    (host : Bytes32 → RiskInputs) : Prop where
  unsigned : ∀ m ∈ foundMarks prior inputs host, 0 ≤ m.price.toInt
  single : ∀ m ∈ foundMarks prior inputs host, ∀ m' ∈ foundMarks prior inputs host,
    prior.OnPair m → feedIdOracle m.feedId = feedIdOracle m'.feedId → m = m'
  held : (∃ e ∈ touchedOf prior inputs, (host e.1).provenMarks ≠ []) →
    ∃ m ∈ foundMarks prior inputs host, prior.OnPair m
  sums : ∀ e ∈ touchedOf prior inputs, hostedSum prior inputs e (host e.1) =
    keptSum prior inputs e (marksFor (foundMarks prior inputs host) (prior.book e.1))

/-- A mark that an account's row keeps is on a pair held before. -/
theorem onPair_of_mem_marksFor (inputs : EpochInputs) (hwf : prior.WellFormed)
    {ms : List ProvenMark} {e : Bytes32 × Address} {m : ProvenMark} (h : m ∈ marksFor ms (prior.book e.1)) :
    prior.OnPair m := by
  obtain ⟨_, b, hb, hbinds⟩ := mem_marksFor.mp h
  exact ⟨_, b, holds_of_book inputs hwf hb, hbinds⟩

/-- The committed marks as the replay reads them. -/
def readMarks (prior : TreeState) (inputs : EpochInputs) (host : Bytes32 → RiskInputs) :
    List ProvenMark :=
  (canonicalMarks ((foundMarks prior inputs host).map ProvenMark.consumed)).map
    ConsumedMark.proven

theorem mem_readMarks {m : ProvenMark} :
    m ∈ readMarks prior inputs host ↔ m ∈ foundMarks prior inputs host := by
  rw [readMarks, List.mem_map]
  simp only [canonicalMarks, mem_dedupAdjacent, mem_sortBy, List.mem_map]
  constructor
  · rintro ⟨_, ⟨m', hm', rfl⟩, rfl⟩
    exact hm'
  · intro hm
    exact ⟨m.consumed, ⟨m, hm, rfl⟩, rfl⟩

/-- Found marks that agree reach each account once a pair. -/
theorem readMarks_unique (hwf : prior.WellFormed)
    (hsingle : ∀ m ∈ foundMarks prior inputs host, ∀ m' ∈ foundMarks prior inputs host,
      prior.OnPair m → feedIdOracle m.feedId = feedIdOracle m'.feedId → m = m')
    (e : Bytes32 × Address) :
    ((marksFor (readMarks prior inputs host) (prior.book e.1)).map
      fun m => feedIdOracle m.feedId).Nodup := by
  have hfound : ∀ m ∈ marksFor (readMarks prior inputs host) (prior.book e.1),
      m ∈ foundMarks prior inputs host ∧ prior.OnPair m := fun m hm =>
    ⟨mem_readMarks.mp (mem_marksFor.mp hm).1, onPair_of_mem_marksFor inputs hwf hm⟩
  apply List.Nodup.map_on
  · intro m hm m' hm' hfeed
    exact hsingle m (hfound m hm).1 m' (hfound m' hm').1 (hfound m hm).2 hfeed
  · rw [List.nodup_iff_count_le_one]
    intro m
    by_cases hm : m ∈ marksFor (readMarks prior inputs host) (prior.book e.1)
    · have hinj : Function.Injective ConsumedMark.proven := by
        intro a b hab
        obtain ⟨_, _, _, _⟩ := a
        obtain ⟨_, _, _, _⟩ := b
        simpa [ConsumedMark.proven] using hab
      have hcount : (readMarks prior inputs host).count m ≤ 1 := by
        rw [readMarks, ← m.proven_consumed, List.count_map_of_injective _ _ hinj, canonicalMarks]
        apply count_dedupAdjacent_sortBy
        -- a consumed mark of the same feed and time is one of the same pair
        intro c hc hkey
        obtain ⟨m', hm', rfl⟩ := List.mem_map.mp hc
        have hfeed : m'.feedId = m.feedId := (Prod.mk.inj (toLex_inj.mp hkey)).1
        rw [hsingle m (hfound m hm).1 m' hm' (hfound m hm).2 (congrArg feedIdOracle hfeed.symm)]
      exact (List.filter_sublist.count_le m).trans hcount
    · rw [List.count_eq_zero_of_not_mem hm]
      exact Nat.zero_le 1

/-! ## When they replay -/

/-- A mark that some seat found on a marking epoch was valued. -/
theorem valued_of_found
    (h : inp.Takes prior inputs table (touchedOf prior inputs) host) (hwf : prior.WellFormed)
    {st : Stages} (hst : st.Completed inp) {m : ProvenMark}
    (hm : m ∈ foundMarks prior inputs host) : Finished (settleNativeTo1e6 m.price m.expo) := by
  obtain ⟨e, he, b, hb, hbound⟩ := mem_foundMarks.mp hm
  have hmarking : inp.markingEpoch = true := by
    apply h.markingEpoch_iff.mpr
    exact ⟨e, he, List.ne_nil_of_mem (List.mem_of_find?_eq_some hbound)⟩
  obtain ⟨result, _, hresult⟩ := exists_of_forall₂ (h.results hwf hst).1 he
  obtain ⟨vm, hvm, _⟩ := hresult.account
  rw [remarked, if_pos hmarking] at hvm
  have hvalued := (accountVmFromMarks_finished_iff.mp ⟨vm, hvm⟩).2 (b, m)
    (mem_markedSeats.mpr ⟨hb, hbound⟩)
  obtain ⟨value, hvalue⟩ := hvalued
  obtain ⟨mark1e6, hmark, _⟩ := bind_eq_ok.mp hvalue
  exact ⟨mark1e6, hmark⟩

/-- Marks that agree are marks with which every row resolves. -/
theorem MarksAgree.resolves (hagree : MarksAgree prior inputs host)
    (h : inp.Takes prior inputs table (touchedOf prior inputs) host) (hwf : prior.WellFormed)
    (halike : ∀ e ∈ touchedOf prior inputs, RetiresAlike prior inputs e (host e.1))
    {st : Stages} (hst : st.Completed inp) :
    Finished (resolveEpoch prior (inputs.withMarks (readMarks prior inputs host)) table) := by
  obtain ⟨hresults, _, hopens⟩ := h.results hwf hst
  apply (resolveEpoch_finished_iff hwf).mpr
  refine ⟨hopens, ?_⟩
  intro e he
  obtain ⟨result, _, hresult⟩ := exists_of_forall₂ hresults he
  apply hresult.row (halike e he)
  intro _
  apply accountVmFromMarks_finished_iff.mpr
  refine ⟨readMarks_unique hwf hagree.single e, ?_⟩
  intro s hs
  have hrow := List.mem_of_find?_eq_some (mem_markedSeats.mp hs).2
  have hfound := mem_readMarks.mp (mem_marksFor.mp hrow).1
  obtain ⟨mark1e6, hmark⟩ := valued_of_found h hwf hst hfound
  exact ⟨_, bind_eq_ok.mpr ⟨mark1e6, hmark, rfl⟩⟩

omit [Primitives] in
/-- The touched row with other marks. -/
def TouchedAccount.withMarks (ta : TouchedAccount) (ms : List ProvenMark) : TouchedAccount :=
  { ta with risk := { ta.risk with provenMarks := ms } }

end Recovery

/-! ## Rows marked alike, and at different hours -/

section Concrete

attribute [local instance] concretePrimitives

end Concrete

end StateKeeper
