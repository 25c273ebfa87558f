import StateKeeper.Engine.CompletenessSpec
import StateKeeper.Tree.AccountSpec

/-!
# Tree - Folds of chosen rows

The replay touches every account of the tree and fills all the rows from one list
of marks and one of prices.  The guest asks for neither: a fold may take only some
of the rows, list each book in any order, carry prices that bind nothing of it, and
mark each row as its host likes.  What the guest makes of a row it accepts is what
the replay makes of the account, as far as the row retires the same seats and gives
them the same value.

Main results:

- Theorem {lit}`StateTransitionInputs.Takes.rowsAfter`: the rows after the opens.
- Theorem {lit}`StateTransitionInputs.Takes.results`: what the guest makes of each row.
- Theorem {lit}`RiskInputs.Draws.kept`: the seats such a row keeps.
-/

namespace StateKeeper

open Words Fallible SortedKeys KeyedMap SaturatingSum

section Chosen

variable [Primitives] {prior : TreeState} {inputs : EpochInputs} {table : ScenarioTable}

/-- What a host may put in an account's row: the account's book in any order, and of the
epoch's settle prices at least those that bind the book.  The marks are the host's own. -/
structure RiskInputs.Draws (ri : RiskInputs) (prior : TreeState) (inputs : EpochInputs)
    (aid : Bytes32) : Prop where
  positions : ri.positions.Perm (prior.book aid)
  provenTwaps : (twapsFor inputs.provenTwaps (prior.book aid)).Subperm ri.provenTwaps

/-- A row claims the account of an aid: its owner and its value, with what the host put up. -/
structure Row.Claims (row : Row) (prior : TreeState) (inputs : EpochInputs)
    (e : Bytes32 × Address) (host : RiskInputs) : Prop where
  owner : row.owner = (priorRow prior inputs e.1 e.2).owner
  vm : row.1.prevVmEquity = prior.vm e.1
  risk : row.2 = host
  draws : host.Draws prior inputs e.1

/-- A plain fold of an epoch that takes chosen rows: some of the accounts the epoch touches,
every open party among them, each as the host put it up. -/
structure StateTransitionInputs.Takes (inp : StateTransitionInputs) (prior : TreeState)
    (inputs : EpochInputs) (table : ScenarioTable) (chosen : List (Bytes32 × Address))
    (host : Bytes32 → RiskInputs) : Prop where
  plain : inp.Plain
  sublist : chosen.Sublist (touchedOf prior inputs)
  parties : ∀ e ∈ touchedOf prior inputs, ∀ nb ∈ inputs.newPositions,
    accountIdSingle nb.partyA = e.1 ∨ accountIdSingle nb.partyB = e.1 → e ∈ chosen
  rows : List.Forall₂ (fun e row => row.Claims prior inputs e (host e.1)) chosen inp.rows
  newPositions : inp.newPositions = inputs.newPositions
  pausedPairs : inp.pausedPairs = inputs.pausedPairs
  proofNow : inp.proofNow = inputs.proofNow
  scenarioTable : inp.scenarioTable = table

/-- The book a host put up, after the opens. -/
def hostedBook (prior : TreeState) (inputs : EpochInputs) (e : Bytes32 × Address)
    (host : RiskInputs) : List PositionRecord :=
  host.positions ++
    newSeats inputs.proofNow (ownersIn (epochRows prior inputs)) inputs.newPositions
      (openedRow prior inputs e).owner

/-- The positions of a host's row that no price of the row retires, in the row's order. -/
def hostedSeats (prior : TreeState) (inputs : EpochInputs) (e : Bytes32 × Address)
    (host : RiskInputs) : List PositionRecord :=
  unretired inputs.pausedPairs host.provenTwaps (hostedBook prior inputs e host)

/-- A claimed row after the opens. -/
structure Row.Opened (row : Row) (prior : TreeState) (inputs : EpochInputs)
    (e : Bytes32 × Address) (host : RiskInputs) : Prop where
  owner : row.owner = (openedRow prior inputs e).owner
  vm : row.1.prevVmEquity = prior.vm e.1
  positions : row.2.positions = hostedBook prior inputs e host
  provenTwaps : row.2.provenTwaps = host.provenTwaps
  provenMarks : row.2.provenMarks = host.provenMarks
  draws : host.Draws prior inputs e.1

variable {inp : StateTransitionInputs} {chosen : List (Bytes32 × Address)}
  {host : Bytes32 → RiskInputs}

theorem StateTransitionInputs.Takes.ownersIn_rows
    (h : inp.Takes prior inputs table chosen host) :
    ownersIn inp.rows = chosen.map fun e => (openedRow prior inputs e).owner := by
  have hrows := h.rows
  generalize inp.rows = rows at hrows ⊢
  clear h
  induction hrows with
  | nil => rfl
  | cons hrow _ ih =>
      rw [ownersIn, List.map_cons, hrow.owner, List.map_cons, ← ih]
      rfl

/-- The fold marks when any chosen row carries a mark. -/
theorem StateTransitionInputs.Takes.markingEpoch_iff
    (h : inp.Takes prior inputs table chosen host) :
    inp.markingEpoch = true ↔ ∃ e ∈ chosen, (host e.1).provenMarks ≠ [] := by
  have hrows := h.rows
  rw [StateTransitionInputs.markingEpoch]
  generalize inp.rows = rows at hrows
  clear h
  induction hrows with
  | nil => simp [markingEpochOf]
  | @cons e row _ _ hrow _ ih =>
      rw [markingEpochOf, List.any_cons, Bool.or_eq_true, hrow.risk, List.exists_mem_cons_iff]
      apply or_congr _ ih
      simp

/-- No row of a fold that does not mark carries a mark. -/
theorem StateTransitionInputs.Takes.unmarked (h : inp.Takes prior inputs table chosen host)
    (hquiet : inp.markingEpoch = false) {e : Bytes32 × Address} (he : e ∈ chosen) :
    (host e.1).provenMarks = [] := by
  by_contra hne
  rw [h.markingEpoch_iff.mpr ⟨e, he, hne⟩] at hquiet
  cases hquiet

/-- An open locks against the chosen rows exactly when it locks against all. -/
theorem StateTransitionInputs.Takes.locks_iff (h : inp.Takes prior inputs table chosen host)
    (hwf : prior.WellFormed) {nb : NewPosition} (hnb : nb ∈ inputs.newPositions) :
    nb.locks inputs.proofNow (ownersIn inp.rows) ↔
      nb.locks inputs.proofNow (ownersIn (epochRows prior inputs)) := by
  have hsub : ∀ x ∈ ownersIn inp.rows, x ∈ ownersIn (epochRows prior inputs) := by
    intro x hx
    rw [h.ownersIn_rows] at hx
    obtain ⟨e, he, rfl⟩ := List.mem_map.mp hx
    have hrow : priorRow prior inputs e.1 e.2 ∈ epochRows prior inputs :=
      List.mem_map_of_mem (h.sublist.subset he)
    exact List.mem_map.mpr ⟨_, hrow, rfl⟩
  have hparty : ∀ x ∈ ownersIn (epochRows prior inputs), nb.partyA = x ∨ nb.partyB = x →
      x ∈ ownersIn inp.rows := by
    intro x hx hopens
    obtain ⟨e, he, rfl⟩ := exists_openedRow hx
    have haid := accountId_of_openedRow hwf he
    have hchosen : e ∈ chosen := by
      apply h.parties e he nb hnb
      rw [← haid]
      exact hopens.imp (congrArg _) (congrArg _)
    rw [h.ownersIn_rows]
    exact List.mem_map_of_mem hchosen
  constructor
  · intro hlock
    exact ⟨hlock.1, hsub _ hlock.2.1, hsub _ hlock.2.2.1, hlock.2.2.2⟩
  · intro hlock
    refine ⟨hlock.1, ?_, ?_, hlock.2.2.2⟩
    · exact hparty _ hlock.2.1 (.inl rfl)
    · exact hparty _ hlock.2.2.1 (.inr rfl)

/-- The guest's pre-pass gives each chosen row the seats the replay gives its account. -/
theorem StateTransitionInputs.Takes.rowsAfter (h : inp.Takes prior inputs table chosen host)
    (hwf : prior.WellFormed) :
    List.Forall₂ (fun e row => row.Opened prior inputs e (host e.1)) chosen
      (rowsAfter inp.proofNow inp.rows inp.newPositions) := by
  have hnodup : (ownersIn inp.rows).Nodup := by
    rw [h.ownersIn_rows]
    have hall : ownersIn (epochRows prior inputs) =
        (touchedOf prior inputs).map fun e => (openedRow prior inputs e).owner := by
      rw [ownersIn, epochRows, List.map_map]
      rfl
    apply List.Nodup.sublist (h.sublist.map _)
    rw [← hall]
    exact ownersIn_epochRows_nodup hwf inputs
  have hseats : ∀ owner, newSeats inputs.proofNow (ownersIn inp.rows) inputs.newPositions owner =
      newSeats inputs.proofNow (ownersIn (epochRows prior inputs)) inputs.newPositions owner := by
    intro owner
    unfold newSeats
    congr 1
    apply List.filter_congr
    intro nb hnb
    exact decide_eq_decide.mpr (h.locks_iff hwf hnb)
  rw [rowsAfter_eq_map hnodup, h.proofNow, h.newPositions, List.forall₂_map_right_iff]
  apply h.rows.imp
  intro e row hrow
  constructor
  · rw [Row.append_owner]
    exact hrow.owner
  · rw [Row.append_fst]
    exact hrow.vm
  · rw [Row.append_positions, hrow.risk, hseats, hrow.owner]
    rfl
  · rw [Row.append_provenTwaps, hrow.risk]
  · rw [Row.append_provenMarks, hrow.risk]
  · exact hrow.draws

omit [Primitives] in
theorem mem_marksFor {ms : List ProvenMark} {positions : List PositionRecord} {m : ProvenMark} :
    m ∈ marksFor ms positions ↔ m ∈ ms ∧ ∃ b ∈ positions, markBindsPosition b m = true := by
  rw [marksFor, List.mem_filter, List.any_eq_true]

/-! ## What the guest makes of a row -/

/-- The VM a row leaves and the marks it consumes: re-marked on a marking epoch, carried
otherwise. -/
def remarked (prior : TreeState) (inputs : EpochInputs) (markingEpoch : Bool)
    (e : Bytes32 × Address) (host : RiskInputs) : Run (I128 × List ConsumedMark) :=
  if markingEpoch then accountVmFromMarks (hostedSeats prior inputs e host) host.provenMarks
  else pure (prior.vm e.1, [])

/-- The row passed the engine's checks, and left its account: the kept seats in canonical
order, re-marked. -/
structure RowResult.Resolves (result : RowResult) (prior : TreeState) (inputs : EpochInputs)
    (table : ScenarioTable) (markingEpoch : Bool) (e : Bytes32 × Address) (host : RiskInputs) :
    Prop where
  draws : host.Draws prior inputs e.1
  ids : ((hostedBook prior inputs e host).map PositionRecord.termsId).Nodup
  prices : (host.provenTwaps.map ProvenTwap.bindingKey).Nodup
  settles : ∀ s ∈ boundSeats host.provenTwaps (hostedBook prior inputs e host),
    Finished (settleSeat s)
  margin : Finished (imRequirementsFor (openedRow prior inputs e).owner
    (sortBy PositionRecord.termsId (hostedSeats prior inputs e host)) table)
  aid : result.post.aid = accountIdSingle (openedRow prior inputs e).owner
  account : ∃ vm, remarked prior inputs markingEpoch e host = .ok vm ∧
    result.post.owner = (openedRow prior inputs e).owner ∧
    result.post.positions =
      sortBy PositionRecord.termsId (hostedSeats prior inputs e host) ∧
    result.post.vm = (if hostedSeats prior inputs e host = [] then 0 else vm.1) ∧
    result.consumedMarks = vm.2

theorem resolves_of_completed {row : Row} {e : Bytes32 × Address} {ri : RiskInputs}
    (hrow : row.Opened prior inputs e ri) {markingEpoch : Bool} {rs : RowStages}
    (hrs : rs.Completed inputs.pausedPairs table markingEpoch row) {leaf : Option Bytes32}
    {holds : List PausedHold} :
    (rs.result row leaf holds).Resolves prior inputs table markingEpoch e ri := by
  obtain ⟨hsettles, hmarks, hresolves⟩ := hrs
  rw [hrow.positions, hrow.provenTwaps] at hsettles
  rw [hrow.positions, hrow.provenMarks] at hmarks
  rw [hrow.positions] at hresolves
  obtain ⟨hprices, hss, _⟩ := positionSettlements_ok_iff.mp hsettles
  obtain ⟨hids, hmargin, hsurviving, hlive, hvm, _⟩ := resolveAccount_ok_iff.mp hresolves
  rw [survivorsForVm_eq hids hss] at hmarks
  rw [survivingOf_eq hids hss] at hmargin hsurviving
  have howner : row.1.accountOwner = (openedRow prior inputs e).owner := hrow.owner
  rw [howner] at hmargin
  refine ⟨hrow.draws, hids, hprices, ?_, ⟨_, hmargin⟩, congrArg accountIdSingle howner, rs.vm, ?_,
    howner, hsurviving, ?_, rfl⟩
  · intro s hs
    obtain ⟨settlement, _, hsettlement⟩ := exists_of_mapM hss hs
    exact ⟨settlement, hsettlement⟩
  · unfold newVmOf at hmarks
    rw [hrow.vm] at hmarks
    exact hmarks
  · have hempty : rs.resolved.surviving.isEmpty = true ↔ hostedSeats prior inputs e ri = [] := by
      rw [hsurviving, List.isEmpty_iff, sortBy_eq_nil]
      rfl
    change rs.resolved.vmEquity = _
    rw [hvm, hlive]
    by_cases hnone : hostedSeats prior inputs e ri = []
    · simp [hempty.mpr hnone, hnone]
    · simp [Bool.eq_false_iff.mpr (hempty.not.mpr hnone), hnone]

/-- What the guest makes of each chosen row. -/
theorem StateTransitionInputs.Takes.results (h : inp.Takes prior inputs table chosen host)
    (hwf : prior.WellFormed) {st : Stages} (hst : st.Completed inp) :
    List.Forall₂ (fun e (result : RowResult) =>
        result.Resolves prior inputs table inp.markingEpoch e (host e.1)) chosen st.results ∧
      st.closed.posts = st.results.map RowResult.post ∧
      ∀ nb ∈ inputs.newPositions, assertNewPositionBound nb = .ok () := by
  have hrows := h.rowsAfter hwf
  have hlength : chosen.length = (st.bound.map BoundRow.prior).length := by
    rw [(bindRows_ok_iff.mp hst.bound).2.2, List.map_map, List.length_map, h.rows.length_eq]
    exact List.length_map _
  have hopens := (applyNewBoxesToBook_ok_iff.mp hst.opened).1
  rw [h.newPositions] at hopens
  refine ⟨?_, ?_, hopens⟩
  · have hall := mapM_eq_ok_iff.mp hst.resolved
    rw [hst.opens_eq.1] at hall
    have hplain := h.plain
    have hpaused := h.pausedPairs
    have htable := h.scenarioTable
    clear hst hopens h
    generalize st.bound.map BoundRow.prior = leaves at hlength hall
    generalize StateKeeper.rowsAfter inp.proofNow inp.rows inp.newPositions = rows at hrows hall
    generalize st.results = results at hall ⊢
    induction hrows generalizing leaves results with
    | nil =>
        cases hall
        exact .nil
    | cons hrow _ ih =>
        cases leaves with
        | nil => cases hlength
        | cons leaf leaves =>
            cases hall with
            | cons hresult hrest =>
                apply List.Forall₂.cons
                · obtain ⟨_, _, holds, rs, _, hrs, rfl⟩ :=
                    (resolveRow_plain_iff hplain).mp hresult
                  rw [hpaused, htable] at hrs
                  exact resolves_of_completed hrow hrs
                · exact ih leaves (Nat.succ.inj hlength) _ hrest
  · rw [hst.eq_ofPlain h.plain]
    rfl

/-! ## The seats a row keeps -/

/-- A host's row holds the positions the replay's holds. -/
theorem RiskInputs.Draws.opened {ri : RiskInputs} {e : Bytes32 × Address}
    (h : ri.Draws prior inputs e.1) :
    (hostedBook prior inputs e ri).Perm (openedRow prior inputs e).2.positions := by
  rw [hostedBook, openedRow_positions]
  exact h.positions.append_right _

/-- The row's prices retire no seat but those that the prices binding its book retire. -/
def RetiresAlike (prior : TreeState) (inputs : EpochInputs) (e : Bytes32 × Address)
    (host : RiskInputs) : Prop :=
  ∀ b ∈ (openedRow prior inputs e).2.positions,
    retires inputs.pausedPairs host.provenTwaps b = true →
      retires inputs.pausedPairs (openedRow prior inputs e).2.provenTwaps b = true

/-- The prices that bind a book retire no more than a row that draws them. -/
theorem RiskInputs.Draws.retires {ri : RiskInputs} {e : Bytes32 × Address}
    (h : ri.Draws prior inputs e.1) {b : PositionRecord}
    (hb : retires inputs.pausedPairs (openedRow prior inputs e).2.provenTwaps b = true) :
    retires inputs.pausedPairs ri.provenTwaps b = true := by
  rw [retires_eq_true, openedRow_provenTwaps] at hb
  obtain ⟨hopen, tw, htw, hbinds⟩ := hb
  exact retires_eq_true.mpr ⟨hopen, tw, h.provenTwaps.subset htw, hbinds⟩

/-- A row that retires alike keeps the seats the replay keeps. -/
theorem RiskInputs.Draws.kept {ri : RiskInputs} {e : Bytes32 × Address}
    (h : ri.Draws prior inputs e.1) (halike : RetiresAlike prior inputs e ri) :
    (hostedSeats prior inputs e ri).Perm (keptSeats prior inputs e) := by
  have hsame : keptSeats prior inputs e =
      unretired inputs.pausedPairs ri.provenTwaps (openedRow prior inputs e).2.positions := by
    apply List.filter_congr
    intro b hb
    rw [Bool.not_inj_iff, Bool.eq_iff_iff]
    exact ⟨h.retires, halike b hb⟩
  rw [hsame]
  exact h.opened.filter _

/-- A row that retires alike leaves its seats as the replay orders them. -/
theorem RowResult.Resolves.sorted_kept {result : RowResult} {markingEpoch : Bool}
    {e : Bytes32 × Address} {ri : RiskInputs}
    (h : result.Resolves prior inputs table markingEpoch e ri)
    (halike : RetiresAlike prior inputs e ri) :
    sortBy PositionRecord.termsId (hostedSeats prior inputs e ri) =
      sortBy PositionRecord.termsId (keptSeats prior inputs e) :=
  sortBy_congr_perm (h.ids.sublist (List.filter_sublist.map _)) (h.draws.kept halike)

omit [Primitives] in
/-- A seat finds in a row's prices what it finds among some of them. -/
theorem boundTwap_of_subset {tws tws' : List ProvenTwap} (h : tws ⊆ tws')
    (hunique : (tws'.map ProvenTwap.bindingKey).Nodup) {b : PositionRecord} {tw : ProvenTwap}
    (hbound : boundTwap tws b = some tw) : boundTwap tws' b = some tw := by
  have hkey : ∀ tw, positionTwapBindingOk b tw = true →
      tw.bindingKey = toLex (b.oracle, b.expiry) := by
    intro tw hbinds
    rw [positionTwapBindingOk, Bool.and_eq_true, beq_iff_eq, beq_iff_eq] at hbinds
    rw [ProvenTwap.bindingKey, hbinds.1, hbinds.2]
  exact find?_of_subset hkey hunique h hbound

omit [Primitives] in
/-- Keys that differ over a list differ over what it contains in some order. -/
theorem nodup_map_of_subperm {α κ : Type} {key : α → κ} {xs ys : List α} (h : xs.Subperm ys)
    (hnodup : (ys.map key).Nodup) : (xs.map key).Nodup := by
  obtain ⟨zs, hperm, hsub⟩ := h
  exact (hperm.map key).nodup_iff.mp (hnodup.sublist (hsub.map key))

/-! ## The value of an account -/

/-- The clamped sum of the values of an account's kept seats at some marks. -/
def keptSum (prior : TreeState) (inputs : EpochInputs) (e : Bytes32 × Address)
    (ms : List ProvenMark) : Int :=
  satSum i128Min i128Max 0 (markValues ms (keptSeats prior inputs e))

/-- The clamped sum of the values of a host's row: its own order, its own marks. -/
def hostedSum (prior : TreeState) (inputs : EpochInputs) (e : Bytes32 × Address)
    (host : RiskInputs) : Int :=
  satSum i128Min i128Max 0 (markValues host.provenMarks (hostedSeats prior inputs e host))

/-- The VM the guest leaves an account with. -/
theorem RowResult.Resolves.vm {result : RowResult} {markingEpoch : Bool}
    {e : Bytes32 × Address} {ri : RiskInputs}
    (h : result.Resolves prior inputs table markingEpoch e ri) :
    result.post.vm.toInt =
      if hostedSeats prior inputs e ri = [] then 0
      else if markingEpoch then hostedSum prior inputs e ri
      else (prior.vm e.1).toInt := by
  obtain ⟨vm, hvm, _, _, hpost, _⟩ := h.account
  rw [hpost]
  by_cases hnone : hostedSeats prior inputs e ri = []
  · rw [if_pos hnone, if_pos hnone]
    rfl
  · rw [if_neg hnone, if_neg hnone]
    cases markingEpoch with
    | true => exact accountVm_toInt hvm
    | false =>
        rw [← Except.ok.inj hvm]
        rfl

end Chosen

end StateKeeper
