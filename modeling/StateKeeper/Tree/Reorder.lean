import StateKeeper.Tree.AccountSpec

/-!
# Tree - The order of an epoch's inputs

Lists of an epoch pass through searches that uniqueness checks make unambiguous
and through sorts by distinct keys, so their order does not matter.  The one
exception is the VM of seats opened in a marking epoch: it is accumulated in the
order of the opens, before the survivors are sorted, and every partial sum is
clamped.

Main results:

- Theorem {lit}`rowResolves_permuted`: a row's checks do not see the order.
- Theorem {lit}`resolveEpoch_permuted_iff`: when the whole epoch does not.
-/

namespace StateKeeper

open Words Fallible SortedKeys KeyedMap SaturatingSum

/-- Two epochs differ only in the order of their lists. -/
structure EpochInputs.Permuted (inputs inputs' : EpochInputs) : Prop where
  newPositions : inputs.newPositions.Perm inputs'.newPositions
  provenMarks : inputs.provenMarks.Perm inputs'.provenMarks
  provenTwaps : inputs.provenTwaps.Perm inputs'.provenTwaps
  pausedPairs : inputs.pausedPairs.Perm inputs'.pausedPairs
  proofNow : inputs.proofNow = inputs'.proofNow
  domainSeparator : inputs.domainSeparator = inputs'.domainSeparator

theorem EpochInputs.Permuted.symm {inputs inputs' : EpochInputs} (h : inputs.Permuted inputs') :
    inputs'.Permuted inputs :=
  ⟨h.newPositions.symm, h.provenMarks.symm, h.provenTwaps.symm, h.pausedPairs.symm,
    h.proofNow.symm, h.domainSeparator.symm⟩

/-- The parties of an epoch's opens. -/
def EpochInputs.parties (inputs : EpochInputs) : List Address :=
  inputs.newPositions.flatMap fun nb => [nb.partyA, nb.partyB]

section Reorder

variable [Primitives]

/-- No two parties of the epoch's opens share an account id. -/
def EpochInputs.DistinctParties (inputs : EpochInputs) : Prop :=
  Set.InjOn accountIdSingle {x | x ∈ inputs.parties}

variable {prior : TreeState} {inputs inputs' : EpochInputs} {table : ScenarioTable}

/-! ## The touched rows -/

omit [Primitives] in
theorem EpochInputs.Permuted.parties (h : inputs.Permuted inputs') :
    inputs.parties.Perm inputs'.parties :=
  h.newPositions.flatMap_right _

/-- The touched accounts and the owners recorded for them are the same. -/
theorem touchedOf_permuted (h : inputs.Permuted inputs') (hdistinct : inputs.DistinctParties) :
    touchedOf prior inputs' = touchedOf prior inputs := by
  have howners : ownersOf prior inputs'.newPositions = ownersOf prior inputs.newPositions := by
    refine Std.ExtTreeMap.ext_getElem? fun aid => ?_
    have hget : ∀ i : EpochInputs, (ownersOf prior i.newPositions)[aid]? =
        ((i.parties.filter fun x => accountIdSingle x = aid).getLast?.map id).or
          (prior.accounts.map fun _ a => a.owner)[aid]? :=
      fun i => getElem?_foldl_insert accountIdSingle id
    have hlast : (inputs.parties.filter fun x => accountIdSingle x = aid).getLast? =
        (inputs'.parties.filter fun x => accountIdSingle x = aid).getLast? := by
      refine getLast?_of_perm (fun x hx y hy => ?_) (h.parties.filter _)
      rcases List.mem_filter.mp hx with ⟨hx, hxid⟩
      rcases List.mem_filter.mp hy with ⟨hy, hyid⟩
      exact hdistinct hx hy ((of_decide_eq_true hxid).trans (of_decide_eq_true hyid).symm)
    rw [hget, hget, hlast]
  rw [touchedOf, touchedOf, howners]

theorem owner_permuted (e : Bytes32 × Address) :
    (openedRow prior inputs' e).owner = (openedRow prior inputs e).owner := by
  change (priorRow prior inputs' e.1 e.2).owner = (priorRow prior inputs e.1 e.2).owner
  unfold priorRow Row.owner
  cases prior.accounts[e.1]? <;> rfl

/-- The touched owners are the same. -/
theorem ownersIn_permuted (h : inputs.Permuted inputs') (hdistinct : inputs.DistinctParties) :
    ownersIn (epochRows prior inputs') = ownersIn (epochRows prior inputs) := by
  have hrows : ∀ i : EpochInputs, ownersIn (epochRows prior i) =
      (touchedOf prior i).map fun e => (openedRow prior i e).owner := by
    intro i
    rw [ownersIn, epochRows, List.map_map]
    rfl
  rw [hrows, hrows, touchedOf_permuted h hdistinct]
  exact List.map_congr_left fun e _ => owner_permuted e

/-- An owner gains the same seats, in another order. -/
theorem newSeats_permuted (h : inputs.Permuted inputs') (hdistinct : inputs.DistinctParties)
    (owner : Address) :
    (newSeats inputs.proofNow (ownersIn (epochRows prior inputs)) inputs.newPositions owner).Perm
      (newSeats inputs'.proofNow (ownersIn (epochRows prior inputs')) inputs'.newPositions
        owner) := by
  rw [ownersIn_permuted h hdistinct, ← h.proofNow]
  exact (h.newPositions.filter _).flatMap_right _

/-- A touched row has the same positions, in another order. -/
theorem positions_permuted (prior : TreeState) (h : inputs.Permuted inputs')
    (hdistinct : inputs.DistinctParties) (e : Bytes32 × Address) :
    (openedRow prior inputs e).2.positions.Perm (openedRow prior inputs' e).2.positions := by
  have howner : (openedRow prior inputs' e).owner = (openedRow prior inputs e).owner :=
    owner_permuted e
  rw [openedRow_positions, openedRow_positions, howner]
  exact (newSeats_permuted h hdistinct _).append_left _

theorem provenTwaps_permuted (prior : TreeState) (h : inputs.Permuted inputs')
    (e : Bytes32 × Address) :
    (openedRow prior inputs e).2.provenTwaps.Perm (openedRow prior inputs' e).2.provenTwaps := by
  rw [openedRow_provenTwaps, openedRow_provenTwaps]
  exact h.provenTwaps.filter _

theorem provenMarks_permuted (prior : TreeState) (h : inputs.Permuted inputs')
    (e : Bytes32 × Address) :
    (openedRow prior inputs e).2.provenMarks.Perm (openedRow prior inputs' e).2.provenMarks := by
  rw [openedRow_provenMarks, openedRow_provenMarks]
  exact h.provenMarks.filter _

/-! ## Searches -/

omit [Primitives] in
theorem boundTwap_permuted {tws tws' : List ProvenTwap} (h : tws.Perm tws')
    (hunique : (tws.map ProvenTwap.bindingKey).Nodup) (b : PositionRecord) :
    boundTwap tws' b = boundTwap tws b := by
  refine find?_of_perm (k := toLex (b.oracle, b.expiry)) (fun tw hbinds => ?_) hunique h
  rw [positionTwapBindingOk, Bool.and_eq_true, beq_iff_eq, beq_iff_eq] at hbinds
  rw [ProvenTwap.bindingKey, hbinds.1, hbinds.2]

omit [Primitives] in
theorem boundMark_permuted {ms ms' : List ProvenMark} (h : ms.Perm ms')
    (hunique : (ms.map fun m => feedIdOracle m.feedId).Nodup) (b : PositionRecord) :
    boundMark ms' b = boundMark ms b :=
  find?_of_perm (k := b.oracle) (fun _ hbinds => beq_iff_eq.mp hbinds) hunique h

/-- A position is retired by the same prices in any order. -/
theorem retires_permuted {paused paused' : List Bytes32} {tws tws' : List ProvenTwap}
    (hpaused : paused.Perm paused') (h : tws.Perm tws') (b : PositionRecord) :
    retires paused' tws' b = retires paused tws b := by
  have hsame : positionPaused paused' b = positionPaused paused b := by
    unfold positionPaused
    rw [Bool.eq_iff_iff, List.contains_iff_mem, List.contains_iff_mem]
    exact hpaused.mem_iff.symm
  have hsome : (boundTwap tws' b).isSome = (boundTwap tws b).isSome := by
    rw [Bool.eq_iff_iff, boundTwap_isSome, boundTwap_isSome]
    simp only [h.mem_iff]
  rw [retires, retires, hsame, hsome]

/-! ## The checks of a row -/

/-- A row keeps the same seats, in another order. -/
theorem keptSeats_permuted (prior : TreeState) (h : inputs.Permuted inputs')
    (hdistinct : inputs.DistinctParties) (e : Bytes32 × Address) :
    (keptSeats prior inputs e).Perm (keptSeats prior inputs' e) := by
  have hretires : ∀ b, retires inputs'.pausedPairs (openedRow prior inputs' e).2.provenTwaps b =
      retires inputs.pausedPairs (openedRow prior inputs e).2.provenTwaps b :=
    retires_permuted h.pausedPairs (provenTwaps_permuted prior h e)
  unfold keptSeats unretired
  simp only [hretires]
  exact (positions_permuted prior h hdistinct e).filter _

/-- The marking flag is the same. -/
theorem marking_permuted (hwf : prior.WellFormed) (h : inputs.Permuted inputs') :
    markingEpochOf (epochRows prior inputs') = markingEpochOf (epochRows prior inputs) := by
  rw [Bool.eq_iff_iff, markingEpoch_iff hwf, markingEpoch_iff hwf]
  unfold TreeState.Marking EpochInputs.MarksPosition
  simp only [h.provenMarks.mem_iff]

omit [Primitives] in
/-- The kept seats of a row are marked by the same marks in any order. -/
theorem accountVm_permuted {ms ms' : List ProvenMark} {positions positions' : List PositionRecord}
    (hms : ms.Perm ms') (hpositions : positions.Perm positions')
    (h : Finished (accountVmFromMarks positions ms)) : Finished (accountVmFromMarks positions' ms') := by
  rcases accountVmFromMarks_finished_iff.mp h with ⟨hunique, hseats⟩
  refine accountVmFromMarks_finished_iff.mpr ⟨(hms.map _).nodup_iff.mp hunique, fun e he => ?_⟩
  rcases mem_markedSeats.mp he with ⟨hmem, hbound⟩
  rw [boundMark_permuted hms hunique] at hbound
  exact hseats e (mem_markedSeats.mpr ⟨hpositions.mem_iff.mpr hmem, hbound⟩)

/-- The checks of a row do not see the order of the epoch's lists. -/
theorem rowResolves_permuted (hwf : prior.WellFormed) (h : inputs.Permuted inputs')
    (hdistinct : inputs.DistinctParties) {e : Bytes32 × Address}
    (hrow : RowResolves prior inputs table e) : RowResolves prior inputs' table e := by
  have hpositions := positions_permuted prior h hdistinct e
  have htwaps := provenTwaps_permuted prior h e
  have hkept := keptSeats_permuted prior h hdistinct e
  have howner : (openedRow prior inputs' e).owner = (openedRow prior inputs e).owner :=
    owner_permuted e
  have hids := (hpositions.map PositionRecord.termsId).nodup_iff.mp hrow.ids
  refine ⟨hids, (htwaps.map _).nodup_iff.mp hrow.prices, fun s hs => ?_, fun hmarking => ?_, ?_⟩
  · rcases mem_boundSeats.mp hs with ⟨hmem, hbound⟩
    rw [boundTwap_permuted htwaps hrow.prices] at hbound
    exact hrow.settles s (mem_boundSeats.mpr ⟨hpositions.mem_iff.mpr hmem, hbound⟩)
  · rw [marking_permuted hwf h] at hmarking
    exact accountVm_permuted (provenMarks_permuted prior h e) hkept (hrow.marks hmarking)
  · have hkeptIds : ((keptSeats prior inputs e).map PositionRecord.termsId).Nodup :=
      hrow.ids.sublist (List.filter_sublist.map _)
    rw [howner, ← sortBy_congr_perm hkeptIds hkept]
    exact hrow.margin

/-! ## The accounts -/

omit [Primitives] in
theorem markValue_permuted {ms ms' : List ProvenMark} (h : ms.Perm ms')
    (hunique : (ms.map fun m => feedIdOracle m.feedId).Nodup) (b : PositionRecord) :
    markValue ms' b = markValue ms b := by
  rw [markValue, markValue, boundMark_permuted h hunique]

/-- The clamped sum of the prior seats a row keeps. -/
def startVm (prior : TreeState) (inputs : EpochInputs) (e : Bytes32 × Address) : Int :=
  satSum i128Min i128Max 0 (markValues (openedRow prior inputs e).2.provenMarks
    (unretired inputs.pausedPairs (openedRow prior inputs e).2.provenTwaps (prior.book e.1)))

/-- The values of the new seats a row keeps, in the order of their opens. -/
def newValues (prior : TreeState) (inputs : EpochInputs) (e : Bytes32 × Address) : List Int :=
  markValues (openedRow prior inputs e).2.provenMarks
    (unretired inputs.pausedPairs (openedRow prior inputs e).2.provenTwaps
      (newSeats inputs.proofNow (ownersIn (epochRows prior inputs)) inputs.newPositions
        (openedRow prior inputs e).owner))

/-- In a marking epoch, the values of each row's new seats are free of their order after
those of its prior seats. -/
def TreeState.OrderFree (prior : TreeState) (inputs : EpochInputs) : Prop :=
  prior.Marking inputs → ∀ e ∈ touchedOf prior inputs,
    SaturatingSum.OrderFree i128Min i128Max (startVm prior inputs e) (newValues prior inputs e)

/-- A row's VM starts from its prior seats and takes its new seats in order. -/
theorem keptVm_eq (prior : TreeState) (inputs : EpochInputs) (e : Bytes32 × Address) :
    satSum i128Min i128Max 0 (keptValues prior inputs e) =
      satSum i128Min i128Max (startVm prior inputs e) (newValues prior inputs e) := by
  rw [keptValues, keptSeats, openedRow_positions, unretired, List.filter_append, markValues,
    List.map_append, satSum_append]
  rfl

theorem startVm_mem (prior : TreeState) (inputs : EpochInputs) (e : Bytes32 × Address) :
    i128Min ≤ startVm prior inputs e ∧ startVm prior inputs e ≤ i128Max :=
  satSum_mem (by decide) (by decide) (by decide)

/-- The prior seats of a row have one VM, and its new seats the same values in another
order. -/
theorem values_permuted (h : inputs.Permuted inputs') (hdistinct : inputs.DistinctParties)
    {e : Bytes32 × Address}
    (hunique : ((openedRow prior inputs e).2.provenMarks.map fun m => feedIdOracle m.feedId).Nodup) :
    startVm prior inputs' e = startVm prior inputs e ∧
      (newValues prior inputs' e).Perm (newValues prior inputs e) := by
  have howner : (openedRow prior inputs' e).owner = (openedRow prior inputs e).owner :=
    owner_permuted e
  have hretires : ∀ b, retires inputs'.pausedPairs (openedRow prior inputs' e).2.provenTwaps b =
      retires inputs.pausedPairs (openedRow prior inputs e).2.provenTwaps b :=
    retires_permuted h.pausedPairs (provenTwaps_permuted prior h e)
  have hvalue : ∀ b, markValue (openedRow prior inputs' e).2.provenMarks b =
      markValue (openedRow prior inputs e).2.provenMarks b :=
    markValue_permuted (provenMarks_permuted prior h e) hunique
  constructor
  · unfold startVm markValues unretired
    simp only [hretires, hvalue]
  · unfold newValues markValues unretired
    simp only [hretires, hvalue, howner]
    exact ((newSeats_permuted h hdistinct _).symm.filter _).map _

/-- Rows whose values are free of their order leave the same account. -/
theorem account_permuted (hwf : prior.WellFormed) (h : inputs.Permuted inputs')
    (hdistinct : inputs.DistinctParties) {e : Bytes32 × Address}
    (hfree : markingEpochOf (epochRows prior inputs) = true →
      SaturatingSum.OrderFree i128Min i128Max (startVm prior inputs e) (newValues prior inputs e))
    {account account' : Option AccountState}
    (haccount : accountAfter prior inputs table e = .ok account)
    (haccount' : accountAfter prior inputs' table e = .ok account') : account' = account := by
  have hrow := accountAfter_finished_iff.mp ⟨account, haccount⟩
  have hkept := keptSeats_permuted prior h hdistinct e
  have hkeptIds : ((keptSeats prior inputs e).map PositionRecord.termsId).Nodup :=
    hrow.ids.sublist (List.filter_sublist.map _)
  have howner : (openedRow prior inputs' e).owner = (openedRow prior inputs e).owner :=
    owner_permuted e
  rcases accountAfter_vm haccount with ⟨vm, rfl, hvm⟩
  rcases accountAfter_vm haccount' with ⟨vm', rfl, hvm'⟩
  have hsame : vm' = vm := by
    refine BitVec.eq_of_toInt_eq ?_
    rw [hvm, hvm', marking_permuted hwf h]
    by_cases hmarking : markingEpochOf (epochRows prior inputs) = true
    · rw [if_pos hmarking, if_pos hmarking, keptVm_eq, keptVm_eq]
      have hunique := (accountVmFromMarks_finished_iff.mp (hrow.marks hmarking)).1
      rcases values_permuted h hdistinct hunique with ⟨hstart, hvalues⟩
      rcases startVm_mem prior inputs e with ⟨hlo, hhi⟩
      rw [hstart]
      exact satSum_of_perm hlo hhi (hfree hmarking) hvalues
    · rw [if_neg hmarking, if_neg hmarking]
  unfold accountOf
  rw [hsame, howner, sortBy_congr_perm hkeptIds hkept]
  have hempty : (keptSeats prior inputs' e).isEmpty = (keptSeats prior inputs e).isEmpty := by
    rw [Bool.eq_iff_iff, List.isEmpty_iff_length_eq_zero, List.isEmpty_iff_length_eq_zero,
      hkept.length_eq]
  rw [hempty]

/-! ## The epoch -/

/-- Two runs of an epoch agree: both fail, or both complete with one post tree, the same
steps and the same processed ids, in some order. -/
def SameEpoch (r r' : Run EpochOutcome) : Prop :=
  (¬Finished r ∧ ¬Finished r') ∨
    ∃ outcome outcome', r = .ok outcome ∧ r' = .ok outcome' ∧ outcome'.post = outcome.post ∧
      outcome'.steps = outcome.steps ∧
      outcome.processedOpenIds.Perm outcome'.processedOpenIds

omit [Primitives] in
theorem EpochInputs.Permuted.refl (inputs : EpochInputs) : inputs.Permuted inputs :=
  ⟨.refl _, .refl _, .refl _, .refl _, rfl, rfl⟩

theorem EpochInputs.Permuted.distinct (h : inputs.Permuted inputs')
    (hdistinct : inputs.DistinctParties) : inputs'.DistinctParties := by
  intro x hx y hy
  exact hdistinct (h.parties.mem_iff.mpr hx) (h.parties.mem_iff.mpr hy)

/-- Whether an epoch resolves does not depend on the order of its lists. -/
theorem resolves_permuted (hwf : prior.WellFormed) (h : inputs.Permuted inputs')
    (hdistinct : inputs.DistinctParties) (hresolves : prior.Resolves inputs table) :
    prior.Resolves inputs' table := by
  constructor
  · intro nb hnb
    exact hresolves.1 nb (h.newPositions.mem_iff.mpr hnb)
  · intro e he
    rw [touchedOf_permuted h hdistinct] at he
    exact rowResolves_permuted hwf h hdistinct (hresolves.2 e he)

/-- The same opens are processed. -/
theorem processedOpenIds_permuted (prior : TreeState) (h : inputs.Permuted inputs')
    (hdistinct : inputs.DistinctParties) :
    (inputs.newPositions.map NewPosition.termsId ++
      rejectedIds inputs.proofNow (ownersIn (epochRows prior inputs)) inputs.newPositions).Perm
      (inputs'.newPositions.map NewPosition.termsId ++
        rejectedIds inputs'.proofNow (ownersIn (epochRows prior inputs')) inputs'.newPositions) := by
  rw [ownersIn_permuted h hdistinct, ← h.proofNow]
  exact (h.newPositions.map _).append ((h.newPositions.filter _).map _)

/-- Without clamps that depend on the order, every order of an epoch agrees with it. -/
theorem sameEpoch_of_orderFree (hwf : prior.WellFormed) (h : inputs.Permuted inputs')
    (hdistinct : inputs.DistinctParties) (hresolves : prior.Resolves inputs table)
    (hfree : prior.OrderFree inputs) :
    SameEpoch (resolveEpoch prior inputs table) (resolveEpoch prior inputs' table) := by
  rcases (resolveEpoch_finished_iff hwf).mpr hresolves with ⟨outcome, houtcome⟩
  rcases (resolveEpoch_finished_iff hwf).mpr (resolves_permuted hwf h hdistinct hresolves) with
    ⟨outcome', houtcome'⟩
  rcases (resolveEpoch_ok_iff hwf).mp houtcome with ⟨_, _, accounts, haccounts, hresult⟩
  rcases (resolveEpoch_ok_iff hwf).mp houtcome' with ⟨_, _, accounts', haccounts', hresult'⟩
  have htouched : touchedOf prior inputs' = touchedOf prior inputs :=
    touchedOf_permuted h hdistinct
  rw [htouched] at haccounts' hresult'
  have hsame : (touchedOf prior inputs).mapM (accountAfter prior inputs' table) =
      (touchedOf prior inputs).mapM (accountAfter prior inputs table) := by
    refine mapM_congr fun e he => ?_
    rcases exists_of_mapM haccounts he with ⟨account, _, haccount⟩
    rcases exists_of_mapM haccounts' he with ⟨account', _, haccount'⟩
    have hrow : markingEpochOf (epochRows prior inputs) = true →
        SaturatingSum.OrderFree i128Min i128Max (startVm prior inputs e)
          (newValues prior inputs e) :=
      fun hmarking => hfree ((markingEpoch_iff hwf).mp hmarking) e he
    rw [haccount, haccount', account_permuted hwf h hdistinct hrow haccount haccount']
  have haccountsEq : accounts' = accounts := by
    rw [hsame] at haccounts'
    exact ok_unique haccounts' haccounts
  refine .inr ⟨outcome, outcome', houtcome, houtcome', ?_, ?_, ?_⟩
  · rw [hresult, hresult', haccountsEq]
  · rw [hresult, hresult', haccountsEq]
  · rw [hresult, hresult']
    exact processedOpenIds_permuted prior h hdistinct

/-! ## Gains first and losses first -/

/-- The epoch with its opens in another order. -/
def EpochInputs.withOpens (inputs : EpochInputs) (newPositions : List NewPosition) : EpochInputs :=
  { inputs with newPositions := newPositions }

omit [Primitives] in
theorem permuted_withOpens {newPositions : List NewPosition}
    (h : inputs.newPositions.Perm newPositions) : inputs.Permuted (inputs.withOpens newPositions) :=
  ⟨h, .refl _, .refl _, .refl _, rfl, rfl⟩

/-- The value a row gets from one open. -/
def openValues (prior : TreeState) (inputs : EpochInputs) (e : Bytes32 × Address)
    (nb : NewPosition) : List Int :=
  markValues (openedRow prior inputs e).2.provenMarks
    (unretired inputs.pausedPairs (openedRow prior inputs e).2.provenTwaps
      (nb.seatsOf (openedRow prior inputs e).owner))

/-- The opens that lock in an epoch. -/
def lockedOpens (prior : TreeState) (inputs : EpochInputs) : List NewPosition :=
  inputs.newPositions.filter fun nb => nb.locks inputs.proofNow (ownersIn (epochRows prior inputs))

theorem newValues_eq_flatMap (prior : TreeState) (inputs : EpochInputs) (e : Bytes32 × Address) :
    newValues prior inputs e = (lockedOpens prior inputs).flatMap (openValues prior inputs e) := by
  unfold newValues newSeats unretired markValues
  rw [List.filter_flatMap, List.map_flatMap]
  rfl

/-- A locked open gives an owner at most one seat. -/
theorem openValues_length {e : Bytes32 × Address} {nb : NewPosition}
    (h : nb ∈ lockedOpens prior inputs) : (openValues prior inputs e nb).length ≤ 1 := by
  have hlocks : nb.locks inputs.proofNow (ownersIn (epochRows prior inputs)) :=
    of_decide_eq_true (List.mem_filter.mp h).2
  have hseats : (nb.seatsOf (openedRow prior inputs e).owner).length ≤ 1 := by
    unfold NewPosition.seatsOf
    by_cases ha : nb.partyA = (openedRow prior inputs e).owner
    · have hb : nb.partyB ≠ (openedRow prior inputs e).owner :=
        fun hb => hlocks.2.2.2.1 (ha.trans hb.symm)
      simp [ha, hb]
    · by_cases hb : nb.partyB = (openedRow prior inputs e).owner
      · simp [ha, hb]
      · simp [ha, hb]
  rw [openValues, markValues, List.length_map]
  exact le_trans (List.length_filter_le _ _) hseats

/-- Two groups of the opens, one after the other, bring the row the values of the first
group and then those of the second. -/
theorem newValues_withOpens (hdistinct : inputs.DistinctParties) (e : Bytes32 × Address)
    {p q : NewPosition → Bool}
    (hperm : inputs.newPositions.Perm
      (inputs.newPositions.filter p ++ inputs.newPositions.filter q)) :
    newValues prior
        (inputs.withOpens (inputs.newPositions.filter p ++ inputs.newPositions.filter q)) e =
      ((lockedOpens prior inputs).filter p).flatMap (openValues prior inputs e) ++
        ((lockedOpens prior inputs).filter q).flatMap (openValues prior inputs e) := by
  have howners : ownersIn (epochRows prior _) = ownersIn (epochRows prior inputs) :=
    ownersIn_permuted (permuted_withOpens hperm) hdistinct
  have hvalues : openValues prior
      (inputs.withOpens (inputs.newPositions.filter p ++ inputs.newPositions.filter q)) e =
      openValues prior inputs e := by
    funext nb
    unfold openValues
    rw [openedRow_provenMarks, openedRow_provenMarks, openedRow_provenTwaps,
      openedRow_provenTwaps, owner_permuted e]
    rfl
  have hlocked : lockedOpens prior
      (inputs.withOpens (inputs.newPositions.filter p ++ inputs.newPositions.filter q)) =
      (lockedOpens prior inputs).filter p ++ (lockedOpens prior inputs).filter q := by
    unfold lockedOpens
    rw [howners]
    change List.filter _ (inputs.newPositions.filter p ++ inputs.newPositions.filter q) = _
    rw [List.filter_append, List.filter_filter, List.filter_filter, List.filter_filter,
      List.filter_filter]
    simp only [Bool.and_comm]
    rfl
  rw [newValues_eq_flatMap, hlocked, hvalues, List.flatMap_append]

/-- Two orders of an epoch that agree leave a row that keeps a seat with one VM. -/
theorem satSum_eq_of_post (hwf : prior.WellFormed) {inputs₁ inputs₂ : EpochInputs}
    {outcome₁ outcome₂ : EpochOutcome} (h₁ : resolveEpoch prior inputs₁ table = .ok outcome₁)
    (h₂ : resolveEpoch prior inputs₂ table = .ok outcome₂) (hpost : outcome₁.post = outcome₂.post)
    {e : Bytes32 × Address} (he₁ : e ∈ touchedOf prior inputs₁) (he₂ : e ∈ touchedOf prior inputs₂)
    (hmarking₁ : markingEpochOf (epochRows prior inputs₁) = true)
    (hmarking₂ : markingEpochOf (epochRows prior inputs₂) = true)
    (hkept : keptSeats prior inputs₁ e ≠ []) :
    satSum i128Min i128Max 0 (keptValues prior inputs₁ e) =
      satSum i128Min i128Max 0 (keptValues prior inputs₂ e) := by
  rcases accountAfter_vm (post_of_touched hwf h₁ he₁) with ⟨vm₁, haccount₁, hvm₁⟩
  rcases accountAfter_vm (post_of_touched hwf h₂ he₂) with ⟨vm₂, haccount₂, hvm₂⟩
  rw [if_pos hmarking₁] at hvm₁
  rw [if_pos hmarking₂] at hvm₂
  have hsame : accountOf (openedRow prior inputs₁ e).owner vm₁ (keptSeats prior inputs₁ e) =
      accountOf (openedRow prior inputs₂ e).owner vm₂ (keptSeats prior inputs₂ e) := by
    rw [← haccount₁, ← haccount₂, hpost]
  let a : AccountState :=
    { owner := (openedRow prior inputs₁ e).owner
      vmEquity := vm₁
      positions := sortBy PositionRecord.termsId (keptSeats prior inputs₁ e) }
  have hsome : accountOf (openedRow prior inputs₁ e).owner vm₁ (keptSeats prior inputs₁ e) =
      some a := accountOf_eq_some.mpr ⟨hkept, rfl, rfl, rfl⟩
  rw [hsame] at hsome
  have hvm : vm₁ = vm₂ := (accountOf_eq_some.mp hsome).2.2.1
  rw [← hvm₁, ← hvm₂, hvm]

/-- An epoch that agrees with all its orders has no clamp that depends on the order. -/
theorem orderFree_of_sameEpoch (hwf : prior.WellFormed) (hdistinct : inputs.DistinctParties)
    (hresolves : prior.Resolves inputs table)
    (hsame : ∀ inputs', inputs.Permuted inputs' →
      SameEpoch (resolveEpoch prior inputs table) (resolveEpoch prior inputs' table)) :
    prior.OrderFree inputs := by
  intro hmarking e he
  have hflag : markingEpochOf (epochRows prior inputs) = true := (markingEpoch_iff hwf).mpr hmarking
  by_cases hkept : keptSeats prior inputs e = []
  · have hnone : newValues prior inputs e = [] := by
      unfold keptSeats at hkept
      rw [openedRow_positions, unretired, List.filter_append, List.append_eq_nil_iff] at hkept
      unfold newValues unretired
      rw [hkept.2]
      rfl
    rw [hnone]
    exact .inl (by simp)
  -- the opens that bring the row a gain
  let gain : NewPosition → Bool := fun nb => (openValues prior inputs e nb).any fun x => 0 < x
  have hfirst : inputs.newPositions.Perm
      (inputs.newPositions.filter gain ++ inputs.newPositions.filter fun nb => !gain nb) :=
    (List.filter_append_perm gain _).symm
  have hsecond : inputs.newPositions.Perm
      ((inputs.newPositions.filter fun nb => !gain nb) ++ inputs.newPositions.filter gain) :=
    hfirst.trans List.perm_append_comm
  have hruns : ∀ inputs', inputs.Permuted inputs' → ∃ outcome outcome',
      resolveEpoch prior inputs table = .ok outcome ∧
        resolveEpoch prior inputs' table = .ok outcome' ∧ outcome'.post = outcome.post := by
    intro inputs' h
    rcases hsame inputs' h with hfail | ⟨outcome, outcome', hrun, hrun', hpost, _, _⟩
    · exact absurd ((resolveEpoch_finished_iff hwf).mpr hresolves) hfail.1
    · exact ⟨outcome, outcome', hrun, hrun', hpost⟩
  rcases hruns _ (permuted_withOpens hfirst) with ⟨outcome, outcome₁, hrun, hrun₁, hpost₁⟩
  rcases hruns _ (permuted_withOpens hsecond) with ⟨outcome', outcome₂, hrun', hrun₂, hpost₂⟩
  have hpost : outcome₁.post = outcome₂.post := by
    rw [hpost₁, hpost₂, ok_unique hrun hrun']
  have hpermuted₁ := permuted_withOpens hfirst
  have hpermuted₂ := permuted_withOpens hsecond
  have hkeeps : ∀ inputs', inputs.Permuted inputs' → keptSeats prior inputs' e ≠ [] := by
    intro inputs' h hnil
    have hperm := keptSeats_permuted prior h hdistinct e
    rw [hnil] at hperm
    exact hkept hperm.eq_nil
  have hsums := satSum_eq_of_post hwf hrun₁ hrun₂ hpost (e := e)
    (by rw [touchedOf_permuted hpermuted₁ hdistinct]; exact he)
    (by rw [touchedOf_permuted hpermuted₂ hdistinct]; exact he)
    (by rw [marking_permuted hwf hpermuted₁]; exact hflag)
    (by rw [marking_permuted hwf hpermuted₂]; exact hflag) (hkeeps _ hpermuted₁)
  have hunique := (accountVmFromMarks_finished_iff.mp ((hresolves.2 e he).marks hflag)).1
  rw [keptVm_eq, keptVm_eq, (values_permuted hpermuted₁ hdistinct hunique).1,
    (values_permuted hpermuted₂ hdistinct hunique).1, newValues_withOpens hdistinct e hfirst,
    newValues_withOpens hdistinct e hsecond] at hsums
  have hone : ∀ nb ∈ lockedOpens prior inputs, (openValues prior inputs e nb).length ≤ 1 :=
    fun nb hnb => openValues_length hnb
  rcases gains_flatMap hone with ⟨hgains, hlosses⟩
  rcases startVm_mem prior inputs e with ⟨hlo, hhi⟩
  refine orderFree_of_split (by decide) hlo hhi ?_
  rw [newValues_eq_flatMap, hgains, hlosses]
  exact hsums

/-- An epoch's result is the same in every order of its lists exactly when, if it resolves
and marks, no row's VM is clamped in one order of its new seats and not in another. -/
theorem resolveEpoch_permuted_iff (hwf : prior.WellFormed) (hdistinct : inputs.DistinctParties) :
    (∀ inputs', inputs.Permuted inputs' →
      SameEpoch (resolveEpoch prior inputs table) (resolveEpoch prior inputs' table)) ↔
      (prior.Resolves inputs table → prior.OrderFree inputs) := by
  constructor
  · intro hsame hresolves
    exact orderFree_of_sameEpoch hwf hdistinct hresolves hsame
  · intro hfree inputs' h
    by_cases hresolves : prior.Resolves inputs table
    · exact sameEpoch_of_orderFree hwf h hdistinct hresolves (hfree hresolves)
    · refine .inl ⟨fun hfinished => hresolves ((resolveEpoch_finished_iff hwf).mp hfinished),
        fun hfinished => hresolves ?_⟩
      exact resolves_permuted hwf h.symm (h.distinct hdistinct)
        ((resolveEpoch_finished_iff hwf).mp hfinished)

end Reorder

section Samples

attribute [local instance] concretePrimitives

/-- Terms of two million units at the smallest entry rate. -/
def wideTerms (side : I8) (nonce : U64) : NewPosition :=
  { unitTerms 200 nonce with
    quantity := 2000000000000
    entryRate := 1
    sideA := side
    data := beBytes 32 (1 : Bytes32) }

/-- An epoch over the unit trade with two opens of opposite sides and one hourly mark. -/
def crossedEpoch (price : U128) (sideFirst sideSecond : I8) : EpochInputs where
  newPositions :=
    [(wideTerms sideFirst 5).bound, (wideTerms sideSecond 5).bound]
  provenMarks := [{ feedId := 3, markTime := 150, price := price, expo := -6 }]
  provenTwaps := []
  pausedPairs := []
  proofNow := 150
  domainSeparator := 92

/-- A price near the end of the range, {lit}`2 ^ 126`. -/
def farPrice : U128 :=
  85070591730234615865843651857942052864

/-- The two orders at a far mark, and at an ordinary one the accounts they touch. -/
theorem crossedEpoch_resolved :
    (fun outcome => (outcome.post.vm (accountIdSingle 10)).toInt) <$>
      resolveEpoch unitTree (crossedEpoch farPrice 1 (-1)) flatTable = .ok 0 ∧
    (fun outcome => (outcome.post.vm (accountIdSingle 10)).toInt) <$>
      resolveEpoch unitTree (crossedEpoch farPrice (-1) 1) flatTable =
        .ok 340282366920938463463374607431768 ∧
    ((touchedOf unitTree (crossedEpoch 1100000 1 (-1))).all fun e =>
      decide (SaturatingSum.OrderFree i128Min i128Max
        (startVm unitTree (crossedEpoch 1100000 1 (-1)) e)
        (newValues unitTree (crossedEpoch 1100000 1 (-1)) e))) = true ∧
    (crossedEpoch 1100000 1 (-1)).parties ⊆ [10, 11] ∧
    accountIdSingle 10 ≠ accountIdSingle 11 := by
  decide +kernel

/-- At a mark near the end of the range, the two orders of the opens leave one party
different VMs: its gain is clamped first, or its loss brings it back first. -/
theorem resolveEpoch_order_matters :
    (crossedEpoch farPrice 1 (-1)).Permuted (crossedEpoch farPrice (-1) 1) ∧
    ¬SameEpoch (resolveEpoch unitTree (crossedEpoch farPrice 1 (-1)) flatTable)
      (resolveEpoch unitTree (crossedEpoch farPrice (-1) 1) flatTable) := by
  constructor
  · exact ⟨.swap _ _ _, .refl _, .refl _, .refl _, rfl, rfl⟩
  · obtain ⟨hfirst, hsecond, -⟩ := crossedEpoch_resolved
    rcases map_eq_ok.mp hfirst with ⟨outcome, houtcome, hvm⟩
    rcases map_eq_ok.mp hsecond with ⟨outcome', houtcome', hvm'⟩
    intro hsame
    rcases hsame with hfail | ⟨o, o', ho, ho', hpost, _, _⟩
    · exact hfail.1 ⟨outcome, houtcome⟩
    · rw [ok_unique houtcome ho] at hvm
      rw [ok_unique houtcome' ho', hpost, hvm] at hvm'
      exact absurd hvm' (by decide)

/-- At an ordinary mark the two orders of the opens leave the same tree. -/
theorem resolveEpoch_permuted_crossed :
    SameEpoch (resolveEpoch unitTree (crossedEpoch 1100000 1 (-1)) flatTable)
      (resolveEpoch unitTree (crossedEpoch 1100000 (-1) 1) flatTable) := by
  have hwf := unitTree_reachable.wellFormed_matched.1
  obtain ⟨-, -, hfree, hparties, hids⟩ := crossedEpoch_resolved
  have hdistinct : (crossedEpoch 1100000 1 (-1)).DistinctParties := by
    intro x hx y hy hid
    rcases List.mem_pair.mp (hparties hx) with rfl | rfl
    · rcases List.mem_pair.mp (hparties hy) with rfl | rfl
      · rfl
      · exact absurd hid hids
    · rcases List.mem_pair.mp (hparties hy) with rfl | rfl
      · exact absurd hid.symm hids
      · rfl
  refine (resolveEpoch_permuted_iff hwf hdistinct).mpr (fun _ _ e he => ?_) _
    ⟨.swap _ _ _, .refl _, .refl _, .refl _, rfl, rfl⟩
  exact of_decide_eq_true (List.all_eq_true.mp hfree e he)

end Samples

end StateKeeper
