import StateKeeper.Engine.ResolveSpec
import StateKeeper.Tree.Replay

/-!
# Tree - What one epoch does to the tree

Over a well-formed tree the touched rows have distinct owners, so the pre-pass
gives each row its own new seats and each account resolves on its own.

Main results:

- Theorem {lit}`resolveEpoch_ok_iff`: when an epoch resolves, and its outcome.
- Theorem {lit}`post_account_iff`: the account an aid ends with is the one its own
  row resolves to.
-/

namespace StateKeeper

open Words Fallible SortedKeys KeyedMap

/-- The replay's view of an account that resolves with these survivors. -/
def accountOf (owner : Address) (vm : I128) (unretired : List PositionRecord) :
    Option AccountState :=
  if unretired.isEmpty then none
  else some
    { owner := owner
      vmEquity := vm
      positions := sortBy PositionRecord.termsId unretired }

theorem accountOf_eq_some {owner : Address} {vm : I128} {unretired : List PositionRecord}
    {a : AccountState} :
    accountOf owner vm unretired = some a ↔
      unretired ≠ [] ∧ a.owner = owner ∧ a.vmEquity = vm ∧
        a.positions = sortBy PositionRecord.termsId unretired := by
  unfold accountOf
  cases unretired with
  | nil => simp
  | cons b rest =>
      obtain ⟨owner', vm', positions⟩ := a
      simp only [List.isEmpty_cons, Bool.false_eq_true, if_false, Option.some.injEq,
        AccountState.mk.injEq, ne_eq, reduceCtorEq, not_false_eq_true, true_and]
      constructor <;> rintro ⟨rfl, rfl, rfl⟩ <;> exact ⟨rfl, rfl, rfl⟩

variable [Primitives]

/-! ## One row -/

/-- A replayed row settles, re-marks its unretired positions, and resolves. -/
theorem replayRow_ok_iff {inputs : EpochInputs} {table : ScenarioTable} {markingEpoch : Bool}
    {row : Row} {r : AccountResolve} :
    replayRow inputs table markingEpoch row = .ok r ↔
      ∃ settled vm, positionSettlementsFromTwaps row.2.positions row.2.provenTwaps = .ok settled ∧
        newVmOf markingEpoch row.1
          (survivorsForVm inputs.pausedPairs settled.1 row.2.positions) row.2.provenMarks =
          .ok vm ∧
        resolveAccount row.1.accountOwner row.2.positions settled.1 vm.1 inputs.pausedPairs table =
          .ok r := by
  unfold replayRow
  constructor
  · intro h
    obtain ⟨settled, hsettled, h⟩ := bind_eq_ok.mp h
    obtain ⟨vm, hvm, h⟩ := bind_eq_ok.mp h
    exact ⟨settled, vm, hsettled, hvm, h⟩
  · rintro ⟨settled, vm, hsettled, hvm, h⟩
    exact bind_eq_ok.mpr ⟨settled, hsettled, bind_eq_ok.mpr ⟨vm, hvm, h⟩⟩

/-- The account a replayed row ends with: its unretired positions, re-marked. -/
theorem replayRow_account {inputs : EpochInputs} {table : ScenarioTable} {markingEpoch : Bool}
    {row : Row} {r : AccountResolve} (h : replayRow inputs table markingEpoch row = .ok r) :
    (row.2.positions.map PositionRecord.termsId).Nodup ∧
    ∃ vm, newVmOf markingEpoch row.1
        (unretired inputs.pausedPairs row.2.provenTwaps row.2.positions) row.2.provenMarks =
        .ok vm ∧
      r.account row.owner = accountOf row.owner vm.1
        (unretired inputs.pausedPairs row.2.provenTwaps row.2.positions) := by
  obtain ⟨settled, vm, hsettled, hvm, hresolve⟩ := replayRow_ok_iff.mp h
  obtain ⟨-, hss, -⟩ := positionSettlements_ok_iff.mp hsettled
  obtain ⟨hids, -, hsurviving, hlive, hvmEquity, -, -, -, -⟩ := resolveAccount_ok_iff.mp hresolve
  rw [survivorsForVm_eq hids hss] at hvm
  rw [survivingOf_eq hids hss] at hsurviving
  refine ⟨hids, vm, hvm, ?_⟩
  unfold AccountResolve.account accountOf
  rw [hlive, hvmEquity, hlive, hsurviving]
  cases hempty : unretired inputs.pausedPairs row.2.provenTwaps row.2.positions with
  | nil => rfl
  | cons b rest =>
      have hne : sortBy PositionRecord.termsId (b :: rest) ≠ [] := by simp
      cases hsorted : sortBy PositionRecord.termsId (b :: rest) with
      | nil => exact absurd hsorted hne
      | cons c rest' => rfl

/-! ## Touched rows -/

omit [Primitives] in
/-- A position of a book finds the price in the book's list that it finds in the epoch's. -/
theorem boundTwap_twapsFor {provenTwaps : List ProvenTwap} {positions : List PositionRecord}
    {p : PositionRecord} (hp : p ∈ positions) :
    boundTwap (twapsFor provenTwaps positions) p = boundTwap provenTwaps p := by
  rw [boundTwap, twapsFor, List.find?_filter, boundTwap]
  refine List.find?_congr fun tw _ => ?_
  have hkept : positionTwapBindingOk p tw = true →
      (positions.any fun b => feedIdOracle tw.feedId == b.oracle && b.expiry == tw.closeTime) =
        true :=
    fun hbinds => List.any_eq_true.mpr ⟨p, hp, hbinds⟩
  rw [Bool.eq_iff_iff, decide_eq_true_iff]
  exact ⟨fun h => h.2, fun h => ⟨hkept h, h⟩⟩

omit [Primitives] in
/-- A position of a book finds the mark in the book's list that it finds in the epoch's. -/
theorem boundMark_marksFor {provenMarks : List ProvenMark} {positions : List PositionRecord}
    {p : PositionRecord} (hp : p ∈ positions) :
    boundMark (marksFor provenMarks positions) p = boundMark provenMarks p := by
  rw [boundMark, marksFor, List.find?_filter, boundMark]
  refine List.find?_congr fun m _ => ?_
  have hkept : markBindsPosition p m = true →
      (positions.any fun b => markBindsPosition b m) = true :=
    fun hbinds => List.any_eq_true.mpr ⟨p, hp, hbinds⟩
  rw [Bool.eq_iff_iff, decide_eq_true_iff]
  exact ⟨fun h => h.2, fun h => ⟨hkept h, h⟩⟩

omit [Primitives] in
/-- Filtering prices by a book keeps every price that binds a position of it. -/
theorem boundTwap_twapsFor_isSome {provenTwaps : List ProvenTwap}
    {positions : List PositionRecord} {p : PositionRecord} (hp : p ∈ positions) :
    (boundTwap (twapsFor provenTwaps positions) p).isSome = (boundTwap provenTwaps p).isSome := by
  rw [boundTwap_twapsFor hp]

/-- A prior position is retired by its row's prices exactly when the epoch's prices
retire it. -/
theorem retires_twapsFor {paused : List Bytes32} {provenTwaps : List ProvenTwap}
    {positions : List PositionRecord} {p : PositionRecord} (hp : p ∈ positions) :
    retires paused (twapsFor provenTwaps positions) p = retires paused provenTwaps p := by
  rw [retires, retires, boundTwap_twapsFor_isSome hp]

omit [Primitives] in
/-- The book of an aid, empty when the aid is absent. -/
def TreeState.book (t : TreeState) (aid : Bytes32) : List PositionRecord :=
  match t.accounts[aid]? with
  | some a => a.positions
  | none => []

omit [Primitives] in
/-- The carried VM of an aid, zero when the aid is absent. -/
def TreeState.vm (t : TreeState) (aid : Bytes32) : I128 :=
  match t.accounts[aid]? with
  | some a => a.vmEquity
  | none => 0

section PriorRow

variable (prior : TreeState) (inputs : EpochInputs) (aid : Bytes32) (owner : Address)

@[simp]
theorem priorRow_positions : (priorRow prior inputs aid owner).2.positions = prior.book aid := by
  unfold priorRow TreeState.book
  cases prior.accounts[aid]? <;> rfl

@[simp]
theorem priorRow_provenTwaps :
    (priorRow prior inputs aid owner).2.provenTwaps =
      twapsFor inputs.provenTwaps (prior.book aid) := by
  unfold priorRow TreeState.book
  cases prior.accounts[aid]? with
  | none => simp [twapsFor]
  | some a => rfl

@[simp]
theorem priorRow_provenMarks :
    (priorRow prior inputs aid owner).2.provenMarks =
      marksFor inputs.provenMarks (prior.book aid) := by
  unfold priorRow TreeState.book
  cases prior.accounts[aid]? with
  | none => simp [marksFor]
  | some a => rfl

@[simp]
theorem priorRow_prevVmEquity :
    (priorRow prior inputs aid owner).1.prevVmEquity = prior.vm aid := by
  unfold priorRow TreeState.vm
  cases prior.accounts[aid]? <;> rfl

@[simp]
theorem priorRow_unconsumed :
    (priorRow prior inputs aid owner).2.unconsumedSettleResidual = none := by
  unfold priorRow
  cases prior.accounts[aid]? <;> rfl

end PriorRow

/-- Every key is the id of its owner, and every book is non-empty and in order. -/
structure TreeState.WellFormed (t : TreeState) : Prop where
  key : ∀ (aid : Bytes32) (a : AccountState), t.accounts[aid]? = some a → accountIdSingle a.owner = aid
  nonempty : ∀ (aid : Bytes32) (a : AccountState), t.accounts[aid]? = some a → a.positions ≠ []
  ascending : ∀ (aid : Bytes32) (a : AccountState), t.accounts[aid]? = some a →
    StrictBy PositionRecord.termsId a.positions

theorem TreeState.default_wellFormed : TreeState.default.WellFormed where
  key := by simp [TreeState.default]
  nonempty := by simp [TreeState.default]
  ascending := by simp [TreeState.default]

/-- The touched aids: the present accounts and the open parties. -/
theorem mem_ownersOf {prior : TreeState} {newPositions : List NewPosition} {aid : Bytes32} :
    aid ∈ ownersOf prior newPositions ↔
      aid ∈ prior.accounts ∨
        ∃ nb ∈ newPositions, accountIdSingle nb.partyA = aid ∨ accountIdSingle nb.partyB = aid := by
  refine (mem_foldl_insert accountIdSingle id).trans ?_
  simp only [Std.ExtTreeMap.mem_map, List.mem_flatMap, List.mem_cons, List.not_mem_nil, or_false]
  constructor
  · rintro (h | ⟨owner, ⟨nb, hnb, rfl | rfl⟩, rfl⟩)
    · exact Or.inl h
    · exact Or.inr ⟨nb, hnb, Or.inl rfl⟩
    · exact Or.inr ⟨nb, hnb, Or.inr rfl⟩
  · rintro (h | ⟨nb, hnb, rfl | rfl⟩)
    · exact Or.inl h
    · exact Or.inr ⟨nb.partyA, ⟨nb, hnb, Or.inl rfl⟩, rfl⟩
    · exact Or.inr ⟨nb.partyB, ⟨nb, hnb, Or.inr rfl⟩, rfl⟩

/-- Over a well-formed tree, a touched aid is the id of the owner recorded for it. -/
theorem accountId_of_ownersOf {prior : TreeState} (hwf : prior.WellFormed)
    {newPositions : List NewPosition} {aid : Bytes32} {owner : Address}
    (h : (ownersOf prior newPositions)[aid]? = some owner) : accountIdSingle owner = aid := by
  refine foldl_insert_invariant (fun aid owner => accountIdSingle owner = aid) accountIdSingle id
    ?_ (fun _ _ => rfl) h
  intro aid owner hprior
  rw [Std.ExtTreeMap.getElem?_map, Option.map_eq_some_iff] at hprior
  obtain ⟨a, ha, rfl⟩ := hprior
  exact hwf.key aid a ha

/-- The aid of a touched row's owner is the row's key. -/
theorem accountId_of_priorRow {prior : TreeState} (hwf : prior.WellFormed) {inputs : EpochInputs}
    {aid : Bytes32} {owner : Address} (h : accountIdSingle owner = aid) :
    accountIdSingle (priorRow prior inputs aid owner).owner = aid := by
  unfold priorRow Row.owner
  cases ha : prior.accounts[aid]? with
  | none => exact h
  | some a => exact hwf.key aid a ha

/-- Over a well-formed tree, the touched rows have distinct owners. -/
theorem ownersIn_epochRows_nodup {prior : TreeState} (hwf : prior.WellFormed)
    (inputs : EpochInputs) : (ownersIn (epochRows prior inputs)).Nodup := by
  have hkeys : (ownersIn (epochRows prior inputs)).map accountIdSingle =
      (ownersOf prior inputs.newPositions).toList.map Prod.fst := by
    rw [ownersIn, epochRows, List.map_map, List.map_map]
    refine List.map_congr_left fun e he => ?_
    exact accountId_of_priorRow hwf (accountId_of_ownersOf hwf (mem_toList.mp he))
  exact List.Nodup.of_map accountIdSingle (hkeys ▸ nodup_toList_keys _)

/-! ## The epoch -/

/-- The row of a touched account after the opens. -/
def openedRow (prior : TreeState) (inputs : EpochInputs) (e : Bytes32 × Address) : Row :=
  let row := priorRow prior inputs e.1 e.2
  row.append (newSeats inputs.proofNow (ownersIn (epochRows prior inputs)) inputs.newPositions
    row.owner)

/-- The account a touched aid ends with, resolved from its own row. -/
def accountAfter (prior : TreeState) (inputs : EpochInputs) (table : ScenarioTable)
    (e : Bytes32 × Address) : Run (Option AccountState) := do
  let r ← replayRow inputs table (markingEpochOf (epochRows prior inputs))
    (openedRow prior inputs e)
  pure (r.account (openedRow prior inputs e).owner)

/-- The touched accounts with their recorded owners, ascending. -/
def touchedOf (prior : TreeState) (inputs : EpochInputs) : List (Bytes32 × Address) :=
  (ownersOf prior inputs.newPositions).toList

theorem rowsAfter_epochRows {prior : TreeState} (hwf : prior.WellFormed) (inputs : EpochInputs) :
    rowsAfter inputs.proofNow (epochRows prior inputs) inputs.newPositions =
      (touchedOf prior inputs).map (openedRow prior inputs) := by
  rw [rowsAfter_eq_map (ownersIn_epochRows_nodup hwf inputs)]
  simp only [epochRows, List.map_map]
  rfl

omit [Primitives] in
/-- Pairing keys, rows and results, then posting, is pairing keys with posted accounts. -/
theorem posts_eq_zip {touched : List (Bytes32 × Address)} {row : Bytes32 × Address → Row}
    {resolved : List AccountResolve} :
    ((touched.map Prod.fst).zip ((touched.map row).zip resolved)).map
        (fun e => postOf e.1 e.2.1 e.2.2) =
      (touched.map Prod.fst).zip
        (List.zipWith (fun e r => r.account (row e).owner) touched resolved) := by
  induction touched generalizing resolved with
  | nil => rfl
  | cons e touched ih =>
      cases resolved with
      | nil => rfl
      | cons r resolved =>
          simp only [List.map_cons, List.zip_cons_cons, List.zipWith_cons_cons, ih]
          rfl

/-- An epoch resolves when every open is bound, no book repeats an id, and every touched
account resolves; its tree holds the accounts that stay. -/
theorem resolveEpoch_ok_iff {prior : TreeState} (hwf : prior.WellFormed) {inputs : EpochInputs}
    {table : ScenarioTable} {outcome : EpochOutcome} :
    resolveEpoch prior inputs table = .ok outcome ↔
      (∀ nb ∈ inputs.newPositions, assertNewPositionBound nb = .ok ()) ∧
      (∀ e ∈ touchedOf prior inputs,
        ((openedRow prior inputs e).2.positions.map PositionRecord.termsId).Nodup) ∧
      ∃ accounts, (touchedOf prior inputs).mapM (accountAfter prior inputs table) =
          .ok accounts ∧
        outcome =
          { post := TreeState.ofPosts (((touchedOf prior inputs).map Prod.fst).zip accounts)
            steps := (((touchedOf prior inputs).map Prod.fst).zip accounts).map stepOf
            priorRows := epochRows prior inputs
            processedOpenIds := inputs.newPositions.map NewPosition.termsId ++
              rejectedIds inputs.proofNow (ownersIn (epochRows prior inputs))
                inputs.newPositions } := by
  have hkeys : (ownersOf prior inputs.newPositions).keys =
      (touchedOf prior inputs).map Prod.fst :=
    Std.ExtTreeMap.map_fst_toList_eq_keys.symm
  unfold resolveEpoch
  rw [bind_eq_ok]
  constructor
  · rintro ⟨⟨rows, opens⟩, hopens, h⟩
    obtain ⟨resolved, hresolved, houtcome⟩ := bind_eq_ok.mp h
    obtain ⟨hbound, hids, hresult⟩ := applyNewBoxesToBook_ok_iff.mp hopens
    cases hresult
    rw [rowsAfter_epochRows hwf] at hids hresolved houtcome
    rw [List.mapM_map] at hresolved
    cases houtcome
    refine ⟨hbound, fun e he => hids _ (List.mem_map_of_mem he), _,
      mapM_zipWith_eq_ok.mpr ⟨resolved, hresolved, rfl⟩, ?_⟩
    rw [hkeys, posts_eq_zip]
  · rintro ⟨hbound, hids, accounts, haccounts, rfl⟩
    obtain ⟨resolved, hresolved, rfl⟩ := mapM_zipWith_eq_ok.mp haccounts
    refine ⟨_, applyNewBoxesToBook_ok_iff.mpr ⟨hbound, ?_, rfl⟩, ?_⟩
    · rw [rowsAfter_epochRows hwf]
      intro row hrow
      obtain ⟨e, he, rfl⟩ := List.mem_map.mp hrow
      exact hids e he
    · refine bind_eq_ok.mpr ⟨resolved, ?_, ?_⟩
      · rw [rowsAfter_epochRows hwf, List.mapM_map]
        exact hresolved
      · rw [rowsAfter_epochRows hwf, hkeys, posts_eq_zip]
        rfl

section Posts

variable {prior : TreeState} {inputs : EpochInputs} {table : ScenarioTable}
  {outcome : EpochOutcome}

theorem touchedOf_keys_nodup (prior : TreeState) (inputs : EpochInputs) :
    ((touchedOf prior inputs).map Prod.fst).Nodup :=
  nodup_toList_keys _

/-- A touched aid ends with the account its own row resolves to. -/
theorem post_of_touched (hwf : prior.WellFormed)
    (h : resolveEpoch prior inputs table = .ok outcome) {e : Bytes32 × Address}
    (he : e ∈ touchedOf prior inputs) :
    accountAfter prior inputs table e = .ok outcome.post.accounts[e.1]? := by
  obtain ⟨-, -, accounts, haccounts, rfl⟩ := (resolveEpoch_ok_iff hwf).mp h
  obtain ⟨account, -, haccount⟩ := exists_of_mapM haccounts he
  have hmem := mem_zip_of_mapM Prod.fst haccounts he haccount
  have hnodup : ((((touchedOf prior inputs).map Prod.fst).zip accounts).map Prod.fst).Nodup := by
    rw [List.map_fst_zip (by rw [List.length_map, mapM_length haccounts])]
    exact touchedOf_keys_nodup prior inputs
  rw [haccount]
  exact congrArg Except.ok (getElem?_assignAll hnodup hmem).symm

/-- An untouched aid has no account afterwards. -/
theorem post_of_untouched (hwf : prior.WellFormed)
    (h : resolveEpoch prior inputs table = .ok outcome) {aid : Bytes32}
    (haid : aid ∉ (touchedOf prior inputs).map Prod.fst) :
    outcome.post.accounts[aid]? = none := by
  obtain ⟨-, -, accounts, haccounts, rfl⟩ := (resolveEpoch_ok_iff hwf).mp h
  refine (getElem?_assignAll_of_notMem ?_).trans (by simp)
  rwa [List.map_fst_zip (by rw [List.length_map, mapM_length haccounts])]

/-- The account an aid ends with is the one its own row resolves to. -/
theorem post_account_iff (hwf : prior.WellFormed)
    (h : resolveEpoch prior inputs table = .ok outcome) {aid : Bytes32} {a : AccountState} :
    outcome.post.accounts[aid]? = some a ↔
      ∃ owner, (aid, owner) ∈ touchedOf prior inputs ∧
        accountAfter prior inputs table (aid, owner) = .ok (some a) := by
  constructor
  · intro ha
    by_cases haid : aid ∈ (touchedOf prior inputs).map Prod.fst
    · obtain ⟨⟨aid', owner⟩, he, rfl⟩ := List.mem_map.mp haid
      exact ⟨owner, he, by rw [post_of_touched hwf h he, ha]⟩
    · rw [post_of_untouched hwf h haid] at ha
      cases ha
  · rintro ⟨owner, he, haccount⟩
    rw [post_of_touched hwf h he] at haccount
    exact Except.ok.inj haccount

end Posts

end StateKeeper
