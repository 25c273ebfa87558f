import StateKeeper.Engine.TransitionSpec

/-!
# Engine - When the fail-closed valves stay open

Each valve passes exactly when its condition holds of every position, and the
holds it surfaces are the positions it exempts.  Binding a row is the conjunction
of its checks.

Main results:

- Theorems {lit}`assertDueBoxes_ok_iff`, {lit}`assertMarksComplete_ok_iff`: the
  settlement and mark valves.
- Theorem {lit}`assertPausedHoldsComplete_of_perm`: a surface that lists exactly
  the skipped positions is complete.
- Theorem {lit}`bindRows_ok_iff`: when every touched row binds, and what it binds to.
-/

namespace StateKeeper

open Words Fallible SortedKeys

section Valves

variable [Primitives]

/-- The position is due and exempt because its pair is paused. -/
def duePaused (paused : List Bytes32) (proofTime : U64) (b : PositionRecord) : Bool :=
  decide (b.expiry ≤ proofTime) && positionPaused paused b

/-- The position is live and exempt because its pair is paused. -/
def livePaused (paused : List Bytes32) (proofTime : U64) (b : PositionRecord) : Bool :=
  decide (proofTime < b.expiry) && positionPaused paused b

/-- The position is due and must settle. -/
def MustSettle (paused : List Bytes32) (proofTime : U64) (b : PositionRecord) : Prop :=
  b.expiry ≤ proofTime ∧ positionPaused paused b = false

/-- The position is live and, on a marking epoch, must be marked. -/
def MustMark (paused : List Bytes32) (proofTime : U64) (b : PositionRecord) : Prop :=
  proofTime < b.expiry ∧ positionPaused paused b = false

instance (paused : List Bytes32) (proofTime : U64) (b : PositionRecord) :
    Decidable (MustSettle paused proofTime b) :=
  inferInstanceAs (Decidable (_ ∧ _))

instance (paused : List Bytes32) (proofTime : U64) (b : PositionRecord) :
    Decidable (MustMark paused proofTime b) :=
  inferInstanceAs (Decidable (_ ∧ _))

/-- The holds the mark valve surfaces. -/
def liveHolds (markingEpoch : Bool) (paused : List Bytes32) (proofTime : U64)
    (positions : List PositionRecord) : List PausedHold :=
  if markingEpoch then (positions.filter (livePaused paused proofTime)).map PositionRecord.hold
  else []

theorem liveHolds_append {markingEpoch : Bool} {paused : List Bytes32} {proofTime : U64}
    {xs ys : List PositionRecord} :
    liveHolds markingEpoch paused proofTime (xs ++ ys) =
      liveHolds markingEpoch paused proofTime xs ++ liveHolds markingEpoch paused proofTime ys := by
  unfold liveHolds
  cases markingEpoch with
  | false => rfl
  | true => simp

/-- The settlement valve passes when every due position on an open pair is priced. -/
theorem assertDueBoxes_ok_iff {positions : List PositionRecord} {provenTwaps : List ProvenTwap}
    {paused : List Bytes32} {proofTime : U64} {holds : List PausedHold} :
    assertDueBoxesHaveProvenTwap positions provenTwaps paused proofTime = .ok holds ↔
      (∀ b ∈ positions, MustSettle paused proofTime b →
        provenTwaps.any (positionTwapBindingOk b) = true) ∧
      holds = (positions.filter (duePaused paused proofTime)).map PositionRecord.hold := by
  unfold assertDueBoxesHaveProvenTwap
  rw [foldlM_collect (fun b : PositionRecord => b.expiry > proofTime)
    (fun b => positionPaused paused b = true) PositionRecord.hold
    (fun b => provenTwaps.any (positionTwapBindingOk b) = true)]
  refine and_congr ?_ ?_
  · refine forall₂_congr fun b _ => ?_
    rw [gt_iff_lt, not_lt, Bool.not_eq_true, MustSettle, and_imp]
  · have hfilter : (positions.filter fun b => ¬b.expiry > proofTime ∧ positionPaused paused b = true) =
        positions.filter (duePaused paused proofTime) := by
      refine List.filter_congr fun b _ => ?_
      simp [duePaused]
    rw [hfilter, List.nil_append]

/-- The mark valve passes when, on a marking epoch, every live position on an open
pair is marked. -/
theorem assertMarksComplete_ok_iff {positions : List PositionRecord}
    {provenMarks : List ProvenMark} {paused : List Bytes32} {proofTime : U64}
    {markingEpoch : Bool} {holds : List PausedHold} :
    assertMarksComplete positions provenMarks paused proofTime markingEpoch = .ok holds ↔
      (markingEpoch = true → ∀ b ∈ positions, MustMark paused proofTime b →
        provenMarks.any (markBindsPosition b) = true) ∧
      holds = liveHolds markingEpoch paused proofTime positions := by
  unfold assertMarksComplete liveHolds
  cases markingEpoch with
  | false =>
      rw [if_pos Bool.not_false, if_neg Bool.false_ne_true, pure_eq_ok, Except.ok.injEq, eq_comm]
      exact (and_iff_right fun h => absurd h Bool.false_ne_true).symm
  | true =>
      rw [if_neg (by decide), foldlM_collect (fun b : PositionRecord => b.expiry ≤ proofTime)
        (fun b => positionPaused paused b = true) PositionRecord.hold
        (fun b => provenMarks.any (markBindsPosition b) = true)]
      refine and_congr ?_ ?_
      · rw [forall_prop_of_true rfl]
        refine forall₂_congr fun b _ => ?_
        rw [not_le, Bool.not_eq_true, MustMark, and_imp]
      · have hfilter : (positions.filter fun b =>
            ¬b.expiry ≤ proofTime ∧ positionPaused paused b = true) =
            positions.filter (livePaused paused proofTime) := by
          refine List.filter_congr fun b _ => ?_
          simp [livePaused]
        rw [hfilter, List.nil_append, if_pos rfl]

/-- The positions skipped on pause grounds are the due and, on a marking epoch, the
live exempt ones. -/
theorem heldOnPause_perm (markingEpoch : Bool) (paused : List Bytes32) (proofTime : U64)
    (positions : List PositionRecord) :
    ((positions.filter (duePaused paused proofTime)).map PositionRecord.hold ++
        liveHolds markingEpoch paused proofTime positions).Perm
      ((positions.filter (heldOnPause paused proofTime markingEpoch)).map PositionRecord.hold) := by
  let held := positions.filter (heldOnPause paused proofTime markingEpoch)
  have hdue : held.filter (fun b => decide (b.expiry ≤ proofTime)) =
      positions.filter (duePaused paused proofTime) := by
    rw [List.filter_filter]
    refine List.filter_congr fun b _ => ?_
    unfold heldOnPause duePaused
    by_cases hexp : b.expiry ≤ proofTime
    · simp [hexp]
    · simp [hexp]
  have hlive : (held.filter fun b => !decide (b.expiry ≤ proofTime)).map PositionRecord.hold =
      liveHolds markingEpoch paused proofTime positions := by
    unfold liveHolds
    rw [List.filter_filter]
    cases markingEpoch with
    | true =>
        rw [if_pos rfl]
        congr 1
        refine List.filter_congr fun b _ => ?_
        unfold heldOnPause livePaused
        by_cases hexp : b.expiry ≤ proofTime
        · simp [hexp, not_lt.mpr hexp]
        · simp [hexp, not_le.mp hexp]
    | false =>
        rw [if_neg (by simp), List.map_eq_nil_iff, List.filter_eq_nil_iff]
        intro b _
        unfold heldOnPause
        by_cases hexp : b.expiry ≤ proofTime
        · simp [hexp]
        · simp [hexp]
  rw [← hdue, ← hlive, ← List.map_append]
  exact (List.filter_append_perm _ held).map PositionRecord.hold

/-- A surface that lists exactly the skipped positions is complete. -/
theorem assertPausedHoldsComplete_of_perm {positions : List PositionRecord}
    {paused : List Bytes32} {proofTime : U64} {pausedHolds : List PausedHold}
    {markingEpoch : Bool}
    (h : pausedHolds.Perm ((positions.filter
      (heldOnPause paused proofTime markingEpoch)).map PositionRecord.hold)) :
    assertPausedHoldsComplete positions paused proofTime pausedHolds markingEpoch = .ok () := by
  unfold assertPausedHoldsComplete
  refine bind_eq_ok.mpr ⟨(), forM_eq_ok_iff.mpr ?_, ensure_of ?_⟩
  · intro b hb
    exact ensure_of (h.mem_iff.mpr (List.mem_map_of_mem hb))
  · rw [h.length_eq, List.length_map]

omit [Primitives] in
/-- The canonical order keeps the holds. -/
theorem canonicalHolds_perm (holds : List PausedHold) : (canonicalHolds holds).Perm holds :=
  sortBy_perm _ holds

omit [Primitives] in
theorem mem_canonicalIds {ids : List Bytes32} {x : Bytes32} : x ∈ canonicalIds ids ↔ x ∈ ids := by
  rw [canonicalIds, mem_dedupAdjacent, mem_sortBy]

omit [Primitives] in
theorem canonicalIds_nodup (ids : List Bytes32) : (canonicalIds ids).Nodup :=
  dedupAdjacent_nodup (sortBy_pairwise_le id ids)

omit [Primitives] in
/-- The processed ids in canonical order are a complete surface. -/
theorem assertOpenedPositionIdsComplete_canonical (nbs : List NewPosition) :
    assertOpenedPositionIdsComplete nbs (canonicalIds (nbs.map NewPosition.termsId)) = .ok () := by
  unfold assertOpenedPositionIdsComplete
  refine ensure_bind_eq_ok.mpr ⟨?_, ensure_of ?_⟩
  · rw [List.all_eq_true]
    intro x hx
    exact decide_eq_true (mem_canonicalIds.mp hx)
  · rw [List.all_eq_true]
    intro x hx
    exact decide_eq_true (mem_canonicalIds.mpr hx)

/-! ## Binding rows -/

/-- The leaf a row is bound to. -/
def TouchedAccount.boundLeaf (ta : TouchedAccount) : Option Bytes32 :=
  if ta.present then
    some (accountLeaf (accountIdSingle ta.account.accountOwner) ta.account.prevVmEquity
      ta.account.positionsRoot)
  else none

/-- The account key of a row. -/
def TouchedAccount.aid (ta : TouchedAccount) : Bytes32 :=
  accountIdSingle ta.account.accountOwner

/-- The checks of one row: its witnesses are its own, an absent row is empty, its book
opens its root, and its due positions are priced. -/
structure TouchedAccount.Binds (ta : TouchedAccount) (paused : List Bytes32) (proofTime : U64) :
    Prop where
  stateKey : ta.stateWitness.key = ta.aid
  registryKey : ∀ rw ∈ ta.registryWitness, rw.key = ta.aid
  absentAccount : ta.present = true ∨
    (ta.account.vmEquity = 0 ∧ ta.account.prevVmEquity = 0 ∧ ta.account.positionsRoot = 0)
  absentRisk : ta.present = true ∨
    (ta.risk.positions = [] ∧ ta.risk.provenTwaps = [] ∧ ta.risk.provenMarks = [])
  distinct : (ta.risk.positions.map PositionRecord.termsId).Nodup
  opens : positionsRoot ta.risk.positions = ta.account.positionsRoot
  due : ∀ b ∈ ta.risk.positions, MustSettle paused proofTime b →
    ta.risk.provenTwaps.any (positionTwapBindingOk b) = true

/-- What a row that binds is bound to. -/
def TouchedAccount.boundRow (ta : TouchedAccount) (paused : List Bytes32) (proofTime : U64) :
    BoundRow where
  prior := ta.boundLeaf
  holds := (ta.risk.positions.filter (duePaused paused proofTime)).map PositionRecord.hold

variable {paused : List Bytes32} {proofTime : U64}

/-- A row binds when it follows the key before it and passes its checks. -/
theorem bindRow_ok_iff {prevKey : Option Bytes32} {ta : TouchedAccount} {row : BoundRow} :
    bindRow paused proofTime prevKey ta = .ok row ↔
      (∀ k ∈ prevKey, k < ta.aid) ∧ ta.Binds paused proofTime ∧
        row = ta.boundRow paused proofTime := by
  have hopen : ∀ {f : Bool → Run BoundRow},
      positionsOpenRoot ta.risk.positions ta.account.positionsRoot >>= f = .ok row ↔
        (ta.risk.positions.map PositionRecord.termsId).Nodup ∧
          f (decide (positionsRoot ta.risk.positions = ta.account.positionsRoot)) = .ok row := by
    intro f
    unfold positionsOpenRoot
    rw [bind_assoc, bind_eq_ok]
    constructor
    · intro h
      rcases h with ⟨u, hunique, hrest⟩
      exact ⟨assertUniqueTermsId_eq_ok.mp hunique, hrest⟩
    · intro h
      exact ⟨(), assertUniqueTermsId_eq_ok.mpr h.1, h.2⟩
  unfold bindRow
  dsimp only
  rw [ensure_bind_eq_ok, ensure_bind_eq_ok, ensure_bind_eq_ok, ensure_bind_eq_ok,
    ensure_bind_eq_ok, hopen, ensure_bind_eq_ok, bind_eq_ok]
  constructor
  · intro h
    rcases h with ⟨hprev, hkey, hmember, haccount, hrisk, hids, hroot, holds, hdue, hrow⟩
    rcases assertDueBoxes_ok_iff.mp hdue with ⟨hpriced, rfl⟩
    refine ⟨?_, ⟨hkey, hmember, haccount, hrisk, hids, of_decide_eq_true hroot, hpriced⟩, ?_⟩
    · intro k hk
      rw [Option.mem_def.mp hk] at hprev
      exact of_decide_eq_true hprev
    · exact (Except.ok.inj hrow).symm
  · intro h
    rcases h with ⟨hprev, hbinds, rfl⟩
    refine ⟨?_, hbinds.stateKey, hbinds.registryKey, hbinds.absentAccount, hbinds.absentRisk,
      hbinds.distinct, decide_eq_true hbinds.opens, _,
      assertDueBoxes_ok_iff.mpr ⟨hbinds.due, rfl⟩, rfl⟩
    cases prevKey with
    | none => rfl
    | some k => exact decide_eq_true (hprev k rfl)

/-- Touched rows bind when their keys ascend and each passes its checks. -/
theorem bindRows_ok_iff {prevKey : Option Bytes32} {touched : List TouchedAccount}
    {bound : List BoundRow} :
    bindRows paused proofTime prevKey touched = .ok bound ↔
      (prevKey.toList ++ touched.map TouchedAccount.aid).IsChain (· < ·) ∧
      (∀ ta ∈ touched, ta.Binds paused proofTime) ∧
      bound = touched.map fun ta => ta.boundRow paused proofTime := by
  induction touched generalizing prevKey bound with
  | nil =>
      constructor
      · intro h
        cases h
        cases prevKey <;> simp
      · intro h
        rw [h.2.2]
        rfl
  | cons ta rest ih =>
      have hchain : (prevKey.toList ++ (ta :: rest).map TouchedAccount.aid).IsChain (· < ·) ↔
          (∀ k ∈ prevKey, k < ta.aid) ∧
            ((some ta.aid).toList ++ rest.map TouchedAccount.aid).IsChain (· < ·) := by
        cases prevKey with
        | none => simp
        | some k => simp [List.isChain_cons_cons]
      rw [hchain, bindRows, bind_eq_ok]
      constructor
      · intro h
        rcases h with ⟨row, hrow, h⟩
        rcases bind_eq_ok.mp h with ⟨rows, hrows, h⟩
        cases h
        rcases bindRow_ok_iff.mp hrow with ⟨hprev, hbinds, rfl⟩
        rcases ih.mp hrows with ⟨hascending, hall, rfl⟩
        refine ⟨⟨hprev, hascending⟩, ?_, rfl⟩
        intro ta' hta'
        rcases List.mem_cons.mp hta' with rfl | hrest
        · exact hbinds
        · exact hall ta' hrest
      · intro h
        rcases h with ⟨⟨hprev, hascending⟩, hall, rfl⟩
        refine ⟨_, bindRow_ok_iff.mpr ⟨hprev, hall ta List.mem_cons_self, rfl⟩, ?_⟩
        refine bind_eq_ok.mpr ⟨_, ih.mpr ⟨hascending, ?_, rfl⟩, rfl⟩
        exact fun ta' hta' => hall ta' (List.mem_cons_of_mem ta hta')

end Valves

end StateKeeper
