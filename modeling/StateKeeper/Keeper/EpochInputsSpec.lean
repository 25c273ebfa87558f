import StateKeeper.Keeper.Concrete

/-!
# Keeper - Which marks the next epoch carries

The keeper keeps one record of each feed, the one of the greatest close time,
and only then asks whether it is fresh and non-negative.  A later record that is
not hides an earlier one that is.

Main results:

- Theorem {lit}`latestTwaps_spec`: the record kept of a feed.
- Theorem {lit}`freshEpochInputs_marks`: the marks of each feed.
-/

namespace StateKeeper

open Words Fallible SortedKeys KeyedMap

/-- A bound price is an hourly mark: fresh at the clock and not negative. -/
def TwapBoundRecord.Markable (t : TwapBoundRecord) (now : U64) : Prop :=
  markFresh t.closeTime now = true ∧ 0 ≤ t.twap.toInt

instance (t : TwapBoundRecord) (now : U64) : Decidable (t.Markable now) :=
  inferInstanceAs (Decidable (_ ∧ _))

/-- The record of a feed with the greatest close time. -/
structure TwapBoundRecord.LatestIn (t : TwapBoundRecord) (twaps : List TwapBoundRecord) :
    Prop where
  mem : t ∈ twaps
  latest : ∀ t' ∈ twaps, t'.feedId = t.feedId → t'.closeTime ≤ t.closeTime

/-- The marks of a list. -/
def marksOf (marks : List ProvenMark) (feed : Bytes32) : List ProvenMark :=
  marks.filter fun m => m.feedId = feed

/-- Each feed has exactly the mark of its latest record if that is markable, and none
otherwise. -/
structure LatestMarks (twaps : List TwapBoundRecord) (now : U64) (marks : List ProvenMark) :
    Prop where
  marked : ∀ t : TwapBoundRecord, t.LatestIn twaps → t.Markable now → marksOf marks t.feedId = [t.provenMark]
  unmarked : ∀ feed, (∀ t : TwapBoundRecord, t.LatestIn twaps → t.feedId = feed → ¬t.Markable now) →
    marksOf marks feed = []

variable {twaps : List TwapBoundRecord} {feed : Bytes32} {now : U64}

/-! ## The record kept of a feed -/

theorem latestTwaps_append {t : TwapBoundRecord} :
    latestTwaps (twaps ++ [t]) = (latestTwaps twaps).insert t.feedId
      (if t.closeTime > ((latestTwaps twaps).getD t.feedId t).closeTime then t
        else (latestTwaps twaps).getD t.feedId t) := by
  unfold latestTwaps
  rw [List.foldl_append]
  rfl

/-- The map holds a latest record of each feed that has records. -/
theorem latestTwaps_spec (twaps : List TwapBoundRecord) (feed : Bytes32) :
    (∀ t, (latestTwaps twaps)[feed]? = some t → t.feedId = feed ∧ t.LatestIn twaps) ∧
      ((latestTwaps twaps)[feed]? = none → ∀ t ∈ twaps, t.feedId ≠ feed) := by
  induction twaps using List.reverseRecOn with
  | nil => simp [latestTwaps]
  | append_singleton twaps t ih =>
      rw [latestTwaps_append, getElem?_insert_eq]
      by_cases hfeed : t.feedId = feed
      · rw [if_pos hfeed]
        refine ⟨?_, fun hnone => absurd hnone (by simp)⟩
        intro kept hkept
        rw [Std.ExtTreeMap.getD_eq_getD_getElem?, hfeed, Option.some_inj] at hkept
        cases hget : (latestTwaps twaps)[feed]? with
        | none =>
            -- the feed's first record
            have hothers := ih.2 hget
            rw [hget, Option.getD_none, ite_self] at hkept
            rw [← hkept]
            refine ⟨hfeed, by simp, ?_⟩
            intro t' ht' hsame
            rcases List.mem_append.mp ht' with hold | hnew
            · exact absurd (hsame.trans hfeed) (hothers t' hold)
            · rw [List.mem_singleton.mp hnew]
        | some e =>
            rcases ih.1 e hget with ⟨hefeed, helatest⟩
            rw [hget, Option.getD_some] at hkept
            by_cases hlater : t.closeTime > e.closeTime
            · rw [if_pos hlater] at hkept
              rw [← hkept]
              refine ⟨hfeed, by simp, ?_⟩
              intro t' ht' hsame
              rcases List.mem_append.mp ht' with hold | hnew
              · have hle := helatest.latest t' hold (by rw [hsame, hfeed, hefeed])
                exact hle.trans (le_of_lt hlater)
              · rw [List.mem_singleton.mp hnew]
            · rw [if_neg hlater] at hkept
              rw [← hkept]
              refine ⟨hefeed, List.mem_append_left _ helatest.mem, ?_⟩
              intro t' ht' hsame
              rcases List.mem_append.mp ht' with hold | hnew
              · exact helatest.latest t' hold hsame
              · rw [List.mem_singleton.mp hnew]
                exact not_lt.mp hlater
      · rw [if_neg hfeed]
        constructor
        · intro kept hkept
          rcases ih.1 kept hkept with ⟨hkfeed, hklatest⟩
          refine ⟨hkfeed, List.mem_append_left _ hklatest.mem, ?_⟩
          intro t' ht' hsame
          rcases List.mem_append.mp ht' with hold | hnew
          · exact hklatest.latest t' hold hsame
          · rw [List.mem_singleton.mp hnew] at hsame
            exact absurd (hsame.trans hkfeed) hfeed
        · intro hnone t' ht'
          rcases List.mem_append.mp ht' with hold | hnew
          · exact ih.2 hnone t' hold
          · rw [List.mem_singleton.mp hnew]
            exact hfeed

/-- With one record per feed and close time, the map holds every latest record. -/
theorem TwapBoundRecord.LatestIn.get {t : TwapBoundRecord} (ht : t.LatestIn twaps)
    (hdistinct : (twaps.map fun t => (t.feedId, t.closeTime)).Nodup) :
    (latestTwaps twaps)[t.feedId]? = some t := by
  rcases latestTwaps_spec twaps t.feedId with ⟨hkept, hnone⟩
  cases hget : (latestTwaps twaps)[t.feedId]? with
  | none => exact absurd rfl (hnone hget t ht.mem)
  | some e =>
      rcases hkept e hget with ⟨hfeed, helatest⟩
      have hle := helatest.latest t ht.mem hfeed.symm
      have hge := ht.latest e helatest.mem hfeed
      have hkey : (e.feedId, e.closeTime) = (t.feedId, t.closeTime) :=
        Prod.ext hfeed (le_antisymm hge hle)
      exact congrArg some (List.inj_on_of_nodup_map hdistinct helatest.mem ht.mem hkey)

/-! ## The marks -/

/-- The marks of a feed are those of the record kept of it. -/
theorem marksOf_freshMarks :
    marksOf (freshMarks twaps now) feed =
      ((latestTwaps twaps)[feed]?.toList.filter fun t => t.Markable now).map
        TwapBoundRecord.provenMark := by
  have hfeeds : ∀ e ∈ (latestTwaps twaps).toList, e.2.feedId = e.1 := by
    intro e he
    exact ((latestTwaps_spec twaps e.1).1 e.2 (mem_toList.mp he)).1
  have hentries : ((latestTwaps twaps).toList.filter fun e => e.2.feedId = feed) =
      ((latestTwaps twaps)[feed]?.map fun t => (feed, t)).toList := by
    rw [← filter_toList_key]
    refine List.filter_congr fun e he => ?_
    rw [hfeeds e he]
  have hvalues : (((latestTwaps twaps).toList.map Prod.snd).filter fun t => t.feedId = feed) =
      (latestTwaps twaps)[feed]?.toList := by
    rw [List.filter_map]
    change ((latestTwaps twaps).toList.filter fun e => e.2.feedId = feed).map Prod.snd = _
    rw [hentries]
    cases (latestTwaps twaps)[feed]? <;> rfl
  unfold marksOf freshMarks
  rw [List.filter_map, ← hvalues, List.filter_filter, List.filter_filter]
  congr 1
  refine List.filter_congr fun t _ => ?_
  rw [Bool.eq_iff_iff]
  simp only [Function.comp_apply, TwapBoundRecord.provenMark, TwapBoundRecord.Markable,
    Bool.and_eq_true, decide_eq_true_eq]
  constructor
  · intro h
    exact ⟨decide_eq_true h.2, of_decide_eq_true h.1⟩
  · intro h
    exact ⟨decide_eq_true h.2, of_decide_eq_true h.1⟩

/-- With one record per feed and close time, each feed is marked by its latest record, if
that is fresh and non-negative, and by nothing otherwise. -/
theorem freshEpochInputs_marks [Primitives] {history : ChainHistory} {state : TreeState}
    {domain : Bytes32} {inputs : EpochInputs}
    (hdistinct : (history.twaps.map fun t => (t.feedId, t.closeTime)).Nodup)
    (hrun : freshEpochInputs history state domain now = .ok inputs) :
    LatestMarks history.twaps now inputs.provenMarks := by
  have hmarks : inputs.provenMarks = freshMarks history.twaps now := by
    rcases bind_eq_ok.mp hrun with ⟨newPositions, _, hpure⟩
    cases hpure
    rfl
  rw [hmarks]
  constructor
  · intro t ht hmarkable
    rw [marksOf_freshMarks, ht.get hdistinct]
    simp [hmarkable]
  · intro feed hnone
    rw [marksOf_freshMarks]
    cases hget : (latestTwaps history.twaps)[feed]? with
    | none => rfl
    | some t =>
        rcases (latestTwaps_spec history.twaps feed).1 t hget with ⟨hfeed, hlatest⟩
        simp [hnone t hlatest hfeed]

section Samples

attribute [local instance] concretePrimitives

/-- Feed 3 has a price at close time 100 and one at close time 200. -/
def twoPricesHistory : ChainHistory :=
  { openedHistory [] with
    twaps :=
      [{ feedId := 3, closeTime := 100, twap := 5, expo := 0, block := 1 },
        { feedId := 3, closeTime := 200, twap := 6, expo := 0, block := 1 }] }

/-- At clock 250 the later price marks the feed. -/
theorem freshEpochInputs_marks_twoPrices :
    ∃ inputs, freshEpochInputs twoPricesHistory TreeState.default 92 250 = .ok inputs ∧
      LatestMarks twoPricesHistory.twaps 250 inputs.provenMarks :=
  ⟨_, rfl, freshEpochInputs_marks (by decide) rfl⟩

/-- At clock 150 the later price is in the future, and the earlier one, fresh and
non-negative, marks nothing. -/
theorem freshEpochInputs_hides_mark :
    (twoPricesHistory.twaps.map fun t => (t.feedId, t.closeTime)).Nodup ∧
      (∃ t ∈ twoPricesHistory.twaps, t.feedId = 3 ∧ t.Markable 150) ∧
      ∃ inputs, freshEpochInputs twoPricesHistory TreeState.default 92 150 = .ok inputs ∧
        marksOf inputs.provenMarks 3 = [] := by
  refine ⟨by decide, by decide, _, rfl, ?_⟩
  decide

end Samples

end StateKeeper
