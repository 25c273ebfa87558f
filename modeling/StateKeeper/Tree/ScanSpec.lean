import StateKeeper.Foundation.KeyedMap
import StateKeeper.Tree.Scan

/-!
# Tree - Which pairs a scan reports as paused

The core's markets are keyed by instrument and pair tag, the scan's pause state
by the tag alone.  The last record of a tag decides, whichever of its markets it
is about, so a later record of one market hides the pause of another.

Main results:

- Theorem {lit}`mem_pausedPairsAt`: the last record of a tag decides.
- Theorem {lit}`pausedPairs_perMarket_iff`: when the answer is that of the markets.
-/

namespace StateKeeper

open Words SortedKeys KeyedMap

/-- The record leaves its market enabled and paused. -/
def MarketSetRecord.pauses (m : MarketSetRecord) : Bool :=
  m.enabled && m.paused

/-- The records up to a block. -/
def ChainHistory.setsUpTo (h : ChainHistory) (block : U64) : List MarketSetRecord :=
  h.marketSets.filter fun m => m.block ≤ block

/-- The last record of a tag up to a block is a pause. -/
def ChainHistory.TagPaused (h : ChainHistory) (block : U64) (tag : Bytes32) : Prop :=
  ∃ m, ((h.setsUpTo block).filter fun m => m.pairTag = tag).getLast? = some m ∧
    m.pauses = true

/-- The last record of a market up to a block is a pause. -/
def ChainHistory.MarketPaused (h : ChainHistory) (block : U64) (instrument : U8)
    (tag : Bytes32) : Prop :=
  ∃ m, ((h.setsUpTo block).filter fun m => m.instrument = instrument ∧ m.pairTag = tag).getLast? =
      some m ∧ m.pauses = true

/-- The pause state per market: a tag is listed exactly when some market of it is paused,
the list is strictly ascending, and records of later blocks do not change it. -/
structure ChainHistory.PausesPerMarket (h : ChainHistory) (block : U64) : Prop where
  listed : ∀ tag, tag ∈ h.pausedPairsAt block ↔ ∃ instrument, h.MarketPaused block instrument tag
  ascending : (h.pausedPairsAt block).Pairwise (· < ·)
  settled : ∀ later : List MarketSetRecord, (∀ m ∈ later, block < m.block) →
    { h with marketSets := h.marketSets ++ later }.pausedPairsAt block = h.pausedPairsAt block

variable {h : ChainHistory} {block : U64} {tag : Bytes32}

/-- The last record of a tag decides whether it is listed. -/
theorem mem_pausedPairsAt : tag ∈ h.pausedPairsAt block ↔ h.TagPaused block tag := by
  have hstate : (pauseState (h.setsUpTo block))[tag]? =
      ((h.setsUpTo block).filter fun m => m.pairTag = tag).getLast?.map MarketSetRecord.pauses := by
    have hlast : (pauseState (h.setsUpTo block))[tag]? = _ :=
      getElem?_foldl_insert MarketSetRecord.pairTag MarketSetRecord.pauses
    rw [Std.ExtTreeMap.getElem?_empty, Option.or_none] at hlast
    exact hlast
  have hlisted : tag ∈ h.pausedPairsAt block ↔ (pauseState (h.setsUpTo block))[tag]? = some true := by
    rw [ChainHistory.pausedPairsAt, List.mem_map]
    constructor
    · intro hmem
      rcases hmem with ⟨e, he, rfl⟩
      rcases List.mem_filter.mp he with ⟨hlist, hpaused⟩
      rw [mem_toList, hpaused] at hlist
      exact hlist
    · intro hget
      exact ⟨(tag, true), List.mem_filter.mpr ⟨mem_toList.mpr hget, rfl⟩, rfl⟩
  rw [hlisted, hstate, Option.map_eq_some_iff]
  exact Iff.rfl

/-- The listed tags are strictly ascending. -/
theorem pausedPairsAt_ascending : (h.pausedPairsAt block).Pairwise (· < ·) := by
  rw [ChainHistory.pausedPairsAt, List.pairwise_map]
  exact (toList_strict _).filter Prod.snd

/-- Records of later blocks do not change the list. -/
theorem pausedPairsAt_append {later : List MarketSetRecord} (hlater : ∀ m ∈ later, block < m.block) :
    { h with marketSets := h.marketSets ++ later }.pausedPairsAt block = h.pausedPairsAt block := by
  have hnone : (later.filter fun m => m.block ≤ block) = [] := by
    rw [List.filter_eq_nil_iff]
    intro m hm
    simpa using hlater m hm
  unfold ChainHistory.pausedPairsAt
  rw [List.filter_append, hnone, List.append_nil]

/-- The last record of a tag is the last record of its own market. -/
theorem MarketPaused.of_tag (htag : h.TagPaused block tag) :
    ∃ instrument, h.MarketPaused block instrument tag := by
  rcases htag with ⟨m, hlast, hpauses⟩
  refine ⟨m.instrument, m, ?_, hpauses⟩
  have hsplit : ((h.setsUpTo block).filter fun m' =>
      m'.instrument = m.instrument ∧ m'.pairTag = tag) =
      ((h.setsUpTo block).filter fun m' => m'.pairTag = tag).filter fun m' =>
        m'.instrument = m.instrument := by
    rw [List.filter_filter]
    refine List.filter_congr fun m' _ => ?_
    simp
  rw [hsplit]
  rcases List.getLast?_eq_some_iff.mp hlast with ⟨front, hfront⟩
  rw [hfront, List.filter_append]
  simp

/-- The answer is the markets' own exactly when no market of a tag is left paused by its
last record although the last record of the tag is not a pause. -/
theorem pausedPairs_perMarket_iff (h : ChainHistory) (block : U64) :
    h.PausesPerMarket block ↔
      ∀ tag m, ((h.setsUpTo block).filter fun m => m.pairTag = tag).getLast? = some m →
        m.pauses = false → ∀ instrument, ¬h.MarketPaused block instrument tag := by
  constructor
  · intro hmarkets tag m hlast hopen instrument hpaused
    rcases mem_pausedPairsAt.mp ((hmarkets.listed tag).mpr ⟨instrument, hpaused⟩) with
      ⟨m', hlast', hpauses⟩
    rw [hlast] at hlast'
    cases hlast'
    rw [hopen] at hpauses
    cases hpauses
  · intro hnone
    refine ⟨?_, pausedPairsAt_ascending, fun later hlater => pausedPairsAt_append hlater⟩
    intro tag
    rw [mem_pausedPairsAt]
    constructor
    · exact MarketPaused.of_tag
    · intro hmarket
      rcases hmarket with ⟨instrument, hmarket⟩
      cases hlast : ((h.setsUpTo block).filter fun m => m.pairTag = tag).getLast? with
      | none =>
          -- a market with a record gives the tag a record
          exfalso
          rcases hmarket with ⟨m, hm, _⟩
          rcases List.mem_filter.mp (List.mem_of_getLast? hm) with ⟨hmem, hboth⟩
          rw [List.getLast?_eq_none_iff, List.filter_eq_nil_iff] at hlast
          have hkeys := of_decide_eq_true hboth
          exact hlast m hmem (decide_eq_true hkeys.2)
      | some m =>
          cases hpauses : m.pauses with
          | true => exact ⟨m, hlast, hpauses⟩
          | false => exact absurd hmarket (hnone tag m hlast hpauses instrument)

/-- Two markets share a tag: instrument 1 is paused at block 1, instrument 2 is set and
not paused at block 2. -/
def sharedTagHistory : ChainHistory where
  opens := []
  folds := []
  twaps := []
  marketSets :=
    [{ block := 1, logIndex := 0, instrument := 1, pairTag := 7, enabled := true, paused := true },
      { block := 2, logIndex := 0, instrument := 2, pairTag := 7, enabled := true,
        paused := false }]
  head := 2

/-- The first market stays paused, and its tag is not listed. -/
theorem pausedPairs_hides_market :
    sharedTagHistory.MarketPaused 2 1 7 ∧ 7 ∉ sharedTagHistory.pausedPairsAt 2 := by
  refine ⟨⟨_, rfl, rfl⟩, ?_⟩
  rw [mem_pausedPairsAt]
  intro hpaused
  rcases hpaused with ⟨m, hlast, hpauses⟩
  cases hlast
  cases hpauses

end StateKeeper
