import StateKeeper.Keeper.Concrete
import StateKeeper.Keeper.Pauses
import StateKeeper.Tree.Coverage
import StateKeeper.Tree.Prediction

/-!
# Keeper - Recovering the pause set

The replay guesses a fold's pause set from the block before the one it landed
in.  The guess moves only seats that a price of the epoch binds: it replays the
fold exactly when it agrees with the scanned set on the pairs of those seats.

Main results:

- Theorem {lit}`resolveEpoch_withPaused`: pause sets that agree on the priced
  seats resolve alike.
- Theorem {lit}`pauses_recovered_iff`: the landed folds that replay, in every run.
-/

namespace StateKeeper

open Words Fallible SortedKeys Runs

/-- The epoch with its pause set replaced. -/
def EpochInputs.withPaused (inputs : EpochInputs) (pausedPairs : List Bytes32) : EpochInputs :=
  { inputs with pausedPairs := pausedPairs }

section Replay

variable [Primitives]

/-- Two pause sets agree on the pairs of the held seats that a price binds. -/
def TreeState.PausesAgree (t : TreeState) (inputs : EpochInputs) (paused : List Bytes32) : Prop :=
  ∀ owner p, t.Holds owner p → inputs.PricesPosition p →
    positionPaused paused p = positionPaused inputs.pausedPairs p

variable {prior : TreeState} {inputs : EpochInputs} {table : ScenarioTable}
  {outcome : EpochOutcome} {paused : List Bytes32}

/-- Where the pause sets agree, the same seats of a touched row are retired. -/
theorem retires_withPaused (hwf : prior.WellFormed) (hagree : prior.PausesAgree inputs paused)
    (e : Bytes32 × Address) (p : PositionRecord) :
    retires paused (openedRow prior inputs e).2.provenTwaps p =
      retires inputs.pausedPairs (openedRow prior inputs e).2.provenTwaps p := by
  cases hbound : (boundTwap (openedRow prior inputs e).2.provenTwaps p).isSome with
  | false => rw [retires, retires, hbound, Bool.and_false, Bool.and_false]
  | true =>
      rcases exists_priced_of_openedRow hbound with ⟨q, hq, horacle, _, hpriced⟩
      have hsame := hagree _ q (holds_of_book inputs hwf hq) hpriced
      rw [positionPaused, positionPaused, horacle] at hsame
      rw [retires, retires, positionPaused, positionPaused, hsame]

omit [Primitives] in
/-- A row's resolve reads the pause set only through the settlements it lets through. -/
theorem resolveAccount_congr [Primitives] {paused' : List Bytes32} {owner : Address}
    {positions : List PositionRecord} {ss : List PositionSettlement} {vm : I128}
    (h : ∀ p ∈ positions, settlementFor paused ss p = settlementFor paused' ss p) :
    resolveAccount owner positions ss vm paused table =
      resolveAccount owner positions ss vm paused' table := by
  have hsurviving : survivingOf paused ss positions = survivingOf paused' ss positions := by
    unfold survivingOf
    refine congrArg _ (List.filter_congr fun p hp => ?_)
    rw [h p hp]
  have hcash : (positions.filterMap fun p =>
      (settlementFor paused ss p).bind (seatSettlement owner p)) =
      positions.filterMap fun p => (settlementFor paused' ss p).bind (seatSettlement owner p) :=
    List.filterMap_congr fun p hp => by rw [h p hp]
  have hcount : (positions.filter fun p => (settlementFor paused ss p).isSome) =
      positions.filter fun p => (settlementFor paused' ss p).isSome :=
    List.filter_congr fun p hp => by rw [h p hp]
  unfold resolveAccount
  rw [hsurviving, hcash, hcount]

/-- Pause sets that agree on the priced seats resolve the epoch alike. -/
theorem resolveEpoch_withPaused (hwf : prior.WellFormed)
    (h : resolveEpoch prior inputs table = .ok outcome)
    (hagree : prior.PausesAgree inputs paused) :
    resolveEpoch prior (inputs.withPaused paused) table = .ok outcome := by
  rcases (resolveEpoch_ok_iff hwf).mp h with ⟨hbound, hids, accounts, haccounts, heq⟩
  refine (resolveEpoch_ok_iff hwf).mpr ⟨hbound, hids, accounts, ?_, heq⟩
  rw [← haccounts]
  refine mapM_congr fun e he => ?_
  have hrow : replayRow (inputs.withPaused paused) table (markingEpochOf (epochRows prior inputs))
      (openedRow prior inputs e) = replayRow inputs table
        (markingEpochOf (epochRows prior inputs)) (openedRow prior inputs e) := by
    rcases openedRow_settles hwf h he with ⟨settled, hsettled⟩
    have hss := (positionSettlements_ok_iff.mp hsettled).2.1
    have hretires := retires_withPaused hwf hagree e
    have hvm : survivorsForVm paused settled.1 (openedRow prior inputs e).2.positions =
        survivorsForVm inputs.pausedPairs settled.1 (openedRow prior inputs e).2.positions := by
      rw [survivorsForVm_eq (hids e he) hss, survivorsForVm_eq (hids e he) hss]
      exact List.filter_congr fun p _ => by rw [hretires p]
    have htakes : ∀ p ∈ (openedRow prior inputs e).2.positions,
        settlementFor paused settled.1 p = settlementFor inputs.pausedPairs settled.1 p := by
      intro p hp
      have hsome := hretires p
      rw [← settlementFor_isSome (hids e he) hss hp, ← settlementFor_isSome (hids e he) hss hp]
        at hsome
      unfold settlementFor at hsome ⊢
      split at hsome
      · split at hsome
        · rename_i hone htwo
          rw [if_pos hone, if_pos htwo]
        · rename_i hone htwo
          rw [if_pos hone, if_neg htwo]
          exact (Option.isNone_iff_eq_none.mp (by rw [← Option.not_isSome, ← hsome]; rfl)).symm
      · split at hsome
        · rename_i hone htwo
          rw [if_neg hone, if_pos htwo]
          exact Option.isNone_iff_eq_none.mp (by rw [← Option.not_isSome, hsome]; rfl)
        · rename_i hone htwo
          rw [if_neg hone, if_neg htwo]
    unfold replayRow EpochInputs.withPaused
    dsimp only
    rw [hsettled, ok_bind, ok_bind, hvm]
    refine congrArg _ (funext fun vm => ?_)
    exact resolveAccount_congr htakes
  unfold accountAfter
  exact congrArg (· >>= _) hrow

/-! ## One fold -/

/-- The fold replays under a pause set: the epoch resolves to the committed roots, and
every seat is settled, or kept and re-marked, as the guest did. -/
structure Proof.Recovered (p : Proof) (table : ScenarioTable) (paused : List Bytes32) : Prop where
  resolves : ∃ outcome, resolveEpoch p.prior (p.inputs.withPaused paused) table = .ok outcome ∧
    outcome.post.root = p.out.roots.rootNew ∧
    outcome.post.accountsRoot = p.out.roots.accountsRootNew
  settles : ∀ owner q,
    RetiredIn paused (rowsAfter p.inputs.proofNow
        (epochRows p.prior (p.inputs.withPaused paused)) p.inputs.newPositions) owner q ↔
      RetiredIn p.guest.pausedPairs
        (rowsAfter p.guest.proofNow p.guest.rows p.guest.newPositions) owner q
  stays : ∀ owner q,
    StaysIn paused (rowsAfter p.inputs.proofNow
        (epochRows p.prior (p.inputs.withPaused paused)) p.inputs.newPositions) owner q ↔
      StaysIn p.guest.pausedPairs
        (rowsAfter p.guest.proofNow p.guest.rows p.guest.newPositions) owner q

/-- A row's resolve sees only which seats its pause set retires. -/
theorem Row.retires_withPaused_iff (hwf : prior.WellFormed)
    (h : resolveEpoch prior inputs table = .ok outcome) (hagree : prior.PausesAgree inputs paused)
    {e : Bytes32 × Address} (he : e ∈ touchedOf prior inputs) {q : PositionRecord} :
    ((openedRow prior inputs e).Retires paused q ↔
        (openedRow prior inputs e).Retires inputs.pausedPairs q) ∧
      ((openedRow prior inputs e).Stays paused q ↔
        (openedRow prior inputs e).Stays inputs.pausedPairs q) := by
  have hids := ((resolveEpoch_ok_iff hwf).mp h).2.1 e he
  have hsettles := openedRow_settles hwf h he
  rw [Row.retires_iff hids hsettles, Row.retires_iff hids hsettles, Row.stays_iff hids hsettles,
    Row.stays_iff hids hsettles, retires_withPaused hwf hagree e q]
  exact ⟨Iff.rfl, Iff.rfl⟩

/-- A built fold replays under a pause set exactly when the set agrees with the prover's
on the priced seats. -/
theorem Proof.recovered_iff (hk : KeccakNonzero) {p : Proof} (hbuilt : p.Built table) :
    p.Recovered table paused ↔ p.prior.PausesAgree p.inputs paused := by
  rcases hbuilt with ⟨hwf, _, ⟨frames, hbuild, hread⟩, hout⟩
  rcases buildAdvanceFrames_ok hbuild with ⟨_, _, outcome, hresolve, hframes, _, _, _⟩
  rw [hread] at hframes
  have hguest : p.guest = framedInputs p.prior p.inputs table outcome := Option.some.inj hframes
  have hrows : rowsAfter p.guest.proofNow p.guest.rows p.guest.newPositions =
      (keptOf p.prior outcome.post p.inputs).map (openedRow p.prior p.inputs) := by
    rw [hguest]
    exact rowsAfter_framed hwf hresolve
  have hreplayed : rowsAfter p.inputs.proofNow
      (epochRows p.prior (p.inputs.withPaused paused)) p.inputs.newPositions =
      (touchedOf p.prior p.inputs).map (openedRow p.prior p.inputs) :=
    rowsAfter_epochRows hwf p.inputs
  have hpaused : p.guest.pausedPairs = p.inputs.pausedPairs := by rw [hguest]; rfl
  have hretired : ∀ owner q, RetiredIn p.guest.pausedPairs
      (rowsAfter p.guest.proofNow p.guest.rows p.guest.newPositions) owner q ↔
        RetiredIn p.inputs.pausedPairs
          ((touchedOf p.prior p.inputs).map (openedRow p.prior p.inputs)) owner q := by
    intro owner q
    rw [hrows, hpaused]
    exact exists_kept_iff hwf hresolve fun row hrow => List.ne_nil_of_mem hrow.2.1
  have hstays : ∀ owner q, StaysIn p.guest.pausedPairs
      (rowsAfter p.guest.proofNow p.guest.rows p.guest.newPositions) owner q ↔
        StaysIn p.inputs.pausedPairs
          ((touchedOf p.prior p.inputs).map (openedRow p.prior p.inputs)) owner q := by
    intro owner q
    rw [hrows, hpaused]
    exact exists_kept_iff hwf hresolve fun row hrow => List.ne_nil_of_mem hrow.2.1
  constructor
  · intro hrecovered owner q hq hpriced
    have hsame := hrecovered.settles owner q
    rcases hrecovered.resolves with ⟨replayed, hreplay, _, _⟩
    rw [hreplayed, hretired, retiredIn_touched_iff hwf hresolve hq,
      retiredIn_touched_iff hwf hresolve hq, ← Bool.eq_iff_iff] at hsame
    have hbound : (boundTwap p.inputs.provenTwaps q).isSome = true := boundTwap_isSome.mpr hpriced
    rw [retires, retires, hbound, Bool.and_true, Bool.and_true] at hsame
    exact Bool.not_inj hsame
  · intro hagree
    have hcommits := committed_roots hk.on hwf hresolve (hguest ▸ hout)
    refine ⟨⟨outcome, resolveEpoch_withPaused hwf hresolve hagree, ?_, ?_⟩, ?_, ?_⟩
    · rw [hcommits]
    · rw [hcommits]
    · intro owner q
      rw [hreplayed, hretired]
      refine exists_congr fun row => and_congr_right fun hrow => and_congr_right fun _ => ?_
      rcases List.mem_map.mp hrow with ⟨e, he, rfl⟩
      exact (Row.retires_withPaused_iff hwf hresolve hagree he).1
    · intro owner q
      rw [hreplayed, hstays]
      refine exists_congr fun row => and_congr_right fun hrow => and_congr_right fun _ => ?_
      rcases List.mem_map.mp hrow with ⟨e, he, rfl⟩
      exact (Row.retires_withPaused_iff hwf hresolve hagree he).2

/-! ## Every run -/

omit [Primitives] in
/-- The pause set a rebuild reconstructs for a fold, from a log of {lit}`MarketSet` records. -/
def replayPaused (sets : List MarketSetRecord) (block : U64) : List Bytes32 :=
  ((pauseState (sets.filter fun m => m.block ≤ (if block = 0 then 0 else block - 1))).toList.filter
    Prod.snd).map Prod.fst

omit [Primitives] in
/-- It is the pause set of the fold's recovered inputs. -/
theorem foldInputs_pausedPairs {fold : FoldRecord} {history : ChainHistory} {inputs : EpochInputs}
    (h : foldInputs fold history = .ok inputs) :
    inputs.pausedPairs = replayPaused history.marketSets fold.block := by
  unfold foldInputs at h
  split at h
  · cases h
  · rcases bind_eq_ok.mp h with ⟨newPositions, _, h⟩
    rcases bind_eq_ok.mp h with ⟨marks, _, h⟩
    rcases bind_eq_ok.mp h with ⟨twaps, _, h⟩
    cases h
    rfl

/-- What holds in every run: the log is in block order, proofs are built, and what a
landed fold's block will replay with is already in the log. -/
structure PauseLane.Ordered (table : ScenarioTable) (s : PauseLane) : Prop where
  logged : ∀ m ∈ s.marketSets, m.block ≤ s.block
  proved : ∀ p ∈ s.proofs, p.Built table
  built : ∀ f ∈ s.landed, f.proof.Built table
  past : ∀ f ∈ s.landed, f.block ≠ 0 ∧ f.block ≤ s.block
  settled : ∀ f ∈ s.landed, replayPaused s.marketSets f.block = replayPaused f.before f.block

/-- Every step keeps the order. -/
theorem PauseLane.Ordered.step {s s' : PauseLane} (h : s.Ordered table)
    (hstep : PauseLane.Step table s s') : s'.Ordered table := by
  cases hstep with
  | mine block hlater =>
      exact ⟨fun m hm => le_trans (h.logged m hm) (le_of_lt hlater), h.proved, h.built,
        fun f hf => ⟨(h.past f hf).1, le_trans (h.past f hf).2 (le_of_lt hlater)⟩, h.settled⟩
  | setMarket m hblock =>
      refine ⟨?_, h.proved, h.built, h.past, ?_⟩
      · intro m' hm'
        rcases List.mem_append.mp hm' with hm' | hm'
        · exact h.logged m' hm'
        · rw [List.mem_singleton.mp hm', hblock]
      · intro f hf
        rw [← h.settled f hf]
        -- a record of this block is later than the block before a landed fold
        have hlate : ¬m.block ≤ (if f.block = 0 then 0 else f.block - 1) := by
          rcases h.past f hf with ⟨hne, hle⟩
          rw [if_neg hne, hblock]
          bv_omega
        unfold replayPaused
        rw [List.filter_append, List.filter_singleton, decide_eq_false hlate]
        simp
  | scan history _ _ => exact ⟨h.logged, h.proved, h.built, h.past, h.settled⟩
  | prove p _ hbuilt =>
      refine ⟨h.logged, ?_, h.built, h.past, h.settled⟩
      intro p' hp'
      rcases List.mem_append.mp hp' with hp' | hp'
      · exact h.proved p' hp'
      · rw [List.mem_singleton.mp hp']
        exact hbuilt
  | land p hp hlater _ _ _ =>
      refine ⟨h.logged, h.proved, ?_, ?_, ?_⟩
      · intro f hf
        rcases List.mem_append.mp hf with hf | hf
        · exact h.built f hf
        · rw [List.mem_singleton.mp hf]
          exact h.proved p hp
      · intro f hf
        rcases List.mem_append.mp hf with hf | hf
        · exact h.past f hf
        · rw [List.mem_singleton.mp hf]
          refine ⟨?_, le_refl _⟩
          change s.block ≠ 0
          intro hzero
          rw [hzero] at hlater
          exact absurd hlater (by bv_omega)
      · intro f hf
        rcases List.mem_append.mp hf with hf | hf
        · exact h.settled f hf
        · rw [List.mem_singleton.mp hf]

theorem PauseLane.ordered_of_reachable {s : PauseLane}
    (h : Reachable PauseLane.Genesis (PauseLane.Step table) s) : s.Ordered table := by
  refine h.invariant ?_ fun _ _ hs hstep => hs.step hstep
  intro s hs
  rcases hs with ⟨hsets, _, _, _, hproofs, hlanded⟩
  exact ⟨by simp [hsets], by simp [hproofs], by simp [hlanded], by simp [hlanded],
    by simp [hlanded]⟩

/-- In every run, over every later log, a landed fold replays under the pause set that
the rebuild reconstructs exactly when the records before its block agree with the scanned
set on the seats its prices bind. -/
theorem pauses_recovered_iff (hk : KeccakNonzero) {s : PauseLane}
    (h : Reachable PauseLane.Genesis (PauseLane.Step table) s) {f : Landing} (hf : f ∈ s.landed) :
    f.proof.Recovered table (replayPaused s.marketSets f.block) ↔
      f.proof.prior.PausesAgree f.proof.inputs (replayPaused f.before f.block) := by
  have hordered := PauseLane.ordered_of_reachable h
  rw [hordered.settled f hf]
  exact f.proof.recovered_iff hk (hordered.built f hf)

/-- A finished advance from a scan is a built proof. -/
theorem built_of_advance (hwf : prior.WellFormed)
    {r : AdvanceFrames × StateTransitionInputs × StateTransitionOutputs}
    (hadvance : advanceRun prior inputs table prior.accountsRoot = .ok r) {history : ChainHistory}
    (hpaused : inputs.pausedPairs = history.pausedPairsAt u64Max) :
    Proof.Built ⟨history, prior, inputs, r.2.1, r.2.2⟩ table := by
  rcases advanceRun_ok hadvance with ⟨hbuild, hread, hout⟩
  exact ⟨hwf, hpaused, ⟨r.1, hbuild, hread⟩, hout⟩

/-- A keeper scans the lane and proves an epoch from the scan. -/
theorem reachable_proved {s : PauseLane}
    (h : Reachable PauseLane.Genesis (PauseLane.Step table) s) {p : Proof} (hbuilt : p.Built table)
    (hlog : p.history.marketSets = s.marketSets) (hhead : p.history.head = s.block) :
    Reachable PauseLane.Genesis (PauseLane.Step table)
      { s with
        scans := s.scans ++ [p.history]
        proofs := s.proofs ++ [p] } := by
  have hscan := h.next (PauseLane.Step.scan p.history hlog hhead)
  refine hscan.next (PauseLane.Step.prove p ?_ hbuilt)
  exact List.mem_append_right _ List.mem_cons_self

/-- The roots a finished advance commits, and the tree it leaves. -/
theorem advance_committed (hk : KeccakNonzero) (hwf : prior.WellFormed)
    {r : AdvanceFrames × StateTransitionInputs × StateTransitionOutputs}
    (hadvance : advanceRun prior inputs table prior.accountsRoot = .ok r) {post : TreeState}
    (hpost : treeAfter prior inputs table = post) :
    r.2.2.roots.rootPrev = prior.root ∧ r.2.2.roots.accountsRootPrev = prior.accountsRoot ∧
      r.2.2.roots.rootNew = post.root ∧ r.2.2.roots.accountsRootNew = post.accountsRoot := by
  rcases advanceRun_ok hadvance with ⟨hbuild, hread, hout⟩
  rcases buildAdvanceFrames_ok hbuild with ⟨_, _, outcome, hresolve, hframes, _, _, _⟩
  rw [hread] at hframes
  rw [Option.some.inj hframes] at hout
  rw [committed_roots hk.on hwf hresolve hout, ← hpost, treeAfter, hresolve]
  exact ⟨rfl, rfl, rfl, rfl⟩

end Replay

/-! ## A pause between the scan and the landing -/

section Concrete

attribute [local instance] concretePrimitives

/-- A scan of a lane's pause switches at a block. -/
def scanAt (block : U64) : ChainHistory :=
  { openedHistory [] with head := block }

/-- The unit trade's pair is paused at block 3. -/
def unitPause : MarketSetRecord where
  block := 3
  logIndex := 0
  instrument := 1
  pairTag := pairTagOf 3
  enabled := true
  paused := true

/-- The lane before its first event. -/
def emptyLane : PauseLane where
  block := 1
  marketSets := []
  root := TreeState.default.root
  accountsRoot := TreeState.default.accountsRoot
  scans := []
  proofs := []
  landed := []

/-- The lane on which the unit trade was proved at block 1 and landed at block 2. -/
def tradedLane (p : Proof) : PauseLane where
  block := 2
  marketSets := []
  root := p.out.roots.rootNew
  accountsRoot := p.out.roots.accountsRootNew
  scans := [scanAt 1]
  proofs := [p]
  landed := [{ proof := p, block := 2, before := [] }]

/-- The proof of the unit trade. -/
structure Proof.OfUnitTrade (p : Proof) : Prop where
  prior : p.prior = TreeState.default
  rootNew : p.out.roots.rootNew = unitTree.root
  accountsRootNew : p.out.roots.accountsRootNew = unitTree.accountsRoot
  reachable : Reachable PauseLane.Genesis (PauseLane.Step flatTable) (tradedLane p)

/-- The price one of the unit trade's oracle at its expiry. -/
def expiryPrice : ProvenTwap where
  feedId := 3
  closeTime := 200
  settlePrice := 1000000
  expo := -6

/-- An epoch at clock 250 that settles the unit trade. -/
def settlingEpoch : EpochInputs where
  newPositions := []
  provenMarks := []
  provenTwaps := [expiryPrice]
  pausedPairs := []
  proofNow := 250
  domainSeparator := 92

/-- The trade and its settlement prove, and neither surfaces a hold; the replay holds the
pair. -/
theorem unitTrade_proved :
    (fun r => r.2.2.pausedHolds) <$>
      advanceRun TreeState.default (singleOpenEpoch 200) flatTable TreeState.default.accountsRoot =
      .ok [] ∧
    (fun r => r.2.2.pausedHolds) <$>
      advanceRun unitTree settlingEpoch flatTable unitTree.accountsRoot = .ok [] ∧
    (replayPaused [unitPause] 4).contains (pairTagOf 3) ≠
      settlingEpoch.pausedPairs.contains (pairTagOf 3) := by
  decide +kernel

/-- The unit trade is proved at block 1 and lands at block 2. -/
theorem exists_unitTrade : ∃ p : Proof, p.OfUnitTrade := by
  have hrun := unitTrade_proved.1
  rcases map_eq_ok.mp hrun with ⟨r, hr, hholds⟩
  rcases advance_committed Keccak.positiveKeccak256_ne_zero TreeState.default_wellFormed hr
    (show treeAfter _ _ _ = unitTree from rfl) with ⟨hrootPrev, haccountsPrev, hrootNew, haccountsNew⟩
  have hbuilt := built_of_advance TreeState.default_wellFormed hr
    (show (singleOpenEpoch 200).pausedPairs = (scanAt 1).pausedPairsAt u64Max from rfl)
  have hgenesis : Reachable PauseLane.Genesis (PauseLane.Step flatTable) emptyLane :=
    .start ⟨rfl, rfl, rfl, rfl, rfl, rfl⟩
  have hproved := reachable_proved hgenesis hbuilt rfl rfl
  have hmined := hproved.next (PauseLane.Step.mine 2 (show (1 : U64) < 2 by decide))
  refine ⟨⟨scanAt 1, TreeState.default, singleOpenEpoch 200, r.2.1, r.2.2⟩, rfl, hrootNew,
    haccountsNew, ?_⟩
  refine hmined.next (PauseLane.Step.land _ List.mem_cons_self
    (show (1 : U64) < 2 by decide) hrootPrev haccountsPrev ?_)
  intro h hh
  change h ∈ r.2.2.pausedHolds at hh
  rw [hholds] at hh
  cases hh

/-- A seat of the unit trade is held. -/
theorem exists_holds_unitTree :
    ∃ owner p, unitTree.Holds owner p ∧ p.oracle = 3 ∧ p.expiry = 200 := by
  have hseat := unitTree_opened.2.2.2.1
  rcases (Option.any_eq_true _ _).mp hseat with ⟨a, ha, hbook⟩
  rcases Bool.and_eq_true_iff.mp hbook with ⟨howner, hany⟩
  rcases List.any_eq_true.mp hany with ⟨p, hp, hfields⟩
  rw [Bool.and_eq_true, beq_iff_eq, beq_iff_eq] at hfields
  exact ⟨10, p, ⟨a, ha, beq_iff_eq.mp howner, hp⟩, hfields⟩

/-- The price of the settling epoch binds the seats of the unit trade. -/
theorem settlingEpoch_prices_of {q : PositionRecord} (horacle : q.oracle = 3)
    (hexpiry : q.expiry = 200) : settlingEpoch.PricesPosition q := by
  refine ⟨expiryPrice, List.mem_cons_self, ?_⟩
  rw [positionTwapBindingOk, horacle, hexpiry]
  decide

/-- A pause that the scan did not see is not the prover's. -/
theorem unitPause_disagrees :
    ¬unitTree.PausesAgree settlingEpoch (replayPaused [unitPause] 4) := by
  intro hagree
  rcases exists_holds_unitTree with ⟨owner, b, hb, horacle, hexpiry⟩
  have hpriced := settlingEpoch_prices_of horacle hexpiry
  have hsame := hagree owner b hb hpriced
  rw [positionPaused, positionPaused, horacle] at hsame
  exact unitTrade_proved.2.2 hsame

/-- The settling epoch is scanned at block 2 and lands at block 4, after a pause switch at
block 3 that its keeper did not see. -/
theorem exists_settledUnder (m : MarketSetRecord) (hm : m.block = 3) :
    ∃ s f, Reachable PauseLane.Genesis (PauseLane.Step flatTable) s ∧ f ∈ s.landed ∧
      s.marketSets = [m] ∧ f.block = 4 ∧ f.before = [m] ∧ f.proof.prior = unitTree ∧
      f.proof.inputs = settlingEpoch := by
  have hrun := unitTrade_proved.2.1
  have hwf := unitTree_reachable.wellFormed_matched.1
  rcases exists_unitTrade with ⟨p, hp⟩
  have hroot := hp.rootNew
  have haccounts := hp.accountsRootNew
  -- nothing below looks into the tree
  generalize unitTree = t at hrun hwf hroot haccounts ⊢
  rcases map_eq_ok.mp hrun with ⟨r, hr, hholds⟩
  rcases advance_committed Keccak.positiveKeccak256_ne_zero hwf hr rfl with
    ⟨hrootPrev, haccountsPrev, _, _⟩
  have hbuilt := built_of_advance hwf hr
    (show settlingEpoch.pausedPairs = (scanAt 2).pausedPairsAt u64Max from rfl)
  have hproved := reachable_proved hp.reachable hbuilt rfl rfl
  have hmined := hproved.next (PauseLane.Step.mine 3 (show (2 : U64) < 3 by decide))
  have hpaused := hmined.next (PauseLane.Step.setMarket m hm)
  have hlater := hpaused.next (PauseLane.Step.mine 4 (show (3 : U64) < 4 by decide))
  have hlanded := hlater.next (PauseLane.Step.land _ (List.mem_append_right _ List.mem_cons_self)
    (show (2 : U64) < 4 by decide) (hrootPrev.trans hroot.symm)
    (haccountsPrev.trans haccounts.symm) ?_)
  · exact ⟨_, _, hlanded, List.mem_append_right _ List.mem_cons_self, rfl, rfl, rfl, rfl, rfl⟩
  · intro h hh
    change h ∈ r.2.2.pausedHolds at hh
    rw [hholds] at hh
    cases hh

/-- The price of the settling epoch binds seats of its oracle only. -/
theorem settlingEpoch_prices {q : PositionRecord} (h : settlingEpoch.PricesPosition q) :
    q.oracle = 3 := by
  rcases h with ⟨tw, htw, hbinds⟩
  rw [List.mem_singleton.mp htw, positionTwapBindingOk, Bool.and_eq_true, beq_iff_eq] at hbinds
  rw [← hbinds.1]
  decide

/-- Another pair is paused between the scan and the landing: the fold, which settles the
seats of the unit trade, replays. -/
theorem pauses_recovered_unitTrade :
    ∃ s f, Reachable PauseLane.Genesis (PauseLane.Step flatTable) s ∧ f ∈ s.landed ∧
      s.marketSets = [{ unitPause with pairTag := pairTagOf 4 }] ∧
      (∃ owner q, f.proof.prior.Holds owner q ∧ f.proof.inputs.PricesPosition q) ∧
      f.proof.Recovered flatTable (replayPaused s.marketSets f.block) := by
  have hkept : (replayPaused [{ unitPause with pairTag := pairTagOf 4 }] 4).contains (pairTagOf 3) =
      settlingEpoch.pausedPairs.contains (pairTagOf 3) := by
    decide +kernel
  have hseat := exists_holds_unitTree
  rcases exists_settledUnder { unitPause with pairTag := pairTagOf 4 } rfl with
    ⟨s, f, hreach, hf, hsets, hblock, hbefore, hprior, hinputs⟩
  rw [← hprior] at hseat
  refine ⟨s, f, hreach, hf, hsets, ?_, ?_⟩
  · rcases hseat with ⟨owner, q, hq, horacle, hexpiry⟩
    rw [hinputs]
    exact ⟨owner, q, hq, settlingEpoch_prices_of horacle hexpiry⟩
  · apply (pauses_recovered_iff Keccak.positiveKeccak256_ne_zero hreach hf).mpr
    intro owner q _ hpriced
    rw [hinputs] at hpriced ⊢
    rw [hbefore, hblock, positionPaused, positionPaused, settlingEpoch_prices hpriced]
    exact hkept

/-- The pair of the unit trade is paused between the scan and the landing.  The fold surfaces
no hold, so it lands, and its replay holds the seats that the guest settled. -/
theorem pauses_not_recovered :
    ∃ s f, Reachable PauseLane.Genesis (PauseLane.Step flatTable) s ∧ f ∈ s.landed ∧
      s.marketSets = [unitPause] ∧ f.proof.inputs = settlingEpoch ∧
      ¬f.proof.Recovered flatTable (replayPaused s.marketSets f.block) := by
  have hdisagree := unitPause_disagrees
  rcases exists_settledUnder unitPause rfl with
    ⟨s, f, hreach, hf, hsets, hblock, hbefore, hprior, hinputs⟩
  refine ⟨s, f, hreach, hf, hsets, hinputs, ?_⟩
  have hbuilt := (PauseLane.ordered_of_reachable hreach).built f hf
  rw [Proof.recovered_iff Keccak.positiveKeccak256_ne_zero hbuilt, hprior, hinputs, hsets, hblock]
  exact hdisagree

end Concrete

end StateKeeper
