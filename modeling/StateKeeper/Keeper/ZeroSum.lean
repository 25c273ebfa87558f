import StateKeeper.Keeper.Acceptance
import StateKeeper.Tree.Reorder

/-!
# Keeper - Marking is zero-sum

On a marking epoch the guest accepts, every seat is valued at the epoch's own
marks: a prior seat finds in its row the mark it finds in the epoch, and a seat
just opened has to be marked by its row or the guest stops.  The value then
depends on the seat alone and changes sign with the side, so in a matched tree
the values cancel.

Main results:

- Theorem {lit}`sum_seats_eq_zero`: what changes sign with the side sums to zero
  over a matched tree.
- Theorem {lit}`marking_sum_zero`: the VMs of an accepted marking epoch sum to zero.
-/

namespace StateKeeper

open Words Fallible SortedKeys KeyedMap SaturatingSum

section Seats

variable [Primitives] {t : TreeState}

/-- In a well-formed tree every position is a seat. -/
theorem seats_eq_flatMap (hwf : t.WellFormed) :
    t.seats = t.accounts.toList.flatMap fun e => e.2.positions.map fun p => (e.2.owner, p) := by
  rw [TreeState.seats, List.filter_eq_self.mpr]
  intro e he
  exact decide_eq_true (hwf.key e.1 e.2 (mem_toList.mp he))

theorem seats_nodup (hwf : t.WellFormed) : t.seats.Nodup := by
  have howners : (t.accounts.toList.map fun e => e.2.owner).Nodup := by
    have hkeys : (t.accounts.toList.map fun e => e.2.owner).map accountIdSingle =
        t.accounts.toList.map Prod.fst := by
      rw [List.map_map]
      exact List.map_congr_left fun e he => hwf.key e.1 e.2 (mem_toList.mp he)
    exact List.Nodup.of_map accountIdSingle (hkeys ▸ nodup_toList_keys _)
  rw [seats_eq_flatMap hwf]
  refine nodup_flatMap_tagged howners fun e he => ?_
  exact List.Nodup.of_map _ (hwf.ascending e.1 e.2 (mem_toList.mp he)).nodup_map

/-- A value that changes sign from a seat to its mirror sums to zero over a matched tree. -/
theorem sum_seats_eq_zero (hwf : t.WellFormed) (hmatched : t.Matched) {f : PositionRecord → Int}
    (hf : ∀ owner p q, (p.side = 1 ∨ p.side = -1) → Mirrors owner p q → f q = -f p) :
    (t.seats.map fun s => f s.2).sum = 0 := by
  rw [← List.sum_toFinset _ (seats_nodup hwf)]
  have hheld : ∀ s ∈ t.seats.toFinset, t.Holds s.1 s.2 :=
    fun s hs => TreeState.mem_seats.mp (List.mem_toFinset.mp hs)
  have hpaired : ∀ s, ∃ q, s ∈ t.seats.toFinset →
      t.Holds s.2.counterparty q ∧ Mirrors s.1 s.2 q := by
    intro s
    by_cases hs : s ∈ t.seats.toFinset
    · rcases hmatched.mirrored s.1 s.2 (hheld s hs) with ⟨q, hq⟩
      exact ⟨q, fun _ => hq⟩
    · exact ⟨s.2, fun h => absurd h hs⟩
  choose mirror hmirror using hpaired
  have hmem : ∀ s ∈ t.seats.toFinset, (s.2.counterparty, mirror s) ∈ t.seats.toFinset :=
    fun s hs => List.mem_toFinset.mpr (TreeState.mem_seats.mpr (hmirror s hs).1)
  have hneg : ∀ s ∈ t.seats.toFinset, f (mirror s) = -f s.2 :=
    fun s hs => hf s.1 s.2 _ (hmatched.polar _ _ (hheld s hs)) (hmirror s hs).2
  refine Finset.sum_involution (fun s _ => (s.2.counterparty, mirror s)) ?_ ?_ hmem ?_
  · intro s hs
    rw [hneg s hs]
    omega
  · intro s hs hne hsame
    have hself : f (mirror s) = f s.2 := congrArg (fun s => f s.2) hsame
    rw [hneg s hs] at hself
    omega
  · intro s hs
    -- the mirror's mirror has the seat's id and owner, so it is the seat
    have hback := hmirror _ (hmem s hs)
    have howner : (mirror s).counterparty = s.1 := (hmirror s hs).2.counterparty
    have hholds := hback.1
    rw [howner] at hholds
    have hid := hback.2.termsId.trans (hmirror s hs).2.termsId
    exact Prod.ext howner (hwf.holds_unique (hheld s hs) hholds hid)

/-- The account totals of a value are its total over the seats. -/
theorem sum_accounts_eq_seats (hwf : t.WellFormed) (f : PositionRecord → Int) :
    (t.accounts.toList.map fun e => (e.2.positions.map f).sum).sum =
      (t.seats.map fun s => f s.2).sum := by
  rw [seats_eq_flatMap hwf, List.map_flatMap, List.flatMap_def, List.sum_flatten, List.map_map]
  refine congrArg List.sum (List.map_congr_left fun e _ => ?_)
  rw [Function.comp_apply, List.map_map]
  rfl

end Seats

/-! ## The values of an accepted marking epoch -/

section Marking

/-- Mirrored seats have opposite values at the same marks. -/
theorem markValue_mirror {marks : List ProvenMark} {owner : Address} {p q : PositionRecord}
    (hpolar : p.side = 1 ∨ p.side = -1) (h : Mirrors owner p q) :
    (markValue marks q).toInt = -(markValue marks p).toInt := by
  have hbinds : markBindsPosition q = markBindsPosition p := by
    funext m
    rw [markBindsPosition, markBindsPosition, h.oracle]
  unfold markValue boundMark
  rw [hbinds]
  cases marks.find? (markBindsPosition p) with
  | none => rfl
  | some m =>
      dsimp only
      cases settleNativeTo1e6 m.price m.expo with
      | error e => rfl
      | ok mark1e6 =>
          dsimp only
          rw [h.entryRate, h.notional, h.side]
          exact positionVm_neg _ _ _ hpolar

/-- A position marked by a row is marked as the epoch marks it. -/
theorem boundMark_marksFor_of_any {marks : List ProvenMark} {positions : List PositionRecord}
    {b : PositionRecord} (h : (marksFor marks positions).any (markBindsPosition b) = true) :
    boundMark (marksFor marks positions) b = boundMark marks b := by
  rcases List.any_eq_true.mp h with ⟨m, hm, hbinds⟩
  rcases List.any_eq_true.mp (List.mem_filter.mp hm).2 with ⟨c, hc, hbinds'⟩
  have hsame : markBindsPosition b = markBindsPosition c := by
    have horacle : b.oracle = c.oracle :=
      (beq_iff_eq.mp hbinds).symm.trans (beq_iff_eq.mp hbinds')
    funext m
    rw [markBindsPosition, markBindsPosition, horacle]
  have hfound : boundMark (marksFor marks positions) c = boundMark marks c := boundMark_marksFor hc
  unfold boundMark at hfound ⊢
  rw [hsame]
  exact hfound

variable [Primitives] {prior : TreeState} {inputs : EpochInputs} {table : ScenarioTable}
  {outcome : EpochOutcome} {out : StateTransitionOutputs}

/-- On an accepted marking epoch a framed row finds for each of its positions the mark the
epoch has for it. -/
theorem boundMark_of_accepted (hwf : prior.WellFormed)
    (h : resolveEpoch prior inputs table = .ok outcome)
    (hout : stateTransition (framedInputs prior inputs table outcome) = .ok out)
    (hmarking : markingEpochOf (epochRows prior inputs) = true) {e : Bytes32 × Address}
    (he : e ∈ keptOf prior outcome.post inputs) {b : PositionRecord}
    (hb : b ∈ (openedRow prior inputs e).2.positions) :
    boundMark (openedRow prior inputs e).2.provenMarks b = boundMark inputs.provenMarks b := by
  rw [openedRow_provenMarks]
  have hpositions := hb
  rw [openedRow_positions, List.mem_append] at hb
  rcases hb with hbook | hnew
  · exact boundMark_marksFor hbook
  · -- a new seat is live, and on an open pair by the guest's count of holds
    have hlive : MustMark inputs.pausedPairs inputs.proofNow b := by
      rcases mem_newSeats.mp hnew with ⟨nb, hnb, hlock, hseat⟩
      have hopen := open_of_accepted hwf h hout ((markingEpoch_iff hwf).mp hmarking) nb
        ⟨hnb, hlock⟩
      refine ⟨expiry_of_mem_newSeats hnew, ?_⟩
      rcases hseat with ⟨_, rfl⟩ | ⟨_, rfl⟩
      · exact hopen
      · exact hopen
    have hplain : (framedInputs prior inputs table outcome).Plain := ⟨rfl, rfl, rfl⟩
    rcases framed_stages hwf h hout with ⟨_, _, results, _, _, _, hresolved, _⟩
    rcases exists_of_mapM hresolved (List.mem_map_of_mem he) with ⟨result, _, hresult⟩
    rcases (resolveRow_plain_iff hplain).mp hresult with ⟨_, _, holds, _, hholds, _⟩
    have hmarked := (assertMarksComplete_ok_iff.mp hholds).1 hmarking b hpositions hlive
    rw [openedRow_provenMarks] at hmarked
    exact boundMark_marksFor_of_any hmarked

/-- The VM an accepted marking epoch leaves is the total of the account's seats at the
epoch's marks. -/
theorem vm_of_accepted (hwf : prior.WellFormed)
    (h : resolveEpoch prior inputs table = .ok outcome)
    (hout : stateTransition (framedInputs prior inputs table outcome) = .ok out)
    (hmarking : markingEpochOf (epochRows prior inputs) = true)
    (hexact : ∀ e ∈ touchedOf prior inputs,
      NeverClamps i128Min i128Max 0 (keptValues prior inputs e))
    {aid : Bytes32} {a : AccountState} (ha : outcome.post.accounts[aid]? = some a) :
    a.vmEquity.toInt =
      (a.positions.map fun p => (markValue inputs.provenMarks p).toInt).sum := by
  rcases (post_account_iff hwf h).mp ha with ⟨owner, he, haccount⟩
  rcases accountAfter_vm haccount with ⟨vm, hsome, hvm⟩
  rcases accountOf_eq_some.mp hsome.symm with ⟨_, _, hvmEquity, hpositions⟩
  have hkept : (aid, owner) ∈ keptOf prior outcome.post inputs := by
    refine mem_keptOf.mpr ⟨he, .inr ?_⟩
    rw [ha]
    rfl
  have hvalues : keptValues prior inputs (aid, owner) =
      (keptSeats prior inputs (aid, owner)).map fun p =>
        (markValue inputs.provenMarks p).toInt := by
    refine List.map_congr_left fun p hp => ?_
    have hmem := (mem_unretired.mp hp).1
    rw [markValue, markValue, boundMark_of_accepted hwf h hout hmarking hkept hmem]
  rw [hvmEquity, hvm, if_pos hmarking, satSum_of_neverClamps (hexact _ he), zero_add, hvalues,
    hpositions]
  exact (((sortBy_perm _ _).map _).sum_eq).symm

/-- Marking is zero-sum: over a matched tree, on a marking epoch whose frames the guest
accepts, the VMs of the tree it leaves sum to zero as long as no account's accumulation
saturates. -/
theorem marking_sum_zero (hwf : prior.WellFormed) (hmatched : prior.Matched)
    (hclosed : inputs.PricesClosed) {chainAccountsRoot : Bytes32} {frames : AdvanceFrames}
    {inp : StateTransitionInputs}
    (hbuild : buildAdvanceFrames prior inputs table chainAccountsRoot = .ok frames)
    (hread : readFrames frames.frames = some inp) (hout : stateTransition inp = .ok out)
    (h : resolveEpoch prior inputs table = .ok outcome)
    (hmarking : markingEpochOf (epochRows prior inputs) = true)
    (hexact : ∀ e ∈ touchedOf prior inputs,
      NeverClamps i128Min i128Max 0 (keptValues prior inputs e)) :
    (outcome.post.accounts.toList.map fun e => e.2.vmEquity.toInt).sum = 0 := by
  rcases buildAdvanceFrames_ok hbuild with ⟨_, _, outcome', h', hframes, _⟩
  have hsame := ok_unique h' h
  subst hsame
  rw [hread] at hframes
  have hinp : inp = framedInputs prior inputs table outcome' := Option.some.inj hframes
  subst hinp
  have hvms : (outcome'.post.accounts.toList.map fun e => e.2.vmEquity.toInt) =
      outcome'.post.accounts.toList.map fun e =>
        (e.2.positions.map fun p => (markValue inputs.provenMarks p).toInt).sum := by
    refine List.map_congr_left fun e he => ?_
    exact vm_of_accepted hwf h hout hmarking hexact (mem_toList.mp he)
  rw [hvms, sum_accounts_eq_seats (wellFormed_after hwf h)]
  exact sum_seats_eq_zero (wellFormed_after hwf h) (matched_after hwf hmatched h hclosed)
    fun _ _ _ hpolar hmirror => markValue_mirror hpolar hmirror

end Marking

section Samples

attribute [local instance] concretePrimitives

/-- The guest accepts the epoch and marks, and no account's accumulation saturates. -/
theorem crossedEpoch_marked :
    (fun r => (markingEpochOf (epochRows unitTree (crossedEpoch 1100000 1 (-1))),
      r.2.1.book.touched.length)) <$>
      advanceRun unitTree (crossedEpoch 1100000 1 (-1)) flatTable unitTree.accountsRoot =
        .ok (true, 2) ∧
    (fun outcome => (outcome.post.vm (accountIdSingle 10)).toInt) <$>
      resolveEpoch unitTree (crossedEpoch 1100000 1 (-1)) flatTable = .ok 100000 ∧
    ((touchedOf unitTree (crossedEpoch 1100000 1 (-1))).all fun e =>
      decide (NeverClamps i128Min i128Max 0
        (keptValues unitTree (crossedEpoch 1100000 1 (-1)) e))) = true := by
  decide +kernel

/-- An accepted epoch that marks the unit trade and two trades opened with it: both
parties end with a VM, and the two cancel. -/
theorem marking_sum_zero_crossed :
    ∃ outcome, resolveEpoch unitTree (crossedEpoch 1100000 1 (-1)) flatTable = .ok outcome ∧
      (outcome.post.vm (accountIdSingle 10)).toInt = 100000 ∧
      (outcome.post.accounts.toList.map fun e => e.2.vmEquity.toInt).sum = 0 := by
  rcases unitTree_reachable.wellFormed_matched with ⟨hwf, hmatched⟩
  obtain ⟨hrun, hvm, hexact⟩ := crossedEpoch_marked
  rcases map_eq_ok.mp hrun with ⟨⟨frames, inp, out⟩, hr, hflags⟩
  rcases advanceRun_ok hr with ⟨hbuild, hread, hout⟩
  have hmarking := (Prod.mk.inj hflags).1
  rcases map_eq_ok.mp hvm with ⟨outcome, houtcome, hvm⟩
  have hclosed : (crossedEpoch 1100000 1 (-1)).PricesClosed := by
    intro tw htw
    cases htw
  have hrows : ∀ e ∈ touchedOf unitTree (crossedEpoch 1100000 1 (-1)),
      NeverClamps i128Min i128Max 0
        (keptValues unitTree (crossedEpoch 1100000 1 (-1)) e) := by
    intro e he
    exact of_decide_eq_true (List.all_eq_true.mp hexact e he)
  refine ⟨outcome, houtcome, hvm, ?_⟩
  exact marking_sum_zero hwf hmatched hclosed hbuild hread hout houtcome hmarking hrows

end Samples

end StateKeeper
