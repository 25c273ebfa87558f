import StateKeeper.Tree.Concrete
import StateKeeper.Tree.ReplaySpec

/-!
# Tree - The matched-principal invariant

Every tree an epoch run reaches from empty is well formed and matched: each
position faces a mirror of itself in its counterparty's book.  One epoch keeps
the seats no price retires and adds the two seats of each locked open, and both
are symmetric between the parties, so seats enter and leave in pairs.

Main results:

- Theorem {lit}`holds_after_iff`: the seats after an epoch.
- Theorem {lit}`reachable_matched`: the invariant on every reachable tree.
-/

namespace StateKeeper

open Words Fallible SortedKeys KeyedMap

/-- The mirror of an owner's seat: the same trade seen from the other side. -/
structure Mirrors (owner : Address) (p q : PositionRecord) : Prop where
  termsId : q.termsId = p.termsId
  counterparty : q.counterparty = owner
  side : q.side = -p.side
  oracle : q.oracle = p.oracle
  notional : q.notional = p.notional
  entryRate : q.entryRate = p.entryRate
  expiry : q.expiry = p.expiry
  marketKey : q.marketKey = p.marketKey

/-- The rail's prices close no later than the proof clock. -/
def EpochInputs.PricesClosed (inputs : EpochInputs) : Prop :=
  ∀ tw ∈ inputs.provenTwaps, tw.closeTime ≤ inputs.proofNow

section Invariant

variable [Primitives]

/-- An owner holds a position. -/
def TreeState.Holds (t : TreeState) (owner : Address) (p : PositionRecord) : Prop :=
  ∃ a, t.accounts[accountIdSingle owner]? = some a ∧ a.owner = owner ∧ p ∈ a.positions

/-- The seats held, each with its owner. -/
def TreeState.seats (t : TreeState) : List (Address × PositionRecord) :=
  (t.accounts.toList.filter fun e => accountIdSingle e.2.owner = e.1).flatMap fun e =>
    e.2.positions.map fun p => (e.2.owner, p)

theorem TreeState.mem_seats {t : TreeState} {owner : Address} {p : PositionRecord} :
    (owner, p) ∈ t.seats ↔ t.Holds owner p := by
  unfold TreeState.seats
  simp only [List.mem_flatMap, List.mem_filter, decide_eq_true_eq, List.mem_map, Prod.mk.injEq]
  constructor
  · rintro ⟨e, ⟨he, haid⟩, q, hq, rfl, rfl⟩
    refine ⟨e.2, ?_, rfl, hq⟩
    rw [haid]
    exact mem_toList.mp he
  · rintro ⟨a, ha, rfl, hp⟩
    exact ⟨(_, a), ⟨mem_toList.mpr ha, rfl⟩, p, hp, rfl, rfl⟩

/-- An owner holds a position of a trade against a counterparty. -/
def TreeState.Faces (t : TreeState) (owner counterparty : Address) (ident : Bytes32) : Prop :=
  ∃ p, t.Holds owner p ∧ p.counterparty = counterparty ∧ p.termsId = ident

/-- Every position is polar and faces its mirror. -/
structure TreeState.Matched (t : TreeState) : Prop where
  polar : ∀ owner p, t.Holds owner p → p.side = 1 ∨ p.side = -1
  mirrored : ∀ owner p, t.Holds owner p → ∃ q, t.Holds p.counterparty q ∧ Mirrors owner p q

/-! ## The seats of an open -/

theorem mem_newSeats {proofTime : U64} {owners : List Address} {nbs : List NewPosition}
    {owner : Address} {p : PositionRecord} :
    p ∈ newSeats proofTime owners nbs owner ↔
      ∃ nb ∈ nbs, nb.locks proofTime owners ∧
        (nb.partyA = owner ∧ p = nb.seatA ∨ nb.partyB = owner ∧ p = nb.seatB) := by
  have hseats : ∀ nb : NewPosition, p ∈ nb.seatsOf owner ↔
      nb.partyA = owner ∧ p = nb.seatA ∨ nb.partyB = owner ∧ p = nb.seatB := by
    intro nb
    unfold NewPosition.seatsOf
    by_cases ha : nb.partyA = owner <;> by_cases hb : nb.partyB = owner <;> simp [ha, hb]
  simp only [newSeats, List.mem_flatMap, List.mem_filter, decide_eq_true_eq, hseats, and_assoc]

/-- The two seats of an open mirror each other. -/
theorem NewPosition.seats_mirror (nb : NewPosition) :
    Mirrors nb.partyA nb.seatA nb.seatB ∧ Mirrors nb.partyB nb.seatB nb.seatA := by
  refine ⟨⟨rfl, rfl, rfl, rfl, rfl, rfl, rfl, rfl⟩, ⟨rfl, rfl, ?_, rfl, rfl, rfl, rfl, rfl⟩⟩
  simp [NewPosition.seatA, NewPosition.seatB]

/-- A new seat is live at the proof clock. -/
theorem expiry_of_mem_newSeats {proofTime : U64} {owners : List Address}
    {nbs : List NewPosition} {owner : Address} {p : PositionRecord}
    (h : p ∈ newSeats proofTime owners nbs owner) : proofTime < p.expiry := by
  obtain ⟨nb, -, hlock, ⟨-, rfl⟩ | ⟨-, rfl⟩⟩ := mem_newSeats.mp h
  · exact hlock.1
  · exact hlock.1

/-- A live seat is not retired by prices that have closed. -/
theorem retires_of_live {paused : List Bytes32} {provenTwaps : List ProvenTwap}
    {proofTime : U64} {p : PositionRecord} (hlive : proofTime < p.expiry)
    (hclosed : ∀ tw ∈ provenTwaps, tw.closeTime ≤ proofTime) :
    retires paused provenTwaps p = false := by
  rw [Bool.eq_false_iff]
  intro hretires
  obtain ⟨-, tw, htw, hbinds⟩ := retires_eq_true.mp hretires
  simp only [positionTwapBindingOk, Bool.and_eq_true, beq_iff_eq] at hbinds
  exact absurd (hbinds.2 ▸ hclosed tw htw) (not_le.mpr hlive)

omit [Primitives] in
/-- Mirrored seats find the same price. -/
theorem boundTwap_of_mirrors {provenTwaps : List ProvenTwap} {owner : Address}
    {p q : PositionRecord} (h : Mirrors owner p q) :
    boundTwap provenTwaps q = boundTwap provenTwaps p := by
  have hbinds : positionTwapBindingOk q = positionTwapBindingOk p := by
    funext tw
    rw [positionTwapBindingOk, positionTwapBindingOk, h.oracle, h.expiry]
  rw [boundTwap, boundTwap, hbinds]

/-- Mirrored seats are retired by the same prices. -/
theorem retires_of_mirrors {paused : List Bytes32} {provenTwaps : List ProvenTwap}
    {owner : Address} {p q : PositionRecord} (h : Mirrors owner p q) :
    retires paused provenTwaps q = retires paused provenTwaps p := by
  rw [retires, retires, boundTwap_of_mirrors h, positionPaused, positionPaused, h.oracle]

/-! ## The seats after an epoch -/

section Epoch

variable {prior : TreeState} {inputs : EpochInputs} {table : ScenarioTable}
  {outcome : EpochOutcome}

/-- The positions of a touched row after the opens. -/
theorem openedRow_positions (e : Bytes32 × Address) :
    (openedRow prior inputs e).2.positions = prior.book e.1 ++
      newSeats inputs.proofNow (ownersIn (epochRows prior inputs)) inputs.newPositions
        (openedRow prior inputs e).owner := by
  simp [openedRow]

theorem openedRow_provenTwaps (e : Bytes32 × Address) :
    (openedRow prior inputs e).2.provenTwaps = twapsFor inputs.provenTwaps (prior.book e.1) := by
  simp [openedRow]

theorem openedRow_provenMarks (e : Bytes32 × Address) :
    (openedRow prior inputs e).2.provenMarks = marksFor inputs.provenMarks (prior.book e.1) := by
  simp [openedRow]

/-- The positions of a touched row that no price of the row retires. -/
def keptSeats (prior : TreeState) (inputs : EpochInputs) (e : Bytes32 × Address) :
    List PositionRecord :=
  unretired inputs.pausedPairs (openedRow prior inputs e).2.provenTwaps
    (openedRow prior inputs e).2.positions

/-- A touched aid keeps an account exactly when it keeps a seat, with the kept seats in
order and a VM made from them. -/
theorem accountAfter_eq (e : Bytes32 × Address) {account : Option AccountState}
    (h : accountAfter prior inputs table e = .ok account) :
    ((openedRow prior inputs e).2.positions.map PositionRecord.termsId).Nodup ∧
    ∃ vm, newVmOf (markingEpochOf (epochRows prior inputs)) (openedRow prior inputs e).1
        (keptSeats prior inputs e) (openedRow prior inputs e).2.provenMarks = .ok vm ∧
      account = accountOf (openedRow prior inputs e).owner vm.1 (keptSeats prior inputs e) := by
  obtain ⟨r, hr, haccount⟩ := bind_eq_ok.mp h
  cases haccount
  exact replayRow_account hr

/-- The account an aid ends with, read off its row. -/
theorem post_account (hwf : prior.WellFormed) (h : resolveEpoch prior inputs table = .ok outcome)
    {aid : Bytes32} {a : AccountState} (ha : outcome.post.accounts[aid]? = some a) :
    ∃ owner, (aid, owner) ∈ touchedOf prior inputs ∧
      a.owner = (openedRow prior inputs (aid, owner)).owner ∧
      keptSeats prior inputs (aid, owner) ≠ [] ∧
      ((keptSeats prior inputs (aid, owner)).map PositionRecord.termsId).Nodup ∧
      a.positions = sortBy PositionRecord.termsId (keptSeats prior inputs (aid, owner)) := by
  obtain ⟨owner, htouched, haccount⟩ := (post_account_iff hwf h).mp ha
  obtain ⟨hids, vm, -, heq⟩ := accountAfter_eq _ haccount
  obtain ⟨hne, howner, -, hpositions⟩ := accountOf_eq_some.mp heq.symm
  exact ⟨owner, htouched, howner, hne, hids.sublist (List.filter_sublist.map _), hpositions⟩

/-- The aid of a touched row's owner is the row's key. -/
theorem accountId_of_openedRow (hwf : prior.WellFormed) {e : Bytes32 × Address}
    (he : e ∈ touchedOf prior inputs) :
    accountIdSingle (openedRow prior inputs e).owner = e.1 :=
  accountId_of_priorRow hwf (accountId_of_ownersOf hwf (mem_toList.mp he))

/-- The owner of a present account's row is the account's. -/
theorem owner_of_openedRow (inputs : EpochInputs) (e : Bytes32 × Address) {a : AccountState}
    (ha : prior.accounts[e.1]? = some a) : (openedRow prior inputs e).owner = a.owner := by
  change (priorRow prior inputs e.1 e.2).owner = a.owner
  unfold priorRow Row.owner
  rw [ha]

/-- Every owner among the touched rows has a touched row. -/
theorem exists_openedRow {x : Address} (hx : x ∈ ownersIn (epochRows prior inputs)) :
    ∃ e ∈ touchedOf prior inputs, (openedRow prior inputs e).owner = x := by
  rw [ownersIn, epochRows, List.map_map] at hx
  obtain ⟨e, he, howner⟩ := List.mem_map.mp hx
  exact ⟨e, he, howner⟩

/-- A present aid is touched. -/
theorem exists_touched_of_present (inputs : EpochInputs) {aid : Bytes32} {a : AccountState}
    (ha : prior.accounts[aid]? = some a) : ∃ owner, (aid, owner) ∈ touchedOf prior inputs := by
  have hmem : aid ∈ ownersOf prior inputs.newPositions := by
    refine mem_ownersOf.mpr (Or.inl ?_)
    rw [Std.ExtTreeMap.mem_iff_isSome_getElem?, ha]
    rfl
  rw [Std.ExtTreeMap.mem_iff_isSome_getElem?] at hmem
  obtain ⟨owner, howner⟩ := Option.isSome_iff_exists.mp hmem
  exact ⟨owner, mem_toList.mpr howner⟩

/-- A seat held after the epoch is a kept seat of its owner's row. -/
theorem kept_of_holds (hwf : prior.WellFormed) (h : resolveEpoch prior inputs table = .ok outcome)
    {x : Address} {p : PositionRecord} (hp : outcome.post.Holds x p) :
    ∃ e ∈ touchedOf prior inputs, (openedRow prior inputs e).owner = x ∧
      p ∈ keptSeats prior inputs e := by
  obtain ⟨a, ha, rfl, hmem⟩ := hp
  obtain ⟨owner, htouched, howner, -, -, hpositions⟩ := post_account hwf h ha
  rw [hpositions, mem_sortBy] at hmem
  exact ⟨_, htouched, howner.symm, hmem⟩

/-- A kept seat of a touched row is held after the epoch. -/
theorem holds_of_kept (hwf : prior.WellFormed) (h : resolveEpoch prior inputs table = .ok outcome)
    {e : Bytes32 × Address} (he : e ∈ touchedOf prior inputs) {p : PositionRecord}
    (hp : p ∈ keptSeats prior inputs e) :
    outcome.post.Holds (openedRow prior inputs e).owner p := by
  obtain ⟨-, vm, -, haccount⟩ := accountAfter_eq e (post_of_touched hwf h he)
  let a : AccountState :=
    { owner := (openedRow prior inputs e).owner
      vmEquity := vm.1
      positions := sortBy PositionRecord.termsId (keptSeats prior inputs e) }
  refine ⟨a, ?_, rfl, mem_sortBy.mpr hp⟩
  rw [accountId_of_openedRow hwf he, haccount]
  exact accountOf_eq_some.mpr ⟨List.ne_nil_of_mem hp, rfl, rfl, rfl⟩

/-- A seat that no price of the epoch retires is held on. -/
theorem holds_of_unretired (hwf : prior.WellFormed)
    (h : resolveEpoch prior inputs table = .ok outcome) {x : Address} {p : PositionRecord}
    (hp : prior.Holds x p) (hretires : retires inputs.pausedPairs inputs.provenTwaps p = false) :
    outcome.post.Holds x p := by
  obtain ⟨a, ha, rfl, hmem⟩ := hp
  obtain ⟨owner, htouched⟩ := exists_touched_of_present inputs ha
  have hbook : p ∈ prior.book (accountIdSingle a.owner) := by
    rw [TreeState.book, ha]
    exact hmem
  rw [← owner_of_openedRow inputs (accountIdSingle a.owner, owner) ha]
  refine holds_of_kept hwf h htouched (mem_unretired.mpr ⟨?_, ?_⟩)
  · rw [openedRow_positions]
    exact List.mem_append_left _ hbook
  · rw [openedRow_provenTwaps, retires_twapsFor hbook]
    exact hretires

/-- The seats after an epoch: those no price retires, and those of the locked opens. -/
theorem holds_after_iff (hwf : prior.WellFormed)
    (h : resolveEpoch prior inputs table = .ok outcome) (hclosed : inputs.PricesClosed)
    {x : Address} {p : PositionRecord} :
    outcome.post.Holds x p ↔
      (prior.Holds x p ∧ retires inputs.pausedPairs inputs.provenTwaps p = false) ∨
      p ∈ newSeats inputs.proofNow (ownersIn (epochRows prior inputs)) inputs.newPositions x := by
  constructor
  · intro hp
    obtain ⟨e, he, rfl, hkept⟩ := kept_of_holds hwf h hp
    obtain ⟨hmem, hretires⟩ := mem_unretired.mp hkept
    rw [openedRow_provenTwaps] at hretires
    rw [openedRow_positions, List.mem_append] at hmem
    rcases hmem with hbook | hnew
    · left
      rw [retires_twapsFor hbook] at hretires
      unfold TreeState.book at hbook
      cases ha : prior.accounts[e.1]? with
      | none =>
          rw [ha] at hbook
          cases hbook
      | some a =>
          rw [ha] at hbook
          rw [owner_of_openedRow inputs e ha]
          exact ⟨⟨a, by rw [hwf.key e.1 a ha, ha], rfl, hbook⟩, hretires⟩
    · exact Or.inr hnew
  · rintro (⟨hp, hretires⟩ | hnew)
    · exact holds_of_unretired hwf h hp hretires
    · have hx : x ∈ ownersIn (epochRows prior inputs) := by
        obtain ⟨nb, -, hlock, ⟨rfl, -⟩ | ⟨rfl, -⟩⟩ := mem_newSeats.mp hnew
        · exact hlock.2.1
        · exact hlock.2.2.1
      obtain ⟨e, he, rfl⟩ := exists_openedRow hx
      refine holds_of_kept hwf h he (mem_unretired.mpr ⟨?_, ?_⟩)
      · rw [openedRow_positions]
        exact List.mem_append_right _ hnew
      · rw [openedRow_provenTwaps]
        refine retires_of_live (expiry_of_mem_newSeats hnew) fun tw htw => ?_
        exact hclosed tw (List.mem_filter.mp htw).1

/-- An epoch keeps the tree well formed. -/
theorem wellFormed_after (hwf : prior.WellFormed)
    (h : resolveEpoch prior inputs table = .ok outcome) : outcome.post.WellFormed where
  key aid a ha := by
    obtain ⟨owner, htouched, howner, -⟩ := post_account hwf h ha
    rw [howner]
    exact accountId_of_openedRow hwf htouched
  nonempty aid a ha := by
    obtain ⟨owner, -, -, hne, -, hpositions⟩ := post_account hwf h ha
    rw [hpositions]
    exact fun hnil => hne (sortBy_eq_nil.mp hnil)
  ascending aid a ha := by
    obtain ⟨owner, -, -, -, hids, hpositions⟩ := post_account hwf h ha
    rw [hpositions]
    exact sortBy_strict hids

/-- An epoch keeps the tree matched. -/
theorem matched_after (hwf : prior.WellFormed) (hmatched : prior.Matched)
    (h : resolveEpoch prior inputs table = .ok outcome) (hclosed : inputs.PricesClosed) :
    outcome.post.Matched where
  polar x p hp := by
    rcases (holds_after_iff hwf h hclosed).mp hp with ⟨hprior, -⟩ | hnew
    · exact hmatched.polar x p hprior
    · obtain ⟨hbound, -⟩ := (resolveEpoch_ok_iff hwf).mp h
      obtain ⟨nb, hnb, -, hseat⟩ := mem_newSeats.mp hnew
      obtain ⟨-, -, -, -, hside⟩ := assertNewPositionBound_ok_iff.mp (hbound nb hnb)
      rcases hseat with ⟨-, rfl⟩ | ⟨-, rfl⟩
      · exact hside
      · rcases hside with hside | hside
        · right
          change -nb.sideA = -1
          rw [hside]
        · left
          change -nb.sideA = 1
          rw [hside]
          rfl
  mirrored x p hp := by
    rcases (holds_after_iff hwf h hclosed).mp hp with ⟨hprior, hretires⟩ | hnew
    · obtain ⟨q, hq, hmirror⟩ := hmatched.mirrored x p hprior
      refine ⟨q, (holds_after_iff hwf h hclosed).mpr (Or.inl ⟨hq, ?_⟩), hmirror⟩
      rw [retires_of_mirrors hmirror]
      exact hretires
    · obtain ⟨nb, hnb, hlock, ⟨rfl, rfl⟩ | ⟨rfl, rfl⟩⟩ := mem_newSeats.mp hnew
      · refine ⟨nb.seatB, (holds_after_iff hwf h hclosed).mpr (Or.inr ?_), nb.seats_mirror.1⟩
        exact mem_newSeats.mpr ⟨nb, hnb, hlock, Or.inr ⟨rfl, rfl⟩⟩
      · refine ⟨nb.seatA, (holds_after_iff hwf h hclosed).mpr (Or.inr ?_), nb.seats_mirror.2⟩
        exact mem_newSeats.mpr ⟨nb, hnb, hlock, Or.inl ⟨rfl, rfl⟩⟩

end Epoch

/-! ## Reachable trees -/

/-- The trees a run of epochs reaches from empty, over prices that have closed. -/
inductive TreeState.Reachable : TreeState → Prop where
  | empty : TreeState.Reachable TreeState.default
  | epoch {t : TreeState} {inputs : EpochInputs} {table : ScenarioTable} {outcome : EpochOutcome} :
      TreeState.Reachable t → inputs.PricesClosed →
      resolveEpoch t inputs table = .ok outcome → TreeState.Reachable outcome.post

/-- Nothing is held in the empty tree. -/
theorem TreeState.not_holds_default {owner : Address} {p : PositionRecord} :
    ¬TreeState.default.Holds owner p := by
  intro h
  rcases h with ⟨a, ha, _, _⟩
  simp [TreeState.default] at ha

theorem TreeState.default_matched : TreeState.default.Matched where
  polar _ _ h := absurd h TreeState.not_holds_default
  mirrored _ _ h := absurd h TreeState.not_holds_default

theorem TreeState.Reachable.wellFormed_matched {t : TreeState} (h : t.Reachable) :
    t.WellFormed ∧ t.Matched := by
  induction h with
  | empty => exact ⟨TreeState.default_wellFormed, TreeState.default_matched⟩
  | epoch _ hclosed hresolve ih =>
      exact ⟨wellFormed_after ih.1 hresolve, matched_after ih.1 ih.2 hresolve hclosed⟩

/-- In a matched tree a trade is held from both sides or from none. -/
theorem TreeState.Matched.faces_symm {t : TreeState} (h : t.Matched) {x y : Address}
    {ident : Bytes32} : t.Faces x y ident ↔ t.Faces y x ident := by
  have hone : ∀ x y, t.Faces x y ident → t.Faces y x ident := by
    rintro x y ⟨p, hp, rfl, rfl⟩
    obtain ⟨q, hq, hmirror⟩ := h.mirrored x p hp
    exact ⟨q, hq, hmirror.counterparty, hmirror.termsId⟩
  exact ⟨hone x y, hone y x⟩

/-- In a well-formed tree an owner holds at most one position of an id. -/
theorem TreeState.WellFormed.holds_unique {t : TreeState} (h : t.WellFormed) {x : Address}
    {p q : PositionRecord} (hp : t.Holds x p) (hq : t.Holds x q) (hid : q.termsId = p.termsId) :
    q = p := by
  obtain ⟨a, ha, -, hpa⟩ := hp
  obtain ⟨b, hb, -, hqb⟩ := hq
  rw [ha] at hb
  cases hb
  exact eq_of_key_eq (h.ascending _ a ha).nodup_map hqb hpa hid

/-- Every reachable tree is well formed; each of its positions is polar and faces exactly
one record of its id in the counterparty's book, its mirror; and the two seats of a trade
enter and leave the tree in the same epoch. -/
theorem reachable_matched {t : TreeState} (h : t.Reachable) :
    t.WellFormed ∧
    (∀ owner p, t.Holds owner p → (p.side = 1 ∨ p.side = -1) ∧
      ∃ q, t.Holds p.counterparty q ∧ Mirrors owner p q ∧
        ∀ q', t.Holds p.counterparty q' → q'.termsId = p.termsId → q' = q) ∧
    ∀ inputs table outcome, inputs.PricesClosed → resolveEpoch t inputs table = .ok outcome →
      ∀ x y ident,
        ((t.Faces x y ident ∧ ¬outcome.post.Faces x y ident) ↔
          (t.Faces y x ident ∧ ¬outcome.post.Faces y x ident)) ∧
        ((¬t.Faces x y ident ∧ outcome.post.Faces x y ident) ↔
          (¬t.Faces y x ident ∧ outcome.post.Faces y x ident)) := by
  obtain ⟨hwf, hmatched⟩ := h.wellFormed_matched
  refine ⟨hwf, ?_, ?_⟩
  · intro owner p hp
    obtain ⟨q, hq, hmirror⟩ := hmatched.mirrored owner p hp
    refine ⟨hmatched.polar owner p hp, q, hq, hmirror, fun q' hq' hid => ?_⟩
    exact hwf.holds_unique hq hq' (hid.trans hmirror.termsId.symm)
  · intro inputs table outcome hclosed hresolve x y ident
    have hafter := matched_after hwf hmatched hresolve hclosed
    rw [hmatched.faces_symm (x := x), hafter.faces_symm (x := x)]
    exact ⟨Iff.rfl, Iff.rfl⟩

end Invariant

/-! ## The tree of one trade -/

section Concrete

attribute [local instance] concretePrimitives

/-- The trade opens, and each of its two accounts holds one seat, which expires at 200. -/
theorem unitTree_opened :
    (resolveEpoch TreeState.default (singleOpenEpoch 200) flatTable).isOk = true ∧
      unitTree.accounts.size = 2 ∧
      (unitTree.accounts.toList.all fun e => e.2.positions.all fun p => p.expiry == 200) = true ∧
      (unitTree.accounts[accountIdSingle 10]?).any (fun a => a.owner == 10 &&
        a.positions.any fun p => p.oracle == 3 && p.expiry == 200) = true ∧
      (unitTree.accounts.toList.all fun e => e.2.positions.length == 1) = true := by
  decide +kernel

/-- One epoch of one trade reaches the tree of that trade. -/
theorem unitTree_reachable : unitTree.Reachable := by
  obtain ⟨outcome, hresolve, hpost⟩ := treeAfter_eq unitTree_opened.1
  rw [unitTree, ← hpost]
  exact .epoch .empty (by simp [EpochInputs.PricesClosed, singleOpenEpoch]) hresolve

theorem reachable_matched_unitTree : unitTree.accounts.size = 2 ∧ unitTree.WellFormed :=
  ⟨unitTree_opened.2.1, (reachable_matched unitTree_reachable).1⟩

end Concrete

end StateKeeper
