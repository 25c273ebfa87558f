import StateKeeper.Tree.Coverage
import StateKeeper.Tree.TermsIdentity

/-!
# Tree - Where a seat comes from

Every seat of a reached tree was put there by an open of the run, under the id of
that open's terms.  As long as keccak does not collide on the terms of the run, an
id therefore names one trade between two parties.

Main results:

- Theorem {lit}`TreeState.ReachedBy.openedBy`: every seat is a seat of an open.
- Theorem {lit}`TermsDistinct.parties`: an id determines its parties.
-/

namespace StateKeeper

open Words Fallible SortedKeys KeyedMap

section Provenance

variable [Primitives]

/-- Keccak does not collide on the terms of these opens. -/
def TermsDistinct (opens : List NewPosition) : Prop :=
  Set.InjOn Primitives.keccak256 {x | ∃ nb ∈ opens, x = nb.termsBuffer}

/-- The open puts this seat on the owner's book. -/
def NewPosition.Seats (nb : NewPosition) (owner : Address) (p : PositionRecord) : Prop :=
  nb.partyA = owner ∧ p = nb.seatA ∨ nb.partyB = owner ∧ p = nb.seatB

/-- Every seat of the tree is a seat of one of these opens, under the id of its terms. -/
def TreeState.OpenedBy (t : TreeState) (opens : List NewPosition) : Prop :=
  ∀ owner p, t.Holds owner p → ∃ nb ∈ opens, nb.recomputedId = nb.termsId ∧ nb.Seats owner p

/-- The trees a run of epochs reaches from empty, with the opens of the run. -/
inductive TreeState.ReachedBy : List NewPosition → TreeState → Prop where
  | empty : TreeState.ReachedBy [] TreeState.default
  | epoch {opens : List NewPosition} {t : TreeState} {inputs : EpochInputs}
      {table : ScenarioTable} {outcome : EpochOutcome} :
      TreeState.ReachedBy opens t → inputs.PricesClosed →
      resolveEpoch t inputs table = .ok outcome →
      TreeState.ReachedBy (opens ++ inputs.newPositions) outcome.post

/-- Every reachable tree is reached by the opens of its run. -/
theorem TreeState.Reachable.reachedBy {t : TreeState} (h : t.Reachable) :
    ∃ opens, TreeState.ReachedBy opens t := by
  induction h with
  | empty => exact ⟨[], .empty⟩
  | epoch _ hclosed hresolve ih =>
      rcases ih with ⟨opens, hopens⟩
      exact ⟨_, .epoch hopens hclosed hresolve⟩

theorem TreeState.ReachedBy.reachable {opens : List NewPosition} {t : TreeState}
    (h : TreeState.ReachedBy opens t) : t.Reachable := by
  induction h with
  | empty => exact .empty
  | epoch _ hclosed hresolve ih => exact .epoch ih hclosed hresolve

/-! ## Ids -/

theorem NewPosition.Seats.termsId {nb : NewPosition} {owner : Address} {p : PositionRecord}
    (h : nb.Seats owner p) : p.termsId = nb.termsId := by
  rcases h with ⟨_, rfl⟩ | ⟨_, rfl⟩
  · rfl
  · rfl

theorem recomputedId_eq (nb : NewPosition) :
    nb.recomputedId = Primitives.keccak256 nb.termsBuffer := by
  have hbuffer : nb.termsBuffer = _ := termsBuffer_eq
  rw [hbuffer, NewPosition.recomputedId, termsId, keccak]
  simp

/-- The terms name the two parties. -/
theorem parties_of_termsBuffer {nb nb' : NewPosition} (h : nb.termsBuffer = nb'.termsBuffer) :
    nb.partyA = nb'.partyA ∧ nb.partyB = nb'.partyB := by
  have hbuffer : ∀ nb : NewPosition, nb.termsBuffer = _ := fun nb => termsBuffer_eq
  rw [hbuffer, hbuffer] at h
  simp only [termsPreimage, List.append_assoc] at h
  have hrest := (append_inj_of_length (by simp) h).2
  rcases append_inj_of_length (by simp [wordOf]) hrest with ⟨hA, hrest⟩
  rcases append_inj_of_length (by simp [wordOf]) hrest with ⟨hB, _⟩
  rw [wordOf, wordOf] at hA hB
  have hbytesA := (append_inj_of_length rfl hA).2
  have hbytesB := (append_inj_of_length rfl hB).2
  exact ⟨beBytes_injective (by decide) hbytesA, beBytes_injective (by decide) hbytesB⟩

/-- Without a collision an id determines its parties. -/
theorem TermsDistinct.parties {opens : List NewPosition} (h : TermsDistinct opens)
    {nb nb' : NewPosition} (hnb : nb ∈ opens) (hnb' : nb' ∈ opens)
    (hid : nb.recomputedId = nb'.recomputedId) :
    nb.partyA = nb'.partyA ∧ nb.partyB = nb'.partyB := by
  rw [recomputedId_eq, recomputedId_eq] at hid
  exact parties_of_termsBuffer (h ⟨nb, hnb, rfl⟩ ⟨nb', hnb', rfl⟩ hid)

/-! ## Runs -/

/-- A seat after the opens of a touched row is a prior seat or a seat of an open. -/
theorem seat_of_openedRow {prior : TreeState} {inputs : EpochInputs} (hwf : prior.WellFormed)
    {e : Bytes32 × Address} {p : PositionRecord}
    (hp : p ∈ (openedRow prior inputs e).2.positions) :
    prior.Holds (openedRow prior inputs e).owner p ∨
      ∃ nb ∈ inputs.newPositions, inputs.proofNow < p.expiry ∧
        nb.Seats (openedRow prior inputs e).owner p := by
  rw [openedRow_positions, List.mem_append] at hp
  rcases hp with hbook | hnew
  · exact .inl (holds_of_book inputs hwf hbook)
  · right
    rcases mem_newSeats.mp hnew with ⟨nb, hnb, _, hseat⟩
    exact ⟨nb, hnb, expiry_of_mem_newSeats hnew, hseat⟩

/-- The seats of the touched rows of a resolved epoch are seats of the opens so far. -/
theorem TreeState.OpenedBy.openedRow {prior : TreeState} {inputs : EpochInputs}
    {table : ScenarioTable} {outcome : EpochOutcome} {opens : List NewPosition}
    (hopened : prior.OpenedBy opens) (hwf : prior.WellFormed)
    (h : resolveEpoch prior inputs table = .ok outcome) {e : Bytes32 × Address}
    {p : PositionRecord} (hp : p ∈ (openedRow prior inputs e).2.positions) :
    ∃ nb ∈ opens ++ inputs.newPositions, nb.recomputedId = nb.termsId ∧
      nb.Seats (StateKeeper.openedRow prior inputs e).owner p := by
  have hbound := ((resolveEpoch_ok_iff hwf).mp h).1
  rcases seat_of_openedRow hwf hp with hprior | ⟨nb, hnb, _, hseat⟩
  · rcases hopened _ _ hprior with ⟨nb, hnb, hid, hseat⟩
    exact ⟨nb, List.mem_append_left _ hnb, hid, hseat⟩
  · exact ⟨nb, List.mem_append_right _ hnb, (assertNewPositionBound_ok_iff.mp (hbound nb hnb)).1,
      hseat⟩

/-- Every seat of a reached tree is a seat of an open of the run. -/
theorem TreeState.ReachedBy.openedBy {opens : List NewPosition} {t : TreeState}
    (h : TreeState.ReachedBy opens t) : t.OpenedBy opens := by
  induction h with
  | empty => exact fun owner p hp => absurd hp TreeState.not_holds_default
  | epoch hreached _ hresolve ih =>
      have hwf := hreached.reachable.wellFormed_matched.1
      intro owner p hp
      rcases kept_of_holds hwf hresolve hp with ⟨e, _, rfl, hkept⟩
      exact ih.openedRow hwf hresolve (mem_unretired.mp hkept).1

end Provenance

end StateKeeper
