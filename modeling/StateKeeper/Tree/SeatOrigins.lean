import StateKeeper.Engine.UnwindSpec
import StateKeeper.Tree.Invariant
import StateKeeper.Tree.LandedFolds

/-!
# Tree - Where the seats of the ledger come from

No fold makes a seat up.  Whatever rows the hosts supply, a seat of the landed tree was
opened by a landed fold, or it was handed on from a party that held it.  The guest checks
every signature of such an open but the empty one, which it leaves to the chain.  Of a
seat's terms only the id and the margin ever change.

Main results:

- Theorem {lit}`Stages.Completed.origins`: a fold keeps every leg's origin.
- Theorem {lit}`landed_seats_opened`: the seats of every run of landed folds.
-/

namespace StateKeeper

open Words Fallible SortedKeys KeyedMap Runs

/-! ## Legs -/

/-- A held leg is a position of a row, under the row's owner. -/
theorem mem_booksOf {posts : List AccountPost} {x : Address × PositionRecord} :
    x ∈ booksOf posts ↔ ∃ p ∈ posts, p.owner = x.1 ∧ x.2 ∈ p.positions := by
  obtain ⟨owner, b⟩ := x
  induction posts with
  | nil => simp [booksOf]
  | cons p posts ih =>
      have hcons : booksOf (p :: posts) = p.legs + booksOf posts := by simp [booksOf]
      rw [hcons, Multiset.mem_add, ih, List.exists_mem_cons_iff]
      apply or_congr_left
      rw [AccountPost.legs, Multiset.mem_coe, List.mem_map]
      constructor
      · rintro ⟨b', hb', heq⟩
        cases heq
        exact ⟨rfl, hb'⟩
      · rintro ⟨rfl, hb⟩
        exact ⟨b, hb, rfl⟩

/-- What holds of every leg before a move, and passes from the leaving leg to the entering
one, holds of every leg after it. -/
theorem forall_legs_moved {P : Address × PositionRecord → Prop} {posts posts' : List AccountPost}
    {m : Handoff} (hdistinct : m.partyA ≠ m.partyC)
    (hbooks : booksOf posts' + {m.leaving} = booksOf posts + {m.entering})
    (hall : ∀ x ∈ booksOf posts, P x) (hmove : P m.leaving → P m.entering) :
    ∀ x ∈ booksOf posts', P x := by
  have hleaving : m.leaving ∈ booksOf posts := by
    have hmem : m.leaving ∈ booksOf posts + {m.entering} := by
      rw [← hbooks]
      exact Multiset.mem_add.mpr (Or.inr (Multiset.mem_singleton_self _))
    rcases Multiset.mem_add.mp hmem with hheld | hsame
    · exact hheld
    · exact absurd (congrArg Prod.fst (Multiset.mem_singleton.mp hsame)) hdistinct
  intro x hx
  have hmem : x ∈ booksOf posts + {m.entering} := by
    rw [← hbooks]
    exact Multiset.mem_add.mpr (Or.inl hx)
  rcases Multiset.mem_add.mp hmem with hheld | hentered
  · exact hall x hheld
  · rw [Multiset.mem_singleton.mp hentered]
    exact hmove (hall _ hleaving)

section Origins

variable [Primitives]

/-! ## Origins -/

/-- An open that a fold lists and the guest checked: each signature is its party's over the
open's id in the fold's domain, or it is empty, the sentinel of a party that is a contract,
which the guest leaves to the chain. -/
structure StateTransitionInputs.OpensChecked (inp : StateTransitionInputs) (nb : NewPosition) :
    Prop where
  listed : nb ∈ inp.newPositions
  ident : nb.recomputedId = nb.termsId
  signedA : SignerPasses (eip712Digest inp.domainSeparator nb.termsId) nb.sigA nb.partyA
  signedB : SignerPasses (eip712Digest inp.domainSeparator nb.termsId) nb.sigB nb.partyB
  rate : entryRateFromData nb.data = some nb.entryRate
  polar : nb.sideA = 1 ∨ nb.sideA = -1
  distinct : nb.partyA ≠ nb.partyB
  alive : inp.proofNow < nb.expiry

/-- The origin of a leg in the landed folds: an open of one of them, or a handoff of a leg
with an origin no later. -/
inductive SeatOrigin :
    List (StateTransitionInputs × Stages) → Address × PositionRecord → Prop where
  | earlier {front : List (StateTransitionInputs × Stages)} {f : StateTransitionInputs × Stages}
      {x : Address × PositionRecord} : SeatOrigin front x → SeatOrigin (front ++ [f]) x
  | openedA {front : List (StateTransitionInputs × Stages)} {f : StateTransitionInputs × Stages}
      {nb : NewPosition} : f.1.OpensChecked nb → SeatOrigin (front ++ [f]) (nb.partyA, nb.seatA)
  | openedB {front : List (StateTransitionInputs × Stages)} {f : StateTransitionInputs × Stages}
      {nb : NewPosition} : f.1.OpensChecked nb → SeatOrigin (front ++ [f]) (nb.partyB, nb.seatB)
  | novated {front : List (StateTransitionInputs × Stages)} {f : StateTransitionInputs × Stages}
      {e : Novation × NovationWitness} : e ∈ f.1.novations.zip f.1.novationWitnesses →
      NovationSound f.1.domainSeparator e → SeatOrigin (front ++ [f]) (novationMove e).leaving →
      SeatOrigin (front ++ [f]) (novationMove e).entering
  | closedOut {front : List (StateTransitionInputs × Stages)}
      {f : StateTransitionInputs × Stages} {e : CloseoutNovation × CloseoutNovationWitness}
      {mark : U128} : e ∈ f.1.closeoutNovations.zip f.1.closeoutNovationWitnesses →
      CloseoutSound f.1.domainSeparator f.1.proofNow e mark →
      SeatOrigin (front ++ [f]) (closeoutMove e).leaving →
      SeatOrigin (front ++ [f]) (closeoutMove e).entering

/-! ## One fold -/

variable {inp : StateTransitionInputs} {st : Stages}

/-- The opens of a completed fold are bound in its domain. -/
theorem Stages.Completed.opensChecked (h : st.Completed inp) {nb : NewPosition}
    (hnb : nb ∈ inp.newPositions) (hlock : nb.locks inp.proofNow (ownersIn inp.rows)) :
    inp.OpensChecked nb := by
  obtain ⟨hbound, _, _⟩ := applyNewBoxesToBook_ok_iff.mp h.opened
  obtain ⟨hid, hsigA, hsigB, hrate, hside⟩ := assertNewPositionBound_ok_iff.mp (hbound nb hnb)
  rw [h.gated.domain nb hnb] at hsigA hsigB
  exact ⟨hnb, hid, hsigA, hsigB, hrate, hside, hlock.2.2.2.1, hlock.1⟩

/-- A leg of the resolved rows was a leg of its touched row, or is a seat of an open. -/
theorem Stages.Completed.resolved_legs (h : st.Completed inp) {x : Address × PositionRecord}
    (hx : x ∈ booksOf (st.results.map RowResult.post)) :
    (∃ ta ∈ inp.book.touched, ta.account.accountOwner = x.1 ∧ x.2 ∈ ta.risk.positions) ∨
      ∃ nb, inp.OpensChecked nb ∧ (x = (nb.partyA, nb.seatA) ∨ x = (nb.partyB, nb.seatB)) := by
  obtain ⟨p, hp, howner, hin⟩ := mem_booksOf.mp hx
  obtain ⟨r, hr, rfl⟩ := List.mem_map.mp hp
  obtain ⟨e, he, hrow⟩ := exists_of_mem_mapM h.resolved hr
  have hcloses := resolveRow_closes hrow
  have hseat : x.2 ∈ e.1.2.positions := by
    rw [hcloses.kept, mem_sortBy] at hin
    exact (List.mem_filter.mp hin).1
  have hrowOwner : e.1.owner = x.1 := hcloses.owner.symm.trans howner
  have hmem : e.1 ∈ st.accounts := (List.of_mem_zip he).1
  rw [h.opens_eq.1, rowsAfter_eq_map h.rows_nodup] at hmem
  obtain ⟨row, hrow', heq⟩ := List.mem_map.mp hmem
  rw [← heq, Row.append_owner] at hrowOwner
  rw [← heq, Row.append_positions, hrowOwner] at hseat
  rcases List.mem_append.mp hseat with hheld | hnew
  · obtain ⟨ta, hta, rfl⟩ := List.mem_map.mp hrow'
    exact Or.inl ⟨ta, hta, hrowOwner, hheld⟩
  · obtain ⟨nb, hnb, hlock, hparty⟩ := mem_newSeats.mp hnew
    refine Or.inr ⟨nb, h.opensChecked hnb hlock, ?_⟩
    rcases hparty with ⟨hA, hp⟩ | ⟨hB, hp⟩
    · exact Or.inl (Prod.ext hA.symm hp)
    · exact Or.inr (Prod.ext hB.symm hp)

/-- A completed fold on rows whose legs have origins leaves rows whose legs have origins. -/
theorem Stages.Completed.origins (h : st.Completed inp)
    {front : List (StateTransitionInputs × Stages)}
    (hread : ∀ ta ∈ inp.book.touched, ∀ b ∈ ta.risk.positions,
      SeatOrigin front (ta.account.accountOwner, b)) :
    ∀ x ∈ booksOf st.closed.posts, SeatOrigin (front ++ [(inp, st)]) x := by
  have hresolved : ∀ x ∈ booksOf (st.results.map RowResult.post),
      SeatOrigin (front ++ [(inp, st)]) x := by
    intro x hx
    rcases h.resolved_legs hx with ⟨ta, hta, howner, hb⟩ | ⟨nb, hnb, hseat⟩
    · have hheld := hread ta hta x.2 hb
      rw [howner] at hheld
      exact hheld.earlier
    · rcases hseat with rfl | rfl
      · exact .openedA hnb
      · exact .openedB hnb
  have hmoved : ∀ x ∈ booksOf st.moved.1, SeatOrigin (front ++ [(inp, st)]) x := by
    apply foldlM_invariant (fun acc => ∀ x ∈ booksOf acc.1, SeatOrigin (front ++ [(inp, st)]) x)
      _ hresolved h.novated
    intro acc e acc' he hall hstep
    obtain ⟨hsound, _, hbooks, _⟩ := novationStep_ok hstep
    exact forall_legs_moved hsound.distinct hbooks hall fun hleaving =>
      .novated he hsound hleaving
  apply foldlM_invariant
    (fun acc => ∀ x ∈ booksOf acc.posts, SeatOrigin (front ++ [(inp, st)]) x) _ hmoved h.closedOut
  intro acc e acc' he hall hstep
  obtain ⟨mark, hsound, _, hbooks, _⟩ := closeoutStep_ok hstep
  exact forall_legs_moved hsound.distinct hbooks hall fun hleaving =>
    .closedOut he hsound hleaving

/-! ## The landed tree -/

/-- Every seat of the tree has an origin in the folds. -/
def TreeState.Originates (t : TreeState) (folds : List (StateTransitionInputs × Stages)) : Prop :=
  ∀ (aid : Bytes32) (a : AccountState), t.accounts[aid]? = some a → ∀ b ∈ a.positions,
    SeatOrigin folds (a.owner, b)

/-- Rows whose legs have origins, put in a tree whose seats have, leave one whose seats
have. -/
theorem TreeState.Originates.putAll {folds : List (StateTransitionInputs × Stages)}
    {posts : List AccountPost} {t : TreeState} (h : t.Originates folds)
    (hlegs : ∀ x ∈ booksOf posts, SeatOrigin folds x) : (t.putAll posts).Originates folds := by
  induction posts generalizing t with
  | nil => exact h
  | cons p posts ih =>
      have hrest : ∀ x ∈ booksOf posts, SeatOrigin folds x := by
        intro x hx
        obtain ⟨q, hq, hleg⟩ := mem_booksOf.mp hx
        exact hlegs x (mem_booksOf.mpr ⟨q, List.mem_cons_of_mem _ hq, hleg⟩)
      have hput : (t.put p).Originates folds := by
        intro aid a ha b hb
        rw [t.getElem?_put] at ha
        by_cases hk : p.aid = aid
        · rw [if_pos hk] at ha
          unfold AccountPost.account at ha
          by_cases hempty : p.positions.isEmpty
          · rw [if_pos hempty] at ha
            cases ha
          · rw [if_neg hempty] at ha
            cases ha
            exact hlegs (p.owner, b) (mem_booksOf.mpr ⟨p, List.mem_cons_self, rfl, hb⟩)
        · rw [if_neg hk] at ha
          exact h aid a ha b hb
      exact ih hput hrest

/-- The tree of folds that each read the tree before them has origins in them. -/
theorem treeOf_originates {folds : List (StateTransitionInputs × Stages)}
    (hcompleted : ∀ f ∈ folds, f.2.Completed f.1)
    (hreads : ∀ front f rest, folds = front ++ f :: rest →
      ∀ ta ∈ f.1.book.touched, ta.Reads (treeOf front).accounts[ta.aid]?) :
    (treeOf folds).Originates folds := by
  induction folds using List.reverseRecOn with
  | nil =>
      intro aid a ha
      simp [treeOf, TreeState.default] at ha
  | append_singleton front f ih =>
      have hfront : (treeOf front).Originates front := by
        apply ih fun g hg => hcompleted g (List.mem_append_left _ hg)
        intro front' g rest hsplit
        apply hreads front' g (rest ++ [f])
        rw [hsplit, List.append_assoc, List.cons_append]
      have hread : ∀ ta ∈ f.1.book.touched, ∀ b ∈ ta.risk.positions,
          SeatOrigin front (ta.account.accountOwner, b) := by
        intro ta hta b hb
        have hheld := hreads front f [] rfl ta hta
        cases ha : (treeOf front).accounts[ta.aid]? with
        | none =>
            rw [(hheld.absent ha).1] at hb
            cases hb
        | some a =>
            obtain ⟨howner, _, hperm⟩ := hheld.account a ha
            rw [← howner]
            exact hfront ta.aid a ha b (hperm.subset hb)
      have htree : treeOf (front ++ [f]) = (treeOf front).putAll f.2.closed.posts := by
        rw [treeOf, List.foldl_append]
        rfl
      rw [htree]
      apply TreeState.Originates.putAll
      · exact fun aid a ha b hb => (hfront aid a ha b hb).earlier
      · exact (hcompleted f (List.mem_append_right _ List.mem_cons_self)).origins hread

/-- A leg with an origin has the terms of an open that a landed fold checked, apart from its
id and its margin. -/
theorem SeatOrigin.terms {folds : List (StateTransitionInputs × Stages)}
    {x : Address × PositionRecord} (h : SeatOrigin folds x) :
    ∃ f ∈ folds, ∃ nb, f.1.OpensChecked nb ∧ ∃ seat, (seat = nb.seatA ∨ seat = nb.seatB) ∧
      x.2 = { seat with termsId := x.2.termsId, pushedIm := x.2.pushedIm } := by
  induction h with
  | earlier _ ih =>
      obtain ⟨g, hg, hopens⟩ := ih
      exact ⟨g, List.mem_append_left _ hg, hopens⟩
  | @openedA front f nb hnb =>
      exact ⟨f, List.mem_append_right _ List.mem_cons_self, nb, hnb, _, Or.inl rfl, rfl⟩
  | @openedB front f nb hnb =>
      exact ⟨f, List.mem_append_right _ List.mem_cons_self, nb, hnb, _, Or.inr rfl, rfl⟩
  | novated _ _ _ ih =>
      obtain ⟨g, hg, nb, hnb, seat, hseat, hterms⟩ := ih
      refine ⟨g, hg, nb, hnb, seat, hseat, ?_⟩
      rw [Handoff.entering, movedPosition]
      rw [Handoff.leaving] at hterms
      dsimp only at hterms ⊢
      rw [hterms]
  | closedOut _ _ _ ih =>
      obtain ⟨g, hg, nb, hnb, seat, hseat, hterms⟩ := ih
      refine ⟨g, hg, nb, hnb, seat, hseat, ?_⟩
      rw [Handoff.entering, movedPosition]
      rw [Handoff.leaving] at hterms
      dsimp only at hterms ⊢
      rw [hterms]

/-- A fold gives a leg to its owner: the fold checked the owner's open, or the owner signed
the takeover, at its price or on a failover, or the fold commits a forced novation to it. -/
inductive StateTransitionInputs.Gives (inp : StateTransitionInputs) :
    Address × PositionRecord → Prop where
  | openedA {nb : NewPosition} : inp.OpensChecked nb → inp.Gives (nb.partyA, nb.seatA)
  | openedB {nb : NewPosition} : inp.OpensChecked nb → inp.Gives (nb.partyB, nb.seatB)
  | takenOver {e : Novation × NovationWitness} : e ∈ inp.novations.zip inp.novationWitnesses →
      recoverEthSigner (eip712Digest inp.domainSeparator (novationTakeoverStructHash e.1.oldId
        e.1.partyC e.1.transferPrice e.2.cImBps e.1.cIm e.1.spread e.1.nonce e.1.deadline))
        e.2.sigC = .ok e.1.partyC → inp.Gives (novationMove e).entering
  | failedOver {e : CloseoutNovation × CloseoutNovationWitness} :
      e ∈ inp.closeoutNovations.zip inp.closeoutNovationWitnesses →
      recoverEthSigner (eip712Digest inp.domainSeparator (failoverConsentStructHash e.1.oldId
        e.1.partyC e.1.feedId e.1.closeTime e.1.cIm e.1.spread e.1.nonce e.2.deadline))
        e.2.sigC = .ok e.1.partyC → inp.Gives (closeoutMove e).entering
  | forced {e : Novation × NovationWitness} : e ∈ inp.novations.zip inp.novationWitnesses →
      e.1.forced = 1 → inp.Gives (novationMove e).entering

/-- A leg with an origin was given to its owner by a landed fold. -/
theorem SeatOrigin.given {folds : List (StateTransitionInputs × Stages)}
    {x : Address × PositionRecord} (h : SeatOrigin folds x) : ∃ f ∈ folds, f.1.Gives x := by
  induction h with
  | earlier _ ih =>
      obtain ⟨g, hg, hgives⟩ := ih
      exact ⟨g, List.mem_append_left _ hg, hgives⟩
  | @openedA front f nb hnb => exact ⟨f, by simp, .openedA hnb⟩
  | @openedB front f nb hnb => exact ⟨f, by simp, .openedB hnb⟩
  | @novated front f e he hsound _ _ =>
      refine ⟨f, by simp, ?_⟩
      cases hkind : e.2.kind with
      | voluntary => exact .takenOver he (hsound.voluntary hkind).2.2.1
      | forced => exact .forced he (hsound.forced hkind).1
  | @closedOut front f e mark he hsound _ _ => exact ⟨f, by simp, .failedOver he hsound.consent⟩

/-- Whatever rows and witnesses the hosts supplied: in every run of landed folds whose
strings do not collide, each seat of the ledger's tree comes from an open that a landed fold
checked, through handoffs of landed folds; a landed fold gave it to its present owner; and
counterparty, oracle, size, rate, side, expiry and market are still those of the open.  Each
signature of the open recovers its party or is the empty sentinel. -/
theorem landed_seats_opened {s : Ledger} (h : Reachable Ledger.Genesis Ledger.Step s)
    (hz : NonzeroOn s.preimages) (hc : NoCollision s.preimages) {aid : Bytes32}
    {a : AccountState} (ha : (treeOf s.folds).accounts[aid]? = some a) {b : PositionRecord}
    (hb : b ∈ a.positions) :
    SeatOrigin s.folds (a.owner, b) ∧ (∃ f ∈ s.folds, f.1.Gives (a.owner, b)) ∧
      ∃ f ∈ s.folds, ∃ nb, f.1.OpensChecked nb ∧ ∃ seat, (seat = nb.seatA ∨ seat = nb.seatB) ∧
        b = { seat with termsId := b.termsId, pushedIm := b.pushedIm } := by
  have hgood := Ledger.good_of_reachable h hz hc
  have horigin := treeOf_originates (Ledger.completed_of_reachable h) hgood.reads aid a ha b hb
  exact ⟨horigin, horigin.given, horigin.terms⟩

end Origins

/-! ## A seat that changed hands -/

section Concrete

attribute [local instance] signingPrimitives

/-- After the two folds the successor holds the maker's leg. -/
theorem passing_seats :
    ((TreeState.default.putAll openingPosts).putAll passingPosts).accounts.toList.any
      (fun e => decide (e.2.owner = successor ∧ passedLeg ∈ e.2.positions)) = true := by
  decide +kernel

theorem passing_opens :
    openingFold.newPositions = [signedOpen.bound] ∧ openingFold.domainSeparator = 92 ∧
      passingFold.newPositions = [] := by
  decide +kernel

/-- The successor's leg comes from the open that the maker and the taker signed. -/
theorem landed_seats_opened_passed :
    ∃ s : Ledger, s.folds.map Prod.fst = [openingFold, passingFold] ∧
      (∃ (aid : Bytes32) (a : AccountState), (treeOf s.folds).accounts[aid]? = some a ∧
        a.owner = successor ∧ passedLeg ∈ a.positions) ∧
      SeatOrigin s.folds (successor, passedLeg) ∧
      (∃ f ∈ s.folds, f.1.Gives (successor, passedLeg)) ∧
      (∃ seat, (seat = signedOpen.bound.seatA ∨ seat = signedOpen.bound.seatB) ∧
        passedLeg = { seat with termsId := passedLeg.termsId, pushedIm := passedLeg.pushedIm }) ∧
      recoverEthSigner (eip712Digest 92 signedOpen.bound.termsId) makerOpen.sig = .ok maker ∧
      recoverEthSigner (eip712Digest 92 signedOpen.bound.termsId) takerOpen.sig = .ok taker := by
  obtain ⟨s, st, st', hreach, hc, hfolds, hposts, hposts'⟩ := exists_passedLedger
  obtain ⟨hnew, hdomain, hnone⟩ := passing_opens
  have hseats := passing_seats
  have hsigs : signedOpen.bound.sigA ≠ [] ∧ signedOpen.bound.sigB ≠ [] := by decide
  generalize openingPosts = posts at hposts hseats
  generalize passingPosts = posts' at hposts' hseats
  generalize openingFold = first at hfolds hnew hdomain ⊢
  generalize passingFold = second at hfolds hnone ⊢
  generalize passedLeg = b at hseats ⊢
  subst hposts hposts'
  obtain ⟨⟨aid, a⟩, hlisted, hseat⟩ := List.any_eq_true.mp hseats
  obtain ⟨howner, hb⟩ := of_decide_eq_true hseat
  have ha : (treeOf s.folds).accounts[aid]? = some a := by
    rw [hfolds]
    exact mem_toList.mp hlisted
  obtain ⟨horigin, hgiven, f, hf, nb, hopens, hterms⟩ := landed_seats_opened hreach
    (KeccakNonzero.on Keccak.positiveKeccak256_ne_zero) hc ha hb
  dsimp only at howner
  rw [howner] at horigin hgiven
  -- only the first fold lists an open
  rw [hfolds, List.mem_cons, List.mem_singleton] at hf
  have hfold : f.1 = first := by
    rcases hf with rfl | rfl
    · rfl
    · have hlist := hopens.listed
      rw [hnone] at hlist
      cases hlist
  obtain ⟨hlist, _, hsignedA, hsignedB, _⟩ := hopens
  rw [hfold, hnew, List.mem_singleton] at hlist
  subst hlist
  rw [hfold, hdomain] at hsignedA hsignedB
  refine ⟨s, ?_, ⟨aid, a, ha, howner, hb⟩, horigin, hgiven, hterms, ?_, ?_⟩
  · rw [hfolds]
    rfl
  · exact hsignedA.resolve_left hsigs.1
  · exact hsignedB.resolve_left hsigs.2

end Concrete

end StateKeeper
