import StateKeeper.Engine.CompletenessSpec
import StateKeeper.Engine.Concrete
import StateKeeper.Engine.MarginSpec
import StateKeeper.Engine.TransitionSpec
import StateKeeper.Foundation.ListUpdate

/-!
# Engine - What the handoffs move

A novation and a closeout move one leg from the outgoing party's post row to the
incoming one's.  The multiset of all held legs changes by that leg alone, every
other part of the rows is kept, and the cash is the two parties' own.

Main results:

- Theorem {lit}`applyHandoffMove_books`: one move exchanges one leg.
- Theorems {lit}`novations_books` and {lit}`closeouts_books`: so does every handoff.
- Theorem {lit}`handoffs_conserve`: the handoffs of an accepted fold.
-/

namespace StateKeeper

open Words Fallible ListUpdate

/-- The legs of a row, each with the owner that holds it. -/
def AccountPost.legs (p : AccountPost) : Multiset (Address × PositionRecord) :=
  (p.positions.map fun b => (p.owner, b) : List (Address × PositionRecord))

/-- All held legs. -/
def booksOf (posts : List AccountPost) : Multiset (Address × PositionRecord) :=
  (posts.map AccountPost.legs).sum

/-- What a handoff keeps of a row. -/
def AccountPost.frame (p : AccountPost) : Bytes32 × Address × I128 × Option Bytes32 :=
  (p.aid, p.owner, p.vm, p.priorLeaf)

/-- One leg on its way from the outgoing party to the incoming one. -/
structure Handoff where
  partyA : Address
  partyC : Address
  leg : PositionRecord
  newId : Bytes32
  cIm : U128

/-- The leg as the outgoing party held it. -/
def Handoff.leaving (h : Handoff) : Address × PositionRecord :=
  (h.partyA, h.leg)

/-- The leg as the incoming party holds it. -/
def Handoff.entering (h : Handoff) : Address × PositionRecord :=
  (h.partyC, movedPosition h.leg h.newId h.cIm)

/-! ## One move -/

/-- A row without its legs of an id. -/
def AccountPost.without (oldId : Bytes32) (p : AccountPost) : AccountPost :=
  { p with positions := p.positions.filter fun b => b.termsId ≠ oldId }

/-- A row with one more leg. -/
def AccountPost.push (b : PositionRecord) (p : AccountPost) : AccountPost :=
  { p with positions := p.positions ++ [b] }

/-- A row with its one leg of an id dropped lost that leg. -/
theorem legs_without {p : AccountPost} {src : PositionRecord} {oldId : Bytes32}
    (hsrc : src ∈ p.positions) (hid : src.termsId = oldId)
    (hlength : (p.positions.filter fun b => b.termsId ≠ oldId).length = p.positions.length - 1) :
    p.legs = (p.without oldId).legs + {(p.owner, src)} := by
  have hsplit := List.filter_append_perm (fun b : PositionRecord => decide (b.termsId = oldId))
    p.positions
  have hkept : (p.positions.filter fun b => !decide (b.termsId = oldId)) =
      p.positions.filter fun b => b.termsId ≠ oldId := by
    apply List.filter_congr
    intro b _
    simp
  rw [hkept] at hsplit
  have hone : (p.positions.filter fun b => b.termsId = oldId) = [src] := by
    have hmem : src ∈ p.positions.filter fun b => b.termsId = oldId := by
      apply List.mem_filter.mpr
      exact ⟨hsrc, decide_eq_true hid⟩
    have hpos := List.length_pos_of_mem hsrc
    have hcount := hsplit.length_eq
    rw [List.length_append] at hcount
    have hlen : (p.positions.filter fun b => b.termsId = oldId).length = 1 := by omega
    rcases List.length_eq_one_iff.mp hlen with ⟨b, hb⟩
    rw [hb, List.mem_singleton] at hmem
    rw [hb, hmem]
  rw [hone] at hsplit
  have hlegs := Multiset.coe_eq_coe.mpr (hsplit.symm.map fun b => (p.owner, b))
  rw [AccountPost.legs, hlegs, List.map_append, ← Multiset.coe_add, add_comm]
  rfl

theorem legs_push (p : AccountPost) (b : PositionRecord) :
    (p.push b).legs = p.legs + {(p.owner, b)} := by
  rw [AccountPost.legs, AccountPost.push, List.map_append, ← Multiset.coe_add]
  rfl

/-- A move finds both rows, drops the leg from one and adds it to the other. -/
theorem applyHandoffMove_ok {posts posts' : List AccountPost} {partyA partyC : Address}
    {oldId newId : Bytes32} {cIm : U128} {aPosition : PositionRecord}
    (h : applyHandoffMove posts partyA partyC oldId newId cIm aPosition = .ok posts') :
    partyA ≠ partyC ∧ aPosition.termsId = oldId ∧ ∃ ai ci p q,
      posts[ai]? = some p ∧ p.owner = partyA ∧ aPosition ∈ p.positions ∧
      (p.positions.filter fun b => b.termsId ≠ oldId).length = p.positions.length - 1 ∧
      (posts.modify ai (AccountPost.without oldId))[ci]? = some q ∧ q.owner = partyC ∧
      posts' = (posts.modify ai (AccountPost.without oldId)).modify ci
        (AccountPost.push (movedPosition aPosition newId cIm)) := by
  unfold applyHandoffMove at h
  rcases ensure_bind_eq_ok.mp h with ⟨hdistinct, h⟩
  rcases bind_eq_ok.mp h with ⟨ai, hai, h⟩
  rcases bind_eq_ok.mp h with ⟨src, hsrc, h⟩
  rcases ensure_bind_eq_ok.mp h with ⟨rfl, h⟩
  rcases ensure_bind_eq_ok.mp h with ⟨hlength, h⟩
  rcases bind_eq_ok.mp h with ⟨ci, hci, h⟩
  rcases List.findIdx?_eq_some_iff_getElem.mp (expect_eq_ok.mp hai) with ⟨hilt, hiowner, _⟩
  have hrow : posts[ai]? = some posts[ai] := List.getElem?_eq_getElem hilt
  rw [hrow, Option.map_some, Option.getD_some] at hsrc hlength
  have hfind := expect_eq_ok.mp hsrc
  have hid : aPosition.termsId = oldId := by
    have hfound := List.find?_some hfind
    simpa using hfound
  -- the loop rewrites the found row with its own kept legs
  have hmodify : ∀ kept, kept = (posts[ai].positions.filter fun b => b.termsId ≠ oldId) →
      (posts.modify ai fun p => { p with positions := kept }) =
        posts.modify ai (AccountPost.without oldId) := by
    intro kept hkept
    rw [List.modify_eq_take_cons_drop hilt, List.modify_eq_take_cons_drop hilt, hkept]
    rfl
  rw [hmodify _ (by rw [hrow]; rfl)] at hci h
  rcases List.findIdx?_eq_some_iff_getElem.mp (expect_eq_ok.mp hci) with ⟨hclt, hcowner, _⟩
  refine ⟨hdistinct, hid, ai, ci, posts[ai], _, hrow, by simpa using hiowner,
    List.mem_of_find?_eq_some hfind, hlength, List.getElem?_eq_getElem hclt,
    by simpa using hcowner, ?_⟩
  exact (Except.ok.inj h).symm

/-- One move exchanges one leg and keeps everything else. -/
theorem applyHandoffMove_books {posts posts' : List AccountPost} {m : Handoff} {oldId : Bytes32}
    (h : applyHandoffMove posts m.partyA m.partyC oldId m.newId m.cIm m.leg = .ok posts') :
    m.partyA ≠ m.partyC ∧ m.leg.termsId = oldId ∧
      posts'.map AccountPost.frame = posts.map AccountPost.frame ∧
      booksOf posts' + {m.leaving} = booksOf posts + {m.entering} := by
  rcases applyHandoffMove_ok h with
    ⟨hdistinct, hid, ai, ci, p, q, hp, hpowner, hleg, hlength, hq, hqowner, rfl⟩
  refine ⟨hdistinct, hid, ?_, ?_⟩
  · rw [map_modify_of_eq AccountPost.frame (AccountPost.push _) (fun _ => rfl),
      map_modify_of_eq AccountPost.frame (AccountPost.without _) (fun _ => rfl)]
  · have hdrop := sum_map_modify AccountPost.legs (AccountPost.without oldId) hp
    have hpush := sum_map_modify AccountPost.legs
      (AccountPost.push (movedPosition m.leg m.newId m.cIm)) hq
    rw [legs_without hleg hid hlength, hpowner] at hdrop
    rw [legs_push, hqowner] at hpush
    have hleft : booksOf (posts.modify ai (AccountPost.without oldId)) + {m.leaving} =
        booksOf posts := by
      apply add_right_cancel (b := (p.without oldId).legs)
      rw [add_right_comm, add_assoc]
      exact hdrop
    have hright : booksOf ((posts.modify ai (AccountPost.without oldId)).modify ci
        (AccountPost.push (movedPosition m.leg m.newId m.cIm))) =
          booksOf (posts.modify ai (AccountPost.without oldId)) + {m.entering} := by
      apply add_right_cancel (b := q.legs)
      rw [add_assoc, add_comm ({m.entering} : Multiset (Address × PositionRecord))]
      exact hpush
    rw [hright, add_right_comm, hleft]

/-! ## Cash -/

/-- What a list of cash rows pays a party, less what it charges it. -/
def netTo (party : Address) (rows : List Settlement) : Int :=
  (rows.map fun s => (if s.payee = party then (s.usd.toNat : Int) else 0) -
    if s.payer = party then (s.usd.toNat : Int) else 0).sum

@[simp]
theorem netTo_nil (party : Address) : netTo party [] = 0 := rfl

theorem netTo_append (party : Address) (xs ys : List Settlement) :
    netTo party (xs ++ ys) = netTo party xs + netTo party ys := by
  simp [netTo]

/-- One row between two parties. -/
theorem netTo_singleton {payer payee : Address} (hne : payer ≠ payee) (usd : U128)
    (ident : Bytes32) :
    netTo payee [⟨payer, payee, usd, ident⟩] = usd.toNat ∧
      netTo payer [⟨payer, payee, usd, ident⟩] = -usd.toNat := by
  simp [netTo, hne, hne.symm]

theorem toNat_of_pos {a : I128} (h : 0 < a.toInt) : (a.toNat : Int) = a.toInt := by
  have hlow := a.isLt
  rw [BitVec.toInt_eq_toNat_cond] at h ⊢
  split at h
  · rename_i hsmall
    rw [if_pos hsmall]
  · omega

/-- A voluntary transfer pays the outgoing party its PnL at the signed price less the
spread, out of the incoming party's cash. -/
theorem netTo_transferSettlements {w : NovationWitness} (hkind : w.kind = .voluntary)
    (hne : w.partyA ≠ w.partyC) (pnl : I128) :
    netTo w.partyA (transferSettlements w pnl) = pnl.toInt - w.spread.toNat ∧
      netTo w.partyC (transferSettlements w pnl) = w.spread.toNat - pnl.toInt := by
  have hspread : netTo w.partyA (if w.spread > 0 then
        [(⟨w.partyA, w.partyC, w.spread, w.aPosition.termsId⟩ : Settlement)] else []) =
          -w.spread.toNat ∧
      netTo w.partyC (if w.spread > 0 then
        [(⟨w.partyA, w.partyC, w.spread, w.aPosition.termsId⟩ : Settlement)] else []) =
          w.spread.toNat := by
    by_cases hpos : w.spread > 0
    · rw [if_pos hpos]
      exact (netTo_singleton hne _ _).symm
    · have hzero : w.spread.toNat = 0 := by
        have hle := BitVec.le_def.mp (not_lt.mp hpos)
        simpa using hle
      rw [if_neg hpos, hzero]
      simp
  rw [transferSettlements, hkind]
  dsimp only
  rw [netTo_append, netTo_append, hspread.1, hspread.2]
  by_cases hgain : pnl.toInt > 0
  · rcases netTo_singleton hne.symm pnl w.aPosition.termsId with ⟨hpaid, hcharged⟩
    rw [if_pos hgain, hpaid, hcharged, toNat_of_pos hgain]
    constructor <;> ring
  · rw [if_neg hgain]
    by_cases hloss : pnl.toInt < 0
    · rcases netTo_singleton hne (unsignedAbs pnl) w.aPosition.termsId with ⟨hpaid, hcharged⟩
      rw [if_pos hloss, hpaid, hcharged, unsignedAbs_toNat]
      constructor <;> omega
    · rw [if_neg hloss, netTo_nil, netTo_nil]
      constructor <;> omega

/-! ## Novations -/

/-- The leg a committed novation moves. -/
def novationMove (e : Novation × NovationWitness) : Handoff where
  partyA := e.1.partyA
  partyC := e.1.partyC
  leg := e.2.aPosition
  newId := e.1.newId
  cIm := e.1.cIm

/-- The PnL of the moved leg at the witness's mark. -/
def novationPnl (e : Novation × NovationWitness) : I128 :=
  positionVm e.2.aPosition.entryRate e.2.mark e.2.aPosition.notional e.2.aPosition.side

section Handoffs

variable [Primitives] {domainSeparator : Bytes32} {proofTime : U64}

/-- A committed novation is the one its witness proves: the incoming party signed a
voluntary one, price, margin and spread included, and a forced one moves no cash. -/
structure NovationSound (domainSeparator : Bytes32) (e : Novation × NovationWitness) : Prop where
  distinct : e.1.partyA ≠ e.1.partyC
  parties : e.2.partyA = e.1.partyA ∧ e.2.partyC = e.1.partyC ∧
    e.1.partyB = e.2.aPosition.counterparty
  ids : e.2.aPosition.termsId = e.1.oldId ∧ e.1.newId = novationNewId e.1.oldId e.1.partyC
  priced : e.2.mark ≠ 0
  voluntary : e.2.kind = .voluntary → e.1.forced = 0 ∧ e.2.mark = e.1.transferPrice ∧
    recoverEthSigner (eip712Digest domainSeparator (novationTakeoverStructHash e.1.oldId e.1.partyC
      e.1.transferPrice e.2.cImBps e.1.cIm e.1.spread e.1.nonce e.1.deadline)) e.2.sigC =
        .ok e.1.partyC ∧
    netTo e.1.partyA (transferSettlements e.2 (novationPnl e)) =
      (novationPnl e).toInt - e.1.spread.toNat ∧
    netTo e.1.partyC (transferSettlements e.2 (novationPnl e)) =
      e.1.spread.toNat - (novationPnl e).toInt
  forced : e.2.kind = .forced → e.1.forced = 1 ∧ transferSettlements e.2 (novationPnl e) = []

/-- What a transfer that does not reject returns. -/
theorem transferAsClose_ok {w : NovationWitness} {r : TransferAsCloseResult}
    (h : transferAsClose w = .ok r) (hreject : r.reject = none) :
    w.mark ≠ 0 ∧ r.partyA = w.partyA ∧ r.partyC = w.partyC ∧
      r.settlements = transferSettlements w
        (positionVm w.aPosition.entryRate w.mark w.aPosition.notional w.aPosition.side) ∧
      (w.kind = .voluntary → w.mark = w.transferPrice ∧
        recoverEthSigner (eip712Digest w.domainSeparator (novationTakeoverStructHash
          w.aPosition.termsId w.partyC w.transferPrice w.cImBps w.cIm w.spread w.nonce w.deadline))
            w.sigC = .ok w.partyC) ∧
      r.entry = some
        { oldId := w.aPosition.termsId
          newId := novationNewId w.aPosition.termsId w.partyC
          partyA := w.partyA
          partyB := w.aPosition.counterparty
          partyC := w.partyC
          cIm := w.cIm
          forced := if decide (w.kind = .voluntary) then 0 else 1
          transferPrice := if decide (w.kind = .voluntary) then w.transferPrice else 0
          spread := if decide (w.kind = .voluntary) then w.spread else 0
          nonce := if decide (w.kind = .voluntary) then w.nonce else 0
          deadline := if decide (w.kind = .voluntary) then w.deadline else 0 } := by
  unfold transferAsClose at h
  cases hkind : w.kind with
  | forced =>
      simp only [hkind] at h
      by_cases hmark : w.mark = 0
      · rw [if_pos hmark] at h
        cases h
        cases hreject
      · rw [if_neg hmark] at h
        cases h
        refine ⟨hmark, rfl, rfl, rfl, ?_, rfl⟩
        intro hvoluntary
        cases hvoluntary
  | voluntary =>
      simp only [hkind] at h
      rcases ensure_bind_eq_ok.mp h with ⟨hprice, h⟩
      rcases bind_eq_ok.mp h with ⟨signer, hsigner, h⟩
      rcases ensure_bind_eq_ok.mp h with ⟨hsame, hrest⟩
      rw [hsame] at hsigner
      by_cases hmark : w.mark = 0
      · rw [if_pos hmark] at hrest
        cases hrest
        cases hreject
      · rw [if_neg hmark] at hrest
        cases hrest
        exact ⟨hmark, rfl, rfl, rfl, fun _ => ⟨hprice, hsigner⟩, rfl⟩

/-- One committed novation moves its leg and adds its cash. -/
theorem novationStep_ok {acc acc' : List AccountPost × List Settlement}
    {e : Novation × NovationWitness} (h : novationStep domainSeparator acc e = .ok acc') :
    NovationSound domainSeparator e ∧
      acc'.1.map AccountPost.frame = acc.1.map AccountPost.frame ∧
      booksOf acc'.1 + {(novationMove e).leaving} = booksOf acc.1 + {(novationMove e).entering} ∧
      acc'.2 = acc.2 ++ transferSettlements e.2 (novationPnl e) := by
  obtain ⟨entry, w⟩ := e
  unfold novationStep at h
  dsimp only at h
  rcases ensure_bind_eq_ok.mp h with ⟨hdomain, h⟩
  rcases bind_eq_ok.mp h with ⟨valid, hvalid, h⟩
  rcases ensure_bind_eq_ok.mp h with ⟨hsound, h⟩
  rcases bind_eq_ok.mp h with ⟨r, hr, h⟩
  rcases ensure_bind_eq_ok.mp h with ⟨hreject, h⟩
  rcases bind_eq_ok.mp h with ⟨posts, hposts, h⟩
  cases h
  rcases bind_eq_ok.mp hvalid with ⟨r', hr', hentry⟩
  rw [ok_unique hr' hr] at hentry
  cases hentry
  rcases transferAsClose_ok hr hreject with ⟨hmark, hA, hC, hcash, hconsent, hr_entry⟩
  have hfields := Option.some.inj ((of_decide_eq_true hsound).symm.trans hr_entry)
  have hpartyA : r.partyA = entry.partyA := by rw [hA, hfields]
  have hpartyC : r.partyC = entry.partyC := by rw [hC, hfields]
  rw [hpartyA, hpartyC] at hposts
  rcases applyHandoffMove_books (m := novationMove (entry, w)) hposts with
    ⟨hdistinct, hid, hframe, hbooks⟩
  have hne : entry.partyA ≠ entry.partyC := hdistinct
  refine ⟨⟨hne, ?_, ?_, hmark, ?_, ?_⟩, hframe, hbooks, ?_⟩
  · rw [hfields]
    exact ⟨rfl, rfl, rfl⟩
  · rw [hfields]
    exact ⟨rfl, rfl⟩
  · intro hkind
    have hvoluntary : decide (w.kind = .voluntary) = true := decide_eq_true hkind
    rcases hconsent hkind with ⟨hprice, hsigner⟩
    simp only [hvoluntary, if_true] at hfields
    rw [hfields] at hne ⊢
    rw [hdomain] at hsigner
    exact ⟨rfl, hprice, hsigner, netTo_transferSettlements hkind hne _⟩
  · intro hkind
    have hforced : decide (w.kind = .voluntary) = false := by
      rw [hkind]
      rfl
    simp only [hforced, Bool.false_eq_true, if_false] at hfields
    rw [hfields, transferSettlements, hkind]
    exact ⟨rfl, rfl⟩
  · rw [hcash]
    rfl

/-- The committed novations move their legs and add their cash, in order. -/
theorem novations_books {es : List (Novation × NovationWitness)}
    {acc acc' : List AccountPost × List Settlement}
    (h : es.foldlM (novationStep domainSeparator) acc = .ok acc') :
    (∀ e ∈ es, NovationSound domainSeparator e) ∧
      acc'.1.map AccountPost.frame = acc.1.map AccountPost.frame ∧
      booksOf acc'.1 + (es.map fun e => (novationMove e).leaving : List _) =
        booksOf acc.1 + (es.map fun e => (novationMove e).entering : List _) ∧
      acc'.2 = acc.2 ++ es.flatMap fun e => transferSettlements e.2 (novationPnl e) := by
  induction es generalizing acc with
  | nil =>
      cases h
      simp
  | cons e es ih =>
      rcases bind_eq_ok.mp h with ⟨mid, hstep, hrest⟩
      rcases novationStep_ok hstep with ⟨hsound, hframe, hbooks, hcash⟩
      rcases ih hrest with ⟨hsounds, hframes, hmoved, hpaid⟩
      refine ⟨List.forall_mem_cons.mpr ⟨hsound, hsounds⟩, hframes.trans hframe, ?_, ?_⟩
      · rw [List.map_cons, List.map_cons, ← Multiset.cons_coe, ← Multiset.cons_coe,
          ← Multiset.singleton_add, ← Multiset.singleton_add, add_left_comm, hmoved,
          ← add_assoc, ← add_assoc, ← hbooks, add_comm (booksOf mid.1)]
      · rw [hpaid, hcash, List.append_assoc, List.flatMap_cons]

/-! ## Closeouts -/

omit [Primitives] in
/-- The leg a committed closeout moves. -/
def closeoutMove (e : CloseoutNovation × CloseoutNovationWitness) : Handoff where
  partyA := e.1.partyA
  partyC := e.1.partyC
  leg := e.2.aPosition
  newId := e.1.newId
  cIm := e.1.cIm

omit [Primitives] in
/-- The realized gain of the defaulting party at a mark on the collateral scale. -/
def closeoutGain (w : CloseoutNovationWitness) (mark : U128) : U128 :=
  let pnl := positionVm w.aPosition.entryRate mark w.aPosition.notional w.aPosition.side
  if pnl.toInt > 0 then pnl else 0

omit [Primitives] in
/-- The part of the spread that the gain funds. -/
def closeoutCash (w : CloseoutNovationWitness) (mark : U128) : List Settlement :=
  let fromA := min w.spread (closeoutGain w mark)
  if fromA > 0 then
    [{ payer := w.partyA, payee := w.partyC, usd := fromA, id := w.aPosition.termsId }]
  else []

/-- A committed closeout is the one its witness proves: the leg is the one its terms
name, at a fresh price of its oracle, the incoming party signed margin and spread, and
the spread it is owed is the defaulter's gain as far as that goes and else a shortfall. -/
structure CloseoutSound (domainSeparator : Bytes32) (proofTime : U64)
    (e : CloseoutNovation × CloseoutNovationWitness) (mark : U128) : Prop where
  distinct : e.1.partyA ≠ e.1.partyC
  parties : e.2.partyA = e.1.partyA ∧ e.2.partyC = e.1.partyC ∧
    e.1.partyB = e.2.aPosition.counterparty
  ids : e.2.aPosition.termsId = e.1.oldId ∧ e.1.newId = novationNewId e.1.oldId e.1.partyC
  terms : termsId e.1.partyA e.1.partyB e.2.aPosition.oracle e.2.pairTag e.2.quantity e.2.imBpsA
    e.2.imBpsB e.2.mmPct e.2.aPosition.expiry e.2.termsNonce e.2.cureWindow e.2.payoutPrefA
    e.2.payoutPrefB e.2.data e.2.instrument e.2.aPosition.side = e.1.oldId
  economics : entryRateFromData e.2.data = some e.2.aPosition.entryRate ∧
    grossNotional e.2.quantity e.2.aPosition.entryRate = e.2.aPosition.notional
  priced : settleNativeTo1e6 e.1.handoffMark e.2.provenTwap.expo = .ok mark ∧
    feedIdOracle e.1.feedId = e.2.aPosition.oracle ∧
    closeoutNovationMarkFresh e.1.closeTime proofTime = true
  consent : recoverEthSigner (eip712Digest domainSeparator (failoverConsentStructHash e.1.oldId
    e.1.partyC e.1.feedId e.1.closeTime e.1.cIm e.1.spread e.1.nonce e.2.deadline)) e.2.sigC =
      .ok e.1.partyC
  seated : e.1.cIm > 0
  fair : closeoutNovationSpreadWithinBestExec e.1.spread (positionVm e.2.aPosition.entryRate mark
    e.2.aPosition.notional e.2.aPosition.side) e.2.aPosition.notional = true
  gain : netTo e.1.partyC (closeoutCash e.2 mark) + e.1.aResidual.toNat = (closeoutGain e.2 mark).toNat
  spread : netTo e.1.partyC (closeoutCash e.2 mark) + e.1.shortfall.toNat = e.1.spread.toNat
  charged : netTo e.1.partyA (closeoutCash e.2 mark) = -netTo e.1.partyC (closeoutCash e.2 mark)

omit [Primitives] in
/-- The funded part and what is left of the gain make the gain, and the funded part and
the shortfall make the spread. -/
theorem closeoutCash_split (w : CloseoutNovationWitness) (mark : U128) (hne : w.partyA ≠ w.partyC) :
    netTo w.partyC (closeoutCash w mark) +
        (closeoutGain w mark - min w.spread (closeoutGain w mark)).toNat =
          (closeoutGain w mark).toNat ∧
      netTo w.partyC (closeoutCash w mark) +
        (w.spread - min w.spread (closeoutGain w mark)).toNat = w.spread.toNat ∧
      netTo w.partyA (closeoutCash w mark) = -netTo w.partyC (closeoutCash w mark) := by
  have hpaid : netTo w.partyC (closeoutCash w mark) =
        (min w.spread (closeoutGain w mark)).toNat ∧
      netTo w.partyA (closeoutCash w mark) = -(min w.spread (closeoutGain w mark)).toNat := by
    unfold closeoutCash
    by_cases hpos : min w.spread (closeoutGain w mark) > 0
    · rw [if_pos hpos]
      exact netTo_singleton hne _ _
    · have hzero : (min w.spread (closeoutGain w mark)).toNat = 0 := by
        have hle := BitVec.le_def.mp (not_lt.mp hpos)
        simpa using hle
      rw [if_neg hpos, hzero]
      simp
  have hsub : ∀ x : U128, min w.spread (closeoutGain w mark) ≤ x →
      ((min w.spread (closeoutGain w mark)).toNat : Int) +
        (x - min w.spread (closeoutGain w mark)).toNat = x.toNat := by
    intro x hle
    have hnat := BitVec.le_def.mp hle
    rw [BitVec.toNat_sub_of_le hle]
    omega
  rw [hpaid.1, hpaid.2]
  exact ⟨hsub _ (min_le_right _ _), hsub _ (min_le_left _ _), rfl⟩

/-- One committed closeout moves its leg, adds its cash and surfaces its price. -/
theorem closeoutStep_ok {acc acc' : CloseoutState} {e : CloseoutNovation × CloseoutNovationWitness}
    (h : closeoutStep domainSeparator proofTime acc e = .ok acc') :
    ∃ mark, CloseoutSound domainSeparator proofTime e mark ∧
      acc'.posts.map AccountPost.frame = acc.posts.map AccountPost.frame ∧
      booksOf acc'.posts + {(closeoutMove e).leaving} =
        booksOf acc.posts + {(closeoutMove e).entering} ∧
      acc'.settlements = acc.settlements ++ closeoutCash e.2 mark ∧
      acc'.consumedTwaps = acc.consumedTwaps ++ [e.2.provenTwap.consumed] := by
  obtain ⟨entry, w⟩ := e
  unfold closeoutStep at h
  dsimp only at h
  rcases ensure_bind_eq_ok.mp h with ⟨hdomain, h⟩
  rcases bind_eq_ok.mp h with ⟨valid, hvalid, h⟩
  rcases ensure_bind_eq_ok.mp h with ⟨hsound, h⟩
  rcases ensure_bind_eq_ok.mp h with ⟨hfresh, h⟩
  rcases bind_eq_ok.mp h with ⟨r, hr, h⟩
  rcases bind_eq_ok.mp h with ⟨posts, hposts, h⟩
  cases h
  rcases bind_eq_ok.mp hvalid with ⟨r', hr', hentry⟩
  rw [ok_unique hr' hr] at hentry
  have hsame : r.entry = entry := by
    cases hentry
    exact of_decide_eq_true hsound
  unfold closeoutNovationClose at hr
  dsimp only at hr
  rcases bind_eq_ok.mp hr with ⟨mark, hmark, hr⟩
  rcases ensure_bind_eq_ok.mp hr with ⟨horacle, hr⟩
  rcases ensure_bind_eq_ok.mp hr with ⟨hterms, hr⟩
  rcases bind_eq_ok.mp hr with ⟨boundEntry, hbound, hr⟩
  rcases ensure_bind_eq_ok.mp hr with ⟨hrate, hr⟩
  rcases ensure_bind_eq_ok.mp hr with ⟨hnotional, hr⟩
  rcases bind_eq_ok.mp hr with ⟨signer, hsigner, hr⟩
  rcases ensure_bind_eq_ok.mp hr with ⟨hconsent, hr⟩
  rcases ensure_bind_eq_ok.mp hr with ⟨hseated, hr⟩
  rcases ensure_bind_eq_ok.mp hr with ⟨hfair, hr⟩
  rw [hconsent, hdomain] at hsigner
  rw [hrate] at hbound
  have hresult := Except.ok.inj hr
  have hpartyA : r.partyA = entry.partyA := by rw [← hsame, ← hresult]
  have hpartyC : r.partyC = entry.partyC := by rw [← hsame, ← hresult]
  rw [hpartyA, hpartyC] at hposts
  rcases applyHandoffMove_books (m := closeoutMove (entry, w)) hposts with
    ⟨hdistinct, hid, hframe, hbooks⟩
  subst hsame hresult
  rcases closeoutCash_split w mark hdistinct with ⟨hgain, hspread, hcharged⟩
  exact ⟨mark, ⟨hdistinct, ⟨rfl, rfl, rfl⟩, ⟨rfl, rfl⟩, hterms, ⟨expect_eq_ok.mp hbound, hnotional⟩,
    ⟨hmark, horacle, hfresh⟩, hsigner, hseated, hfair, hgain, hspread, hcharged⟩, hframe, hbooks,
    rfl, rfl⟩

/-- The committed closeouts move their legs, add their cash and surface their prices. -/
theorem closeouts_books {es : List (CloseoutNovation × CloseoutNovationWitness)}
    {acc acc' : CloseoutState}
    (h : es.foldlM (closeoutStep domainSeparator proofTime) acc = .ok acc') :
    ∃ marks : List U128,
      List.Forall₂ (CloseoutSound domainSeparator proofTime) es marks ∧
      acc'.posts.map AccountPost.frame = acc.posts.map AccountPost.frame ∧
      booksOf acc'.posts + (es.map fun e => (closeoutMove e).leaving : List _) =
        booksOf acc.posts + (es.map fun e => (closeoutMove e).entering : List _) ∧
      acc'.settlements = acc.settlements ++
        (es.zip marks).flatMap (fun e => closeoutCash e.1.2 e.2) ∧
      acc'.consumedTwaps = acc.consumedTwaps ++ es.map fun e => e.2.provenTwap.consumed := by
  induction es generalizing acc with
  | nil =>
      cases h
      exact ⟨[], .nil, by simp⟩
  | cons e es ih =>
      rcases bind_eq_ok.mp h with ⟨mid, hstep, hrest⟩
      rcases closeoutStep_ok hstep with ⟨mark, hsound, hframe, hbooks, hcash, hprices⟩
      rcases ih hrest with ⟨marks, hsounds, hframes, hmoved, hpaid, hsurfaced⟩
      refine ⟨mark :: marks, .cons hsound hsounds, hframes.trans hframe, ?_, ?_, ?_⟩
      · rw [List.map_cons, List.map_cons, ← Multiset.cons_coe, ← Multiset.cons_coe,
          ← Multiset.singleton_add, ← Multiset.singleton_add, add_left_comm, hmoved,
          ← add_assoc, ← add_assoc, ← hbooks, add_comm (booksOf mid.posts)]
      · rw [hpaid, hcash, List.append_assoc, List.zip_cons_cons, List.flatMap_cons]
      · rw [hsurfaced, hprices, List.append_assoc, List.map_cons]
        rfl

/-! ## The handoffs of a fold -/

omit [Primitives] in
/-- Every leg on its way in a fold, voluntary ones first. -/
def StateTransitionInputs.handoffs (inp : StateTransitionInputs) : List Handoff :=
  (inp.novations.zip inp.novationWitnesses).map novationMove ++
    (inp.closeoutNovations.zip inp.closeoutNovationWitnesses).map closeoutMove

/-- The handoffs of an accepted fold are the ones their witnesses prove, one for each
entry; they exchange exactly their legs between the resolved books, keep every other part
of the rows, and add exactly their own cash. -/
theorem handoffs_conserve {inp : StateTransitionInputs} {out : StateTransitionOutputs}
    (h : stateTransition inp = .ok out) :
    ∃ (st : Stages) (marks : List U128), st.Completed inp ∧ out = st.outputs inp ∧
      inp.novationWitnesses.length = inp.novations.length ∧
      inp.closeoutNovationWitnesses.length = inp.closeoutNovations.length ∧
      (∀ e ∈ inp.novations.zip inp.novationWitnesses, NovationSound inp.domainSeparator e) ∧
      List.Forall₂ (CloseoutSound inp.domainSeparator inp.proofNow)
        (inp.closeoutNovations.zip inp.closeoutNovationWitnesses) marks ∧
      st.closed.posts.map AccountPost.frame = st.results.map (fun r => r.post.frame) ∧
      booksOf st.closed.posts + (inp.handoffs.map Handoff.leaving : List _) =
        booksOf (st.results.map RowResult.post) + (inp.handoffs.map Handoff.entering : List _) ∧
      out.settlements = st.results.flatMap RowResult.settlements ++
        (inp.novations.zip inp.novationWitnesses).flatMap
          (fun e => transferSettlements e.2 (novationPnl e)) ++
        ((inp.closeoutNovations.zip inp.closeoutNovationWitnesses).zip marks).flatMap
          (fun e => closeoutCash e.1.2 e.2) := by
  rcases stateTransition_ok_iff.mp h with ⟨st, hst, rfl⟩
  rcases novations_books hst.novated with ⟨hsound, hframe, hmoved, hcash⟩
  rcases closeouts_books hst.closedOut with ⟨marks, hsounds, hframes, hclosed, hpaid, _⟩
  refine ⟨st, marks, hst, rfl, hst.gated.novations, hst.gated.closeouts, hsound, hsounds, ?_, ?_, ?_⟩
  · rw [hframes, hframe, List.map_map]
    rfl
  · have hlegs : ∀ f : Handoff → Address × PositionRecord, (inp.handoffs.map f : List _) =
        (((inp.novations.zip inp.novationWitnesses).map fun e => f (novationMove e) : List _) :
            Multiset (Address × PositionRecord)) +
          ((inp.closeoutNovations.zip inp.closeoutNovationWitnesses).map
            fun e => f (closeoutMove e) : List _) := by
      intro f
      rw [StateTransitionInputs.handoffs, List.map_append, List.map_map, List.map_map,
        ← Multiset.coe_add]
      rfl
    rw [hlegs, hlegs, ← add_assoc, add_right_comm, hclosed, add_right_comm, hmoved, add_assoc]
  · change st.results.flatMap RowResult.settlements ++ st.moved.2 ++ st.closed.settlements = _
    rw [hcash, hpaid, List.nil_append, List.nil_append]

/-! ## The rows behind the posts -/

/-- The post row is the touched row's own. -/
structure AccountPost.Of (p : AccountPost) (ta : TouchedAccount) : Prop where
  aid : p.aid = ta.aid
  owner : p.owner = ta.account.accountOwner
  priorLeaf : p.priorLeaf = ta.boundLeaf

variable {inp : StateTransitionInputs} {st : Stages}

/-- What identifies a post row. -/
def AccountPost.origin (p : AccountPost) : Bytes32 × Address × Option Bytes32 :=
  (p.aid, p.owner, p.priorLeaf)

theorem resolveRow_origin {markingEpoch : Bool} {e : Row × Option Bytes32} {r : RowResult}
    (h : resolveRow inp markingEpoch e = .ok r) :
    r.post.origin = (accountIdSingle e.1.owner, e.1.owner, e.2) := by
  unfold resolveRow at h
  rcases bind_eq_ok.mp h with ⟨_, _, h⟩
  rcases bind_eq_ok.mp h with ⟨settled, _, h⟩
  rcases ensure_bind_eq_ok.mp h with ⟨_, h⟩
  rcases bind_eq_ok.mp h with ⟨holds, _, h⟩
  rcases bind_eq_ok.mp h with ⟨vm, _, h⟩
  rcases bind_eq_ok.mp h with ⟨resolved, _, h⟩
  cases h
  rfl

/-- The touched rows of a completed fold have distinct owners. -/
theorem Stages.Completed.rows_nodup (h : st.Completed inp) : (ownersIn inp.rows).Nodup := by
  obtain ⟨hascending, _, _⟩ := bindRows_ok_iff.mp h.bound
  have hnodup : (inp.book.touched.map TouchedAccount.aid).Nodup :=
    (List.isChain_iff_pairwise.mp hascending).imp fun hlt => ne_of_lt hlt
  have haids : inp.book.touched.map TouchedAccount.aid =
      (ownersIn inp.rows).map accountIdSingle := by
    rw [ownersIn, StateTransitionInputs.rows, List.map_map, List.map_map]
    rfl
  rw [haids] at hnodup
  exact hnodup.of_map _

/-- The post rows of a completed fold are the touched rows' own, in order. -/
theorem Stages.Completed.posts_of (h : st.Completed inp) :
    List.Forall₂ AccountPost.Of st.closed.posts inp.book.touched := by
  rcases bindRows_ok_iff.mp h.bound with ⟨_, _, hbound⟩
  have hframes : st.closed.posts.map AccountPost.origin =
      st.results.map fun r => r.post.origin := by
    rcases novations_books h.novated with ⟨_, hframe, _⟩
    rcases closeouts_books h.closedOut with ⟨_, _, hframes, _⟩
    have horigin := congrArg (List.map fun f : Bytes32 × Address × I128 × Option Bytes32 =>
      (f.1, f.2.1, f.2.2.2)) (hframes.trans hframe)
    simp only [List.map_map] at horigin
    exact horigin
  have howners : st.accounts.map Row.owner =
      inp.book.touched.map fun ta => ta.account.accountOwner := by
    have heq := ownersIn_rowsAfter inp.proofNow inp.rows inp.newPositions
    rw [h.opens_eq.1]
    refine heq.trans ?_
    rw [ownersIn, StateTransitionInputs.rows, List.map_map]
    rfl
  have hpriors : st.bound.map BoundRow.prior = inp.book.touched.map TouchedAccount.boundLeaf := by
    rw [hbound, List.map_map]
    rfl
  have hresults : st.results.map (fun r => r.post.origin) =
      (st.accounts.zip (st.bound.map BoundRow.prior)).map fun e =>
        (accountIdSingle e.1.owner, e.1.owner, e.2) := by
    have hrows := (mapM_eq_ok_iff.mp h.resolved).imp fun _ _ hrow => (resolveRow_origin hrow).symm
    exact (List.forall₂_eq_eq_eq ▸
      List.forall₂_map_left_iff.mpr (List.forall₂_map_right_iff.mpr hrows)).symm
  have hzip : (st.accounts.zip (st.bound.map BoundRow.prior)).map (fun e =>
        (accountIdSingle e.1.owner, e.1.owner, e.2)) =
      inp.book.touched.map fun ta =>
        (ta.aid, ta.account.accountOwner, ta.boundLeaf) := by
    have hpairs : (st.accounts.zip (st.bound.map BoundRow.prior)).map (Prod.map Row.owner id) =
        inp.book.touched.map fun ta => (ta.account.accountOwner, ta.boundLeaf) := by
      rw [← List.zip_map, List.map_id, howners, hpriors, List.zip_map']
    have hkeys := congrArg (List.map fun e : Address × Option Bytes32 =>
      (accountIdSingle e.1, e.1, e.2)) hpairs
    rw [List.map_map, List.map_map] at hkeys
    exact hkeys
  have hsame := (hframes.trans hresults).trans hzip
  rw [← List.forall₂_eq_eq_eq, List.forall₂_map_left_iff, List.forall₂_map_right_iff] at hsame
  apply hsame.imp
  intro p ta horigin
  rcases Prod.mk.inj horigin with ⟨haid, hrest⟩
  rcases Prod.mk.inj hrest with ⟨howner, hprior⟩
  exact ⟨haid, howner, hprior⟩

end Handoffs

section Concrete

attribute [local instance] signingPrimitives

def oldLeg : PositionRecord where
  termsId := 5
  counterparty := 11
  oracle := 3
  notional := 1000000
  entryRate := 1000000
  side := 1
  expiry := 200
  pushedIm := 100000
  marketKey := 8

/-- A leg taken over at 1100000 with 12% margin, from the party before under the signature
of the party after. -/
def takeoverBy (leg : PositionRecord) (partyA partyC : Address) (sigC : Bytes) :
    NovationWitness where
  aPosition := leg
  mark := 1100000
  cIm := 120000
  partyA := partyA
  partyC := partyC
  kind := .voluntary
  transferPrice := 1100000
  spread := 500
  cImBps := 1200
  nonce := 1
  deadline := 1000
  domainSeparator := 92
  sigC := sigC

/-- The event row of that takeover. -/
def takenOverBy (leg : PositionRecord) (partyA partyC : Address) : Novation where
  oldId := leg.termsId
  newId := novationNewId leg.termsId partyC
  partyA := partyA
  partyB := leg.counterparty
  partyC := partyC
  cIm := 120000
  forced := 0
  transferPrice := 1100000
  spread := 500
  nonce := 1
  deadline := 1000

def takeover : NovationWitness :=
  takeoverBy oldLeg 10 maker makerTakeover.sig

def takenOver : Novation :=
  takenOverBy oldLeg 10 maker

def emptyRisk (positions : List PositionRecord) : RiskInputs where
  unconsumedSettleResidual := none
  positions := positions
  positionSettlements := []
  provenTwaps := []
  provenMarks := []

/-- A fold in which the incoming party joins the tree with the leg that the other leaves. -/
def handoffFold : StateTransitionInputs :=
  let aidA := accountIdSingle 10
  let aidC := accountIdSingle maker
  let state := Smt2.fromLeaves [(aidA, accountLeaf aidA 0 (positionsRoot [oldLeg]))]
  let registry := Smt2.fromLeaves [(aidA, registryLeaf)]
  { book :=
      { rootPrev := state.root
        accountsRootPrev := registry.root
        touched :=
          [{ account := { Account.default with
               accountOwner := 10
               positionsRoot := positionsRoot [oldLeg] }
             risk := emptyRisk [oldLeg]
             stateWitness := state.witness aidA
             registryWitness := some (registry.witness aidA) },
           { account := { Account.default with accountOwner := maker }
             risk := emptyRisk []
             stateWitness := (state.assign aidA none).witness aidC
             registryWitness := some ((registry.assign aidA none).witness aidC) }] }
    marks := []
    pausedPairs := []
    novations := [takenOver]
    newPositions := []
    novationWitnesses := [takeover]
    closeoutNovations := []
    closeoutNovationWitnesses := []
    proofNow := 100
    domainSeparator := 92
    scenarioTable := flatTable
    unwinds := []
    unwindWitnesses := [] }

theorem handoffFold_accepted : (stateTransition handoffFold).isOk = true := by
  decide +kernel

/-- The leg ends with the incoming party, which paid its gain of 100000 less the spread. -/
theorem handoffs_conserve_takeover :
    ∃ (out : StateTransitionOutputs) (st : Stages),
      stateTransition handoffFold = .ok out ∧ out = st.outputs handoffFold ∧
      NovationSound 92 (takenOver, takeover) ∧
      booksOf st.closed.posts + {(10, oldLeg)} =
        booksOf (st.results.map RowResult.post) +
          {(maker, movedPosition oldLeg takenOver.newId takenOver.cIm)} ∧
      netTo 10 (transferSettlements takeover (novationPnl (takenOver, takeover))) = 99500 := by
  cases hrun : stateTransition handoffFold with
  | error e =>
      have haccepted := handoffFold_accepted
      rw [hrun] at haccepted
      cases haccepted
  | ok out =>
      rcases handoffs_conserve hrun with
        ⟨st, marks, hst, hout, hnovations, hcloseouts, hsound, hsounds, hframe, hbooks, hcash⟩
      have htaken := hsound (takenOver, takeover) List.mem_cons_self
      refine ⟨out, st, rfl, hout, htaken, hbooks, ?_⟩
      rcases htaken.voluntary rfl with ⟨_, _, _, hpaid, _⟩
      have hgain : (novationPnl (takenOver, takeover)).toInt - takenOver.spread.toNat = 99500 := by
        decide +kernel
      exact hpaid.trans hgain

end Concrete

end StateKeeper
