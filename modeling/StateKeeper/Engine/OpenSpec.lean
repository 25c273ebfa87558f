import StateKeeper.Engine.OpenLock

/-!
# Engine - What the openLock pre-pass does

An open locks when it is live, its two parties hold different rows, and both
seats carry IM.  A locked open adds one seat to each party's row; any other open
is rejected and changes no row.

Main results:

- Theorem {lit}`applyNewBoxesToBook_ok_iff`: when the pre-pass completes, and the
  rows, rejected ids and opened ids it then returns.
- Theorem {lit}`rowsAfter_eq_map`: over rows of distinct owners, each row gains
  exactly the seats of its owner.
-/

namespace StateKeeper

open Words Fallible SortedKeys

/-! ## Rows and their owners -/

/-- The owner of a row. -/
def Row.owner (row : Row) : Address :=
  row.1.accountOwner

/-- The owners of the rows, in order. -/
def ownersIn (rows : List Row) : List Address :=
  rows.map Row.owner

/-- Append seats to a row's positions. -/
def Row.append (seats : List PositionRecord) (row : Row) : Row :=
  (row.1, { row.2 with positions := row.2.positions ++ seats })

@[simp]
theorem Row.append_owner (seats : List PositionRecord) (row : Row) :
    (row.append seats).owner = row.owner :=
  rfl

@[simp]
theorem Row.append_fst (seats : List PositionRecord) (row : Row) :
    (row.append seats).1 = row.1 :=
  rfl

@[simp]
theorem Row.append_positions (seats : List PositionRecord) (row : Row) :
    (row.append seats).2.positions = row.2.positions ++ seats :=
  rfl

@[simp]
theorem Row.append_provenTwaps (seats : List PositionRecord) (row : Row) :
    (row.append seats).2.provenTwaps = row.2.provenTwaps :=
  rfl

@[simp]
theorem Row.append_provenMarks (seats : List PositionRecord) (row : Row) :
    (row.append seats).2.provenMarks = row.2.provenMarks :=
  rfl

@[simp]
theorem Row.append_nil (row : Row) : row.append [] = row := by
  obtain ⟨a, ri⟩ := row
  simp [Row.append]

@[simp]
theorem Row.append_append (seats more : List PositionRecord) (row : Row) :
    (row.append seats).append more = row.append (seats ++ more) := by
  simp [Row.append]

/-- A party without a row is not an owner. -/
theorem rowIndexOf_eq_none {rows : List Row} {party : Address} :
    rowIndexOf rows party = none ↔ party ∉ ownersIn rows := by
  simp [rowIndexOf, ownersIn, Row.owner, List.findIdx?_eq_none_iff]

theorem mem_ownersIn_of_rowIndexOf {rows : List Row} {party : Address} {i : Nat}
    (h : rowIndexOf rows party = some i) : party ∈ ownersIn rows := by
  by_contra hnot
  rw [rowIndexOf_eq_none.mpr hnot] at h
  cases h

/-- The row a party is found at is that party's. -/
theorem owner_of_rowIndexOf {rows : List Row} {party : Address} {i : Nat}
    (h : rowIndexOf rows party = some i) : (ownersIn rows)[i]? = some party := by
  rw [rowIndexOf, List.findIdx?_eq_some_iff_getElem] at h
  obtain ⟨hi, howner, -⟩ := h
  simp only [decide_eq_true_eq] at howner
  simp [ownersIn, Row.owner, hi, howner]

/-- Two parties are found at one row only if they are one party. -/
theorem rowIndexOf_inj {rows : List Row} {p q : Address} {i : Nat}
    (hp : rowIndexOf rows p = some i) (hq : rowIndexOf rows q = some i) : p = q := by
  have h := owner_of_rowIndexOf hp
  rw [owner_of_rowIndexOf hq] at h
  exact (Option.some.inj h).symm

/-- Pushing a record changes no owner. -/
@[simp]
theorem ownersIn_modify (rows : List Row) (i : Nat) (rec : PositionRecord) :
    ownersIn (rows.modify i (Row.push rec)) = ownersIn rows := by
  refine List.ext_getElem? fun j => ?_
  rw [ownersIn, ownersIn, List.getElem?_map, List.getElem?_map, List.getElem?_modify]
  split
  · cases rows[j]? <;> rfl
  · rw [id_map']

/-- Over distinct owners, a push at a party's index reaches that party's row alone. -/
theorem modify_rowIndexOf {rows : List Row} (hnodup : (ownersIn rows).Nodup) {party : Address}
    {i : Nat} (h : rowIndexOf rows party = some i) (rec : PositionRecord) :
    rows.modify i (Row.push rec) =
      rows.map fun row => row.append (if party = row.owner then [rec] else []) := by
  have hparty := owner_of_rowIndexOf h
  refine List.ext_getElem? fun j => ?_
  rw [List.getElem?_modify, List.getElem?_map]
  cases hj : rows[j]? with
  | none => simp
  | some row =>
      have howner : (ownersIn rows)[j]? = some row.owner := by simp [ownersIn, hj]
      by_cases hij : i = j
      · subst hij
        have heq : party = row.owner := by
          rw [hparty] at howner
          exact Option.some.inj howner
        simp [heq, Row.push, Row.append]
      · have hne : party ≠ row.owner := by
          rintro rfl
          have hilt := (List.getElem?_eq_some_iff.mp hparty).1
          exact hij ((List.getElem?_inj hilt hnodup).mp (hparty.trans howner.symm))
        simp [hij, hne]

/-! ## One open -/

variable [Primitives]

/-- The open locks against the owners of the rows. -/
def NewPosition.locks (proofTime : U64) (owners : List Address) (nb : NewPosition) : Prop :=
  proofTime < nb.expiry ∧ nb.partyA ∈ owners ∧ nb.partyB ∈ owners ∧ nb.partyA ≠ nb.partyB ∧
    nb.seatA.pushedIm ≠ 0 ∧ nb.seatB.pushedIm ≠ 0

instance (proofTime : U64) (owners : List Address) (nb : NewPosition) :
    Decidable (nb.locks proofTime owners) :=
  inferInstanceAs (Decidable (_ ∧ _ ∧ _ ∧ _ ∧ _ ∧ _))

/-- The seats of an open that fall on one owner. -/
def NewPosition.seatsOf (nb : NewPosition) (owner : Address) : List PositionRecord :=
  (if nb.partyA = owner then [nb.seatA] else []) ++ (if nb.partyB = owner then [nb.seatB] else [])

/-- The rows after a locked open. -/
def lockRows (rows : List Row) (nb : NewPosition) : List Row :=
  match rowIndexOf rows nb.partyA, rowIndexOf rows nb.partyB with
  | some ia, some ib => (rows.modify ia (Row.push nb.seatA)).modify ib (Row.push nb.seatB)
  | _, _ => rows

/-- One open of the pre-pass, its consent checks apart. -/
def OpenState.after (proofTime : U64) (s : OpenState) (nb : NewPosition) : OpenState :=
  if nb.locks proofTime (ownersIn s.accounts) then
    { accounts := lockRows s.accounts nb
      rejected := s.rejected
      opened := s.opened ++ [nb.termsId] }
  else
    { accounts := s.accounts
      rejected := s.rejected ++ [nb.termsId]
      opened := s.opened ++ [nb.termsId] }

@[simp]
theorem ownersIn_lockRows (rows : List Row) (nb : NewPosition) :
    ownersIn (lockRows rows nb) = ownersIn rows := by
  unfold lockRows
  split <;> simp

@[simp]
theorem ownersIn_after (proofTime : U64) (s : OpenState) (nb : NewPosition) :
    ownersIn (s.after proofTime nb).accounts = ownersIn s.accounts := by
  unfold OpenState.after
  split <;> simp

/-- Over distinct owners, a locked open adds each owner's seats. -/
theorem lockRows_eq_map {rows : List Row} (hnodup : (ownersIn rows).Nodup) {nb : NewPosition}
    (ha : nb.partyA ∈ ownersIn rows) (hb : nb.partyB ∈ ownersIn rows) :
    lockRows rows nb = rows.map fun row => row.append (nb.seatsOf row.owner) := by
  cases hia : rowIndexOf rows nb.partyA with
  | none => exact absurd ha (rowIndexOf_eq_none.mp hia)
  | some ia =>
      cases hib : rowIndexOf rows nb.partyB with
      | none => exact absurd hb (rowIndexOf_eq_none.mp hib)
      | some ib =>
          have hib' : rowIndexOf (rows.modify ia (Row.push nb.seatA)) nb.partyB = some ib := by
            rw [← hib, modify_rowIndexOf hnodup hia, rowIndexOf, rowIndexOf, List.findIdx?_map]
            rfl
          have hnodup' : (ownersIn (rows.modify ia (Row.push nb.seatA))).Nodup := by
            rwa [ownersIn_modify]
          rw [lockRows, hia, hib]
          change (rows.modify ia (Row.push nb.seatA)).modify ib (Row.push nb.seatB) = _
          rw [modify_rowIndexOf hnodup' hib', modify_rowIndexOf hnodup hia, List.map_map]
          refine List.map_congr_left fun row _ => ?_
          exact Row.append_append _ _ row

/-- A signature passes when it is the empty sentinel or recovers its party. -/
def SignerPasses (digest : Bytes32) (sig : Bytes) (party : Address) : Prop :=
  sig = [] ∨ recoverEthSigner digest sig = .ok party

theorem assertSigner_eq_ok {digest : Bytes32} {sig : Bytes} {party : Address} {message : String}
    {u : Unit} : assertSigner digest sig party message = .ok u ↔ SignerPasses digest sig party := by
  unfold assertSigner SignerPasses
  cases sig with
  | nil => simp
  | cons b bs =>
      rw [if_neg (by simp), bind_eq_ok]
      constructor
      · rintro ⟨signer, hrecover, hsigner⟩
        rw [ensure_eq_ok] at hsigner
        exact Or.inr (hsigner ▸ hrecover)
      · rintro (hnil | hrecover)
        · cases hnil
        · exact ⟨party, hrecover, ensure_of rfl⟩

/-- When a new position is bound: its id is its own, each signature passes, its entry
rate is the signed one, and its side is polar. -/
theorem assertNewPositionBound_ok_iff {nb : NewPosition} {u : Unit} :
    assertNewPositionBound nb = .ok u ↔
      nb.recomputedId = nb.termsId ∧
      SignerPasses (eip712Digest nb.domainSeparator nb.termsId) nb.sigA nb.partyA ∧
      SignerPasses (eip712Digest nb.domainSeparator nb.termsId) nb.sigB nb.partyB ∧
      entryRateFromData nb.data = some nb.entryRate ∧
      (nb.sideA = 1 ∨ nb.sideA = -1) := by
  unfold assertNewPositionBound
  constructor
  · intro h
    obtain ⟨_, hid, h⟩ := bind_eq_ok.mp h
    obtain ⟨_, hsigA, h⟩ := bind_eq_ok.mp h
    obtain ⟨_, hsigB, h⟩ := bind_eq_ok.mp h
    obtain ⟨boundEntry, hentry, h⟩ := bind_eq_ok.mp h
    obtain ⟨_, hrate, hside⟩ := bind_eq_ok.mp h
    rw [ensure_eq_ok] at hid hrate hside
    rw [expect_eq_ok] at hentry
    subst hrate
    exact ⟨hid, assertSigner_eq_ok.mp hsigA, assertSigner_eq_ok.mp hsigB, hentry, hside⟩
  · rintro ⟨hid, hsigA, hsigB, hentry, hside⟩
    refine bind_eq_ok.mpr ⟨(), ensure_of hid, ?_⟩
    refine bind_eq_ok.mpr ⟨(), assertSigner_eq_ok.mpr hsigA, ?_⟩
    refine bind_eq_ok.mpr ⟨(), assertSigner_eq_ok.mpr hsigB, ?_⟩
    refine bind_eq_ok.mpr ⟨nb.entryRate, expect_eq_ok.mpr hentry, ?_⟩
    exact bind_eq_ok.mpr ⟨(), ensure_of rfl, ensure_of hside⟩

/-- A bound position with a zero IM is rejected. -/
theorem applyNewPosition_rejected {nb : NewPosition} (h : assertNewPositionBound nb = .ok ())
    (him : nb.seatA.pushedIm = 0 ∨ nb.seatB.pushedIm = 0) :
    applyNewPosition nb = .ok .rejected := by
  rw [applyNewPosition, h, ok_bind]
  exact if_pos him

/-- A bound position with both IMs yields its two seats. -/
theorem applyNewPosition_locked {nb : NewPosition} (h : assertNewPositionBound nb = .ok ())
    (him : ¬(nb.seatA.pushedIm = 0 ∨ nb.seatB.pushedIm = 0)) :
    applyNewPosition nb =
      .ok (.locked ⟨nb.seatA, nb.seatA.pushedIm⟩ ⟨nb.seatB, nb.seatB.pushedIm⟩) := by
  rw [applyNewPosition, h, ok_bind]
  exact if_neg him

/-- One open checks its consents and then takes its effect. -/
theorem openStep_eq (proofTime : U64) (s : OpenState) (nb : NewPosition) :
    openStep proofTime s nb = (do
      assertNewPositionBound nb
      pure (s.after proofTime nb)) := by
  unfold openStep
  cases hbound : assertNewPositionBound nb with
  | error e => rfl
  | ok u =>
      rw [ok_bind, ok_bind]
      by_cases hlive : nb.expiry ≤ proofTime
      · have hnot : ¬nb.locks proofTime (ownersIn s.accounts) :=
          fun h => absurd h.1 (not_lt.mpr hlive)
        rw [if_pos hlive, OpenState.after, if_neg hnot]
      rw [if_neg hlive]
      cases ha : rowIndexOf s.accounts nb.partyA with
      | none =>
          have hnot : ¬nb.locks proofTime (ownersIn s.accounts) :=
            fun h => rowIndexOf_eq_none.mp ha h.2.1
          rw [OpenState.after, if_neg hnot]
      | some ia =>
          cases hb : rowIndexOf s.accounts nb.partyB with
          | none =>
              have hnot : ¬nb.locks proofTime (ownersIn s.accounts) :=
                fun h => rowIndexOf_eq_none.mp hb h.2.2.1
              rw [OpenState.after, if_neg hnot]
          | some ib =>
              have hidx : ia = ib ↔ nb.partyA = nb.partyB := by
                constructor
                · rintro rfl
                  exact rowIndexOf_inj ha hb
                · intro hparties
                  rw [hparties, hb] at ha
                  exact (Option.some.inj ha).symm
              have hmem : nb.partyA ∈ ownersIn s.accounts ∧ nb.partyB ∈ ownersIn s.accounts :=
                ⟨mem_ownersIn_of_rowIndexOf ha, mem_ownersIn_of_rowIndexOf hb⟩
              by_cases hparties : nb.partyA = nb.partyB
              · have hnot : ¬nb.locks proofTime (ownersIn s.accounts) :=
                  fun h => h.2.2.2.1 hparties
                simp [OpenState.after, hnot, hidx.mpr hparties]
              · have hdistinct : ia ≠ ib := fun h => hparties (hidx.mp h)
                by_cases him : nb.seatA.pushedIm = 0 ∨ nb.seatB.pushedIm = 0
                · have hnot : ¬nb.locks proofTime (ownersIn s.accounts) :=
                    fun h => him.elim h.2.2.2.2.1 h.2.2.2.2.2
                  simp [OpenState.after, hnot, hdistinct, applyNewPosition_rejected hbound him]
                · have hlock : nb.locks proofTime (ownersIn s.accounts) :=
                    ⟨not_le.mp hlive, hmem.1, hmem.2, hparties, not_or.mp him⟩
                  simp [OpenState.after, hlock, hdistinct, applyNewPosition_locked hbound him,
                    lockRows, ha, hb]

/-! ## All opens -/

/-- The ids the pre-pass rejects. -/
def rejectedIds (proofTime : U64) (owners : List Address) (nbs : List NewPosition) :
    List Bytes32 :=
  (nbs.filter fun nb => ¬nb.locks proofTime owners).map NewPosition.termsId

/-- The seats the locked opens put on one owner's book. -/
def newSeats (proofTime : U64) (owners : List Address) (nbs : List NewPosition)
    (owner : Address) : List PositionRecord :=
  (nbs.filter fun nb => nb.locks proofTime owners).flatMap fun nb => nb.seatsOf owner

/-- The pre-pass state after some opens, their consent checks apart. -/
def OpenState.afterAll (proofTime : U64) (s : OpenState) (nbs : List NewPosition) : OpenState :=
  nbs.foldl (OpenState.after proofTime) s

/-- The rows the pre-pass leaves. -/
def rowsAfter (proofTime : U64) (rows : List Row) (nbs : List NewPosition) : List Row :=
  (OpenState.afterAll proofTime ⟨rows, [], []⟩ nbs).accounts

@[simp]
theorem ownersIn_afterAll (proofTime : U64) (s : OpenState) (nbs : List NewPosition) :
    ownersIn (s.afterAll proofTime nbs).accounts = ownersIn s.accounts := by
  induction nbs generalizing s with
  | nil => rfl
  | cons nb nbs ih =>
      change ownersIn ((s.after proofTime nb).afterAll proofTime nbs).accounts = _
      rw [ih, ownersIn_after]

@[simp]
theorem ownersIn_rowsAfter (proofTime : U64) (rows : List Row) (nbs : List NewPosition) :
    ownersIn (rowsAfter proofTime rows nbs) = ownersIn rows :=
  ownersIn_afterAll _ _ _

/-- Every processed open is opened. -/
theorem afterAll_opened (proofTime : U64) (s : OpenState) (nbs : List NewPosition) :
    (s.afterAll proofTime nbs).opened = s.opened ++ nbs.map NewPosition.termsId := by
  induction nbs generalizing s with
  | nil => simp [OpenState.afterAll]
  | cons nb nbs ih =>
      change ((s.after proofTime nb).afterAll proofTime nbs).opened = _
      have hstep : (s.after proofTime nb).opened = s.opened ++ [nb.termsId] := by
        unfold OpenState.after
        split <;> rfl
      rw [ih, hstep]
      simp

/-- The rejected opens are those that do not lock. -/
theorem afterAll_rejected (proofTime : U64) (s : OpenState) (nbs : List NewPosition) :
    (s.afterAll proofTime nbs).rejected =
      s.rejected ++ rejectedIds proofTime (ownersIn s.accounts) nbs := by
  induction nbs generalizing s with
  | nil => simp [OpenState.afterAll, rejectedIds]
  | cons nb nbs ih =>
      change ((s.after proofTime nb).afterAll proofTime nbs).rejected = _
      rw [ih, ownersIn_after, OpenState.after]
      by_cases hlock : nb.locks proofTime (ownersIn s.accounts)
      · simp [hlock, rejectedIds]
      · simp [hlock, rejectedIds]

/-- Over distinct owners, each row gains exactly the seats of its owner. -/
theorem afterAll_accounts (proofTime : U64) (s : OpenState) (nbs : List NewPosition)
    (hnodup : (ownersIn s.accounts).Nodup) :
    (s.afterAll proofTime nbs).accounts = s.accounts.map fun row =>
      row.append (newSeats proofTime (ownersIn s.accounts) nbs row.owner) := by
  induction nbs generalizing s with
  | nil => simp [OpenState.afterAll, newSeats]
  | cons nb nbs ih =>
      change ((s.after proofTime nb).afterAll proofTime nbs).accounts = _
      rw [ih _ (by rwa [ownersIn_after]), ownersIn_after, OpenState.after]
      by_cases hlock : nb.locks proofTime (ownersIn s.accounts)
      · rw [if_pos hlock]
        change (lockRows s.accounts nb).map _ = _
        rw [lockRows_eq_map hnodup hlock.2.1 hlock.2.2.1, List.map_map]
        refine List.map_congr_left fun row _ => ?_
        simp [newSeats, hlock]
      · rw [if_neg hlock]
        simp [newSeats, hlock]

/-- Over rows of distinct owners, each row gains exactly the seats of its owner. -/
theorem rowsAfter_eq_map {rows : List Row} (hnodup : (ownersIn rows).Nodup) (proofTime : U64)
    (nbs : List NewPosition) :
    rowsAfter proofTime rows nbs = rows.map fun row =>
      row.append (newSeats proofTime (ownersIn rows) nbs row.owner) :=
  afterAll_accounts proofTime ⟨rows, [], []⟩ nbs hnodup

omit [Primitives] in
/-- A book passes the duplicate check when its ids are distinct. -/
theorem assertUniqueTermsId_eq_ok {positions : List PositionRecord} {u : Unit} :
    assertUniqueTermsId positions = .ok u ↔ (positions.map PositionRecord.termsId).Nodup := by
  rw [assertUniqueTermsId, assertUniqueKeys, ensure_eq_ok, adjacentDistinct_sort_iff]

/-- The pre-pass completes when every open is bound and no book it leaves repeats an
id; it then returns the rows, the rejected ids and all ids. -/
theorem applyNewBoxesToBook_ok_iff {rows : List Row} {nbs : List NewPosition} {proofTime : U64}
    {result : List Row × BookOpenOutcome} :
    applyNewBoxesToBook rows nbs proofTime = .ok result ↔
      (∀ nb ∈ nbs, assertNewPositionBound nb = .ok ()) ∧
      (∀ row ∈ rowsAfter proofTime rows nbs, (row.2.positions.map PositionRecord.termsId).Nodup) ∧
      result = (rowsAfter proofTime rows nbs,
        { rejected := rejectedIds proofTime (ownersIn rows) nbs
          opened := nbs.map NewPosition.termsId }) := by
  have hstep : openStep proofTime = fun s nb => (do
      assertNewPositionBound nb
      pure (s.after proofTime nb)) := by
    funext s nb
    exact openStep_eq proofTime s nb
  have hrejected : (OpenState.afterAll proofTime ⟨rows, [], []⟩ nbs).rejected =
      rejectedIds proofTime (ownersIn rows) nbs := by
    rw [afterAll_rejected, List.nil_append]
  have hopened : (OpenState.afterAll proofTime ⟨rows, [], []⟩ nbs).opened =
      nbs.map NewPosition.termsId := by
    rw [afterAll_opened, List.nil_append]
  unfold applyNewBoxesToBook
  rw [hstep, foldlM_check, bind_eq_ok]
  constructor
  · rintro ⟨s, hs, hrest⟩
    obtain ⟨u, hbound, hfold⟩ := bind_eq_ok.mp hs
    cases hfold
    obtain ⟨u', hunique, hresult⟩ := bind_eq_ok.mp hrest
    cases hresult
    refine ⟨forM_eq_ok_iff.mp hbound, fun row hrow => ?_, ?_⟩
    · exact assertUniqueTermsId_eq_ok.mp (forM_eq_ok_iff.mp hunique row hrow)
    · rw [← hrejected, ← hopened]
      rfl
  · rintro ⟨hbound, hunique, rfl⟩
    refine ⟨OpenState.afterAll proofTime ⟨rows, [], []⟩ nbs, ?_, ?_⟩
    · exact bind_eq_ok.mpr ⟨(), forM_eq_ok_iff.mpr hbound, rfl⟩
    · refine bind_eq_ok.mpr ⟨(), forM_eq_ok_iff.mpr fun row hrow => ?_, ?_⟩
      · exact assertUniqueTermsId_eq_ok.mpr (hunique row hrow)
      · rw [hrejected, hopened]
        rfl

end StateKeeper
