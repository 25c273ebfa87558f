import StateKeeper.Engine.Smt2Spec
import StateKeeper.Tree.Frames

/-!
# Tree - Staging the touched accounts

While the touched accounts are staged, the state tree and the registry tree hold
the same keys.  So one lookup function describes both, each staged account
updates it at one key, and the two honest witnesses make the guest's fold of
that row succeed.

Main results:

- Theorem {lit}`Staging.At.step`: staging one account.
- Theorem {lit}`Staging.At.run`: staging a list of accounts, with the guest's fold
  over the rows it emits.
-/

namespace StateKeeper

open Words Fallible SortedKeys

/-! ## Maps by their lookups -/

/-- Two maps with the same lookups are one map. -/
theorem Smt2.ext_get {t u : Smt2} (h : ∀ k, t.get k = u.get k) : t = u := by
  obtain ⟨leaves⟩ := t
  obtain ⟨leaves'⟩ := u
  congr 1
  exact Std.ExtTreeMap.ext_getElem? fun {k} => h k

/-- A map built from entries is filled by their assignments. -/
theorem Smt2.leaves_fromLeaves (entries : List (Bytes32 × Bytes32)) :
    (Smt2.fromLeaves entries).leaves =
      KeyedMap.assignAll (entries.map fun e => (e.1, some e.2)) ∅ := by
  suffices hgen : ∀ t : Smt2, (entries.foldl (fun t e => t.insert e.1 e.2) t).leaves =
      KeyedMap.assignAll (entries.map fun e => (e.1, some e.2)) t.leaves from hgen Smt2.new
  induction entries with
  | nil => exact fun t => rfl
  | cons e entries ih => exact fun t => ih (t.insert e.1 e.2)

/-- A map built from entries with distinct keys finds each of them. -/
theorem Smt2.get_fromLeaves_of_mem {entries : List (Bytes32 × Bytes32)}
    (hnodup : (entries.map Prod.fst).Nodup) {k v : Bytes32} (h : (k, v) ∈ entries) :
    (Smt2.fromLeaves entries).get k = some v := by
  have hkeys : ((entries.map fun e => (e.1, some e.2)).map Prod.fst).Nodup := by
    rw [List.map_map]
    exact hnodup
  rw [Smt2.get, Smt2.leaves_fromLeaves]
  exact KeyedMap.getElem?_assignAll hkeys (List.mem_map.mpr ⟨(k, v), h, rfl⟩)

theorem Smt2.get_fromLeaves_of_notMem {entries : List (Bytes32 × Bytes32)} {k : Bytes32}
    (h : k ∉ entries.map Prod.fst) : (Smt2.fromLeaves entries).get k = none := by
  have hkeys : k ∉ (entries.map fun e => (e.1, some e.2)).map Prod.fst := by
    rw [List.map_map]
    exact h
  rw [Smt2.get, Smt2.leaves_fromLeaves, KeyedMap.getElem?_assignAll_of_notMem hkeys]
  simp

/-- The member leaf of a present key. -/
def memberLeaf [Primitives] (leaf : Option Bytes32) : Option Bytes32 :=
  leaf.map fun _ => registryLeaf

section Staging

variable [Primitives]

/-- Both trees hold the keys of one lookup: the state tree with its leaves, the
registry tree with the member leaf. -/
structure Staging.At (s : Staging) (leaf : Bytes32 → Option Bytes32) : Prop where
  state : ∀ k, s.smt.get k = leaf k
  registry : ∀ k, s.registry.get k = memberLeaf (leaf k)

/-- An account to stage: its leaves before and after, and its row. -/
structure Entry where
  aid : Bytes32
  prior : Option Bytes32
  new : Option Bytes32
  row : Row

/-- The row emitted for an account. -/
structure Entry.Emits (e : Entry) (ta : TouchedAccount) : Prop where
  account : ta.account = e.row.1
  risk : ta.risk = e.row.2
  stateKey : ta.stateWitness.key = e.aid
  registryKey : ∀ rw ∈ ta.registryWitness, rw.key = e.aid
  present : ta.present = e.prior.isSome

/-- The post row that takes an account from its leaf before to its leaf after. -/
structure Entry.FoldsTo (e : Entry) (p : AccountPost) : Prop where
  priorLeaf : p.priorLeaf = e.prior
  newLeaf : p.newLeaf = e.new

/-- The account is not absent before and after. -/
def Entry.kept (e : Entry) : Bool :=
  e.prior.isSome || e.new.isSome

/-- What the staging loop reads of an entry. -/
def Entry.staged (e : Entry) : (Bytes32 × Option Bytes32) × Row :=
  ((e.aid, e.new), e.row)

/-- A row folds to no leaf exactly when it keeps no position. -/
theorem AccountPost.newLeaf_isSome (p : AccountPost) :
    p.newLeaf.isSome = !p.positions.isEmpty := by
  unfold AccountPost.newLeaf
  cases p.positions.isEmpty <;> rfl

/-- A present row is one whose key the tree holds. -/
theorem Smt2.terminal_present (t : Smt2) (key : Bytes32) :
    (match (t.witness key).terminal with
      | .leaf _ => true
      | _ => false) = (t.get key).isSome := by
  rw [t.witness_terminal]
  rcases t.path_cases key with ⟨v, hterm, hget⟩ | ⟨hget, hterm | ⟨k, v, hne, hterm⟩⟩
  · rw [hget, hterm, terminalOf, if_pos rfl]
    rfl
  · rw [hget, hterm]
    rfl
  · rw [hget, hterm, terminalOf, if_neg hne]
    rfl

section Steps

variable {priorKeys : List Bytes32} (s : Staging) {aid : Bytes32} (row : Row)

/-- The row emitted for an account, with its witnesses against the current trees. -/
def stagedRow (aid : Bytes32) (member : Option SmtWitness) : TouchedAccount where
  account := row.1
  risk := row.2
  stateWitness := s.smt.witness aid
  registryWitness := member

/-- An account absent before and after is dropped. -/
theorem stageAccount_dropped (h : aid ∉ priorKeys) :
    stageAccount priorKeys s ((aid, none), row) = s := by
  unfold stageAccount
  dsimp only
  rw [decide_eq_false h]
  rfl

theorem stageAccount_inserted (h : aid ∉ priorKeys) (v : Bytes32) :
    stageAccount priorKeys s ((aid, some v), row) =
      { smt := s.smt.assign aid (some v)
        registry := s.registry.assign aid (some registryLeaf)
        touched := s.touched ++ [stagedRow s row aid (some (s.registry.witness aid))] } := by
  unfold stageAccount
  dsimp only
  rw [decide_eq_false h]
  rfl

theorem stageAccount_updated (h : aid ∈ priorKeys) (v : Bytes32) :
    stageAccount priorKeys s ((aid, some v), row) =
      { smt := s.smt.assign aid (some v)
        registry := s.registry
        touched := s.touched ++ [stagedRow s row aid none] } := by
  unfold stageAccount
  dsimp only
  rw [decide_eq_true h]
  rfl

theorem stageAccount_pruned (h : aid ∈ priorKeys) :
    stageAccount priorKeys s ((aid, none), row) =
      { smt := s.smt.assign aid none
        registry := s.registry.assign aid none
        touched := s.touched ++ [stagedRow s row aid (some (s.registry.witness aid))] } := by
  unfold stageAccount
  dsimp only
  rw [decide_eq_true h]
  rfl

end Steps

/-- The emitted row, whatever its registry witness, is the account's own. -/
theorem Staging.At.emits {s : Staging} {leaf : Bytes32 → Option Bytes32} (hs : s.At leaf)
    {e : Entry} (he : leaf e.aid = e.prior) {member : Option SmtWitness}
    (hmember : ∀ rw ∈ member, rw.key = e.aid) :
    e.Emits (stagedRow s e.row e.aid member) where
  account := rfl
  risk := rfl
  stateKey := rfl
  registryKey := hmember
  present := by
    rw [← he, ← hs.state]
    exact s.smt.terminal_present e.aid

/-- Assigning both trees at one key updates the lookup they share. -/
theorem Staging.At.assign {s : Staging} {leaf : Bytes32 → Option Bytes32} (hs : s.At leaf)
    (aid : Bytes32) (new : Option Bytes32) (touched : List TouchedAccount) :
    Staging.At ⟨s.smt.assign aid new, s.registry.assign aid (memberLeaf new), touched⟩
      (Function.update leaf aid new) where
  state k := by
    rw [Smt2.get_assign, hs.state, Function.update_apply]
    exact if_congr eq_comm rfl rfl
  registry k := by
    rw [Smt2.get_assign, hs.registry, Function.update_apply]
    by_cases hk : aid = k
    · rw [if_pos hk, if_pos hk.symm]
    · rw [if_neg hk, if_neg (Ne.symm hk)]

omit [Primitives] in
/-- A registry that already holds the member leaf need not be assigned. -/
theorem Smt2.assign_self {t : Smt2} {key : Bytes32} {old : Option Bytes32}
    (h : t.get key = old) : t.assign key old = t := by
  refine Smt2.ext_get fun k => ?_
  rw [Smt2.get_assign]
  split
  · rename_i heq
    rw [← heq, h]
  · rfl

/-! ## The guest's fold of one row -/

section FoldRow

variable {running : Bytes32 × Bytes32} {p : AccountPost} {ta : TouchedAccount} {root v : Bytes32}

/-- A row that enters folds both trees. -/
theorem foldRow_inserted {registry : Bytes32} {rw : SmtWitness} (hprior : p.priorLeaf = none)
    (hnew : p.newLeaf = some v)
    (hstate : applyStep running.1 ta.stateWitness none (some v) = .ok root)
    (hmember : ta.registryWitness = some rw)
    (hregistry : applyStep running.2 rw none (some registryLeaf) = .ok registry) :
    foldRow running (p, ta) = .ok (root, registry) := by
  have hlive : (!p.positions.isEmpty) = true := by
    rw [← p.newLeaf_isSome, hnew]
    rfl
  unfold foldRow
  dsimp only
  rw [hprior, hnew, hstate, hlive, hmember]
  exact bind_eq_ok.mpr ⟨root, rfl, bind_eq_ok.mpr ⟨rw, rfl, bind_eq_ok.mpr ⟨registry, hregistry, rfl⟩⟩⟩

/-- A row that leaves folds both trees. -/
theorem foldRow_pruned {registry : Bytes32} {rw : SmtWitness} (hprior : p.priorLeaf = some v)
    (hnew : p.newLeaf = none)
    (hstate : applyStep running.1 ta.stateWitness (some v) none = .ok root)
    (hmember : ta.registryWitness = some rw)
    (hregistry : applyStep running.2 rw (some registryLeaf) none = .ok registry) :
    foldRow running (p, ta) = .ok (root, registry) := by
  have hlive : (!p.positions.isEmpty) = false := by
    rw [← p.newLeaf_isSome, hnew]
    rfl
  unfold foldRow
  dsimp only
  rw [hprior, hnew, hstate, hlive, hmember]
  exact bind_eq_ok.mpr ⟨root, rfl, bind_eq_ok.mpr ⟨rw, rfl, bind_eq_ok.mpr ⟨registry, hregistry, rfl⟩⟩⟩

/-- A row that stays folds the state tree alone. -/
theorem foldRow_updated {w : Bytes32} (hprior : p.priorLeaf = some v)
    (hnew : p.newLeaf = some w)
    (hstate : applyStep running.1 ta.stateWitness (some v) (some w) = .ok root)
    (hmember : ta.registryWitness = none) :
    foldRow running (p, ta) = .ok (root, running.2) := by
  have hlive : (!p.positions.isEmpty) = true := by
    rw [← p.newLeaf_isSome, hnew]
    rfl
  unfold foldRow
  dsimp only
  rw [hprior, hnew, hstate, hlive, hmember]
  rfl

end FoldRow

/-- Staging an account updates both trees at its key. -/
theorem Staging.At.stage {s : Staging} {leaf : Bytes32 → Option Bytes32} (hs : s.At leaf)
    {priorKeys : List Bytes32} {e : Entry} (he : leaf e.aid = e.prior)
    (hprior : e.prior.isSome ↔ e.aid ∈ priorKeys) :
    (stageAccount priorKeys s e.staged).At (Function.update leaf e.aid e.new) := by
  have hregistry := hs.registry e.aid
  rw [he] at hregistry
  rcases e with ⟨aid, prior, new, row⟩
  cases prior with
  | none =>
      have habsent : aid ∉ priorKeys := by
        rw [← hprior]
        simp
      cases new with
      | none =>
          have hnone : leaf aid = none := he
          rw [Entry.staged, stageAccount_dropped s row habsent]
          change s.At (Function.update leaf aid none)
          rw [← hnone, Function.update_eq_self]
          exact hs
      | some v =>
          rw [Entry.staged, stageAccount_inserted s row habsent]
          exact hs.assign aid (some v) _
  | some old =>
      have hpresent : aid ∈ priorKeys := hprior.mp rfl
      cases new with
      | none =>
          rw [Entry.staged, stageAccount_pruned s row hpresent]
          exact hs.assign aid none _
      | some v =>
          have hassigned := hs.assign aid (some v) (s.touched ++ [stagedRow s row aid none])
          have hself : s.registry.assign aid (memberLeaf (some v)) = s.registry :=
            Smt2.assign_self hregistry
          rw [hself] at hassigned
          rw [Entry.staged, stageAccount_updated s row hpresent]
          exact hassigned

/-- The strings hashed for the two trees. -/
def Staging.preimages (s : Staging) : List Bytes :=
  s.smt.preimages ++ s.registry.preimages

/-- Staging an account that stays, enters or leaves emits one row, and the guest folds
that row to the staged roots. -/
theorem Staging.At.step {s : Staging} {leaf : Bytes32 → Option Bytes32} (hs : s.At leaf) {priorKeys : List Bytes32} {e : Entry} (he : leaf e.aid = e.prior)
    (hprior : e.prior.isSome ↔ e.aid ∈ priorKeys) (hkept : e.kept = true) :
    ∃ ta, (stageAccount priorKeys s e.staged).touched = s.touched ++ [ta] ∧ e.Emits ta ∧
      (NonzeroOn s.preimages → ∀ p, e.FoldsTo p → foldRow (s.smt.root, s.registry.root) (p, ta) =
        .ok ((stageAccount priorKeys s e.staged).smt.root,
          (stageAccount priorKeys s e.staged).registry.root)) := by
  have hkept' : e.prior.isSome ∨ e.new.isSome := by
    rw [← Bool.or_eq_true]
    exact hkept
  have hstate : NonzeroOn s.preimages →
      applyStep s.smt.root (s.smt.witness e.aid) e.prior e.new =
        .ok (s.smt.assign e.aid e.new).root := by
    intro hz
    exact Smt2.applyStep_witness (hz.mono (List.subset_append_left _ _))
      ((hs.state e.aid).trans he) hkept'
  have hwitness : ∀ rw ∈ some (s.registry.witness e.aid), rw.key = e.aid := by
    intro rw hrw
    rw [← Option.mem_some.mp hrw]
    rfl
  have hregistry := hs.registry e.aid
  rw [he] at hregistry
  obtain ⟨aid, prior, new, row⟩ := e
  cases prior with
  | none =>
      have habsent : aid ∉ priorKeys := by
        rw [← hprior]
        simp
      cases new with
      | none => simp at hkept'
      | some v =>
          rw [Entry.staged, stageAccount_inserted s row habsent]
          refine ⟨_, rfl, hs.emits he hwitness, ?_⟩
          intro hz p hp
          have hmember : applyStep s.registry.root (s.registry.witness aid) none
              (some registryLeaf) = .ok (s.registry.assign aid (some registryLeaf)).root :=
            Smt2.applyStep_witness (hz.mono (List.subset_append_right _ _)) hregistry (.inr rfl)
          exact foldRow_inserted hp.priorLeaf hp.newLeaf (hstate hz) rfl hmember
  | some old =>
      have hpresent : aid ∈ priorKeys := hprior.mp rfl
      cases new with
      | none =>
          rw [Entry.staged, stageAccount_pruned s row hpresent]
          refine ⟨_, rfl, hs.emits he hwitness, ?_⟩
          intro hz p hp
          have hmember : applyStep s.registry.root (s.registry.witness aid) (some registryLeaf)
              none = .ok (s.registry.assign aid none).root :=
            Smt2.applyStep_witness (hz.mono (List.subset_append_right _ _)) hregistry (.inl rfl)
          exact foldRow_pruned hp.priorLeaf hp.newLeaf (hstate hz) rfl hmember
      | some v =>
          rw [Entry.staged, stageAccount_updated s row hpresent]
          refine ⟨_, rfl, hs.emits he (by simp), ?_⟩
          intro hz p hp
          exact foldRow_updated hp.priorLeaf hp.newLeaf (hstate hz) rfl

/-! ## Staging a list of accounts -/

/-- The lookup after a list of accounts. -/
def leafAfter (leaf : Bytes32 → Option Bytes32) (entries : List Entry) :
    Bytes32 → Option Bytes32 :=
  entries.foldl (fun leaf e => Function.update leaf e.aid e.new) leaf

omit [Primitives] in
/-- The leaves that later accounts start from are not those of the first. -/
theorem leaf_rest {leaf : Bytes32 → Option Bytes32} {e : Entry} {entries : List Entry}
    (hleaf : ∀ e' ∈ e :: entries, leaf e'.aid = e'.prior)
    (hfresh : e.aid ∉ entries.map Entry.aid) :
    ∀ e' ∈ entries, Function.update leaf e.aid e.new e'.aid = e'.prior := by
  intro e' he'
  rw [Function.update_of_ne, hleaf e' (List.mem_cons_of_mem _ he')]
  intro heq
  exact hfresh (heq ▸ List.mem_map_of_mem he')

/-- Staging accounts with distinct keys updates both trees at their keys. -/
theorem Staging.At.stageAll {s : Staging} {leaf : Bytes32 → Option Bytes32} (hs : s.At leaf)
    {priorKeys : List Bytes32} {entries : List Entry}
    (hleaf : ∀ e ∈ entries, leaf e.aid = e.prior)
    (hprior : ∀ e ∈ entries, e.prior.isSome ↔ e.aid ∈ priorKeys)
    (hnodup : (entries.map Entry.aid).Nodup) :
    ((entries.map Entry.staged).foldl (stageAccount priorKeys) s).At (leafAfter leaf entries) := by
  induction entries generalizing s leaf with
  | nil => exact hs
  | cons e entries ih =>
      rw [List.map_cons, List.nodup_cons] at hnodup
      have hat := hs.stage (hleaf e List.mem_cons_self) (hprior e List.mem_cons_self)
      exact ih hat (leaf_rest hleaf hnodup.1)
        (fun e' he' => hprior e' (List.mem_cons_of_mem e he')) hnodup.2

/-- The strings hashed for the trees that a list of accounts is staged on. -/
def stagingPreimages (priorKeys : List Bytes32) :
    Staging → List ((Bytes32 × Option Bytes32) × Row) → List Bytes
  | _, [] => []
  | s, e :: rest => s.preimages ++ stagingPreimages priorKeys (stageAccount priorKeys s e) rest

/-- Staging accounts with distinct keys emits one row for each that is kept, and the
guest folds those rows to the staged roots. -/
theorem Staging.At.run {s : Staging} {leaf : Bytes32 → Option Bytes32} (hs : s.At leaf)
    {priorKeys : List Bytes32} {entries : List Entry}
    (hleaf : ∀ e ∈ entries, leaf e.aid = e.prior)
    (hprior : ∀ e ∈ entries, e.prior.isSome ↔ e.aid ∈ priorKeys)
    (hnodup : (entries.map Entry.aid).Nodup) :
    ∃ rows,
      ((entries.map Entry.staged).foldl (stageAccount priorKeys) s).touched = s.touched ++ rows ∧
      List.Forall₂ Entry.Emits (entries.filter Entry.kept) rows ∧
      (NonzeroOn (stagingPreimages priorKeys s (entries.map Entry.staged)) →
        ∀ posts, List.Forall₂ Entry.FoldsTo (entries.filter Entry.kept) posts →
          (posts.zip rows).foldlM foldRow (s.smt.root, s.registry.root) =
            .ok (((entries.map Entry.staged).foldl (stageAccount priorKeys) s).smt.root,
              ((entries.map Entry.staged).foldl (stageAccount priorKeys) s).registry.root)) := by
  induction entries generalizing s leaf with
  | nil =>
      refine ⟨[], by simp, .nil, ?_⟩
      intro _ posts hposts
      cases hposts
      rfl
  | cons e entries ih =>
      rw [List.map_cons, List.nodup_cons] at hnodup
      have he := hleaf e List.mem_cons_self
      have hfirst := hprior e List.mem_cons_self
      have hleafRest := leaf_rest hleaf hnodup.1
      have hpriorRest := fun e' he' => hprior e' (List.mem_cons_of_mem e he')
      have hrest : NonzeroOn (stagingPreimages priorKeys s ((e :: entries).map Entry.staged)) →
          NonzeroOn (stagingPreimages priorKeys (stageAccount priorKeys s e.staged)
            (entries.map Entry.staged)) :=
        fun hz => hz.mono (List.subset_append_right _ _)
      by_cases hkept : e.kept = true
      · rcases hs.step he hfirst hkept with ⟨ta, htouched, hemits, hfold⟩
        have hat := hs.stage he hfirst
        rcases ih hat hleafRest hpriorRest hnodup.2 with ⟨rows, htouched', hemits', hfold'⟩
        rw [List.filter_cons_of_pos hkept]
        refine ⟨ta :: rows, ?_, .cons hemits hemits', ?_⟩
        · rw [List.map_cons, List.foldl_cons, htouched', htouched, List.append_assoc,
            List.singleton_append]
        · intro hz posts hposts
          cases hposts with
          | cons hp hps =>
              rw [List.zip_cons_cons, List.foldlM_cons,
                hfold (hz.mono (List.subset_append_left _ _)) _ hp, ok_bind]
              exact hfold' (hrest hz) _ hps
      · obtain ⟨aid, prior, new, row⟩ := e
        have hnone : prior = none ∧ new = none := by
          simpa [Entry.kept] using hkept
        rcases hnone with ⟨rfl, rfl⟩
        have habsent : aid ∉ priorKeys := by
          rw [← hfirst]
          simp
        rcases ih hs (fun e' he' => hleaf e' (List.mem_cons_of_mem _ he')) hpriorRest hnodup.2 with
          ⟨rows, htouched, hemits, hfold⟩
        rw [Entry.staged, stageAccount_dropped s row habsent] at hrest
        rw [List.filter_cons_of_neg hkept, List.map_cons, List.foldl_cons, Entry.staged,
          stageAccount_dropped s row habsent]
        exact ⟨rows, htouched, hemits, fun hz => hfold (hrest hz)⟩

omit [Primitives] in
/-- Other keys hold what they held. -/
theorem leafAfter_of_notMem {leaf : Bytes32 → Option Bytes32} {entries : List Entry}
    {k : Bytes32} (hk : k ∉ entries.map Entry.aid) : leafAfter leaf entries k = leaf k := by
  induction entries generalizing leaf with
  | nil => rfl
  | cons e entries ih =>
      rw [List.map_cons, List.mem_cons, not_or] at hk
      rw [leafAfter, List.foldl_cons]
      refine (ih hk.2).trans ?_
      exact Function.update_of_ne hk.1 _ _

omit [Primitives] in
/-- After distinct accounts, each key holds its account's leaf. -/
theorem leafAfter_of_mem {leaf : Bytes32 → Option Bytes32} {entries : List Entry}
    (hnodup : (entries.map Entry.aid).Nodup) {e : Entry} (he : e ∈ entries) :
    leafAfter leaf entries e.aid = e.new := by
  induction entries generalizing leaf with
  | nil => cases he
  | cons e' entries ih =>
      rw [List.map_cons, List.nodup_cons] at hnodup
      rw [leafAfter, List.foldl_cons]
      rcases List.mem_cons.mp he with rfl | hrest
      · refine (leafAfter_of_notMem hnodup.1).trans ?_
        exact Function.update_self _ _ _
      · exact ih hnodup.2 hrest

end Staging

end StateKeeper
