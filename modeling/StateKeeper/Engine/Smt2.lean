import StateKeeper.Engine.Crypto

/-!
# Engine - The prefix-compacted keyed keccak tree

{lit}`im-state::smt2`: the host's canonical map with its structural root and its
witnesses, and the guest's {lit}`apply_step`, which proves an old value under a
running root and returns the root with the new value applied.
-/

namespace StateKeeper

open Words Fallible

/-- The empty subtree at any height; also the root of the empty map. -/
def EMPTY : Bytes32 := 0

/-- Bit at position {lit}`i`, counted from the most significant; true descends right. -/
def keyBit (key : Bytes32) (i : Nat) : Bool :=
  key.getMsbD i

/-- Host-side canonical map. -/
structure Smt2 where
  leaves : Std.ExtTreeMap Bytes32 Bytes32

/-- A fresh empty map. -/
def Smt2.new : Smt2 where
  leaves := ∅

/-- Upsert {lit}`key ⇒ value`. -/
def Smt2.insert (t : Smt2) (key value : Bytes32) : Smt2 where
  leaves := t.leaves.insert key value

/-- Remove {lit}`key`; nothing changes when it is absent. -/
def Smt2.remove (t : Smt2) (key : Bytes32) : Smt2 where
  leaves := t.leaves.erase key

/-- The stored value at {lit}`key`, if present. -/
def Smt2.get (t : Smt2) (key : Bytes32) : Option Bytes32 :=
  t.leaves[key]?

/-- Build a map from entries, one insert per entry. -/
def Smt2.fromLeaves (entries : List (Bytes32 × Bytes32)) : Smt2 :=
  entries.foldl (fun t e => t.insert e.1 e.2) Smt2.new

/-- The entries whose key bit at {lit}`depth` is clear: the part before the
partition point of the sorted entries. -/
def leftOf (depth : Nat) (entries : List (Bytes32 × Bytes32)) : List (Bytes32 × Bytes32) :=
  entries.takeWhile fun e => !keyBit e.1 depth

/-- The entries from the partition point on. -/
def rightOf (depth : Nat) (entries : List (Bytes32 × Bytes32)) : List (Bytes32 × Bytes32) :=
  entries.dropWhile fun e => !keyBit e.1 depth

variable [Primitives]

/-- Canonical root of the sorted entries as a subtree at {lit}`depth`, with
{lit}`levels` key bits left below it.  Two entries with no bit left cannot occur:
their keys would agree on all 256 bits. -/
def subtreeRoot : (levels : Nat) → List (Bytes32 × Bytes32) → (depth : Nat) → Bytes32
  | _, [], _ => EMPTY
  | _, [(k, v)], _ => smt2Leaf k v
  | 0, _ :: _ :: _, _ => EMPTY
  | levels + 1, entries, depth =>
      smt2Node (subtreeRoot levels (leftOf depth entries) (depth + 1))
        (subtreeRoot levels (rightOf depth entries) (depth + 1))

/-- Canonical root: a pure function of the map. -/
def Smt2.root (t : Smt2) : Bytes32 :=
  subtreeRoot 256 t.leaves.toList 0

/-- The descent of {lit}`Smt2::witness`: where the path of {lit}`key` ends and the
sibling roots met on the way, root first. -/
def witnessDescent (key : Bytes32) :
    (levels : Nat) → List (Bytes32 × Bytes32) → (depth : Nat) → SmtTerminal × List Bytes32
  | _, [], _ => (.empty, [])
  | _, [(k, v)], _ => (if k = key then .leaf v else .otherLeaf k v, [])
  | 0, _ :: _ :: _, _ => (.empty, [])
  | levels + 1, entries, depth =>
      let kept := if keyBit key depth then rightOf depth entries else leftOf depth entries
      let sib := if keyBit key depth then leftOf depth entries else rightOf depth entries
      let rest := witnessDescent key levels kept (depth + 1)
      (rest.1, subtreeRoot levels sib (depth + 1) :: rest.2)

/-- Kind-proof for the first non-EMPTY sibling above {lit}`key`'s leaf, if any. -/
def Smt2.firstNonemptySiblingKind (t : Smt2) (key : Bytes32) (siblings : List Bytes32) :
    Option SiblingKind :=
  match siblings.findIdx? (· ≠ EMPTY) with
  | none => none
  | some i =>
      let lvl := siblings.length - 1 - i
      let entries := t.leaves.toList.filter fun e =>
        (List.range lvl).all (fun b => keyBit e.1 b == keyBit key b) &&
          keyBit e.1 lvl != keyBit key lvl
      some <| match entries with
        | [(k, v)] => .leaf k v
        | many =>
            .node (subtreeRoot (256 - (lvl + 2)) (leftOf (lvl + 1) many) (lvl + 2))
              (subtreeRoot (256 - (lvl + 2)) (rightOf (lvl + 1) many) (lvl + 2))

/-- Witness {lit}`key` against the current tree. -/
def Smt2.witness (t : Smt2) (key : Bytes32) : SmtWitness :=
  let descent := witnessDescent key 256 t.leaves.toList 0
  let siblings := descent.2.reverse
  { key := key
    siblings := siblings
    terminal := descent.1
    deleteKind := match descent.1 with
      | .leaf _ => t.firstNonemptySiblingKind key siblings
      | _ => none }

/-- Set or delete {lit}`key`. -/
def Smt2.assign (t : Smt2) (key : Bytes32) (new : Option Bytes32) : Smt2 :=
  match new with
  | some v => t.insert key v
  | none => t.remove key

/-- Witness {lit}`key`, then apply {lit}`key := new`. -/
def Smt2.step (t : Smt2) (key : Bytes32) (new : Option Bytes32) : SmtWitness × Smt2 :=
  (t.witness key, t.assign key new)

/-- Apply {lit}`steps` to {lit}`prior` in order: the sequential witnesses and the final root. -/
def witnessSequence (prior : List (Bytes32 × Bytes32))
    (steps : List (Bytes32 × Option Bytes32)) : List SmtWitness × Bytes32 :=
  let applied := steps.foldl
    (fun acc e => ((acc.1.step e.1 e.2).2, acc.2 ++ [(acc.1.step e.1 e.2).1]))
    (Smt2.fromLeaves prior, [])
  (applied.2, applied.1.root)

/-! ## The guest's fold -/

/-- Hash {lit}`cur` with its sibling at level {lit}`lvl` of {lit}`key`'s path. -/
def joinAt (key : Bytes32) (lvl : Nat) (sib cur : Bytes32) : Bytes32 :=
  if keyBit key lvl then smt2Node sib cur else smt2Node cur sib

/-- The upward loop over the siblings from index {lit}`idx` on, in a path of
{lit}`depth` siblings. -/
def climb (key : Bytes32) (depth : Nat) : (idx : Nat) → List Bytes32 → Bytes32 → Bytes32
  | _, [], cur => cur
  | idx, sib :: rest, cur =>
      climb key depth (idx + 1) rest (joinAt key (depth - 1 - idx) sib cur)

/-- Fold {lit}`start` up through the witness's siblings along its key's bits. -/
def foldUp (w : SmtWitness) (start : Bytes32) : Bytes32 :=
  climb w.key w.siblings.length 0 w.siblings start

/-- The terminal's start value, with the absence checks. -/
def terminalStart (w : SmtWitness) : Run Bytes32 :=
  match w.terminal with
  | .leaf v => .ok (smt2Leaf w.key v)
  | .empty => .ok EMPTY
  | .otherLeaf ok ov => do
      ensure (ok ≠ w.key) "smt2: OtherLeaf carries the witness's own key"
      ensure ((List.range w.siblings.length).all fun b => keyBit ok b == keyBit w.key b)
        "smt2: OtherLeaf fails the diverging-key prefix check — absence would be forged"
      pure (smt2Leaf ok ov)

/-- First bit index at which two keys differ. -/
def firstDivergingBit (a b : Bytes32) : Run Nat :=
  expect ((List.range 256).find? fun i => keyBit a i != keyBit b i) "smt2: keys are identical"

/-- The loop of the insert branch: pad from level {lit}`j` up to {lit}`depth` with
EMPTY siblings. -/
def padWithEmpty (key : Bytes32) (depth j : Nat) (cur : Bytes32) : Bytes32 :=
  (List.range' depth (j - depth)).foldr (fun lvl cur => joinAt key lvl EMPTY cur) cur

/-- The insert branch: an empty terminal takes the leaf, a foreign leaf splits at
the first diverging bit. -/
def applyInsert (w : SmtWitness) (n : Bytes32) : Run Bytes32 :=
  let leaf := smt2Leaf w.key n
  match w.terminal with
  | .empty => .ok (foldUp w leaf)
  | .otherLeaf ok ov => do
      let depth := w.siblings.length
      let j ← firstDivergingBit w.key ok
      let other := smt2Leaf ok ov
      let cur := if keyBit w.key j then smt2Node other leaf else smt2Node leaf other
      pure (foldUp w (padWithEmpty w.key depth j cur))
  | .leaf _ => .error (.panic "old-binding above rejects this")

/-- The delete branch: an emptied path collapses, and a lone sibling leaf rises. -/
def applyDelete (w : SmtWitness) : Run Bytes32 :=
  let depth := w.siblings.length
  match w.siblings.findIdx? (· ≠ EMPTY) with
  | none => .ok EMPTY
  | some i => do
      let s := w.siblings.getD i EMPTY
      let kind ← expect w.deleteKind
        "smt2: delete needs a delete_kind proof for the first non-EMPTY sibling"
      match kind with
      | .leaf sk sv =>
          ensure (smt2Leaf sk sv = s)
            "smt2: delete_kind Leaf preimage does not hash to the sibling"
          let skipped := ((w.siblings.drop (i + 1)).takeWhile (· = EMPTY)).length
          let j := i + 1 + skipped
          pure (climb w.key depth j (w.siblings.drop j) s)
      | .node l r =>
          ensure (smt2Node l r = s)
            "smt2: delete_kind Node preimage does not hash to the sibling"
          pure (climb w.key depth i (w.siblings.drop i) EMPTY)

/-- Prove {lit}`old` at the witness's key under {lit}`running`, then return the
root with {lit}`new` applied. -/
def applyStep (running : Bytes32) (w : SmtWitness) (old new : Option Bytes32) :
    Run Bytes32 := do
  ensure (w.siblings.length ≤ 256) "smt2: witness depth exceeds 256"
  match w.terminal, old with
  | .leaf v, some o => ensure (v = o) "smt2: terminal leaf != claimed prior value"
  | .empty, none => pure ()
  | .otherLeaf _ _, none => pure ()
  | _, _ => .error (.panic "smt2: terminal kind contradicts the claimed prior presence")
  let start ← terminalStart w
  ensure (foldUp w start = running)
    "smt2: stale path — witness does not fold to the running root"
  match old, new with
  | some _, some n => pure (foldUp w (smt2Leaf w.key n))
  | none, some n => applyInsert w n
  | some _, none => applyDelete w
  | none, none => .error (.panic "smt2: a no-op step (absent → absent) is not a step")

/-- Fold account keys into the registry root. -/
def creditedDepositRegistry (keys : List Bytes32) : Bytes32 :=
  (keys.foldl (fun t k => t.insert k registryLeaf) Smt2.new).root

end StateKeeper
