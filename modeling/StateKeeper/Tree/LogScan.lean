import StateKeeper.Foundation.Fallible
import StateKeeper.Foundation.Words

/-!
# Tree - The chunk loop of the log scan

The scan asks the node for the core's logs from the deploy block to the head, a
bounded span of blocks at a time.  A block left out or asked for twice loses or
doubles an event, so the requests must cover the span exactly.

Main results:

- Theorem {lit}`scanLogs_covers`: the loop ends, and its requests cover every
  block of the span once.
- Theorem {lit}`scanLogs_chain`: against a node that answers each request with
  the logs of its blocks, the loop collects each log of the span once.
-/

namespace StateKeeper

open Words Fallible

/-! ## The loop -/

/-- Max block span per request. -/
def LOG_CHUNK : U64 :=
  90000

/-- {lit}`u64::saturating_add`. -/
def satAddU64 (a b : U64) : U64 :=
  BitVec.ofNat 64 (min (a.toNat + b.toNat) (2 ^ 64 - 1))

/-- {lit}`u64::checked_add`. -/
def checkedAddU64 (a b : U64) : Option U64 :=
  if a.toNat + b.toNat < 2 ^ 64 then some (a + b) else none

/-- The blocks one request asks for, both ends included. -/
structure BlockRange where
  fromBlock : U64
  toBlock : U64
deriving DecidableEq

/-- A block lies in the range. -/
@[reducible]
def BlockRange.Holds (r : BlockRange) (block : U64) : Prop :=
  r.fromBlock ≤ block ∧ block ≤ r.toBlock

/-- The last block of the request that starts at {lit}`lo`. -/
def chunkEnd (span lo head : U64) : U64 :=
  min (satAddU64 lo (span - 1)) head

theorem satAddU64_toNat (a b : U64) :
    (satAddU64 a b).toNat = min (a.toNat + b.toNat) (2 ^ 64 - 1) := by
  rw [satAddU64, BitVec.toNat_ofNat, Nat.mod_eq_of_lt (by omega)]

theorem checkedAddU64_eq_some {a b c : U64} :
    checkedAddU64 a b = some c ↔ c.toNat = a.toNat + b.toNat := by
  unfold checkedAddU64
  by_cases hfits : a.toNat + b.toNat < 2 ^ 64
  · rw [if_pos hfits, Option.some.injEq, ← BitVec.toNat_inj, BitVec.toNat_add,
      Nat.mod_eq_of_lt hfits]
    exact eq_comm
  · have hc := c.isLt
    simp only [if_neg hfits]
    constructor
    · intro h
      cases h
    · intro h
      omega

/-- The saturating sum is cut to the head, so it ends where the exact one would. -/
theorem chunkEnd_toNat (span lo head : U64) :
    (chunkEnd span lo head).toNat = min (lo.toNat + (span - 1).toNat) head.toNat := by
  have hsat := satAddU64_toNat lo (span - 1)
  have hhead := head.isLt
  unfold chunkEnd
  rcases le_total (satAddU64 lo (span - 1)) head with hle | hle
  · rw [min_eq_left hle]
    rw [BitVec.le_def] at hle
    omega
  · rw [min_eq_right hle]
    rw [BitVec.le_def] at hle
    omega

/-- The next request starts above the last one. -/
theorem chunkEnd_next_lt {span lo head next : U64} (h : lo ≤ head)
    (hnext : checkedAddU64 (chunkEnd span lo head) 1 = some next) :
    head.toNat + 1 - next.toNat < head.toNat + 1 - lo.toNat := by
  have hend := chunkEnd_toNat span lo head
  have hstart : next.toNat = (chunkEnd span lo head).toNat + 1 := checkedAddU64_eq_some.mp hnext
  rw [BitVec.le_def] at h
  omega

/-- The chunk loop from {lit}`lo` on, over the logs collected so far. -/
def chunkLoop {Log : Type} (span : U64) (getLogs : BlockRange → Run (List Log))
    (head lo : U64) (logs : List Log) : Run (List Log) :=
  if h : lo ≤ head then do
    let chunk ← getLogs { fromBlock := lo, toBlock := chunkEnd span lo head }
    match hnext : checkedAddU64 (chunkEnd span lo head) 1 with
    | none => pure (logs ++ chunk)
    | some next =>
        have := chunkEnd_next_lt h hnext
        chunkLoop span getLogs head next (logs ++ chunk)
  else pure logs
termination_by head.toNat + 1 - lo.toNat

/-- The requests of the chunk loop from {lit}`lo` on. -/
def chunkRanges (span head lo : U64) : List BlockRange :=
  if h : lo ≤ head then
    { fromBlock := lo, toBlock := chunkEnd span lo head } ::
      match hnext : checkedAddU64 (chunkEnd span lo head) 1 with
      | none => []
      | some next =>
          have := chunkEnd_next_lt h hnext
          chunkRanges span head next
  else []
termination_by head.toNat + 1 - lo.toNat

/-- The log collection of {lit}`scan`. -/
def scanLogs {Log : Type} (getLogs : BlockRange → Run (List Log)) (head deployBlock : U64) :
    Run (List Log) :=
  chunkLoop LOG_CHUNK getLogs head deployBlock []

/-- The requests of {lit}`scan`. -/
def scanRanges (head deployBlock : U64) : List BlockRange :=
  chunkRanges LOG_CHUNK head deployBlock

/-! ## One round -/

section Rounds

variable {span head lo next : U64}

theorem le_chunkEnd (span : U64) (h : lo ≤ head) : lo ≤ chunkEnd span lo head := by
  have hend := chunkEnd_toNat span lo head
  rw [BitVec.le_def] at h ⊢
  omega

theorem chunkEnd_le : chunkEnd span lo head ≤ head :=
  min_le_right _ _

/-- Past the head nothing is asked for. -/
theorem chunkRanges_past (h : head < lo) : chunkRanges span head lo = [] := by
  rw [chunkRanges, dif_neg (not_le.mpr h)]

/-- The request that reaches the head is the last one, also where the step past the head
would overflow. -/
theorem chunkRanges_last (h : lo ≤ head) (hend : chunkEnd span lo head = head) :
    chunkRanges span head lo = [{ fromBlock := lo, toBlock := head }] := by
  rw [chunkRanges, dif_pos h]
  apply List.cons_eq_cons.mpr
  refine ⟨by rw [hend], ?_⟩
  split
  · rfl
  · rename_i next hnext
    rw [hend] at hnext
    have hstart : next.toNat = head.toNat + 1 := checkedAddU64_eq_some.mp hnext
    apply chunkRanges_past
    rw [BitVec.lt_def]
    omega

/-- A request below the head is followed by the one that starts right above it. -/
theorem chunkRanges_round (h : lo ≤ head)
    (hnext : next.toNat = (chunkEnd span lo head).toNat + 1) :
    chunkRanges span head lo =
      { fromBlock := lo, toBlock := chunkEnd span lo head } :: chunkRanges span head next := by
  have hstep : checkedAddU64 (chunkEnd span lo head) 1 = some next :=
    checkedAddU64_eq_some.mpr hnext
  rw [chunkRanges, dif_pos h]
  congr 1
  split
  · rename_i hnone
    rw [hstep] at hnone
    cases hnone
  · rename_i next' hnext'
    rw [hstep] at hnext'
    cases hnext'
    rfl

/-- The rounds of the loop: past the head, at the head, or below it. -/
theorem chunk_induction {motive : U64 → Prop} (span head : U64)
    (past : ∀ lo, head < lo → motive lo)
    (last : ∀ lo, lo ≤ head → chunkEnd span lo head = head → motive lo)
    (round : ∀ lo next, lo ≤ head → next ≤ head →
      next.toNat = (chunkEnd span lo head).toNat + 1 → motive next → motive lo) (lo : U64) :
    motive lo := by
  induction hsize : head.toNat + 1 - lo.toNat using Nat.strong_induction_on generalizing lo with
  | _ size ih =>
      by_cases h : lo ≤ head
      · by_cases hend : chunkEnd span lo head = head
        · exact last lo h hend
        · have hbelow : (chunkEnd span lo head).toNat < head.toNat :=
            BitVec.lt_def.mp (lt_of_le_of_ne chunkEnd_le hend)
          have hlow : lo.toNat ≤ (chunkEnd span lo head).toNat := BitVec.le_def.mp (le_chunkEnd span h)
          have hhead := head.isLt
          let next : U64 := BitVec.ofNat 64 ((chunkEnd span lo head).toNat + 1)
          have hnext : next.toNat = (chunkEnd span lo head).toNat + 1 := by
            rw [BitVec.toNat_ofNat, Nat.mod_eq_of_lt (by omega)]
          apply round lo next h
          · rw [BitVec.le_def]
            omega
          · exact hnext
          · exact ih _ (by omega) next rfl
      · exact past lo (not_le.mp h)

end Rounds

/-! ## Every block once -/

section Cover

variable {span head lo : U64}

theorem le_of_mem_chunkRanges :
    ∀ r ∈ chunkRanges span head lo, lo ≤ r.fromBlock := by
  induction lo using chunk_induction span head with
  | past lo h => simp [chunkRanges_past h]
  | last lo h hend => simp [chunkRanges_last h hend]
  | round lo next h _ hnext ih =>
      rw [chunkRanges_round h hnext]
      intro r hr
      rcases List.mem_cons.mp hr with rfl | hr
      · exact le_refl lo
      · have hlow := BitVec.le_def.mp (le_chunkEnd span h)
        have hrest := BitVec.le_def.mp (ih r hr)
        rw [BitVec.le_def]
        omega

/-- Each request starts above the end of the ones before it. -/
theorem chunkRanges_ascending :
    (chunkRanges span head lo).Pairwise fun r r' => r.toBlock < r'.fromBlock := by
  induction lo using chunk_induction span head with
  | past lo h => simp [chunkRanges_past h]
  | last lo h hend => simp [chunkRanges_last h hend]
  | round lo next h _ hnext ih =>
      rw [chunkRanges_round h hnext]
      apply List.Pairwise.cons
      · intro r hr
        have hrest := BitVec.le_def.mp (le_of_mem_chunkRanges r hr)
        change chunkEnd span lo head < r.fromBlock
        rw [BitVec.lt_def]
        omega
      · exact ih

theorem toNat_pred (hspan : 0 < span) : (span - 1).toNat + 1 = span.toNat := by
  have hpos : 0 < span.toNat := BitVec.lt_def.mp hspan
  have hone : (1 : U64).toNat = 1 := rfl
  have hlt := span.isLt
  rw [BitVec.toNat_sub, hone]
  omega

/-- A request asks for at least one block and for at most {lit}`span` of them. -/
theorem chunkRanges_span (hspan : 0 < span) :
    ∀ r ∈ chunkRanges span head lo,
      r.fromBlock ≤ r.toBlock ∧ r.toBlock.toNat + 1 - r.fromBlock.toNat ≤ span.toNat := by
  have hpred := toNat_pred hspan
  have hround : ∀ lo, (chunkEnd span lo head).toNat + 1 - lo.toNat ≤ span.toNat := by
    intro lo
    have hend := chunkEnd_toNat span lo head
    omega
  induction lo using chunk_induction span head with
  | past lo h => simp [chunkRanges_past h]
  | last lo h hend =>
      rw [chunkRanges_last h hend]
      intro r hr
      rw [List.mem_singleton.mp hr]
      have hsize := hround lo
      rw [hend] at hsize
      exact ⟨h, hsize⟩
  | round lo next h _ hnext ih =>
      rw [chunkRanges_round h hnext]
      intro r hr
      rcases List.mem_cons.mp hr with rfl | hr
      · exact ⟨le_chunkEnd span h, hround lo⟩
      · exact ih r hr

/-- The requests ask for the blocks from {lit}`lo` to the head and for no others. -/
theorem chunkRanges_holds (block : U64) :
    (∃ r ∈ chunkRanges span head lo, r.Holds block) ↔ lo ≤ block ∧ block ≤ head := by
  induction lo using chunk_induction span head with
  | past lo h =>
      rw [chunkRanges_past h]
      constructor
      · intro hmem
        rcases hmem with ⟨r, hr, _⟩
        cases hr
      · intro hblock
        exact absurd (le_trans hblock.1 hblock.2) (not_le.mpr h)
  | last lo h hend => simp [chunkRanges_last h hend, BlockRange.Holds]
  | round lo next h hhead hnext ih =>
      rw [chunkRanges_round h hnext]
      simp only [List.mem_cons, exists_eq_or_imp, ih, BlockRange.Holds]
      have hlow := BitVec.le_def.mp (le_chunkEnd span h)
      simp only [BitVec.le_def] at hhead hlow ⊢
      omega

/-- The number of requests: the span of blocks by the chunk, rounded up. -/
theorem chunkRanges_length (hspan : 0 < span) :
    (chunkRanges span head lo).length =
      (head.toNat + span.toNat - lo.toNat) / span.toNat := by
  have hpred := toNat_pred hspan
  have hpos : 0 < span.toNat := BitVec.lt_def.mp hspan
  induction lo using chunk_induction span head with
  | past lo h =>
      rw [chunkRanges_past h, Nat.div_eq_of_lt]
      · rfl
      · rw [BitVec.lt_def] at h
        omega
  | last lo h hend =>
      have hsum := chunkEnd_toNat span lo head
      rw [hend] at hsum
      rw [BitVec.le_def] at h
      rw [chunkRanges_last h hend]
      symm
      apply Nat.div_eq_of_lt_le
      · simp only [List.length_singleton]
        omega
      · simp only [List.length_singleton]
        omega
  | round lo next h hhead hnext ih =>
      have hsum := chunkEnd_toNat span lo head
      rw [BitVec.le_def] at h hhead
      have hstep : head.toNat + span.toNat - lo.toNat =
          (head.toNat + span.toNat - next.toNat) + span.toNat := by
        omega
      rw [chunkRanges_round h hnext, List.length_cons, ih, hstep, Nat.add_div_right _ hpos]

end Cover

/-! ## The logs collected -/

section Logs

variable {Log : Type} {span head lo : U64}

theorem chunkLoop_past (getLogs : BlockRange → Run (List Log)) (logs : List Log)
    (h : head < lo) : chunkLoop span getLogs head lo logs = .ok logs := by
  rw [chunkLoop, dif_neg (not_le.mpr h)]
  rfl

theorem chunkLoop_last (getLogs : BlockRange → Run (List Log)) (logs : List Log)
    (h : lo ≤ head) (hend : chunkEnd span lo head = head) :
    chunkLoop span getLogs head lo logs = (do
      let chunk ← getLogs { fromBlock := lo, toBlock := chunkEnd span lo head }
      pure (logs ++ chunk)) := by
  rw [chunkLoop, dif_pos h]
  congr 1
  ext chunk
  split
  · rfl
  · rename_i next hnext
    rw [hend] at hnext
    have hstart : next.toNat = head.toNat + 1 := checkedAddU64_eq_some.mp hnext
    apply chunkLoop_past
    rw [BitVec.lt_def]
    omega

theorem chunkLoop_round {next : U64} (getLogs : BlockRange → Run (List Log)) (logs : List Log)
    (h : lo ≤ head) (hnext : next.toNat = (chunkEnd span lo head).toNat + 1) :
    chunkLoop span getLogs head lo logs = (do
      let chunk ← getLogs { fromBlock := lo, toBlock := chunkEnd span lo head }
      chunkLoop span getLogs head next (logs ++ chunk)) := by
  have hstep : checkedAddU64 (chunkEnd span lo head) 1 = some next :=
    checkedAddU64_eq_some.mpr hnext
  rw [chunkLoop, dif_pos h]
  congr 1
  ext chunk
  split
  · rename_i hnone
    rw [hstep] at hnone
    cases hnone
  · rename_i next' hnext'
    rw [hstep] at hnext'
    cases hnext'
    rfl

/-- The loop collects the answers to its requests, in order. -/
theorem chunkLoop_eq (getLogs : BlockRange → Run (List Log)) (logs : List Log) :
    chunkLoop span getLogs head lo logs =
      (fun answers => logs ++ answers.flatten) <$> (chunkRanges span head lo).mapM getLogs := by
  induction lo using chunk_induction span head generalizing logs with
  | past lo h =>
      rw [chunkLoop_past getLogs logs h, chunkRanges_past h]
      simp
  | last lo h hend =>
      rw [chunkLoop_last getLogs logs h hend, chunkRanges_last h hend, hend]
      cases hchunk : getLogs { fromBlock := lo, toBlock := head } <;> simp [hchunk]
  | round lo next h _ hnext ih =>
      rw [chunkLoop_round getLogs logs h hnext, chunkRanges_round h hnext, List.mapM_cons]
      cases hchunk : getLogs { fromBlock := lo, toBlock := chunkEnd span lo head } with
      | error e => simp
      | ok chunk =>
          rw [ok_bind, ok_bind, ih]
          cases (chunkRanges span head next).mapM getLogs <;> simp

/-- The logs of each request's blocks are the logs from {lit}`lo` to the head, each once. -/
theorem chunkRanges_logs (span head lo : U64) (chain : List Log) (blockOf : Log → U64) :
    ((chunkRanges span head lo).flatMap fun r =>
        chain.filter fun log => r.Holds (blockOf log)).Perm
      (chain.filter fun log => lo ≤ blockOf log ∧ blockOf log ≤ head) := by
  induction lo using chunk_induction span head with
  | past lo h =>
      have hnone : (chain.filter fun log => lo ≤ blockOf log ∧ blockOf log ≤ head) = [] := by
        rw [List.filter_eq_nil_iff]
        intro log _ hlog
        have hblock := of_decide_eq_true hlog
        exact absurd (le_trans hblock.1 hblock.2) (not_le.mpr h)
      rw [chunkRanges_past h, hnone, List.flatMap_nil]
  | last lo h hend => simp [chunkRanges_last h hend, BlockRange.Holds]
  | round lo next h hhead hnext ih =>
      have hlow := BitVec.le_def.mp (le_chunkEnd span h)
      rw [BitVec.le_def] at hhead
      -- the first request takes the logs below the start of the next one
      have hfirst : (chain.filter fun log =>
          BlockRange.Holds { fromBlock := lo, toBlock := chunkEnd span lo head } (blockOf log)) =
          (chain.filter fun log => lo ≤ blockOf log ∧ blockOf log ≤ head).filter fun log =>
            blockOf log < next := by
        rw [List.filter_filter]
        apply List.filter_congr
        intro log _
        rw [Bool.eq_iff_iff]
        simp only [BlockRange.Holds, decide_eq_true_eq, Bool.and_eq_true, BitVec.le_def,
          BitVec.lt_def]
        omega
      have hrest : (chain.filter fun log => next ≤ blockOf log ∧ blockOf log ≤ head) =
          (chain.filter fun log => lo ≤ blockOf log ∧ blockOf log ≤ head).filter fun log =>
            !decide (blockOf log < next) := by
        rw [List.filter_filter]
        apply List.filter_congr
        intro log _
        rw [Bool.eq_iff_iff]
        simp only [decide_eq_true_eq, Bool.and_eq_true, Bool.not_eq_true', decide_eq_false_iff_not,
          BitVec.le_def, BitVec.lt_def]
        omega
      rw [chunkRanges_round h hnext, List.flatMap_cons, hfirst]
      apply List.Perm.trans (List.Perm.append_left _ ih)
      rw [hrest]
      exact List.filter_append_perm _ _

/-- Against a node that answers each request with the logs of its blocks, the scan
collects each log of its span once. -/
theorem scanLogs_chain {deployBlock : U64} (chain : List Log) (blockOf : Log → U64)
    (getLogs : BlockRange → Run (List Log))
    (hnode : ∀ r, getLogs r = .ok (chain.filter fun log => r.Holds (blockOf log))) :
    ∃ logs, scanLogs getLogs head deployBlock = .ok logs ∧
      logs.Perm (chain.filter fun log => deployBlock ≤ blockOf log ∧ blockOf log ≤ head) := by
  have hlogs := chunkRanges_logs LOG_CHUNK head deployBlock chain blockOf
  refine ⟨_, ?_, hlogs⟩
  rw [scanLogs, chunkLoop_eq, mapM_eq_map fun r _ => hnode r]
  simp [List.flatMap]

end Logs

/-- The chunk loop ends after the block count of its span over {lit}`LOG_CHUNK`, rounded
up, and collects the answers to its requests.  The requests are ascending and disjoint,
ask for at most {lit}`LOG_CHUNK` blocks each, and together for exactly the blocks from the
deploy block to the head. -/
theorem scanLogs_covers (deployBlock head : U64) :
    (∀ {Log : Type} (getLogs : BlockRange → Run (List Log)),
      scanLogs getLogs head deployBlock =
        List.flatten <$> (scanRanges head deployBlock).mapM getLogs) ∧
    (scanRanges head deployBlock).length =
      (head.toNat + LOG_CHUNK.toNat - deployBlock.toNat) / LOG_CHUNK.toNat ∧
    ((scanRanges head deployBlock).Pairwise fun r r' => r.toBlock < r'.fromBlock) ∧
    (∀ r ∈ scanRanges head deployBlock, r.fromBlock ≤ r.toBlock ∧
      r.toBlock.toNat + 1 - r.fromBlock.toNat ≤ LOG_CHUNK.toNat) ∧
    ∀ block, (∃ r ∈ scanRanges head deployBlock, r.Holds block) ↔
      deployBlock ≤ block ∧ block ≤ head := by
  have hspan : 0 < LOG_CHUNK := by decide
  refine ⟨?_, chunkRanges_length hspan, chunkRanges_ascending, chunkRanges_span hspan,
    chunkRanges_holds⟩
  intro Log getLogs
  rw [scanLogs, chunkLoop_eq]
  simp [scanRanges]

end StateKeeper
