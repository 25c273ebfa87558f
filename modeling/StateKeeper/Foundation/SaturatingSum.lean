import StateKeeper.Foundation.Words

/-!
# Foundation - Saturating sums

A list of integers added one by one, each partial sum clamped into an interval.
While the values share a sign the clamps act once, at the end; when they do not,
an order that puts the positive values first and one that puts the negative ones
first part as soon as either clamps.

Main results:

- Theorem {lit}`satSum_of_neverClamps`: without a clamp the sum is the exact one.
- Theorems {lit}`satSum_of_perm`, {lit}`orderFree_of_split`: when no order of the
  values changes the sum.
- Theorem {lit}`foldl_satAddI_toInt`: the machine's accumulation is such a sum.
-/

namespace SaturatingSum

open Words

variable {lo hi s : Int} {xs ys : List Int}

/-- One clamped addition. -/
def satStep (lo hi : Int) (s x : Int) : Int :=
  max lo (min (s + x) hi)

/-- Add the values in order, clamping every partial sum. -/
def satSum (lo hi : Int) (s : Int) (xs : List Int) : Int :=
  xs.foldl (satStep lo hi) s

/-- The values that are positive, and the others. -/
def gains (xs : List Int) : List Int :=
  xs.filter fun x => 0 < x

@[inherit_doc gains]
def losses (xs : List Int) : List Int :=
  xs.filter fun x => ¬0 < x

/-- No order of the values can clamp in one place and not in another: they share a sign,
or all gains first and all losses first both stay inside. -/
def OrderFree (lo hi : Int) (s : Int) (xs : List Int) : Prop :=
  (∀ x ∈ xs, 0 ≤ x) ∨ (∀ x ∈ xs, x ≤ 0) ∨
    (s + (gains xs).sum ≤ hi ∧ lo ≤ s + (losses xs).sum)

instance : Decidable (OrderFree lo hi s xs) :=
  inferInstanceAs (Decidable (_ ∨ _ ∨ _))

/-- No partial sum leaves the interval. -/
inductive NeverClamps (lo hi : Int) : Int → List Int → Prop where
  | nil (s : Int) : NeverClamps lo hi s []
  | cons {s x : Int} {xs : List Int} : lo ≤ s + x → s + x ≤ hi →
      NeverClamps lo hi (s + x) xs → NeverClamps lo hi s (x :: xs)

theorem neverClamps_cons {x : Int} :
    NeverClamps lo hi s (x :: xs) ↔
      (lo ≤ s + x ∧ s + x ≤ hi) ∧ NeverClamps lo hi (s + x) xs := by
  constructor
  · intro h
    cases h with
    | cons hlo hhi hrest => exact ⟨⟨hlo, hhi⟩, hrest⟩
  · intro h
    exact .cons h.1.1 h.1.2 h.2

instance decidableNeverClamps (lo hi : Int) : ∀ s xs, Decidable (NeverClamps lo hi s xs)
  | s, [] => isTrue (.nil s)
  | s, x :: xs =>
      have := decidableNeverClamps lo hi (s + x) xs
      decidable_of_iff' _ neverClamps_cons

@[simp]
theorem satSum_nil : satSum lo hi s [] = s :=
  rfl

@[simp]
theorem satSum_cons {x : Int} : satSum lo hi s (x :: xs) = satSum lo hi (satStep lo hi s x) xs :=
  rfl

theorem satSum_append : satSum lo hi s (xs ++ ys) = satSum lo hi (satSum lo hi s xs) ys :=
  List.foldl_append

/-- A clamped sum stays in the interval. -/
theorem satSum_mem (hlt : lo ≤ hi) (hlo : lo ≤ s) (hhi : s ≤ hi) :
    lo ≤ satSum lo hi s xs ∧ satSum lo hi s xs ≤ hi := by
  induction xs generalizing s with
  | nil => exact ⟨hlo, hhi⟩
  | cons x xs ih =>
      refine ih ?_ ?_
      · unfold satStep
        omega
      · unfold satStep
        omega

/-- Without a clamp the sum is the exact one. -/
theorem satSum_of_neverClamps (h : NeverClamps lo hi s xs) : satSum lo hi s xs = s + xs.sum := by
  induction h with
  | nil s => simp
  | @cons s x xs hlo hhi _ ih =>
      have hstep : satStep lo hi s x = s + x := by
        unfold satStep
        omega
      rw [satSum_cons, hstep, ih, List.sum_cons]
      omega

/-! ## Values of one sign -/

theorem sum_nonpos (h : ∀ x ∈ xs, x ≤ 0) : xs.sum ≤ 0 := by
  induction xs with
  | nil => exact le_rfl
  | cons x xs ih =>
      have hx := h x List.mem_cons_self
      have hrest := ih fun y hy => h y (List.mem_cons_of_mem _ hy)
      rw [List.sum_cons]
      omega

/-- A list with a member is that member and the rest. -/
theorem sum_of_mem {x : Int} (h : x ∈ xs) : xs.sum = x + (xs.erase x).sum := by
  rw [(List.perm_cons_erase h).sum_eq, List.sum_cons]

/-- Non-negative values clamp at most at the top, once. -/
theorem satSum_of_nonneg (hlo : lo ≤ s) (hhi : s ≤ hi) (h : ∀ x ∈ xs, 0 ≤ x) :
    satSum lo hi s xs = min (s + xs.sum) hi := by
  induction xs generalizing s with
  | nil => simp [hhi]
  | cons x xs ih =>
      have hx := h x List.mem_cons_self
      have hrest : ∀ y ∈ xs, 0 ≤ y := fun y hy => h y (List.mem_cons_of_mem _ hy)
      have hsum : 0 ≤ xs.sum := List.sum_nonneg hrest
      have hstep : lo ≤ satStep lo hi s x ∧ satStep lo hi s x ≤ hi := by
        unfold satStep
        omega
      rw [satSum_cons, ih hstep.1 hstep.2 hrest, List.sum_cons, satStep]
      omega

/-- Non-positive values clamp at most at the bottom, once. -/
theorem satSum_of_nonpos (hlo : lo ≤ s) (hhi : s ≤ hi) (h : ∀ x ∈ xs, x ≤ 0) :
    satSum lo hi s xs = max lo (s + xs.sum) := by
  induction xs generalizing s with
  | nil => simp [hlo]
  | cons x xs ih =>
      have hx := h x List.mem_cons_self
      have hrest : ∀ y ∈ xs, y ≤ 0 := fun y hy => h y (List.mem_cons_of_mem _ hy)
      have hsum : xs.sum ≤ 0 := sum_nonpos hrest
      have hstep : lo ≤ satStep lo hi s x ∧ satStep lo hi s x ≤ hi := by
        unfold satStep
        omega
      rw [satSum_cons, ih hstep.1 hstep.2 hrest, List.sum_cons, satStep]
      omega

/-! ## Gains and losses -/

theorem gains_pos : ∀ x ∈ gains xs, 0 < x := by
  intro x hx
  exact of_decide_eq_true (List.mem_filter.mp hx).2

theorem losses_nonpos : ∀ x ∈ losses xs, x ≤ 0 := by
  intro x hx
  exact not_lt.mp (of_decide_eq_true (List.mem_filter.mp hx).2)

theorem gains_sum_nonneg : 0 ≤ (gains xs).sum :=
  List.sum_nonneg fun x hx => le_of_lt (gains_pos x hx)

theorem losses_sum_nonpos : (losses xs).sum ≤ 0 :=
  sum_nonpos losses_nonpos

theorem gains_cons {x : Int} : (gains (x :: xs)).sum = max x 0 + (gains xs).sum := by
  unfold gains
  by_cases hx : 0 < x
  · rw [List.filter_cons_of_pos (by simpa using hx), List.sum_cons]
    omega
  · rw [List.filter_cons_of_neg (by simpa using hx)]
    omega

theorem losses_cons {x : Int} : (losses (x :: xs)).sum = min x 0 + (losses xs).sum := by
  unfold losses
  by_cases hx : 0 < x
  · rw [List.filter_cons_of_neg (by simpa using hx)]
    omega
  · rw [List.filter_cons_of_pos (by simpa using hx), List.sum_cons]
    omega

/-- Values that come one at a time split into gains and losses where they come from. -/
theorem gains_flatMap {α : Type} {f : α → List Int} {as : List α}
    (h : ∀ a ∈ as, (f a).length ≤ 1) :
    gains (as.flatMap f) = (as.filter fun a => (f a).any fun x => 0 < x).flatMap f ∧
      losses (as.flatMap f) = (as.filter fun a => !(f a).any fun x => 0 < x).flatMap f := by
  induction as with
  | nil => exact ⟨rfl, rfl⟩
  | cons a as ih =>
      rcases ih fun b hb => h b (List.mem_cons_of_mem _ hb) with ⟨hgains, hlosses⟩
      have hone := h a List.mem_cons_self
      unfold gains at hgains
      unfold losses at hlosses
      unfold gains losses
      rw [List.flatMap_cons, List.filter_append, List.filter_append, hgains, hlosses]
      match hfa : f a with
      | [] => simp [hfa]
      | [x] =>
          by_cases hx : 0 < x
          · simp [hfa, hx]
          · simp [hfa, hx, not_lt.mp hx]
      | x :: y :: rest =>
          rw [hfa] at hone
          simp at hone

/-- If even all gains first and all losses first stay inside, the sum is exact. -/
theorem satSum_exact (hhi : s + (gains xs).sum ≤ hi) (hlo : lo ≤ s + (losses xs).sum) :
    satSum lo hi s xs = s + xs.sum := by
  induction xs generalizing s with
  | nil => simp
  | cons x xs ih =>
      rw [gains_cons] at hhi
      rw [losses_cons] at hlo
      have hgains : 0 ≤ (gains xs).sum := gains_sum_nonneg
      have hlosses : (losses xs).sum ≤ 0 := losses_sum_nonpos
      have hstep : satStep lo hi s x = s + x := by
        unfold satStep
        omega
      rw [satSum_cons, hstep, ih (by omega) (by omega), List.sum_cons]
      omega

/-- Gains first and losses first agree only when the values are free of their order. -/
theorem orderFree_of_split (hlt : lo < hi) (hlo : lo ≤ s) (hhi : s ≤ hi)
    (h : satSum lo hi s (gains xs ++ losses xs) = satSum lo hi s (losses xs ++ gains xs)) :
    OrderFree lo hi s xs := by
  by_cases hgain : ∃ x ∈ xs, 0 < x
  · by_cases hloss : ∃ x ∈ xs, x < 0
    · have hgains : 0 < (gains xs).sum := by
        rcases hgain with ⟨x, hx, hpos⟩
        have hmem : x ∈ gains xs := List.mem_filter.mpr ⟨hx, decide_eq_true hpos⟩
        have hrest : 0 ≤ ((gains xs).erase x).sum :=
          List.sum_nonneg fun y hy => le_of_lt (gains_pos y (List.mem_of_mem_erase hy))
        rw [sum_of_mem hmem]
        omega
      have hlosses : (losses xs).sum < 0 := by
        rcases hloss with ⟨x, hx, hneg⟩
        have hmem : x ∈ losses xs := List.mem_filter.mpr ⟨hx, decide_eq_true (by omega)⟩
        have hrest : ((losses xs).erase x).sum ≤ 0 :=
          sum_nonpos fun y hy => losses_nonpos y (List.mem_of_mem_erase hy)
        rw [sum_of_mem hmem]
        omega
      have hfirst : satSum lo hi s (gains xs) = min (s + (gains xs).sum) hi :=
        satSum_of_nonneg hlo hhi fun x hx => le_of_lt (gains_pos x hx)
      have hsecond : satSum lo hi s (losses xs) = max lo (s + (losses xs).sum) :=
        satSum_of_nonpos hlo hhi losses_nonpos
      rw [satSum_append, satSum_append, hfirst, hsecond,
        satSum_of_nonpos (by omega) (by omega) losses_nonpos,
        satSum_of_nonneg (by omega) (by omega) fun x hx => le_of_lt (gains_pos x hx)] at h
      exact .inr (.inr ⟨by omega, by omega⟩)
    · exact .inl fun x hx => not_lt.mp fun hneg => hloss ⟨x, hx, hneg⟩
  · exact .inr (.inl fun x hx => not_lt.mp fun hpos => hgain ⟨x, hx, hpos⟩)

/-- Values free of their order have one sum. -/
theorem satSum_of_perm (hlo : lo ≤ s) (hhi : s ≤ hi) (hfree : OrderFree lo hi s xs)
    (hperm : ys.Perm xs) : satSum lo hi s ys = satSum lo hi s xs := by
  rcases hfree with hnonneg | hnonpos | ⟨htop, hbottom⟩
  · rw [satSum_of_nonneg hlo hhi hnonneg,
      satSum_of_nonneg hlo hhi fun y hy => hnonneg y (hperm.mem_iff.mp hy), hperm.sum_eq]
  · rw [satSum_of_nonpos hlo hhi hnonpos,
      satSum_of_nonpos hlo hhi fun y hy => hnonpos y (hperm.mem_iff.mp hy), hperm.sum_eq]
  · have hgains : (gains ys).sum = (gains xs).sum := (hperm.filter _).sum_eq
    have hlosses : (losses ys).sum = (losses xs).sum := (hperm.filter _).sum_eq
    rw [satSum_exact htop hbottom, satSum_exact (by omega) (by omega), hperm.sum_eq]

/-! ## The machine's accumulation -/

theorem clampI128_toInt (i : Int) : (clampI128 i).toInt = max i128Min (min i i128Max) := by
  unfold clampI128
  rw [BitVec.toInt_ofInt_eq_self (by omega)]
  · unfold i128Min
    omega
  · unfold i128Min i128Max
    omega

/-- Saturating accumulation is the clamped sum of the values. -/
theorem foldl_satAddI_toInt {acc : I128} {vs : List I128} :
    (vs.foldl satAddI acc).toInt =
      satSum i128Min i128Max acc.toInt (vs.map BitVec.toInt) := by
  induction vs generalizing acc with
  | nil => rfl
  | cons v vs ih =>
      rw [List.foldl_cons, ih, satAddI, clampI128_toInt]
      rfl

end SaturatingSum
