import Mathlib

/-!
# Foundation - Runs that may stop early

A program that asserts, unwraps and returns early is a function into
{lit}`Run`: it either yields a value or stops with an {lit}`Abort`.  The rules
below take a finished run apart, one rule for each way a run is put together,
so that a proof about a long function never unfolds the monad.

Main results:

- Theorem {lit}`bind_eq_ok`: a sequence finished iff both parts did.
- Theorem {lit}`mapM_eq_ok_iff`: a traversal finished iff every element did, and
  its results are the elementwise results.
- Theorem {lit}`foldlM_invariant`: what one step of a loop preserves, the whole
  loop preserves.
-/

namespace Fallible

/-- Why a run stopped: a failed assertion, or an error handed to the caller. -/
inductive Abort where
  | panic (message : String)
  | err (message : String)
deriving DecidableEq

/-- A computation that may stop early. -/
abbrev Run := Except Abort

/-- Assert a condition; a failed assertion stops the run. -/
def ensure (condition : Prop) [Decidable condition] (message : String) : Run Unit :=
  if condition then .ok () else .error (.panic message)

/-- Unwrap an optional value; an absent value stops the run. -/
def expect {α : Type} (value : Option α) (message : String) : Run α :=
  match value with
  | some a => .ok a
  | none => .error (.panic message)

/-- Stop with an error the caller receives. -/
def bail {α : Type} (message : String) : Run α :=
  .error (.err message)

/-- A run finished when it produced a value. -/
def Finished {α : Type} (run : Run α) : Prop :=
  ∃ a, run = .ok a

variable {α β : Type}

@[simp]
theorem ok_bind (a : α) (f : α → Run β) : (Except.ok a >>= f : Run β) = f a :=
  rfl

@[simp]
theorem error_bind (e : Abort) (f : α → Run β) :
    (Except.error e >>= f : Run β) = .error e :=
  rfl

@[simp]
theorem pure_eq_ok (a : α) : (pure a : Run α) = .ok a :=
  rfl

/-- A sequence finishes exactly when both of its parts do. -/
theorem bind_eq_ok {run : Run α} {f : α → Run β} {b : β} :
    run >>= f = .ok b ↔ ∃ a, run = .ok a ∧ f a = .ok b := by
  cases run with
  | ok a => simp
  | error e => simp

/-- The flag of a run tells whether it finished. -/
theorem isOk_iff {run : Run α} : run.isOk = true ↔ Finished run := by
  cases run with
  | ok a => simp [Except.isOk, Except.toBool, Finished]
  | error e => simp [Except.isOk, Except.toBool, Finished]

/-- Mapping over a run finishes exactly when the run does. -/
theorem map_eq_ok {run : Run α} {f : α → β} {b : β} :
    f <$> run = .ok b ↔ ∃ a, run = .ok a ∧ f a = b := by
  cases run with
  | ok a => simp [Functor.map, Except.map]
  | error e => simp [Functor.map, Except.map]

@[simp]
theorem ensure_eq_ok {condition : Prop} [Decidable condition] {message : String} {u : Unit} :
    ensure condition message = .ok u ↔ condition := by
  unfold ensure
  split <;> simp_all

theorem ensure_of {condition : Prop} [Decidable condition] {message : String}
    (h : condition) : ensure condition message = .ok () :=
  ensure_eq_ok.mpr h

/-- A run behind an assertion finishes when the assertion holds and the run finishes. -/
theorem ensure_bind_eq_ok {condition : Prop} [Decidable condition] {message : String}
    {f : Unit → Run β} {b : β} :
    ensure condition message >>= f = .ok b ↔ condition ∧ f () = .ok b := by
  rw [bind_eq_ok]
  constructor
  · intro h
    rcases h with ⟨_, hcond, hrest⟩
    exact ⟨ensure_eq_ok.mp hcond, hrest⟩
  · intro h
    exact ⟨(), ensure_of h.1, h.2⟩

@[simp]
theorem expect_eq_ok {value : Option α} {message : String} {a : α} :
    expect value message = .ok a ↔ value = some a := by
  cases value <;> simp [expect]

@[simp]
theorem bail_eq_ok {message : String} {a : α} :
    bail message = .ok a ↔ False := by
  simp [bail]

@[simp]
theorem expect_some (a : α) (message : String) : expect (some a) message = .ok a :=
  rfl

/-- A run's value is determined by the run. -/
theorem ok_unique {run : Run α} {a a' : α} (h : run = .ok a) (h' : run = .ok a') :
    a = a' := by
  rw [h] at h'
  exact Except.ok.inj h'

/-! ## Traversals -/

/-- A traversal finishes exactly when each element's run does, with the
elementwise results in the same order. -/
theorem mapM_eq_ok_iff {f : α → Run β} {xs : List α} {ys : List β} :
    xs.mapM f = .ok ys ↔ List.Forall₂ (fun x y => f x = .ok y) xs ys := by
  induction xs generalizing ys with
  | nil => cases ys <;> simp
  | cons x xs ih =>
      rw [List.mapM_cons, bind_eq_ok]
      constructor
      · rintro ⟨y, hy, hrest⟩
        obtain ⟨ys', hys, hcons⟩ := bind_eq_ok.mp hrest
        cases hcons
        exact .cons hy (ih.mp hys)
      · intro h
        cases h with
        | cons hy hys => exact ⟨_, hy, bind_eq_ok.mpr ⟨_, ih.mpr hys, rfl⟩⟩

/-- A traversal whose runs all finish is the map of their results. -/
theorem mapM_eq_map {f : α → Run β} {g : α → β} {xs : List α}
    (h : ∀ x ∈ xs, f x = .ok (g x)) : xs.mapM f = .ok (xs.map g) := by
  rw [mapM_eq_ok_iff]
  induction xs with
  | nil => exact .nil
  | cons x xs ih =>
      exact .cons (h x List.mem_cons_self) (ih fun y hy => h y (List.mem_cons_of_mem x hy))

/-- A traversal that combines each element with its result. -/
theorem mapM_zipWith_eq_ok {γ : Type} {f : α → Run β} {g : α → β → γ} {xs : List α}
    {zs : List γ} :
    xs.mapM (fun x => do let y ← f x; pure (g x y) : α → Run γ) = .ok zs ↔
      ∃ ys, xs.mapM f = .ok ys ∧ zs = List.zipWith g xs ys := by
  induction xs generalizing zs with
  | nil =>
      constructor
      · intro h
        cases h
        exact ⟨[], rfl, rfl⟩
      · rintro ⟨ys, -, rfl⟩
        rfl
  | cons x xs ih =>
      rw [List.mapM_cons, List.mapM_cons]
      cases f x with
      | error e => simp
      | ok y =>
          rw [ok_bind, ok_bind, pure_eq_ok, ok_bind, bind_eq_ok]
          constructor
          · rintro ⟨rest, hrest, hcons⟩
            cases hcons
            obtain ⟨ys, hys, rfl⟩ := ih.mp hrest
            exact ⟨y :: ys, by rw [hys]; rfl, rfl⟩
          · rintro ⟨ys, hys, rfl⟩
            obtain ⟨ys', hys', hcons⟩ := bind_eq_ok.mp hys
            cases hcons
            exact ⟨_, ih.mpr ⟨ys', hys', rfl⟩, rfl⟩

/-- A finished traversal pairs every element with its own result. -/
theorem mem_zip_of_mapM {κ : Type} (key : α → κ) {f : α → Run β} {xs : List α} {ys : List β}
    (h : xs.mapM f = .ok ys) {x : α} (hx : x ∈ xs) {y : β} (hy : f x = .ok y) :
    (key x, y) ∈ (xs.map key).zip ys := by
  induction mapM_eq_ok_iff.mp h with
  | nil => cases hx
  | @cons z w zs ws hz hzs ih =>
      rw [List.map_cons, List.zip_cons_cons, List.mem_cons]
      rcases List.mem_cons.mp hx with rfl | hrest
      · exact Or.inl (by rw [ok_unique hy hz])
      · exact Or.inr (ih (mapM_eq_ok_iff.mpr hzs) hrest)

theorem mapM_length {f : α → Run β} {xs : List α} {ys : List β} (h : xs.mapM f = .ok ys) :
    ys.length = xs.length :=
  (mapM_eq_ok_iff.mp h).length_eq.symm

/-- Each element of a list related to another is related to some element of it. -/
theorem exists_of_forall₂ {R : α → β → Prop} {xs : List α} {ys : List β}
    (h : List.Forall₂ R xs ys) {x : α} (hx : x ∈ xs) : ∃ y ∈ ys, R x y := by
  induction h with
  | nil => cases hx
  | @cons z w zs ws hz _ ih =>
      rcases List.mem_cons.mp hx with rfl | hrest
      · exact ⟨w, List.mem_cons_self, hz⟩
      · obtain ⟨y, hy, hxy⟩ := ih hrest
        exact ⟨y, List.mem_cons_of_mem w hy, hxy⟩

/-- Each element of a finished traversal finished. -/
theorem exists_of_mapM {f : α → Run β} {xs : List α} {ys : List β} (h : xs.mapM f = .ok ys)
    {x : α} (hx : x ∈ xs) : ∃ y ∈ ys, f x = .ok y :=
  exists_of_forall₂ (mapM_eq_ok_iff.mp h) hx

/-- Each result of a finished traversal is some element's. -/
theorem exists_of_mem_mapM {f : α → Run β} {xs : List α} {ys : List β} (h : xs.mapM f = .ok ys)
    {y : β} (hy : y ∈ ys) : ∃ x ∈ xs, f x = .ok y :=
  exists_of_forall₂ (mapM_eq_ok_iff.mp h).flip hy

/-- A traversal of the elements in another order finishes with the results in that order. -/
theorem mapM_perm {f : α → Run β} {xs xs' : List α} {ys : List β} (hperm : xs.Perm xs')
    (h : xs.mapM f = .ok ys) : ∃ ys', xs'.mapM f = .ok ys' ∧ ys.Perm ys' := by
  rw [mapM_eq_ok_iff] at h
  obtain ⟨ys', hys, hall⟩ := List.perm_comp_forall₂ hperm.symm h
  exact ⟨ys', mapM_eq_ok_iff.mpr hys, hall.symm⟩

/-- If every element's run finishes, so does the traversal. -/
theorem mapM_finished {f : α → Run β} {xs : List α} (h : ∀ x ∈ xs, Finished (f x)) :
    Finished (xs.mapM f) := by
  induction xs with
  | nil => exact ⟨[], rfl⟩
  | cons x xs ih =>
      obtain ⟨y, hy⟩ := h x List.mem_cons_self
      obtain ⟨ys, hys⟩ := ih fun z hz => h z (List.mem_cons_of_mem x hz)
      exact ⟨y :: ys, by rw [List.mapM_cons, hy, ok_bind, hys]; rfl⟩

/-- Two functions that agree on a list traverse it alike. -/
theorem mapM_congr {f g : α → Run β} {xs : List α} (h : ∀ x ∈ xs, f x = g x) :
    xs.mapM f = xs.mapM g := by
  induction xs with
  | nil => rfl
  | cons x xs ih =>
      rw [List.mapM_cons, List.mapM_cons, h x List.mem_cons_self,
        ih fun z hz => h z (List.mem_cons_of_mem x hz)]

/-- Checking every element finishes exactly when every check does. -/
theorem forM_eq_ok_iff {f : α → Run Unit} {xs : List α} {u : Unit} :
    xs.forM f = .ok u ↔ ∀ x ∈ xs, f x = .ok () := by
  induction xs with
  | nil => simp [List.forM]
  | cons x xs ih =>
      rw [List.forM, bind_eq_ok, List.forall_mem_cons, ih]
      constructor
      · rintro ⟨_, hx, hrest⟩
        exact ⟨hx, hrest⟩
      · rintro ⟨hx, hrest⟩
        exact ⟨(), hx, hrest⟩

/-! ## Loops -/

/-- What each step of a loop preserves holds after the whole loop. -/
theorem foldlM_invariant {f : β → α → Run β} (Inv : β → Prop) {xs : List α} {b b' : β}
    (step : ∀ b x c, x ∈ xs → Inv b → f b x = .ok c → Inv c)
    (init : Inv b) (h : xs.foldlM f b = .ok b') : Inv b' := by
  induction xs generalizing b with
  | nil =>
      cases h
      exact init
  | cons x xs ih =>
      rw [List.foldlM_cons] at h
      obtain ⟨c, hc, hrest⟩ := bind_eq_ok.mp h
      exact ih (fun b y d hy => step b y d (List.mem_cons_of_mem x hy))
        (step b x c List.mem_cons_self init hc) hrest

/-- A loop whose steps check and then update runs every check and folds the updates. -/
theorem foldlM_check {check : α → Run Unit} {update : β → α → β} (xs : List α) (b : β) :
    (xs.foldlM (fun b x => do check x; pure (update b x)) b : Run β) = (do
      xs.forM check
      pure (xs.foldl update b)) := by
  induction xs generalizing b with
  | nil => rfl
  | cons x xs ih =>
      rw [List.foldlM_cons, List.forM, List.foldl_cons]
      cases check x with
      | ok u => exact ih (update b x)
      | error e => rfl

/-- A loop that skips some elements, collects some, and asserts a condition of the rest. -/
theorem foldlM_collect {γ : Type} (skip keep : α → Prop) [DecidablePred skip]
    [DecidablePred keep] (entry : α → γ) (condition : α → Prop) [DecidablePred condition]
    (message : String) {xs : List α} {acc result : List γ} :
    (xs.foldlM (fun acc x =>
      if skip x then pure acc
      else if keep x then pure (acc ++ [entry x])
      else do
        ensure (condition x) message
        pure acc) acc : Run (List γ)) = .ok result ↔
      (∀ x ∈ xs, ¬skip x → ¬keep x → condition x) ∧
        result = acc ++ (xs.filter fun x => ¬skip x ∧ keep x).map entry := by
  induction xs generalizing acc with
  | nil =>
      rw [List.foldlM_nil, pure_eq_ok, Except.ok.injEq]
      simp [eq_comm]
  | cons x xs ih =>
      rw [List.foldlM_cons]
      by_cases hskip : skip x
      · rw [if_pos hskip, pure_eq_ok, ok_bind, ih]
        simp [hskip]
      · by_cases hkeep : keep x
        · rw [if_neg hskip, if_pos hkeep, pure_eq_ok, ok_bind, ih]
          simp [hskip, hkeep]
        · rw [if_neg hskip, if_neg hkeep, bind_eq_ok]
          constructor
          · intro h
            rcases h with ⟨acc', hacc, hrest⟩
            rcases ensure_bind_eq_ok.mp hacc with ⟨hcond, hsame⟩
            cases hsame
            rcases ih.mp hrest with ⟨hall, hresult⟩
            refine ⟨?_, by simpa [hskip, hkeep] using hresult⟩
            intro y hy hys hyk
            rcases List.mem_cons.mp hy with rfl | hrest
            · exact hcond
            · exact hall y hrest hys hyk
          · intro h
            have hcond := h.1 x List.mem_cons_self hskip hkeep
            refine ⟨acc, ensure_bind_eq_ok.mpr ⟨hcond, rfl⟩, ih.mpr ⟨?_, ?_⟩⟩
            · exact fun y hy => h.1 y (List.mem_cons_of_mem x hy)
            · simpa [hskip, hkeep] using h.2

/-- A loop whose steps finish below a bound, each adding at most its weight to the measure,
finishes when the weights sum below the bound. -/
theorem foldlM_measure {f : β → α → Run β} (measure : β → Nat) (weight : α → Nat) (bound : Nat)
    {xs : List α} {b : β}
    (step : ∀ b, ∀ x ∈ xs, measure b + weight x ≤ bound →
      ∃ c, f b x = .ok c ∧ measure c ≤ measure b + weight x)
    (h : measure b + (xs.map weight).sum ≤ bound) :
    ∃ c, xs.foldlM f b = .ok c ∧ measure c ≤ measure b + (xs.map weight).sum := by
  induction xs generalizing b with
  | nil => exact ⟨b, rfl, le_self_add⟩
  | cons x xs ih =>
      rw [List.map_cons, List.sum_cons] at h
      rcases step b x List.mem_cons_self (by omega) with ⟨c, hc, hle⟩
      have hrest : measure c + (xs.map weight).sum ≤ bound := by omega
      rcases ih (fun b y hy => step b y (List.mem_cons_of_mem x hy)) hrest with ⟨d, hd, hle'⟩
      refine ⟨d, by rw [List.foldlM_cons, hc, ok_bind, hd], ?_⟩
      rw [List.map_cons, List.sum_cons]
      omega

end Fallible
