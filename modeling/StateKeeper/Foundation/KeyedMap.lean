import StateKeeper.Foundation.SortedKeys

/-!
# Foundation - Ordered maps built by loops

An ordered map is read by its lookups and listed in ascending key order.  These
are the facts about maps filled by a loop of insertions: what a lookup finds,
and when two maps or listings are the same.

Main results:

- Theorem {lit}`getElem?_assignAll`: a lookup in a map filled from distinct keys.
- Theorem {lit}`getElem?_foldl_insert`: the last insertion of a key wins.
- Theorem {lit}`toList_strict`: the listing is strictly ascending by key.
- Theorem {lit}`foldl_insert_invariant`: what every insertion satisfies, every
  entry of the filled map satisfies.
-/

namespace KeyedMap

open SortedKeys

variable {α β γ : Type} [LinearOrder α]

theorem getElem?_insert_eq {m : Std.ExtTreeMap α β} {k k' : α} {v : β} :
    (m.insert k v)[k']? = if k = k' then some v else m[k']? := by
  rw [Std.ExtTreeMap.getElem?_insert]
  exact if_congr Std.LawfulEqOrd.compare_eq_iff_eq rfl rfl

theorem getElem?_erase_eq {m : Std.ExtTreeMap α β} {k k' : α} :
    (m.erase k)[k']? = if k = k' then none else m[k']? := by
  rw [Std.ExtTreeMap.getElem?_erase]
  exact if_congr Std.LawfulEqOrd.compare_eq_iff_eq rfl rfl

theorem mem_toList {m : Std.ExtTreeMap α β} {e : α × β} : e ∈ m.toList ↔ m[e.1]? = some e.2 :=
  Std.ExtTreeMap.mem_toList_iff_getElem?_eq_some

/-- What the map holds and every insertion satisfies, every entry after the loop does. -/
theorem foldl_insert_invariant (P : α → β → Prop) (key : γ → α) (val : γ → β)
    {xs : List γ} {m : Std.ExtTreeMap α β} (hm : ∀ k v, m[k]? = some v → P k v)
    (hxs : ∀ x ∈ xs, P (key x) (val x)) {k : α} {v : β}
    (h : (xs.foldl (fun m x => m.insert (key x) (val x)) m)[k]? = some v) : P k v := by
  induction xs generalizing m with
  | nil => exact hm k v h
  | cons x xs ih =>
      refine ih ?_ (fun y hy => hxs y (List.mem_cons_of_mem x hy)) h
      intro k' v' hk'
      rw [getElem?_insert_eq] at hk'
      split at hk'
      · rename_i heq
        cases hk'
        exact heq ▸ hxs x List.mem_cons_self
      · exact hm k' v' hk'

/-- The keys after a loop of insertions: those before, and those inserted. -/
theorem mem_foldl_insert (key : γ → α) (val : γ → β) {xs : List γ} {m : Std.ExtTreeMap α β}
    {k : α} :
    k ∈ xs.foldl (fun m x => m.insert (key x) (val x)) m ↔ k ∈ m ∨ ∃ x ∈ xs, key x = k := by
  induction xs generalizing m with
  | nil => simp
  | cons x xs ih =>
      rw [List.foldl_cons, ih, Std.ExtTreeMap.mem_insert, Std.LawfulEqOrd.compare_eq_iff_eq]
      simp only [List.mem_cons, exists_eq_or_imp]
      tauto

/-- The last insertion of a key wins. -/
theorem getElem?_foldl_insert (key : γ → α) (val : γ → β) {xs : List γ}
    {m : Std.ExtTreeMap α β} {k : α} :
    (xs.foldl (fun m x => m.insert (key x) (val x)) m)[k]? =
      ((xs.filter fun x => key x = k).getLast?.map val).or m[k]? := by
  induction xs using List.reverseRecOn with
  | nil => simp
  | append_singleton xs x ih =>
      rw [List.foldl_append, List.foldl_cons, List.foldl_nil, getElem?_insert_eq, ih,
        List.filter_append]
      by_cases hx : key x = k
      · simp [hx]
      · simp [hx]

/-- Insert the present values of a list of assignments, in order. -/
def assignAll (xs : List (α × Option β)) (m : Std.ExtTreeMap α β) : Std.ExtTreeMap α β :=
  xs.foldl (fun m e =>
    match e.2 with
    | some v => m.insert e.1 v
    | none => m) m

/-- A key outside the assignments keeps its value. -/
theorem getElem?_assignAll_of_notMem {xs : List (α × Option β)}
    {m : Std.ExtTreeMap α β} {k : α} (h : k ∉ xs.map Prod.fst) :
    (assignAll xs m)[k]? = m[k]? := by
  induction xs generalizing m with
  | nil => rfl
  | cons e xs ih =>
      rw [List.map_cons, List.mem_cons, not_or] at h
      obtain ⟨k', v'⟩ := e
      cases v' with
      | none => exact ih h.2
      | some v =>
          change (assignAll xs (m.insert k' v))[k]? = _
          rw [ih h.2, getElem?_insert_eq, if_neg (Ne.symm h.1)]

/-- Over distinct keys, an assigned key finds its value. -/
theorem getElem?_assignAll {xs : List (α × Option β)}
    (hnodup : (xs.map Prod.fst).Nodup) {k : α} {v : Option β} (h : (k, v) ∈ xs) :
    (assignAll xs (∅ : Std.ExtTreeMap α β))[k]? = v := by
  suffices hgen : ∀ m : Std.ExtTreeMap α β, m[k]? = none → (assignAll xs m)[k]? = v from
    hgen ∅ (by simp)
  intro m hm
  induction xs generalizing m with
  | nil => cases h
  | cons e xs ih =>
      rw [List.map_cons, List.nodup_cons] at hnodup
      obtain ⟨k', v'⟩ := e
      rcases List.mem_cons.mp h with heq | hrest
      · cases heq
        cases v with
        | none =>
            change (assignAll xs m)[k]? = _
            rw [getElem?_assignAll_of_notMem hnodup.1, hm]
        | some v =>
            change (assignAll xs (m.insert k v))[k]? = _
            rw [getElem?_assignAll_of_notMem hnodup.1, getElem?_insert_eq, if_pos rfl]
      · have hkey : k ∈ xs.map Prod.fst := List.mem_map_of_mem hrest
        have hne : k' ≠ k := fun heq => hnodup.1 (heq ▸ hkey)
        cases v' with
        | none => exact ih hnodup.2 hrest m hm
        | some w =>
            refine ih hnodup.2 hrest (m.insert k' w) ?_
            rw [getElem?_insert_eq, if_neg hne, hm]

/-! ## Listings -/

/-- The listing is strictly ascending by key. -/
theorem toList_strict (m : Std.ExtTreeMap α β) : StrictBy Prod.fst m.toList :=
  Std.ExtTreeMap.ordered_keys_toList.imp fun h => compare_lt_iff_lt.mp h

/-- The keys are strictly ascending. -/
theorem keys_strict (m : Std.ExtTreeMap α β) : m.keys.Pairwise (· < ·) :=
  Std.ExtTreeMap.ordered_keys.imp fun h => compare_lt_iff_lt.mp h

theorem nodup_toList_keys (m : Std.ExtTreeMap α β) : (m.toList.map Prod.fst).Nodup :=
  (toList_strict m).nodup_map

/-- A listing holds one entry of each key that is present. -/
theorem filter_toList_key {m : Std.ExtTreeMap α β} {k : α} :
    (m.toList.filter fun e => e.1 = k) = (m[k]?.map fun v => (k, v)).toList := by
  have hnodup : m.toList.Nodup := List.Nodup.of_map _ (nodup_toList_keys m)
  cases hget : m[k]? with
  | none =>
      refine List.filter_eq_nil_iff.mpr fun e he => ?_
      rw [mem_toList] at he
      intro hkey
      rw [of_decide_eq_true hkey, hget] at he
      cases he
  | some v =>
      refine List.perm_singleton.mp ?_
      refine (List.perm_ext_iff_of_nodup (hnodup.filter _) (List.nodup_singleton _)).mpr fun e => ?_
      rw [List.mem_filter, mem_toList, List.mem_singleton, decide_eq_true_iff]
      constructor
      · intro he
        rcases he with ⟨hval, hkey⟩
        rw [hkey, hget] at hval
        exact Prod.ext hkey (Option.some.inj hval.symm)
      · intro he
        rw [he]
        exact ⟨hget, rfl⟩

end KeyedMap
