import StateKeeper.Foundation.Words

/-!
# Foundation - Byte buffers filled word by word

A buffer is filled by copying fields into it at fixed offsets, or by appending
whole words.  Fields that stay inside their words make the two the same.

Main results:

- Theorem {lit}`writeAll_words`: writing inside the words of a buffer writes each
  word on its own.
- Theorem {lit}`flatten_injective`: words of one size can be read back from their
  concatenation.
- Theorem {lit}`padded_eq`: a right-aligned field is the zero-extended word.
-/

namespace WordBuffers

open Words

/-- Copy a field into a buffer at an offset. -/
def writeAt (buf : Bytes) (offset : Nat) (field : Bytes) : Bytes :=
  buf.take offset ++ field ++ buf.drop (offset + field.length)

/-- Copy fields in order. -/
def writeAll (buf : Bytes) (writes : List (Nat × Bytes)) : Bytes :=
  writes.foldl (fun buf w => writeAt buf w.1 w.2) buf

/-- The writes of consecutive words, given by their offsets inside the words. -/
def writesFrom (size base : Nat) : List (List (Nat × Bytes)) → List (Nat × Bytes)
  | [] => []
  | word :: words =>
      word.map (fun w => (base + w.1, w.2)) ++ writesFrom size (base + size) words

/-! ## Writing -/

/-- A write that stays inside the front leaves the back. -/
theorem writeAt_append_left {front back field : Bytes} {offset : Nat}
    (h : offset + field.length ≤ front.length) :
    writeAt (front ++ back) offset field = writeAt front offset field ++ back := by
  unfold writeAt
  rw [List.take_append_of_le_length (by omega), List.drop_append_of_le_length h,
    List.append_assoc, List.append_assoc, List.append_assoc]

/-- A write past the front leaves the front. -/
theorem writeAt_append_right {front back field : Bytes} {offset : Nat} :
    writeAt (front ++ back) (front.length + offset) field = front ++ writeAt back offset field := by
  unfold writeAt
  rw [List.take_length_add_append, Nat.add_assoc, List.drop_length_add_append,
    List.append_assoc, List.append_assoc, List.append_assoc]

theorem writeAt_length {buf field : Bytes} {offset : Nat}
    (h : offset + field.length ≤ buf.length) : (writeAt buf offset field).length = buf.length := by
  unfold writeAt
  rw [List.length_append, List.length_append, List.length_take, List.length_drop]
  omega

/-- Writes that stay inside the front leave the back. -/
theorem writeAll_append_left {writes : List (Nat × Bytes)} {front back : Bytes}
    (h : ∀ w ∈ writes, w.1 + w.2.length ≤ front.length) :
    writeAll (front ++ back) writes = writeAll front writes ++ back := by
  induction writes generalizing front with
  | nil => rfl
  | cons w writes ih =>
      have hw := h w List.mem_cons_self
      change writeAll (writeAt (front ++ back) w.1 w.2) writes = _
      rw [writeAt_append_left hw, ih]
      · rfl
      · intro w' hw'
        rw [writeAt_length hw]
        exact h w' (List.mem_cons_of_mem _ hw')

/-- Writes past the front leave the front. -/
theorem writeAll_append_right {writes : List (Nat × Bytes)} {front back : Bytes} :
    writeAll (front ++ back) (writes.map fun w => (front.length + w.1, w.2)) =
      front ++ writeAll back writes := by
  induction writes generalizing back with
  | nil => rfl
  | cons w writes ih =>
      change writeAll (writeAt (front ++ back) (front.length + w.1) w.2) _ = _
      rw [writeAt_append_right, ih]
      rfl

theorem writesFrom_shift {size base shift : Nat} {words : List (List (Nat × Bytes))} :
    writesFrom size (base + shift) words =
      (writesFrom size shift words).map fun w => (base + w.1, w.2) := by
  induction words generalizing shift with
  | nil => rfl
  | cons word words ih =>
      rw [writesFrom, writesFrom, List.map_append, List.map_map, Nat.add_assoc, ih]
      simp [Function.comp_def, Nat.add_assoc]

/-- Writing inside the words of a zero buffer writes each word on its own. -/
theorem writeAll_words {size : Nat} {words : List (List (Nat × Bytes))}
    (h : ∀ word ∈ words, ∀ w ∈ word, w.1 + w.2.length ≤ size) :
    writeAll (zeros (size * words.length)) (writesFrom size 0 words) =
      (words.map (writeAll (zeros size))).flatten := by
  induction words with
  | nil => simp [writesFrom, writeAll, zeros]
  | cons word words ih =>
      have hsplit : zeros (size * (word :: words).length) =
          zeros size ++ zeros (size * words.length) := by
        rw [zeros, zeros, zeros, List.replicate_append_replicate, List.length_cons,
          Nat.mul_add, Nat.mul_one, Nat.add_comm]
      have hlen : (writeAll (zeros size) word).length = size := by
        have hinside := h word List.mem_cons_self
        clear ih hsplit
        suffices hgen : ∀ buf : Bytes, buf.length = size → (writeAll buf word).length = size from
          hgen _ (zeros_length size)
        clear h
        induction word with
        | nil => exact fun buf hbuf => hbuf
        | cons w word ih =>
            intro buf hbuf
            have hw := hinside w List.mem_cons_self
            refine ih (fun w' hw' => hinside w' (List.mem_cons_of_mem _ hw')) _ ?_
            rw [writeAt_length (by omega), hbuf]
      rw [writesFrom, writeAll, List.foldl_append, hsplit]
      change writeAll (writeAll (zeros size ++ zeros (size * words.length))
        (word.map fun w => (0 + w.1, w.2))) _ = _
      have hzero : (word.map fun w => (0 + w.1, w.2)) = word := by simp
      have hafter : writesFrom size (0 + size) words =
          (writesFrom size 0 words).map fun w => ((writeAll (zeros size) word).length + w.1, w.2) := by
        rw [hlen, Nat.add_comm, writesFrom_shift]
      rw [hzero, writeAll_append_left (by simpa using h word List.mem_cons_self), hafter,
        writeAll_append_right, ih fun word' hword' => h word' (List.mem_cons_of_mem _ hword')]
      rfl

/-- A field that ends a zero word is padded on the left. -/
theorem writeAt_zeros {size offset : Nat} {field : Bytes} (h : offset + field.length = size) :
    writeAt (zeros size) offset field = zeros offset ++ field := by
  unfold writeAt
  rw [List.drop_of_length_le (by simp; omega), List.append_nil]
  congr 1
  rw [zeros, List.take_replicate, zeros]
  congr 1
  omega

/-! ## Reading back -/

/-- Words of one size can be read back from their concatenation. -/
theorem flatten_injective {size : Nat} {ws vs : List Bytes} (hcount : ws.length = vs.length)
    (hw : ∀ w ∈ ws, w.length = size) (hv : ∀ v ∈ vs, v.length = size)
    (h : ws.flatten = vs.flatten) : ws = vs := by
  induction ws generalizing vs with
  | nil => exact (List.length_eq_zero_iff.mp hcount.symm).symm
  | cons w ws ih =>
      cases vs with
      | nil => cases hcount
      | cons v vs =>
          have hlen : w.length = v.length :=
            (hw w List.mem_cons_self).trans (hv v List.mem_cons_self).symm
          rcases append_inj_of_length hlen h with ⟨hhead, htail⟩
          rw [hhead, ih (Nat.succ.inj hcount) (fun w' hw' => hw w' (List.mem_cons_of_mem _ hw'))
            (fun v' hv' => hv v' (List.mem_cons_of_mem _ hv')) htail]

/-! ## Extension -/

/-- The bytes of a word, one by one. -/
theorem beBytes_getElem {n w : Nat} (x : BitVec w) {i : Nat} (hi : i < (beBytes n x).length) :
    (beBytes n x)[i] = x.extractLsb' (8 * (n - 1 - i)) 8 := by
  simp [beBytes]

/-- A right-aligned field is the zero-extended word. -/
theorem padded_eq {size n w : Nat} (x : BitVec w) (hn : n ≤ size) (hw : w ≤ 8 * n) :
    zeros (size - n) ++ beBytes n x = beBytes size (x.setWidth (8 * size)) := by
  refine List.ext_getElem (by simp; omega) fun i hi hi' => ?_
  rw [beBytes_length] at hi'
  rw [beBytes_getElem]
  refine BitVec.eq_of_getLsbD_eq fun j hj => ?_
  rw [BitVec.getLsbD_extractLsb', BitVec.getLsbD_setWidth]
  by_cases hpad : i < size - n
  · -- above the field every bit is zero
    have hhigh : x.getLsbD (8 * (size - 1 - i) + j) = false :=
      BitVec.getLsbD_of_ge _ _ (by omega)
    rw [List.getElem_append_left (by simpa using hpad), hhigh]
    simp [zeros]
  · have hin : 8 * (size - 1 - i) + j < 8 * size := by omega
    have hpos : n - 1 - (i - (size - n)) = size - 1 - i := by omega
    rw [List.getElem_append_right (by simpa using not_lt.mp hpad), beBytes_getElem]
    simp [hj, hin, hpos]

end WordBuffers
