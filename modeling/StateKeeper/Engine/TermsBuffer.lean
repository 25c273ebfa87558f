import StateKeeper.Foundation.WordBuffers
import StateKeeper.Engine.OpenSpec

/-!
# Engine - The buffer of a position's identity

{lit}`terms_id` fills a zeroed 544-byte buffer, each field at its own offset.

Main results:

- Theorem {lit}`termsBuffer_eq`: the filled buffer is the preimage, word by word.
-/

namespace StateKeeper

open Words WordBuffers

/-- The writes of {lit}`terms_id`, in order, at their byte offsets. -/
def termsWrites (typehash : Bytes32) (partyA partyB oracle : Address) (pairTag : Bytes32)
    (quantity : U128) (imBpsA imBpsB mmPct : U16) (expiry nonce cureWindow : U64)
    (payoutPrefA payoutPrefB : U8) (dataHash : Bytes32) (instrument : U8) (side : I8) :
    List (Nat × Bytes) :=
  [(0, beBytes 32 typehash), (44, beBytes 20 partyA), (76, beBytes 20 partyB),
    (108, beBytes 20 oracle), (128, beBytes 32 pairTag), (176, beBytes 16 quantity),
    (222, beBytes 2 imBpsA), (254, beBytes 2 imBpsB), (286, beBytes 2 mmPct),
    (312, beBytes 8 expiry), (344, beBytes 8 nonce), (376, beBytes 8 cureWindow),
    (415, [payoutPrefA]), (447, [payoutPrefB]), (448, beBytes 32 dataHash),
    (511, [instrument])] ++
    -- the high bytes of a short are filled, of a long left zero
    (if side.toInt < 0 then [(512, ones 31)] else []) ++ [(543, [side])]

/-- The buffer {lit}`terms_id` hashes. -/
def termsBuffer (typehash : Bytes32) (partyA partyB oracle : Address) (pairTag : Bytes32)
    (quantity : U128) (imBpsA imBpsB mmPct : U16) (expiry nonce cureWindow : U64)
    (payoutPrefA payoutPrefB : U8) (dataHash : Bytes32) (instrument : U8) (side : I8) : Bytes :=
  writeAll (zeros 544) (termsWrites typehash partyA partyB oracle pairTag quantity imBpsA imBpsB
    mmPct expiry nonce cureWindow payoutPrefA payoutPrefB dataHash instrument side)

variable {typehash : Bytes32} {partyA partyB oracle : Address} {pairTag : Bytes32}
  {quantity : U128} {imBpsA imBpsB mmPct : U16} {expiry nonce cureWindow : U64}
  {payoutPrefA payoutPrefB : U8} {dataHash : Bytes32} {instrument : U8} {side : I8}

/-- A byte is its own big-endian form. -/
theorem beBytes_byte (x : U8) : beBytes 1 x = [x] := by
  simp [beBytes, List.range_succ]

/-- A field that ends a word, written into the zero word. -/
theorem writeAll_field {n : Nat} {field : Bytes} (h : n + field.length = 32) :
    writeAll (zeros 32) [(n, field)] = zeros n ++ field :=
  writeAt_zeros h

/-- The filled buffer is the preimage: each field ends its own word. -/
theorem termsBuffer_eq :
    termsBuffer typehash partyA partyB oracle pairTag quantity imBpsA imBpsB mmPct expiry nonce
        cureWindow payoutPrefA payoutPrefB dataHash instrument side =
      termsPreimage typehash partyA partyB oracle pairTag quantity imBpsA imBpsB mmPct expiry nonce
        cureWindow payoutPrefA payoutPrefB dataHash instrument side := by
  let last : List (Nat × Bytes) := (if side.toInt < 0 then [(0, ones 31)] else []) ++ [(31, [side])]
  have hlast : writeAll (zeros 32) last = signFill 31 side ++ [side] := by
    simp only [last, signFill]
    split
    · rfl
    · rfl
  let words : List (List (Nat × Bytes)) :=
    [[(0, beBytes 32 typehash)], [(12, beBytes 20 partyA)], [(12, beBytes 20 partyB)],
      [(12, beBytes 20 oracle)], [(0, beBytes 32 pairTag)], [(16, beBytes 16 quantity)],
      [(30, beBytes 2 imBpsA)], [(30, beBytes 2 imBpsB)], [(30, beBytes 2 mmPct)],
      [(24, beBytes 8 expiry)], [(24, beBytes 8 nonce)], [(24, beBytes 8 cureWindow)],
      [(31, beBytes 1 payoutPrefA)], [(31, beBytes 1 payoutPrefB)], [(0, beBytes 32 dataHash)],
      [(31, beBytes 1 instrument)], last]
  have hwrites : termsWrites typehash partyA partyB oracle pairTag quantity imBpsA imBpsB mmPct
      expiry nonce cureWindow payoutPrefA payoutPrefB dataHash instrument side =
      writesFrom 32 0 words := by
    simp only [termsWrites, words, last, beBytes_byte, writesFrom]
    split
    · rfl
    · rfl
  have hlastInside : ∀ w ∈ last, w.1 + w.2.length ≤ 32 := by
    simp only [last]
    intro w hw
    split at hw
    · rcases List.mem_pair.mp hw with rfl | rfl <;> simp
    · rw [List.mem_singleton.mp hw]
      simp
  have hinside : ∀ word ∈ words, ∀ w ∈ word, w.1 + w.2.length ≤ 32 := by
    simp [words]
    exact fun offset field hw => hlastInside (offset, field) hw
  have hwords := writeAll_words hinside
  rw [termsBuffer, hwrites]
  refine Eq.trans hwords ?_
  simp only [words, List.map_cons, List.map_nil, hlast]
  repeat rw [writeAll_field (by simp)]
  simp only [List.flatten_cons, List.flatten_nil, termsPreimage, wordOf, Nat.reduceSub,
    show zeros 0 = [] from rfl, List.nil_append, List.append_nil, List.append_assoc]

theorem termsBuffer_length :
    (termsBuffer typehash partyA partyB oracle pairTag quantity imBpsA imBpsB mmPct expiry nonce
      cureWindow payoutPrefA payoutPrefB dataHash instrument side).length = 544 := by
  rw [termsBuffer_eq]
  simp [termsPreimage, wordOf]

end StateKeeper
