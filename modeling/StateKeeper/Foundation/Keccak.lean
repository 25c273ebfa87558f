import StateKeeper.Foundation.Words

/-!
# Foundation - Keccak-256

The permutation and the sponge over natural numbers, so that a digest of a
concrete byte string evaluates by arithmetic on numerals.  The 25 lanes of 64
bits are packed into one number, lane {lit}`x + 5 y` at bit {lit}`64 (x + 5 y)`.

Main results:

- Theorem {lit}`positiveKeccak256_ne_zero`: the digest used for concrete runs is
  never zero.
- Theorem {lit}`positiveKeccak256_eq`: it is Keccak-256 wherever that is not zero.
-/

namespace Keccak

open Nat (land lor xor shiftLeft shiftRight)
open Words

/-- A full lane. -/
def laneMask : Nat := 0xffffffffffffffff

/-- The lowest bit of each lane of one plane. -/
def laneOnes : Nat := 0x10000000000000001000000000000000100000000000000010000000000000001

/-- A full plane of five lanes. -/
def planeMask : Nat :=
  0xffffffffffffffffffffffffffffffffffffffffffffffffffffffffffffffffffffffffffffffff

/-- A full state of five planes. -/
def stateMask : Nat := 2 ^ 1600 - 1

/-- The lowest bit of each plane: multiplying copies a plane to all five. -/
def planeOnes : Nat := 1 + 2 ^ 320 + 2 ^ 640 + 2 ^ 960 + 2 ^ 1280

/-- Rotate a lane left. -/
def rotateLane (x r : Nat) : Nat :=
  land (shiftRight (Nat.mul x 0x10000000000000001) (Nat.sub 64 r)) laneMask

/-- Column parities: the five planes added up. -/
def parity (s : Nat) : Nat :=
  land (xor s (xor (shiftRight s 320) (xor (shiftRight s 640)
    (xor (shiftRight s 960) (shiftRight s 1280))))) planeMask

/-- Lane {lit}`x` of the result is lane {lit}`x + k` of the plane. -/
def turnPlane (k p : Nat) : Nat :=
  land (shiftRight (Nat.mul p (2 ^ 320 + 1)) (64 * k)) planeMask

/-- Rotate each lane of a plane left by one bit. -/
def rotatePlane (p : Nat) : Nat :=
  lor (land (shiftLeft p 1) (planeMask - laneOnes)) (land (shiftRight p 63) laneOnes)

/-- Theta: add the parities of the two neighbouring columns. -/
def theta (s : Nat) : Nat :=
  let c := parity s
  xor s (Nat.mul (xor (turnPlane 4 c) (turnPlane 1 (rotatePlane c))) planeOnes)

/-- Rho and pi: for each target lane, the lane it comes from and its rotation. -/
def moves : List (Nat × Nat) :=
  [(0, 0), (6, 44), (12, 43), (18, 21), (24, 14), (3, 28), (9, 20), (10, 3), (16, 45), (22, 61),
    (1, 1), (7, 6), (13, 25), (19, 8), (20, 18), (4, 27), (5, 36), (11, 10), (17, 15), (23, 56),
    (2, 62), (8, 55), (14, 39), (15, 41), (21, 2)]

/-- Move every lane, the last target lane first. -/
def moveLanes (s : Nat) : Nat :=
  moves.foldr (fun m acc =>
    Nat.add (rotateLane (land (shiftRight s (Nat.mul 64 m.1)) laneMask) m.2)
      (Nat.mul 0x10000000000000000 acc)) 0

/-- The lanes of each plane that stay inside it when moved down by {lit}`k`. -/
def innerMask (k : Nat) : Nat := (2 ^ (320 - 64 * k) - 1) * planeOnes

/-- Turn every plane of the state. -/
def turnState (k s : Nat) : Nat :=
  lor (land (shiftRight s (64 * k)) (innerMask k))
    (land (shiftLeft s (320 - 64 * k)) (stateMask - innerMask k))

/-- Chi: the nonlinear step along each row. -/
def chi (s : Nat) : Nat :=
  xor s (land (xor stateMask (turnState 1 s)) (turnState 2 s))

/-- The round constants. -/
def roundConstants : List Nat :=
  [0x0000000000000001, 0x0000000000008082, 0x800000000000808A, 0x8000000080008000,
    0x000000000000808B, 0x0000000080000001, 0x8000000080008081, 0x8000000000008009,
    0x000000000000008A, 0x0000000000000088, 0x0000000080008009, 0x000000008000000A,
    0x000000008000808B, 0x800000000000008B, 0x8000000000008089, 0x8000000000008003,
    0x8000000000008002, 0x8000000000000080, 0x000000000000800A, 0x800000008000000A,
    0x8000000080008081, 0x8000000000008080, 0x0000000080000001, 0x8000000080008008]

/-- The permutation. -/
def permute (s : Nat) : Nat :=
  roundConstants.foldl (fun s k => xor (chi (moveLanes (theta s))) k) s

/-- Absorb {lit}`blocks` blocks of 136 bytes. -/
def absorb : (blocks : Nat) → (state message : Nat) → Nat
  | 0, s, _ => s
  | n + 1, s, m => absorb n (permute (xor s (Nat.mod m (2 ^ 1088)))) (shiftRight m 1088)

/-- The little-endian number of a byte string. -/
def littleEndian (bs : Bytes) : Nat :=
  bs.foldr (fun b acc => Nat.add b.toNat (Nat.mul acc 256)) 0

/-- Append the low {lit}`n` bytes of a number in reverse. -/
def reverseBytes : (n : Nat) → (x acc : Nat) → Nat
  | 0, _, acc => acc
  | n + 1, x, acc => reverseBytes n (x / 256) (acc * 256 + x % 256)

/-- Keccak-256 with the original padding. -/
def keccak256 (bs : Bytes) : Bytes32 :=
  let blocks := bs.length / 136 + 1
  let padded := littleEndian bs + 2 ^ (8 * bs.length) + 2 ^ (1088 * blocks - 1)
  BitVec.ofNat 256 (reverseBytes 32 (absorb blocks 0 padded) 0)

example : keccak256 [] =
    0xc5d2460186f7233c927e7db2dcc703c0e500b653ca82273b7bfad8045d85a470 := by
  decide +kernel

/-- Keccak-256, with the preimages of zero, if there are any, sent to one. -/
def positiveKeccak256 (bs : Bytes) : Bytes32 :=
  if keccak256 bs = 0 then 1 else keccak256 bs

theorem positiveKeccak256_ne_zero (bs : Bytes) : positiveKeccak256 bs ≠ 0 := by
  unfold positiveKeccak256
  split
  · decide
  · assumption

theorem positiveKeccak256_eq {bs : Bytes} (h : keccak256 bs ≠ 0) :
    positiveKeccak256 bs = keccak256 bs :=
  if_neg h

end Keccak
