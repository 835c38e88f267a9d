import Mathlib

/-!
# UcoreMips.Lib.Bytes

Byte-addressed memory, with little-endian accesses of several bytes.

A memory is a function from addresses to bytes. Addresses are bit vectors, so the
byte `i` of an access at `a` lies at `a + i` and the offset of an address `b` in it
is `b - a`, both modulo the size of the address space. `storeBytes` writes the first
`n` bytes of a vector; a vector is determined by its bytes (`eq_of_bytes`).
-/

namespace UcoreMips.Lib

/-- Byte `i` of a vector, the least significant being byte 0. -/
def byteAt {w : Nat} (v : BitVec w) (i : Nat) : BitVec 8 :=
  v.extractLsb' (8 * i) 8

variable {w n i : Nat} {b : Nat → BitVec 8}

/-- A vector is determined by its bytes. -/
theorem eq_of_bytes {x y : BitVec w} (hw : w ≤ 8 * n)
    (h : ∀ i < n, byteAt x i = byteAt y i) : x = y := by
  ext j hj
  have hbyte := congrArg (·.getLsbD (j % 8)) (h (j / 8) (by omega))
  simp only [byteAt, BitVec.getLsbD_extractLsb', show j % 8 < 8 by omega, decide_true,
    Bool.true_and, show 8 * (j / 8) + j % 8 = j by omega] at hbyte
  simpa [BitVec.getLsbD_eq_getElem hj] using hbyte

/-- The bytes of an extracted field are bytes of the vector. -/
theorem byteAt_extract {len : Nat} {v : BitVec w} (k : Nat) (hi : 8 * i + 8 ≤ len) :
    byteAt (v.extractLsb' (8 * k) len) i = byteAt v (k + i) := by
  ext j hj
  simp [byteAt, show 8 * i + j < len by omega, show 8 * k + (8 * i + j) = 8 * (k + i) + j by omega]

/-- Two bytes put together by shifting and or-ing. -/
theorem byteAt_join_two (hi : i < 2) :
    byteAt ((b 0).setWidth 16 ||| (b 1).setWidth 16 <<< 8) i = b i := by
  ext j hj
  interval_cases i <;> simp [byteAt, hj] <;> grind

/-- Four bytes put together by shifting and or-ing. -/
theorem byteAt_join_four (hi : i < 4) :
    byteAt ((b 0).setWidth 32 ||| (b 1).setWidth 32 <<< 8 ||| (b 2).setWidth 32 <<< 16
      ||| (b 3).setWidth 32 <<< 24) i = b i := by
  ext j hj
  interval_cases i <;> simp [byteAt, hj] <;> grind

section Store

variable {w k : Nat} {mem : BitVec w → BitVec 8} {a : BitVec w} {v : BitVec k}

/-- The memory after the first `n` bytes of `v` were stored at `a`. -/
def storeBytes (mem : BitVec w → BitVec 8) (a : BitVec w) (n : Nat) {k : Nat} (v : BitVec k) :
    BitVec w → BitVec 8 :=
  fun b => if (b - a).toNat < n then byteAt v (b - a).toNat else mem b

theorem storeBytes_add (hi : i < n) (hw : i < 2 ^ w) :
    storeBytes mem a n v (a + BitVec.ofNat w i) = byteAt v i := by
  have hoff : (a + BitVec.ofNat w i - a).toNat = i := by
    rw [BitVec.add_comm, BitVec.add_sub_cancel, BitVec.toNat_ofNat, Nat.mod_eq_of_lt hw]
  rw [storeBytes, hoff, if_pos hi]

theorem storeBytes_outside {b : BitVec w}
    (hb : n ≤ (b - a).toNat) : storeBytes mem a n v b = mem b := by
  rw [storeBytes, if_neg (Nat.not_lt.mpr hb)]

theorem storeBytes_zero (mem : BitVec w → BitVec 8) (a : BitVec w) (v : BitVec k) :
    storeBytes mem a 0 v = mem := by
  funext b
  exact storeBytes_outside (Nat.zero_le _)

/-- Storing one more byte is one more update. -/
theorem storeBytes_succ (mem : BitVec w → BitVec 8) (a : BitVec w) (v : BitVec k) (hw : n < 2 ^ w) :
    storeBytes mem a (n + 1) v =
      Function.update (storeBytes mem a n v) (a + BitVec.ofNat w n) (byteAt v n) := by
  funext b
  by_cases hb : b = a + BitVec.ofNat w n
  · rw [hb, Function.update_self, storeBytes_add (Nat.lt_succ_self n) hw]
  · have hoff : (b - a).toNat ≠ n := by
      intro hn
      apply hb
      rw [← hn, BitVec.ofNat_toNat, BitVec.setWidth_eq, BitVec.add_comm, BitVec.sub_add_cancel]
    rw [Function.update_of_ne hb, storeBytes, storeBytes]
    simp only [show (b - a).toNat < n + 1 ↔ (b - a).toNat < n by omega]

end Store

end UcoreMips.Lib
