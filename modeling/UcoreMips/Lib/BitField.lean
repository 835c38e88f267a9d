import Mathlib

/-!
# UcoreMips.Lib.BitField

Fields of a bit vector, as masks and shifts cut them out.

Hardware registers, page-table entries and addresses are words in which a mask
clears a field and an `or` writes it. Two readings of such a word are used by
the proofs that follow: bit by bit (`AgreeOutside`, `extract_mask_or`), for
statements about fields, and as a number (`toNat_and_low`, `toNat_splice`), for
arithmetic on addresses, where a low field is a remainder and the rest a
multiple of a power of two.
-/

namespace UcoreMips.Lib

open BitVec

variable {n lo len k : Nat} {x mask v low y : BitVec n}

/-- The two vectors agree on every bit outside `lo .. lo + len - 1`. -/
def AgreeOutside (lo len : Nat) (v w : BitVec n) : Prop :=
  ∀ i, i < lo ∨ lo + len ≤ i → v.getLsbD i = w.getLsbD i

/-- Clearing a field by a mask and or-ing a value into it changes nothing
outside the field, when the mask keeps everything outside and the value has no
bit there. -/
theorem agreeOutside_mask_or (hmask : ∀ i < n, i < lo ∨ lo + len ≤ i → mask.getLsbD i = true)
    (hx : ∀ i < n, i < lo ∨ lo + len ≤ i → x.getLsbD i = false) :
    AgreeOutside lo len ((v &&& mask) ||| x) v := by
  intro i hi
  by_cases hn : i < n
  · simp [hmask i hn hi, hx i hn hi]
  · rw [getLsbD_of_ge _ _ (by omega), getLsbD_of_ge _ _ (by omega)]

/-- When the mask is zero on the field, the field becomes that of the value or-ed in. -/
theorem extract_mask_or (hmask : ∀ i < len, mask.getLsbD (lo + i) = false) :
    ((v &&& mask) ||| x).extractLsb' lo len = x.extractLsb' lo len := by
  ext i hi
  simp [hmask i hi]

/-- A mask of ones on the field leaves the field. -/
theorem extract_and_ones (hmask : ∀ i < len, mask.getLsbD (lo + i) = true) :
    (v &&& mask).extractLsb' lo len = v.extractLsb' lo len := by
  ext i hi
  simp [hmask i hi]

/-- A mask of zeros on the field clears it. -/
theorem extract_and_zeros (hmask : ∀ i < len, mask.getLsbD (lo + i) = false) :
    (v &&& mask).extractLsb' lo len = 0 := by
  ext i hi
  simp [hmask i hi]

/-- Testing a single bit by a mask. -/
theorem and_twoPow_ne_zero (hk : k < n) (x : BitVec n) :
    x &&& BitVec.twoPow n k ≠ 0 ↔ x.getLsbD k = true := by
  have hne : BitVec.twoPow n k ≠ 0 := by
    intro h
    have hbit := congrArg (fun v => v.getLsbD k) h
    simp [hk] at hbit
  rw [and_twoPow]
  cases x.getLsbD k with
  | false => simp
  | true => simpa using hne

/-- Keeping the low `k` bits is taking the remainder. -/
theorem toNat_and_low (hlow : low.toNat = 2 ^ k - 1) : (x &&& low).toNat = x.toNat % 2 ^ k := by
  rw [toNat_and, hlow, Nat.and_two_pow_sub_one_eq_mod]

/-- Joining the high bits of one vector with the low `k` bits of another. -/
theorem toNat_splice {high : BitVec n} (hlow : low.toNat = 2 ^ k - 1) (hhigh : high = ~~~low) :
    ((x &&& high) ||| (y &&& low)).toNat = 2 ^ k * (x.toNat / 2 ^ k) + y.toNat % 2 ^ k := by
  have hbit : ∀ i, low.getLsbD i = decide (i < k) := by
    intro i
    rw [← testBit_toNat, hlow, Nat.testBit_two_pow_sub_one]
  apply Nat.eq_of_testBit_eq
  intro i
  rw [Nat.testBit_two_pow_mul_add _ (Nat.mod_lt _ (Nat.two_pow_pos k)), testBit_toNat,
    hhigh, getLsbD_or, getLsbD_and, getLsbD_and, getLsbD_not, hbit]
  by_cases hk : i < k
  · simp [hk, testBit_toNat]
  · by_cases hn : i < n
    · simp [hk, hn, Nat.testBit_div_two_pow, testBit_toNat, show i - k + k = i by omega]
    · have hzero : x.getLsbD i = false := getLsbD_of_ge _ _ (by omega)
      simp [hk, hn, Nat.testBit_div_two_pow, testBit_toNat, show i - k + k = i by omega, hzero]

/-- Two vectors with the same bits from `k` up have the same quotient by `2 ^ k`. -/
theorem ushiftRight_eq_iff : x >>> k = y >>> k ↔ x.toNat / 2 ^ k = y.toNat / 2 ^ k := by
  rw [← toNat_inj, toNat_ushiftRight, toNat_ushiftRight,
    Nat.shiftRight_eq_div_pow, Nat.shiftRight_eq_div_pow]

end UcoreMips.Lib
