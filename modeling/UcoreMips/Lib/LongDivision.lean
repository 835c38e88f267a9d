import Mathlib

/-!
# UcoreMips.Lib.LongDivision

**Long division in base two.** The dividend is read from its highest bit on. What has been read so
far is a number of its own, and the next bit doubles it and adds one or nothing (`leading_step`); its
quotient and its remainder follow with one comparison and one subtraction (`div_step`, `mod_step`).
-/

namespace UcoreMips.Lib

open Nat

/-- The next bit of the dividend. -/
theorem leading_step (n k : Nat) : n / 2 ^ k = 2 * (n / 2 ^ (k + 1)) + n / 2 ^ k % 2 := by
  have hdiv : n / 2 ^ k / 2 = n / 2 ^ (k + 1) := by rw [Nat.div_div_eq_div_mul, pow_succ]
  omega

section Step

variable {n b bit : Nat}

theorem doubled_split (n b bit : Nat) : 2 * n + bit = 2 * (n % b) + bit + b * (2 * (n / b)) := by
  have hmod := mod_add_div n b
  rw [mul_left_comm]
  omega

/-- The remainder of a number that has got one more bit, before it is reduced. -/
theorem doubled_mod_lt (hb : 0 < b) (hbit : bit ≤ 1) : 2 * (n % b) + bit < 2 * b := by
  have hlt := mod_lt n hb
  omega

theorem div_step (hb : 0 < b) (hbit : bit ≤ 1) :
    (2 * n + bit) / b = 2 * (n / b) + if b ≤ 2 * (n % b) + bit then 1 else 0 := by
  have hlt := doubled_mod_lt (n := n) hb hbit
  rw [doubled_split n b bit, add_mul_div_left _ _ hb]
  split
  · next hle =>
    rw [Nat.div_eq_of_lt_le (k := 1) (by omega) (by omega), Nat.add_comm]
  · next hle => rw [div_eq_of_lt (by omega), add_comm]

theorem mod_step (hb : 0 < b) (hbit : bit ≤ 1) : (2 * n + bit) % b =
    if b ≤ 2 * (n % b) + bit then 2 * (n % b) + bit - b else 2 * (n % b) + bit := by
  have hlt := doubled_mod_lt (n := n) hb hbit
  rw [doubled_split n b bit, add_mul_mod_self_left]
  split
  · next hle => rw [mod_eq_sub_mod hle, mod_eq_of_lt (by omega)]
  · next hle => exact mod_eq_of_lt (by omega)

end Step

end UcoreMips.Lib
