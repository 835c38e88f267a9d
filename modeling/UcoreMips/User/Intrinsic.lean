import UcoreMips.Kernel.Trap.Divmod

/-!
# UcoreMips.User.Intrinsic

**The division of the Decaf run-time** (`user/libs/intrinsic.c`). `_Div` and `_Rem` are the same long
division as `divmod` of the kernel, written in another way: they take the bits of the dividend by
their index, where `divmod` shifts it out, and set the bits of the quotient in their places, where
`divmod` shifts them in. Their sign rules differ for a dividend of 0.

The two loops are in step for all operands, also where the remainder overflows.
-/

namespace UcoreMips.User

open UcoreMips.Kernel
open BitVec (toInt_inj shiftLeft_add shiftLeft_zero shiftLeft_or_distrib)
open Emulator (Word)

namespace Intrinsic

/-- The variables of the loop. -/
structure Vars where
  quotient : Word
  remainder : Word
  deriving Repr, DecidableEq

/-- The turn of the loop for the bit `i`. -/
def turn (xx yy : Word) (i : Nat) (v : Vars) : Vars :=
  let remainder := (v.remainder <<< 1) ||| ((xx.sshiftRight i) &&& 1)
  if yy.sle remainder then ⟨v.quotient ||| ((1 : Word) <<< i), remainder - yy⟩
  else ⟨v.quotient, remainder⟩

/-- The loop from the bit `i - 1` down to the bit 0. -/
def loop (xx yy : Word) : Nat → Vars → Vars
  | 0, v => v
  | i + 1, v => loop xx yy i (turn xx yy i v)

/-- `x > 0? x: -x`. -/
def magnitude (x : Word) : Word := if (0 : Word).slt x then x else -x

/-- `_Div`. -/
def div (x y : Word) : Word :=
  let v := loop (magnitude x) (magnitude y) 32 ⟨0, 0⟩
  if (0 : Word).slt x && (0 : Word).slt y || x.slt 0 && y.slt 0 then v.quotient else -v.quotient

/-- `_Rem`. -/
def rem (x y : Word) : Word :=
  let v := loop (magnitude x) (magnitude y) 32 ⟨0, 0⟩
  if (0 : Word).slt x then v.remainder else -v.remainder

variable {a b x : Word} {k n : Nat}

/-! ### The loops are in step -/

/-- A bit by its index, and shifted out at the top. -/
theorem sshiftRight_and_one (hk : k + n = 31) :
    ((a <<< k).sshiftRight 31) &&& 1 = (a.sshiftRight n) &&& 1 := by
  ext i hi
  simp only [BitVec.getElem_and, BitVec.getElem_sshiftRight]
  by_cases h0 : i = 0
  · subst h0
    simp [show ¬31 < k by omega, show 31 - k = n by omega, show n < 32 by omega]
  · simp [h0]

/-- `divmod` has shifted out the bits that it has divided. -/
theorem divLoop_a (b : Word) (v : DivVars) (k : Nat) : (divLoop b k v).a = v.a <<< k := by
  induction k with
  | zero => simp [divLoop]
  | succ k ih =>
    rw [divLoop, shiftLeft_add, ← ih]
    unfold divTurn
    dsimp only
    split <;> rfl

/-- The variables of `_Div` when `n` turns are left and those of `divmod` are `v`. -/
def inStep (n : Nat) (v : DivVars) : Vars := ⟨v.q <<< n, v.r⟩

theorem turn_inStep {v : DivVars} (hbit : (v.a.sshiftRight 31) &&& 1 = (a.sshiftRight n) &&& 1) :
    turn a b n (inStep (n + 1) v) = inStep n (divTurn b v) := by
  have hdouble : v.q <<< (n + 1) = (v.q <<< 1) <<< n := by rw [Nat.add_comm, shiftLeft_add]
  unfold turn divTurn inStep
  dsimp only
  rw [hbit]
  split
  · rw [shiftLeft_or_distrib, hdouble]
  · rw [hdouble]

/-- The turns that are left end as the loop of `divmod` does. -/
theorem loop_inStep (hn : n ≤ 32) :
    loop a b n (inStep n (divLoop b (32 - n) ⟨a, 0, 0⟩)) = inStep 0 (divLoop b 32 ⟨a, 0, 0⟩) := by
  induction n with
  | zero => rfl
  | succ n ih =>
    have hbit := sshiftRight_and_one (a := a) (show 32 - (n + 1) + n = 31 by omega)
    have hturn : divLoop b (32 - n) ⟨a, 0, 0⟩ = divTurn b (divLoop b (32 - (n + 1)) ⟨a, 0, 0⟩) := by
      rw [show 32 - n = 32 - (n + 1) + 1 by omega, divLoop]
    rw [loop, turn_inStep (by rw [divLoop_a, hbit]), ← hturn, ih (by omega)]

theorem loop_eq (a b : Word) :
    loop a b 32 ⟨0, 0⟩ = ⟨(divLoop b 32 ⟨a, 0, 0⟩).q, (divLoop b 32 ⟨a, 0, 0⟩).r⟩ := by
  have hstart : inStep 32 ⟨a, 0, 0⟩ = ⟨0, 0⟩ := by simp [inStep]
  have hloop := loop_inStep (a := a) (b := b) (Nat.le_refl 32)
  rw [Nat.sub_self, divLoop, hstart] at hloop
  rw [hloop, inStep, shiftLeft_zero]

/-! ### The signs -/

theorem zero_slt (hx : x ≠ 0) : (0 : Word).slt x = !x.slt 0 := by
  have hne : x.toInt ≠ (0 : Word).toInt := fun h => hx (toInt_inj.mp h)
  rw [Bool.eq_iff_iff, Bool.not_eq_true', BitVec.slt_eq_decide, BitVec.slt_eq_decide, decide_eq_true_eq,
    decide_eq_false_iff_not]
  omega

theorem magnitude_eq (x : Word) : magnitude x = absolute x := by
  by_cases hx : x = 0
  · subst hx
    rfl
  · rw [magnitude, absolute, zero_slt hx]
    cases x.slt 0 <;> rfl

/-- A positive divisor finds nothing in a dividend of 0. -/
theorem divLoop_zero (hb : b.sle 0 = false) (k : Nat) : divLoop b k ⟨0, 0, 0⟩ = ⟨0, 0, 0⟩ := by
  induction k with
  | zero => rfl
  | succ k ih =>
    have hr : (0 : Word) <<< 1 ||| ((0 : Word).sshiftRight 31 &&& 1) = 0 := rfl
    rw [divLoop, ih, divTurn, hr, hb]
    rfl

theorem absolute_sle_zero (hx : x ≠ 0) (hmin : x ≠ intMin) : (absolute x).sle 0 = false := by
  have hle := natAbs_le x
  have hne := mt (natAbs_eq_iff x).mp hmin
  have hpos : x.toInt ≠ 0 := fun h => hx (toInt_inj.mp h)
  rw [← Bool.not_eq_true, sle_iff (by rw [absolute_toNat]; omega) (by decide), absolute_toNat]
  show ¬_ ≤ 0
  omega

/-- **User-level and kernel division agree.** For all operands with a divisor other than 0, `_Div` and
`_Rem` return the quotient and the remainder that `divmod` stores; so they are also what a `div`
leaves in `lo` and `hi` when the handler of the reserved-instruction trap finds these operands. -/
theorem intrinsics_eq_divmod (x y : Word) (hy : y ≠ 0) :
    divmod x y = some (div x y, rem x y) ∧
    ∀ (mem : Word → Word) (tf : Trapframe), (tf.cause >>> 2) &&& 0x1f = excRi →
      mem tf.epc &&& 0xfc00ffff = 0x0000001a →
      tf.regs (((mem tf.epc >>> 21) &&& 0x1f).setWidth 5) = x →
      tf.regs (((mem tf.epc >>> 16) &&& 0x1f).setWidth 5) = y →
      riHandler mem tf = .ok (0, { tf with lo := div x y, hi := rem x y, epc := tf.epc + 4 }) := by
  have hdiv : divmod x y = some (div x y, rem x y) := by
    by_cases hzero : x = 0
    · subst hzero
      by_cases hmin : y = intMin
      · -- the remainder overflows to `INT_MIN` in every turn, and is its own negative
        subst hmin
        decide +kernel
      · rw [divmod, if_neg hy, div, rem, magnitude_eq, magnitude_eq, loop_eq, show absolute 0 = 0 from rfl,
          divLoop_zero (absolute_sle_zero hy hmin)]
        cases y.slt 0 <;> cases (0 : Word).slt y <;> rfl
    · rw [divmod, if_neg hy, div, rem, magnitude_eq, magnitude_eq, loop_eq, zero_slt hzero, zero_slt hy]
      cases x.slt 0 <;> cases y.slt 0 <;> rfl
  refine ⟨hdiv, fun mem tf hcause hinst hrs hrt => ?_⟩
  unfold riHandler
  rw [if_neg (not_not.mpr hcause)]
  dsimp only
  rw [if_pos hinst, hrs, hrt, hdiv]

/-- `INT_MIN` by -1, where the quotient overflows. -/
theorem intrinsics_eq_divmod_overflow : divmod intMin (-1) = some (div intMin (-1), rem intMin (-1)) ∧
    div intMin (-1) = intMin ∧ rem intMin (-1) = 0 :=
  ⟨(intrinsics_eq_divmod intMin (-1) (by decide)).1, by decide +kernel, by decide +kernel⟩

end Intrinsic

end UcoreMips.User
