import UcoreMips.Emulator.Encode
import UcoreMips.Kernel.Base
import UcoreMips.Lib.LongDivision

/-!
# UcoreMips.Kernel.Trap.Divmod

**Division by software** (`kern/libs/divmod.h`, `kern/trap/ri.h`). The emulator has no `div`, so the
instruction raises `RI`, and the handler divides the operands it finds in the trap frame.

* `divmod` is a long division of the absolute values, in variables of type `int`. Sums, negations
  and shifts are taken to wrap around.
* `__alltraps` writes the registers into the frame, but leaves out `$0`, `$k0` and `$k1`: their
  places keep what the stack held before (`unsaved`).
-/

namespace UcoreMips.Kernel

open UcoreMips.Lib BitVec Nat Emulator.Word Emulator.Cp0
open Emulator (Word RegNo Cpu)

/-! ### `divmod` -/

/-- The variables of the loop. -/
structure DivVars where
  a : Word
  r : Word
  q : Word
  deriving Repr, DecidableEq

/-- One turn of the loop. -/
def divTurn (b : Word) (v : DivVars) : DivVars :=
  let r := (v.r <<< 1) ||| ((v.a.sshiftRight 31) &&& 1)
  let a := v.a <<< 1
  let q := v.q <<< 1
  if b.sle r then ⟨a, r - b, q ||| 1⟩ else ⟨a, r, q⟩

/-- The loop of `divmod`, `k` turns of it. -/
def divLoop (b : Word) : Nat → DivVars → DivVars
  | 0, v => v
  | k + 1, v => divTurn b (divLoop b k v)

/-- `a < 0`, and then `a = -a`. -/
def absolute (a : Word) : Word := if a.slt 0 then -a else a

/-- `divmod`: the quotient and the remainder, or nothing for a divisor of 0. -/
def divmod (a b : Word) : Option (Word × Word) :=
  if b = 0 then none
  else
    let signMod := a.slt 0
    let signDiv := a.slt 0 != b.slt 0
    let v := divLoop (absolute b) 32 ⟨absolute a, 0, 0⟩
    some (if signDiv then -v.q else v.q, if signMod then -v.r else v.r)

/-! ### The handler -/

/-- `struct trapframe`; `regs` are the fields of `struct pushregs` in order. -/
@[ext] structure Trapframe where
  regs : RegNo → Word
  status : Word
  cause : Word
  epc : Word
  badVAddr : Word
  lo : Word
  hi : Word

/-- `EXC_RI`. -/
def excRi : Word := 10

/-- `ri_handler`; `mem` is memory as the kernel reads it. -/
def riHandler (mem : Word → Word) (tf : Trapframe) : Except Stop (Int × Trapframe) :=
  if (tf.cause >>> 2) &&& 0x1f ≠ excRi then .error .assertion
  else
    let inst := mem tf.epc
    if inst &&& 0xfc00ffff = 0x0000001a then
      let reg1 : RegNo := ((inst >>> 21) &&& 0x1f).setWidth 5
      let reg2 : RegNo := ((inst >>> 16) &&& 0x1f).setWidth 5
      match divmod (tf.regs reg1) (tf.regs reg2) with
      | none => .ok (-1, tf)
      | some (q, r) => .ok (0, { tf with lo := q, hi := r, epc := tf.epc + 4 })
    else .ok (-1, tf)

/-- The registers that `__alltraps` does not save: `$0`, `$k0` and `$k1`. -/
def unsaved (r : RegNo) : Bool := r = 0 || r = 26 || r = 27

/-- The frame that `__alltraps` builds, over a stack with the words `stale`. -/
def alltrapsFrame (s : Cpu) (stale : RegNo → Word) : Trapframe where
  regs r := if unsaved r then stale r else s.registers r
  status := s.cp0.registers sr
  cause := s.cp0.registers cause
  epc := s.cp0.registers epc
  badVAddr := s.cp0.registers badVAddr
  lo := s.lo
  hi := s.hi

/-! ### The loop divides -/

/-- The bit that a turn takes from `a`. -/
theorem topBit_toNat (a : Word) : ((a.sshiftRight 31) &&& 1).toNat = a.toNat / 2 ^ 31 := by
  have ha := a.isLt
  have hone : ((a.sshiftRight 31) &&& 1) = if a.msb then 1 else 0 := by
    ext i hi
    simp only [getElem_and, getElem_sshiftRight]
    by_cases h0 : i = 0
    · subst h0
      cases hm : a.msb <;> simp [← getLsbD_eq_getElem] <;>
        simpa [msb_eq_getLsbD_last] using hm
    · cases hm : a.msb <;> simp [h0]
  rw [hone]
  cases hm : a.msb
  · rw [msb_eq_decide, decide_eq_false_iff_not] at hm
    simp
    omega
  · rw [msb_eq_decide, decide_eq_true_iff] at hm
    simp
    omega

/-- The double of a word that has room, with a bit put in. -/
theorem shift_or_toNat {x bit : Word} (hx : x.toNat < 2 ^ 31) (hbit : bit.toNat ≤ 1) :
    (x <<< 1 ||| bit).toNat = 2 * x.toNat + bit.toNat := by
  rw [toNat_or, toNat_shiftLeft, mod_eq_of_lt (by omega), ← shiftLeft_add_eq_or_of_lt (by omega)]
  omega

variable {b a : Word} {v : DivVars} {n k : Nat}

theorem sle_iff {r : Word} (hb : b.toNat < 2 ^ 31) (hr : r.toNat < 2 ^ 31) :
    b.sle r = true ↔ b.toNat ≤ r.toNat := by
  rw [sle_eq_decide, decide_eq_true_iff, toInt_eq_toNat_of_lt (by omega),
    toInt_eq_toNat_of_lt (by omega)]
  omega

/-- A turn, as long as the remainder stays an `int`. -/
theorem divTurn_toNat {bit : Nat} (hbit : v.a.toNat / 2 ^ 31 = bit) (hb : b.toNat < 2 ^ 31)
    (hq : v.q.toNat < 2 ^ 31) (hr : 2 * v.r.toNat + bit < 2 ^ 31) :
    (divTurn b v).a.toNat = 2 * v.a.toNat % 2 ^ 32 ∧
    (divTurn b v).q.toNat = 2 * v.q.toNat + (if b.toNat ≤ 2 * v.r.toNat + bit then 1 else 0) ∧
    (divTurn b v).r.toNat = if b.toNat ≤ 2 * v.r.toNat + bit then 2 * v.r.toNat + bit - b.toNat
      else 2 * v.r.toNat + bit := by
  have htop : ((v.a.sshiftRight 31) &&& 1).toNat = bit := (topBit_toNat v.a).trans hbit
  have hnew : (v.r <<< 1 ||| ((v.a.sshiftRight 31) &&& 1)).toNat = 2 * v.r.toNat + bit := by
    rw [shift_or_toNat (by omega) (by omega), htop]
  have hquot : (v.q <<< 1 ||| 1).toNat = 2 * v.q.toNat + 1 := shift_or_toNat hq (by decide)
  have hdouble : (v.q <<< 1).toNat = 2 * v.q.toNat := by
    rw [toNat_shiftLeft, Nat.shiftLeft_eq, Nat.mod_eq_of_lt (by omega)]
    omega
  have hshift : (v.a <<< 1).toNat = 2 * v.a.toNat % 2 ^ 32 := by
    rw [toNat_shiftLeft, Nat.shiftLeft_eq, Nat.pow_one, Nat.mul_comm]
  have hsle := sle_iff hb (show (v.r <<< 1 ||| ((v.a.sshiftRight 31) &&& 1)).toNat < 2 ^ 31 by omega)
  rw [hnew] at hsle
  unfold divTurn
  by_cases hle : b.toNat ≤ 2 * v.r.toNat + bit
  · rw [if_pos (hsle.mpr hle), if_pos hle, if_pos hle]
    refine ⟨hshift, hquot, ?_⟩
    rw [toNat_sub_of_le (by rw [le_def, hnew]; exact hle), hnew]
  · rw [if_neg (mt hsle.mp hle), if_neg hle, if_neg hle]
    exact ⟨hshift, hdouble, hnew⟩

/-- After `k` turns: the first `k` bits of the dividend have been divided. -/
def Divided (n : Nat) (b : Word) (k : Nat) (v : DivVars) : Prop :=
  v.a.toNat = n * 2 ^ k % 2 ^ 32 ∧ v.q.toNat = n / 2 ^ (32 - k) / b.toNat ∧
    v.r.toNat = n / 2 ^ (32 - k) % b.toNat

theorem Divided.turn (h : Divided n b k v) (hn : n < 2 ^ 32) (hk : k < 32)
    (hb0 : 0 < b.toNat) (hb : b.toNat < 2 ^ 31)
    (hroom : 2 * (n / 2 ^ (32 - k) % b.toNat) + n / 2 ^ (31 - k) % 2 < 2 ^ 31) :
    Divided n b (k + 1) (divTurn b v) := by
  obtain ⟨ha, hq, hr⟩ := h
  have hpow : (2 : Nat) ^ 31 = 2 ^ (31 - k) * 2 ^ k := by rw [← Nat.pow_add, Nat.sub_add_cancel (by omega)]
  have hbit : v.a.toNat / 2 ^ 31 = n / 2 ^ (31 - k) % 2 := by
    have hdiv : n * 2 ^ k / 2 ^ 31 = n / 2 ^ (31 - k) := by
      rw [hpow, Nat.mul_div_mul_right _ _ (Nat.two_pow_pos k)]
    rw [ha, ← hdiv]
    omega
  have hstep := leading_step n (31 - k)
  rw [show 31 - k + 1 = 32 - k by omega] at hstep
  obtain ⟨bit, hdef⟩ : ∃ bit, n / 2 ^ (31 - k) % 2 = bit := ⟨_, rfl⟩
  rw [hdef] at hbit hstep hroom
  have hone : bit ≤ 1 := by omega
  have hquot : v.q.toNat < 2 ^ 31 := by
    have hle : v.q.toNat ≤ n / 2 ^ (32 - k) := hq ▸ div_le_self _ _
    have hhalf : n / 2 ^ (32 - k) ≤ n / 2 ^ 1 :=
      Nat.div_le_div_left (Nat.pow_le_pow_right (by decide) (by omega)) (by decide)
    omega
  rw [← hr] at hroom
  obtain ⟨ha', hq', hr'⟩ := divTurn_toNat hbit hb hquot hroom
  refine ⟨?_, ?_, ?_⟩
  · rw [ha', ha, mul_mod_mod, mul_left_comm, ← pow_add_one']
  · rw [hq', hq, hr, show 32 - (k + 1) = 31 - k by omega, hstep, div_step hb0 hone]
  · rw [hr', hr, show 32 - (k + 1) = 31 - k by omega, hstep, mod_step hb0 hone]

/-- The turns before one in which the remainder may become too large. -/
theorem divLoop_divided (hn : a.toNat = n) (hb0 : 0 < b.toNat) (hb : b.toNat < 2 ^ 31) (hk : k ≤ 32)
    (hroom : ∀ j < k, 2 * (n / 2 ^ (32 - j) % b.toNat) + n / 2 ^ (31 - j) % 2 < 2 ^ 31) :
    Divided n b k (divLoop b k ⟨a, 0, 0⟩) := by
  induction k with
  | zero =>
    have hzero : n / 2 ^ 32 = 0 := div_eq_of_lt (by omega)
    refine ⟨?_, ?_, ?_⟩
    · simp [divLoop, hn]
      omega
    · show 0 = n / 2 ^ 32 / b.toNat
      rw [hzero, Nat.zero_div]
    · show 0 = n / 2 ^ 32 % b.toNat
      rw [hzero, zero_mod]
  | succ k ih =>
    exact (ih (by omega) fun j hj => hroom j (by omega)).turn (by omega) (by omega) hb0 hb
      (hroom k (by omega))

/-- There is room for a dividend that is an `int`; for 2³¹ there is with divisors up to 2³⁰, and before
the last turn. -/
theorem divLoop_room {b j : Nat} (hb : 0 < b)
    (hn : n < 2 ^ 31 ∨ n = 2 ^ 31 ∧ (b ≤ 2 ^ 30 ∨ j < 31)) (hj : j < 32) :
    2 * (n / 2 ^ (32 - j) % b) + n / 2 ^ (31 - j) % 2 < 2 ^ 31 := by
  have hstep := leading_step n (31 - j)
  rw [show 31 - j + 1 = 32 - j by omega] at hstep
  have hle := mod_le (n / 2 ^ (32 - j)) b
  have hself := div_le_self n (2 ^ (31 - j))
  rcases hn with hn | ⟨rfl, hb30⟩
  · omega
  · have hlt := mod_lt (2 ^ 31 / 2 ^ (32 - j)) hb
    by_cases hlast : j = 31
    · subst hlast
      simp at hlt hle hstep ⊢
      omega
    · have hhalf : 2 ^ 31 / 2 ^ (31 - j) ≤ 2 ^ 31 / 2 ^ 1 :=
        Nat.div_le_div_left (Nat.pow_le_pow_right (by decide) (by omega)) (by decide)
      omega

/-! ### `divmod` divides -/

/-- `INT_MIN`. -/
def intMin : Word := 0x80000000#32

theorem toInt_neg_iff (a : Word) : a.slt 0 = true ↔ a.toInt < 0 := by
  rw [slt_eq_decide, decide_eq_true_iff]
  rfl

/-- The absolute value, which is that of the number also for `INT_MIN`. -/
theorem absolute_toNat (a : Word) : (absolute a).toNat = a.toInt.natAbs := by
  have ha := a.isLt
  have hneg := toInt_neg_iff a
  have htoInt : a.toInt = a.toNat ∨ a.toInt = a.toNat - 2 ^ 32 := by
    rw [toInt_eq_toNat_cond]
    split
    · exact .inl rfl
    · exact .inr rfl
  unfold absolute
  split
  · next h =>
    have hlt := hneg.mp h
    have hle := le_toInt a
    rw [toNat_neg]
    show (2 ^ 32 - a.toNat) % 2 ^ 32 = _
    omega
  · next h =>
    have hge := mt hneg.mpr h
    omega

theorem natAbs_le (a : Word) : a.toInt.natAbs ≤ 2 ^ 31 := by
  have hlt := toInt_lt (x := a)
  have hle := le_toInt a
  omega

theorem natAbs_eq_iff (a : Word) : a.toInt.natAbs = 2 ^ 31 ↔ a = intMin := by
  have hlt := toInt_lt (x := a)
  rw [← toInt_inj, show intMin.toInt = -2 ^ 31 from rfl]
  omega

/-- The operands for which the long division stays within an `int`. -/
def Divisible (a b : Word) : Prop :=
  b ≠ 0 ∧ b ≠ intMin ∧ ¬(a = intMin ∧ 2 ^ 30 < b.toInt.natAbs)

/-- The quotient, rounded towards zero, and the remainder, with the sign of the dividend. -/
def quotient (a b : Word) : Word := BitVec.ofInt 32 (a.toInt.tdiv b.toInt)
def remainder (a b : Word) : Word := BitVec.ofInt 32 (a.toInt.tmod b.toInt)

theorem divLoop_eq (h : Divisible a b) : (divLoop (absolute b) 32 ⟨absolute a, 0, 0⟩).q =
      BitVec.ofNat 32 (a.toInt.natAbs / b.toInt.natAbs) ∧
    (divLoop (absolute b) 32 ⟨absolute a, 0, 0⟩).r =
      BitVec.ofNat 32 (a.toInt.natAbs % b.toInt.natAbs) := by
  obtain ⟨hzero, hmin, hlarge⟩ := h
  have hb0 : 0 < b.toInt.natAbs := by
    refine pos_of_ne_zero fun heq => hzero ?_
    rw [← toInt_inj, Int.natAbs_eq_zero.mp heq]
    rfl
  have hble := natAbs_le b
  have hb31 : b.toInt.natAbs < 2 ^ 31 := by
    have hne := mt (natAbs_eq_iff b).mp hmin
    omega
  have hale := natAbs_le a
  have hn : a.toInt.natAbs < 2 ^ 31 ∨ a.toInt.natAbs = 2 ^ 31 ∧ b.toInt.natAbs ≤ 2 ^ 30 := by
    rw [← natAbs_eq_iff] at hlarge
    omega
  have hdiv := divLoop_divided (b := absolute b) (absolute_toNat a) (by rwa [absolute_toNat])
    (by rwa [absolute_toNat]) le_rfl fun j hj => by
      rw [absolute_toNat]
      exact divLoop_room hb0 (hn.imp_right fun h => ⟨h.1, .inl h.2⟩) hj
  rw [Divided, absolute_toNat] at hdiv
  obtain ⟨-, hq, hr⟩ := hdiv
  simp only [Nat.sub_self, Nat.pow_zero, Nat.div_one] at hq hr
  constructor
  · rw [← hq, ofNat_toNat, setWidth_eq]
  · rw [← hr, ofNat_toNat, setWidth_eq]

/-- `divmod` is division where the loop stays within an `int`. -/
theorem divmod_eq (h : Divisible a b) : divmod a b = some (quotient a b, remainder a b) := by
  obtain ⟨hq, hr⟩ := divLoop_eq h
  rw [divmod, if_neg h.1]
  have hdiv : ∀ m n : Nat, BitVec.ofNat 32 (m / n) = BitVec.ofInt 32 (Int.tdiv m n) := fun m n => by
    rw [← Int.ofNat_tdiv, ofInt_natCast]
  have hmod : ∀ m n : Nat, BitVec.ofNat 32 (m % n) = BitVec.ofInt 32 (Int.tmod m n) := fun m n => by
    rw [← Int.ofNat_tmod, ofInt_natCast]
  -- Each operand is its absolute value or the negative of it.
  have habs : ∀ x : Word, x.toInt = if x.slt 0 then -(x.toInt.natAbs : Int) else x.toInt.natAbs := by
    intro x
    have hx := toInt_neg_iff x
    by_cases hneg : x.slt 0 = true
    · have hlt := hx.mp hneg
      rw [if_pos hneg]
      omega
    · have hge := mt hx.mpr hneg
      rw [if_neg hneg]
      omega
  simp only [hq, hr, quotient, remainder, hdiv, hmod]
  rw [habs a, habs b]
  cases a.slt 0 <;> cases b.slt 0 <;> simp [Int.neg_tdiv, Int.tdiv_neg, Int.neg_tmod, Int.tmod_neg,
    ofInt_neg]

/-! ### Where it does not -/

/-- A divisor of `INT_MIN` stays negative, and every turn subtracts it. -/
theorem divLoop_intMin (v : DivVars) (k : Nat) (hk : k ≤ 32) :
    (divLoop intMin k ⟨v.a, v.r, 0⟩).q.toNat = 2 ^ k - 1 := by
  induction k with
  | zero => rfl
  | succ k ih =>
    have hall : ∀ r : Word, intMin.sle r = true := fun r => by
      rw [sle_eq_decide, decide_eq_true_iff]
      exact le_toInt r
    have hq := ih (by omega)
    have hpow : 2 ^ k ≤ 2 ^ 31 := Nat.pow_le_pow_right (by decide) (by omega)
    have hpos := Nat.two_pow_pos k
    rw [divLoop, divTurn, if_pos (hall _), shift_or_toNat (by omega) (by decide), hq, pow_succ]
    show 2 * (2 ^ k - 1) + 1 = _
    omega

/-- The quotient by `INT_MIN` comes out as 1 or -1, with the sign that it would have. -/
theorem divmod_intMin (a : Word) :
    ∃ r, divmod a intMin = some (if a.slt 0 then -1 else 1, r) := by
  have hq : (divLoop intMin 32 ⟨absolute a, 0, 0⟩).q = -1 := by
    apply eq_of_toNat_eq
    rw [divLoop_intMin ⟨absolute a, 0, 0⟩ 32 le_rfl]
    rfl
  rw [divmod, if_neg (by decide)]
  simp only [show absolute intMin = intMin from rfl, hq, show intMin.slt 0 = true from rfl]
  cases a.slt 0
  · exact ⟨_, rfl⟩
  · exact ⟨_, rfl⟩

theorem quotient_intMin (a : Word) : quotient a intMin = if a = intMin then 1 else 0 := by
  have hle := natAbs_le a
  have hmin := natAbs_eq_iff a
  rw [quotient, show intMin.toInt = -2 ^ 31 from rfl]
  split
  · next h =>
    subst h
    rfl
  · next h =>
    have hlt : a.toInt.natAbs < 2 ^ 31 := by
      have hne := mt hmin.mp h
      omega
    have hzero : (a.toInt.tdiv (-2 ^ 31)).natAbs = 0 := by
      rw [Int.natAbs_tdiv]
      exact div_eq_of_lt hlt
    rw [Int.natAbs_eq_zero.mp hzero]
    rfl

theorem divmod_intMin_ne (a : Word) :
    divmod a intMin ≠ some (quotient a intMin, remainder a intMin) := by
  obtain ⟨r, hr⟩ := divmod_intMin a
  rw [hr, quotient_intMin]
  intro heq
  have hquot : (if a.slt 0 then (-1 : Word) else 1) = if a = intMin then 1 else 0 :=
    congrArg Prod.fst (Option.some.inj heq)
  by_cases ha : a = intMin
  · subst ha
    exact absurd hquot (by decide)
  · rw [if_neg ha] at hquot
    cases hs : a.slt 0 <;> rw [hs] at hquot <;> exact absurd hquot (by decide)

/-- The dividend is `INT_MIN` and the divisor more than half as large: the last turn makes the
remainder 2³¹, which as an `int` is less than the divisor. -/
theorem divmod_large_ne (hb : b ≠ intMin) (hlarge : 2 ^ 30 < b.toInt.natAbs) :
    divmod intMin b ≠ some (quotient intMin b, remainder intMin b) := by
  have hle := natAbs_le b
  have hlt : b.toInt.natAbs < 2 ^ 31 := by
    have hne := mt (natAbs_eq_iff b).mp hb
    omega
  have h0 : b ≠ 0 := by
    rintro rfl
    exact absurd hlarge (by decide)
  have hdiv := divLoop_divided (a := absolute intMin) (b := absolute b) (n := 2 ^ 31) (k := 31) rfl
    (by rw [absolute_toNat]; omega) (by rwa [absolute_toNat]) (by decide) fun j hj => by
      rw [absolute_toNat]
      exact divLoop_room (by omega) (.inr ⟨rfl, .inr hj⟩) (by omega)
  rw [Divided, absolute_toNat] at hdiv
  obtain ⟨ha, hq, hr⟩ := hdiv
  have hvars : divLoop (absolute b) 31 ⟨absolute intMin, 0, 0⟩ = ⟨0, 0x40000000#32, 0⟩ := by
    have hhalf : 2 ^ 31 / 2 ^ (32 - 31) = 2 ^ 30 := by decide
    rw [hhalf, div_eq_of_lt hlarge] at hq
    rw [hhalf, mod_eq_of_lt hlarge] at hr
    rw [DivVars.mk.injEq]
    exact ⟨eq_of_toNat_eq ha, eq_of_toNat_eq hr, eq_of_toNat_eq hq⟩
  have hlast : divLoop (absolute b) 32 ⟨absolute intMin, 0, 0⟩ = ⟨0, intMin, 0⟩ := by
    have hnot : (absolute b).sle intMin = false := by
      rw [sle_eq_decide, decide_eq_false_iff_not, show intMin.toInt = -2 ^ 31 from rfl,
        toInt_eq_toNat_of_lt (by rw [absolute_toNat]; omega)]
      omega
    rw [divLoop, hvars, divTurn]
    exact if_neg (show ¬(absolute b).sle intMin = true by rw [hnot]; decide)
  have hone : (intMin.toInt.tdiv b.toInt).natAbs = 1 := by
    rw [Int.natAbs_tdiv, show intMin.toInt.natAbs = 2 ^ 31 from rfl]
    exact Nat.div_eq_of_lt_le (by omega) (by omega)
  have hquot : quotient intMin b ≠ 0 := by
    rcases Int.natAbs_eq_iff.mp hone with h | h <;> rw [quotient, h] <;> decide
  rw [divmod, if_neg h0, hlast]
  intro heq
  have hfst := congrArg Prod.fst (Option.some.inj heq)
  refine hquot (hfst.symm.trans ?_)
  exact ite_eq_right_iff.mpr fun _ => rfl

/-- `divmod` is exact on two operands. -/
theorem divmod_eq_iff (hb : b ≠ 0) :
    divmod a b = some (quotient a b, remainder a b) ↔ Divisible a b := by
  refine ⟨fun h => ⟨hb, ?_, ?_⟩, divmod_eq⟩
  · rintro rfl
    exact divmod_intMin_ne a h
  · rintro ⟨rfl, hlarge⟩
    by_cases hmin : b = intMin
    · subst hmin
      exact divmod_intMin_ne intMin h
    · exact divmod_large_ne hmin hlarge h

/-! ### The handler divides -/

/-- The word `div rs, rt`. -/
def divWord (rs rt : RegNo) : Word := rType 0 rs rt 0 0 0x1a

/-- The value of a register: that of `$0` is 0. -/
def regValue (s : Cpu) (r : RegNo) : Word := if r = 0 then 0 else s.registers r

/-- What the instruction word at `EPC` is to do to the frame, with the result of the handler. -/
def Handled (s : Cpu) (inst : Word) (tf : Trapframe) (result : Int × Trapframe) : Prop :=
  (∀ rs rt, inst = divWord rs rt → regValue s rt ≠ 0 →
    result = (0, { tf with
      lo := quotient (regValue s rs) (regValue s rt)
      hi := remainder (regValue s rs) (regValue s rt)
      epc := tf.epc + 4 })) ∧
  ((∀ rs rt, inst = divWord rs rt → regValue s rt = 0) → result = (-1, tf))

/-- The word is no `div`; or the divisor is saved and 0; or both operands are saved, and `divmod` is
exact on them. -/
def Emulable (s : Cpu) (inst : Word) : Prop :=
  ∀ rs rt, inst = divWord rs rt → unsaved rt = false ∧ (s.registers rt = 0 ∨
    unsaved rs = false ∧ Divisible (s.registers rs) (s.registers rt))

/-- The register numbers, as the handler takes them from the word. -/
theorem shift21_eq_rs (inst : Word) : ((inst >>> 21) &&& 0x1f).setWidth 5 = rs inst := by
  have hmask : ∀ (i : Nat) (hi : i < 5), (31#5)[i] = true := by decide
  ext i hi
  simpa [rs] using fun _ => hmask i hi

theorem shift16_eq_rt (inst : Word) : ((inst >>> 16) &&& 0x1f).setWidth 5 = rt inst := by
  have hmask : ∀ (i : Nat) (hi : i < 5), (31#5)[i] = true := by decide
  ext i hi
  simpa [rt] using fun _ => hmask i hi

theorem divWord_inj {rs rt rs' rt' : RegNo} (h : divWord rs rt = divWord rs' rt') :
    rs = rs' ∧ rt = rt' := by
  have hrs := congrArg Emulator.Word.rs h
  have hrt := congrArg Emulator.Word.rt h
  simp only [divWord, Emulator.Word.rs_rType, Emulator.Word.rt_rType] at hrs hrt
  exact ⟨hrs, hrt⟩

theorem divWord_mask (rs rt : RegNo) : divWord rs rt &&& 0xfc00ffff = 0x0000001a := by
  obtain ⟨w, hw⟩ : ∃ w, divWord rs rt &&& 0xfc00ffff#32 = w := ⟨_, rfl⟩
  have hop : mainOpcode w = 0 := by
    rw [← hw]
    exact (extract_and_ones (by decide)).trans (mainOpcode_rType ..)
  have hrs : Emulator.Word.rs w = 0 := by
    rw [← hw]
    exact extract_and_zeros (by decide)
  have hrt : Emulator.Word.rt w = 0 := by
    rw [← hw]
    exact extract_and_zeros (by decide)
  have hrd : rd w = 0 := by
    rw [← hw]
    exact (extract_and_ones (by decide)).trans (rd_rType ..)
  have hshift : shift w = 0 := by
    rw [← hw]
    exact (extract_and_ones (by decide)).trans (shift_rType ..)
  have hsub : subOpcode w = 0x1a := by
    rw [← hw]
    exact (extract_and_ones (by decide)).trans (subOpcode_rType ..)
  have hfields := rType_fields w
  rw [hop, hrs, hrt, hrd, hshift, hsub] at hfields
  exact hw.trans (hfields.symm.trans (by decide))

/-- The mask keeps the fields other than `rs` and `rt`. -/
theorem eq_divWord {inst : Word} (h : inst &&& 0xfc00ffff = 0x0000001a) :
    inst = divWord (rs inst) (rt inst) := by
  have hkept : ∀ {lo len : Nat}, (∀ i < len, (0xfc00ffff#32).getLsbD (lo + i) = true) →
      inst.extractLsb' lo len = (0x0000001a#32).extractLsb' lo len := fun hmask =>
    (extract_and_ones hmask).symm.trans (congrArg _ h)
  have hop : mainOpcode inst = 0 := hkept (by decide)
  have hrd : rd inst = 0 := hkept (by decide)
  have hshift : shift inst = 0 := hkept (by decide)
  have hsub : subOpcode inst = 0x1a := hkept (by decide)
  have hfields := rType_fields inst
  rw [hop, hrd, hshift, hsub] at hfields
  exact hfields.symm

section Handler

variable {s : Cpu} {mem : Word → Word} {stale : RegNo → Word} {rs rt : RegNo} {tf : Trapframe}
  {r : Int × Trapframe}

/-- The handler on a `div`. -/
theorem riHandler_div (hri : (tf.cause >>> 2) &&& 0x1f = excRi) (hinst : mem tf.epc = divWord rs rt) :
    riHandler mem tf =
      match divmod (tf.regs rs) (tf.regs rt) with
      | none => .ok (-1, tf)
      | some (q, r) => .ok (0, { tf with lo := q, hi := r, epc := tf.epc + 4 }) := by
  rw [riHandler, if_neg (not_not_intro hri)]
  simp only [hinst]
  rw [if_pos (divWord_mask rs rt), shift21_eq_rs, shift16_eq_rt, divWord, rs_rType, rt_rType]

/-- The handler on any other word. -/
theorem riHandler_other (hri : (tf.cause >>> 2) &&& 0x1f = excRi)
    (hinst : ∀ rs rt, mem tf.epc ≠ divWord rs rt) : riHandler mem tf = .ok (-1, tf) := by
  rw [riHandler, if_neg (not_not_intro hri)]
  exact if_neg fun h => hinst _ _ (eq_divWord h)

/-- A register that is saved is not `$0`. -/
theorem regValue_of_saved (h : unsaved rs = false) : regValue s rs = s.registers rs := by
  refine if_neg fun h0 => ?_
  subst h0
  exact absurd h (by decide)

/-- What a right answer for a `div` with a divisor other than 0 says about `divmod`. -/
theorem divmod_of_handled (rs rt : RegNo) (hri : (tf.cause >>> 2) &&& 0x1f = excRi)
    (hinst : mem tf.epc = divWord rs rt) (hret : riHandler mem tf = .ok r) (h : Handled s (mem tf.epc) tf r)
    (hb : regValue s rt ≠ 0) :
    divmod (tf.regs rs) (tf.regs rt) =
      some (quotient (regValue s rs) (regValue s rt), remainder (regValue s rs) (regValue s rt)) := by
  rw [riHandler_div hri hinst] at hret
  rw [h.1 rs rt hinst hb] at hret
  cases hdiv : divmod (tf.regs rs) (tf.regs rt) with
  | none =>
    rw [hdiv] at hret
    have hfst : (-1 : Int) = 0 := congrArg Prod.fst (Except.ok.inj hret)
    exact absurd hfst (by decide)
  | some qr =>
    rw [hdiv] at hret
    have htf := congrArg Prod.snd (Except.ok.inj hret)
    have hlo : qr.1 = quotient (regValue s rs) (regValue s rt) := congrArg Trapframe.lo htf
    have hhi : qr.2 = remainder (regValue s rs) (regValue s rt) := congrArg Trapframe.hi htf
    rw [← hlo, ← hhi]

/-- An answer for a divisor of 0 that leaves the frame alone has found a divisor of 0. -/
theorem divisor_of_handled (hri : (tf.cause >>> 2) &&& 0x1f = excRi)
    (hinst : mem tf.epc = divWord rs rt) (hret : riHandler mem tf = .ok r) (h : Handled s (mem tf.epc) tf r)
    (hb : regValue s rt = 0) :
    tf.regs rt = 0 := by
  rw [riHandler_div hri hinst] at hret
  rw [h.2 fun rs' rt' heq => (divWord_inj (hinst.symm.trans heq)).2 ▸ hb] at hret
  by_contra hne
  rw [divmod, if_neg hne] at hret
  have hfst : (0 : Int) = -1 := congrArg Prod.fst (Except.ok.inj hret)
  exact absurd hfst (by decide)

/-- No dividend gives the right result for all others. -/
theorem not_all_divide {b : Word} (q r : Word) (hb : b ≠ 0) : ¬∀ a, divmod a b = some (q, r) := by
  intro hall
  by_cases hmin : b = intMin
  · subst hmin
    obtain ⟨r₀, hzero⟩ := divmod_intMin 0
    obtain ⟨r₁, hneg⟩ := divmod_intMin (-1)
    have heq := (hzero.symm.trans (hall 0)).trans ((hall (-1)).symm.trans hneg)
    have hfst : (1 : Word) = -1 := congrArg Prod.fst (Option.some.inj heq)
    exact absurd hfst (by decide)
  · have hzero := hall 0
    have hself := hall b
    rw [divmod_eq ⟨hb, hmin, fun h => absurd h.1 (by decide)⟩] at hzero
    rw [divmod_eq ⟨hb, hmin, fun h => hmin h.1⟩] at hself
    have hquot : quotient 0 b = quotient b b :=
      congrArg Prod.fst (Option.some.inj (hzero.trans hself.symm))
    have hne : b.toInt ≠ 0 := fun h => hb (toInt_inj.mp (h.trans rfl))
    rw [quotient, quotient, Int.tdiv_self hne, show (0 : Word).toInt = 0 from rfl,
      Int.zero_tdiv] at hquot
    exact absurd hquot (by decide)

/-- **The emulation of `div`.** For a processor that faulted with `RI`, whatever the stack held where
`__alltraps` builds the frame, the handler returns, divides as `div` does and changes nothing else,
or refuses the word and changes nothing, exactly if the word is no `div`, or the divisor is 0 in a
register that is saved, or both operands are in registers that are saved and `divmod` is exact on
them: the divisor is not `INT_MIN`, nor greater than 2³⁰ in absolute value with a dividend of
`INT_MIN`. -/
theorem ri_handler_divides_iff (s : Cpu) (mem : Word → Word)
    (hri : (s.cp0.registers cause >>> 2) &&& 0x1f = excRi) :
    (∀ stale, ∃ r, riHandler mem (alltrapsFrame s stale) = .ok r ∧
      Handled s (mem (s.cp0.registers epc)) (alltrapsFrame s stale) r) ↔
      Emulable s (mem (s.cp0.registers epc)) := by
  constructor
  · intro hall rs rt hinst
    have hsome : regValue s rt ≠ 0 → ∀ stale,
        divmod ((alltrapsFrame s stale).regs rs) ((alltrapsFrame s stale).regs rt) =
          some (quotient (regValue s rs) (regValue s rt), remainder (regValue s rs) (regValue s rt)) := by
      intro hb stale
      obtain ⟨r, hret, hr⟩ := hall stale
      exact divmod_of_handled rs rt hri hinst hret hr hb
    have hsaved : unsaved rt = false := by
      rw [← Bool.not_eq_true]
      intro hun
      by_cases hb : regValue s rt = 0
      · obtain ⟨r, hret, hr⟩ := hall fun _ => 1
        have hzero := divisor_of_handled (s := s) hri hinst hret hr hb
        exact absurd ((if_pos hun).symm.trans hzero) (by decide)
      · have hdiv := hsome hb fun _ => 0
        rw [show (alltrapsFrame s fun _ => 0).regs rt = 0 from if_pos hun] at hdiv
        exact nomatch hdiv
    refine ⟨hsaved, ?_⟩
    rw [or_iff_not_imp_left]
    intro hne
    have hvalue := regValue_of_saved (s := s) hsaved
    have hdiv := hsome (by rwa [hvalue])
    have hrt : ∀ stale, (alltrapsFrame s stale).regs rt = s.registers rt := fun stale =>
      if_neg (by simp [hsaved])
    have hrs : unsaved rs = false := by
      rw [← Bool.not_eq_true]
      intro hun
      have hsame : ∀ a, divmod a (s.registers rt) =
          some (quotient (regValue s rs) (regValue s rt), remainder (regValue s rs) (regValue s rt)) := by
        intro a
        have hstale := hdiv fun _ => a
        rwa [hrt, show (alltrapsFrame s fun _ => a).regs rs = a from if_pos hun] at hstale
      exact not_all_divide _ _ hne hsame
    refine ⟨hrs, (divmod_eq_iff hne).mp ?_⟩
    have hstale := hdiv fun _ => 0
    rwa [hrt, hvalue, regValue_of_saved hrs, show (alltrapsFrame s fun _ => 0).regs rs =
      s.registers rs from if_neg (by simp [hrs])] at hstale
  · intro h stale
    by_cases hdiv : ∃ rs rt, mem (s.cp0.registers epc) = divWord rs rt
    · obtain ⟨rs, rt, hinst⟩ := hdiv
      obtain ⟨hsaved, hcase⟩ := h rs rt hinst
      have hvalue := regValue_of_saved (s := s) hsaved
      have hrt : (alltrapsFrame s stale).regs rt = s.registers rt := if_neg (by simp [hsaved])
      have hret : riHandler mem (alltrapsFrame s stale) = _ := riHandler_div hri hinst
      rw [hrt] at hret
      rcases hcase with hzero | ⟨hrs, hdivisible⟩
      · rw [hzero, divmod, if_pos rfl] at hret
        refine ⟨_, hret, fun rs' rt' heq hne => ?_, fun _ => rfl⟩
        obtain ⟨rfl, rfl⟩ := divWord_inj (hinst.symm.trans heq)
        exact absurd (hvalue.trans hzero) hne
      · rw [show (alltrapsFrame s stale).regs rs = s.registers rs from if_neg (by simp [hrs]),
          divmod_eq hdivisible] at hret
        refine ⟨_, hret, fun rs' rt' heq hne => ?_, fun hall => ?_⟩
        · obtain ⟨rfl, rfl⟩ := divWord_inj (hinst.symm.trans heq)
          rw [hvalue, regValue_of_saved hrs]
        · exact absurd (hvalue.symm.trans (hall rs rt hinst)) hdivisible.1
    · have hother : ∀ rs rt, mem (s.cp0.registers epc) ≠ divWord rs rt := fun rs rt heq =>
        hdiv ⟨rs, rt, heq⟩
      exact ⟨_, riHandler_other hri hother, fun rs rt heq => absurd heq (hother rs rt), fun _ => rfl⟩

end Handler

/-- A processor with `a` in `$1` and `b` in every other register that faulted with `RI`. -/
def faulted (a b : Word) : Cpu :=
  { Cpu.powerOn [] with
    registers := fun r => if r = 1 then a else b
    cp0 := { registers := fun _ => 0x28 } }

theorem faulted_cause (a b : Word) : ((faulted a b).cp0.registers cause >>> 2) &&& 0x1f = excRi :=
  show (0x28#32 >>> 2) &&& 0x1f = 10 by decide

/-- `div $1, $2` with -7 and 2, over a stack full of 5. -/
theorem ri_handler_divides_iff_small :
    ∃ r, riHandler (fun _ => divWord 1 2) (alltrapsFrame (faulted (-7) 2) fun _ => 5) = .ok r ∧
      Handled (faulted (-7) 2) (divWord 1 2) (alltrapsFrame (faulted (-7) 2) fun _ => 5) r := by
  refine (ri_handler_divides_iff (faulted (-7) 2) (fun _ => divWord 1 2)
    (faulted_cause (-7) 2)).mpr ?_ fun _ => 5
  intro rs rt hinst
  obtain ⟨rfl, rfl⟩ := divWord_inj hinst
  exact ⟨rfl, .inr ⟨rfl, by decide, by decide, fun h => absurd h.1 (by decide)⟩⟩

/-- Where `divmod` is wrong, so is `div $1, $2`. -/
theorem faulted_not_handled (hb : b ≠ 0) (hne : divmod a b ≠ some (quotient a b, remainder a b)) :
    ¬∃ r, riHandler (fun _ => divWord 1 2) (alltrapsFrame (faulted a b) fun _ => 0) = .ok r ∧
      Handled (faulted a b) (divWord 1 2) (alltrapsFrame (faulted a b) fun _ => 0) r := by
  rintro ⟨r, hret, hr⟩
  have hri : ((alltrapsFrame (faulted a b) fun _ => 0).cause >>> 2) &&& 0x1f = excRi :=
    faulted_cause a b
  have hfst : regValue (faulted a b) 1 = a := rfl
  have hsnd : regValue (faulted a b) 2 = b := rfl
  have hdiv := divmod_of_handled 1 2 hri rfl hret hr (hsnd ▸ hb)
  rw [hfst, hsnd, show (alltrapsFrame (faulted a b) fun _ => 0).regs 1 = a from rfl,
    show (alltrapsFrame (faulted a b) fun _ => 0).regs 2 = b from rfl] at hdiv
  exact hne hdiv

/-- `div $1, $0` divides by what the stack held; `div $1, $2` goes wrong for 1 by `INT_MIN`, and for
`INT_MIN` by `INT_MAX`. -/
theorem ri_handler_wrong_divisions :
    (¬∃ r, riHandler (fun _ => divWord 1 0) (alltrapsFrame (faulted 7 2) fun _ => 1) = .ok r ∧
      Handled (faulted 7 2) (divWord 1 0) (alltrapsFrame (faulted 7 2) fun _ => 1) r) ∧
    (¬∃ r, riHandler (fun _ => divWord 1 2) (alltrapsFrame (faulted 1 intMin) fun _ => 0) = .ok r ∧
      Handled (faulted 1 intMin) (divWord 1 2) (alltrapsFrame (faulted 1 intMin) fun _ => 0) r) ∧
    ¬∃ r, riHandler (fun _ => divWord 1 2)
        (alltrapsFrame (faulted intMin 0x7fffffff) fun _ => 0) = .ok r ∧
      Handled (faulted intMin 0x7fffffff) (divWord 1 2)
        (alltrapsFrame (faulted intMin 0x7fffffff) fun _ => 0) r := by
  refine ⟨?_, ?_, ?_⟩
  · rintro ⟨r, hret, hr⟩
    have hri : ((alltrapsFrame (faulted 7 2) fun _ => 1).cause >>> 2) &&& 0x1f = excRi :=
      faulted_cause 7 2
    have hzero := divisor_of_handled hri rfl hret hr rfl
    exact absurd hzero (show (1 : Word) ≠ 0 by decide)
  · exact faulted_not_handled (by decide) (divmod_intMin_ne 1)
  · exact faulted_not_handled (by decide) (divmod_large_ne (by decide) (by decide))

end UcoreMips.Kernel
