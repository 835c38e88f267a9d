import UcoreMips.Emulator.Decode

/-!
# UcoreMips.Emulator.Multiply

**The product of `mult`.** `exe_mult` widens its operands from `uint32_t`, so that `HI` and `LO` are
the words of the product of the registers read as unsigned numbers. `LO` is the same for the signed
product. `HI` is not: each negative operand takes the other one away from it (`signed_high`).
-/

namespace UcoreMips.Emulator

/-- The product of the two words, read as signed numbers. -/
def signedProduct (a b : Word) : BitVec 64 := BitVec.ofInt 64 (a.toInt * b.toInt)

/-- `INT32_MIN`. -/
def intMin : Word := 0x80000000#32

/-- The unsigned product has the words of the signed one, and fits an `int64_t`. -/
def UnsignedSuffices (a b : Word) : Prop :=
  a.msb = false ∧ b.msb = false ∨ a = 0 ∨ b = 0 ∨ a = intMin ∧ b = intMin

instance (a b : Word) : Decidable (UnsignedSuffices a b) := inferInstanceAs (Decidable (_ ∨ _))

/-! ### The words of the product -/

theorem toInt_eq (a : Word) : a.toInt = a.toNat - if a.msb then 2 ^ 32 else 0 := by
  rw [BitVec.toInt_eq_msb_cond]
  split <;> simp

/-- The signed product, from the unsigned one. -/
theorem signedProduct_toNat (a b : Word) : ((signedProduct a b).toNat : Int) =
    ((a.toNat * b.toNat : Nat) - 2 ^ 32 * ((if a.msb then (b.toNat : Int) else 0) +
      if b.msb then (a.toNat : Int) else 0)) % 2 ^ 64 := by
  have hprod : a.toInt * b.toInt = ((a.toNat * b.toNat : Nat) - 2 ^ 32 *
      ((if a.msb then (b.toNat : Int) else 0) + if b.msb then (a.toNat : Int) else 0)) +
        2 ^ 64 * if a.msb ∧ b.msb then 1 else 0 := by
    rw [toInt_eq, toInt_eq]
    cases a.msb <;> cases b.msb <;> simp <;> ring
  rw [signedProduct, BitVec.toNat_ofInt, hprod]
  omega

theorem unsignedProduct_toNat (a b : Word) :
    (a.setWidth 64 * b.setWidth 64 : BitVec 64).toNat = a.toNat * b.toNat := by
  have hlt : a.toNat * b.toNat < 2 ^ 32 * 2 ^ 32 := Nat.mul_lt_mul'' a.isLt b.isLt
  exact Nat.mod_eq_of_lt hlt

theorem signed_low (a b : Word) :
    (signedProduct a b).setWidth 32 = (a.setWidth 64 * b.setWidth 64 : BitVec 64).setWidth 32 := by
  have hsigned := signedProduct_toNat a b
  apply BitVec.eq_of_toNat_eq
  rw [BitVec.toNat_setWidth, BitVec.toNat_setWidth, unsignedProduct_toNat]
  omega

/-- The high word of the signed product. -/
theorem signed_high (a b : Word) : (signedProduct a b).extractLsb' 32 32 =
    (a.setWidth 64 * b.setWidth 64 : BitVec 64).extractLsb' 32 32 -
      ((if a.msb then b else 0) + if b.msb then a else 0) := by
  have hsigned := signedProduct_toNat a b
  have hunsigned := unsignedProduct_toNat a b
  have hlt := (a.setWidth 64 * b.setWidth 64 : BitVec 64).isLt
  have ha := a.isLt
  have hb := b.isLt
  apply BitVec.eq_of_toNat_eq
  rw [BitVec.toNat_sub, BitVec.toNat_add, BitVec.extractLsb'_toNat, BitVec.extractLsb'_toNat,
    hunsigned, Nat.shiftRight_eq_div_pow, Nat.shiftRight_eq_div_pow]
  generalize a.toNat * b.toNat = prod at *
  cases hma : a.msb <;> cases hmb : b.msb <;> simp [hma, hmb] at hsigned ⊢ <;> omega

theorem sshiftRight_high (x : BitVec 64) : (x.sshiftRight 32).setWidth 32 = x.extractLsb' 32 32 := by
  ext i hi
  simp only [BitVec.getElem_setWidth, BitVec.getLsbD_sshiftRight, BitVec.getElem_extractLsb']
  simp [show i < 64 by omega, show 32 + i < 64 by omega]

theorem msb_iff (a : Word) : a.msb = true ↔ 2 ^ 31 ≤ a.toNat := by
  rw [BitVec.msb_eq_decide, decide_eq_true_iff]

/-- When nothing is taken away from the high word, and the product fits. -/
theorem unsignedSuffices_iff (a b : Word) : UnsignedSuffices a b ↔ a.toNat * b.toNat < 2 ^ 63 ∧
    ((if a.msb then b else 0) + if b.msb then a else 0) = (0 : Word) := by
  have ha := a.isLt
  have hb := b.isLt
  have hzero : ∀ x : Word, x = 0 ↔ x.toNat = 0 := fun x => by rw [← BitVec.toNat_inj]; rfl
  have hmin : ∀ x : Word, x = intMin ↔ x.toNat = 2 ^ 31 := fun x => by rw [← BitVec.toNat_inj]; rfl
  have hma := msb_iff a
  have hmb := msb_iff b
  rw [UnsignedSuffices, hzero a, hzero b, hmin a, hmin b]
  cases h1 : a.msb <;> cases h2 : b.msb <;> simp only [h1, h2] at hma hmb ⊢ <;>
    simp only [Bool.false_eq_true, if_false, if_true, hzero, BitVec.toNat_add, false_iff,
      true_iff, and_self, true_or, reduceCtorEq, and_true, and_false, false_or] at hma hmb ⊢
  case false.false =>
    have hlt : a.toNat * b.toNat < 2 ^ 31 * 2 ^ 31 := Nat.mul_lt_mul'' (by omega) (by omega)
    simp
    omega
  case false.true =>
    have hlt : a.toNat * b.toNat < 2 ^ 31 * 2 ^ 32 := Nat.mul_lt_mul'' (by omega) (by omega)
    simp
    omega
  case true.false =>
    have hlt : a.toNat * b.toNat < 2 ^ 32 * 2 ^ 31 := Nat.mul_lt_mul'' (by omega) (by omega)
    simp
    omega
  case true.true =>
    constructor
    · rintro (h | h | ⟨hae, hbe⟩)
      · omega
      · omega
      · rw [hae, hbe]
        decide
    · rintro ⟨-, hsum⟩
      omega

/-! ### The instructions -/

namespace Cpu

/-- The instruction of a word is executed. -/
def runWord (s : Cpu) (w : Word) : Result := instructionDecode { s with instruction := w }

theorem runWord_of_encodes {i : Instr} {w : Word} (s : Cpu) (h : i.Encodes w) :
    s.runWord w = exe i { s with instruction := w } := by
  rw [runWord, instructionDecode, dispatch_of_encodes h]

/-- The words `w`, `wh` and `wl` (a `mult`, a `mfhi` and a `mflo`) are executed, and the destination
registers get the words of the signed product of the operands. -/
def ReadsSignedProduct (s : Cpu) (w wh wl : Word) : Prop :=
  let product := signedProduct (s.registers (Word.rs w)) (s.registers (Word.rt w))
  ∃ s1 s2 s3, s.runWord w = .ok (s1, false) ∧ s1.runWord wh = .ok (s2, false) ∧
    s2.runWord wl = .ok (s3, false) ∧ s2.registers (Word.rd wh) = product.extractLsb' 32 32 ∧
    s3.registers (Word.rd wl) = product.setWidth 32

/-- **The product of `mult`** is read as the signed product, with no overflow of the `int64_t`, exactly
if both operands are non-negative, or one of them is zero, or both are `INT32_MIN`. -/
theorem reads_signed_product_iff (s : Cpu) {w wh wl : Word} (hw : Instr.mult.Encodes w)
    (hh : Instr.mfhi.Encodes wh) (hl : Instr.mflo.Encodes wl) : s.ReadsSignedProduct w wh wl ↔
      UnsignedSuffices (s.registers (Word.rs w)) (s.registers (Word.rt w)) := by
  obtain ⟨a, ha⟩ : ∃ a, s.registers (Word.rs w) = a := ⟨_, rfl⟩
  obtain ⟨b, hb⟩ : ∃ b, s.registers (Word.rt w) = b := ⟨_, rfl⟩
  have hmult : s.runWord w = exeMult { s with instruction := w } := s.runWord_of_encodes hw
  have hrs : rsVal { s with instruction := w } = a := ha
  have hrt : rtVal { s with instruction := w } = b := hb
  rw [exeMult, hrs, hrt] at hmult
  rw [ReadsSignedProduct, ha, hb, hmult, unsignedSuffices_iff]
  constructor
  · rintro ⟨s1, s2, s3, h1, h2, -, hhigh, -⟩
    split at h1
    · next hlt =>
      refine ⟨hlt, ?_⟩
      obtain ⟨rfl, -⟩ := Prod.mk.inj (Except.ok.inj h1)
      rw [runWord_of_encodes _ hh] at h2
      obtain ⟨rfl, -⟩ := Prod.mk.inj (Except.ok.inj h2)
      simp only [setReg, Function.update_self, sshiftRight_high, signed_high] at hhigh
      generalize ((if a.msb then b else 0) + if b.msb then a else 0 : Word) = correction at hhigh ⊢
      bv_omega
    · cases h1
  · rintro ⟨hlt, hcorr⟩
    rw [if_pos hlt]
    refine ⟨_, _, _, rfl, runWord_of_encodes _ hh, runWord_of_encodes _ hl, ?_, ?_⟩
    · simp only [setReg, Function.update_self, sshiftRight_high, signed_high, hcorr]
      exact (BitVec.sub_zero _).symm
    · simp only [setReg, Function.update_self, signed_low]

/-- The processor with `a` in `$1` and `b` in `$2`. -/
def operands (a b : Word) : Cpu := { powerOn [] with registers := fun r => if r = 1 then a else b }

/-- `mult $1, $2; mfhi $3; mflo $4` with 7 and 9. -/
theorem reads_signed_product_iff_small :
    (operands 7 9).ReadsSignedProduct 0x00220018 0x00001810 0x00002012 :=
  ((operands 7 9).reads_signed_product_iff ⟨by decide, by decide⟩ ⟨by decide, by decide⟩
    ⟨by decide, by decide⟩).mpr (by decide)

/-- The product of -1 and 1 is read with 0 in `HI`; that of -1 and -1 overflows. -/
theorem mult_of_negative : ¬(operands 0xffffffff 1).ReadsSignedProduct 0x00220018 0x00001810 0x00002012 ∧
    (∃ s1 s2, (operands 0xffffffff 1).runWord 0x00220018 = .ok (s1, false) ∧
      s1.runWord 0x00001810 = .ok (s2, false) ∧ s2.registers 3 = 0) ∧
    (signedProduct 0xffffffff 1).extractLsb' 32 32 = 0xffffffff ∧
    (operands 0xffffffff 0xffffffff).runWord 0x00220018 = .error .signedOverflow := by
  refine ⟨?_, ⟨_, _, rfl, rfl, by decide⟩, by decide, rfl⟩
  rintro ⟨s1, s2, s3, h1, h2, -, hhigh, -⟩
  obtain ⟨rfl, -⟩ := Prod.mk.inj (Except.ok.inj h1)
  obtain ⟨rfl, -⟩ := Prod.mk.inj (Except.ok.inj h2)
  exact absurd hhigh (by decide)

end Cpu

end UcoreMips.Emulator
