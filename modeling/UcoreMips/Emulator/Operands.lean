import UcoreMips.Emulator.Cycle

/-!
# UcoreMips.Emulator.Operands

**The same operation, with its operand in the word or in a register.** MIPS32 has two forms of most
of its arithmetic: the second operand, or the shift amount, is a field of the instruction or the
value of a register. Two machines that agree, one executing each form on the same values, should
agree again after the cycle.

They do, but for two cases. `sltiu` compares with its immediate as the `uint16_t` it is, where
`sltu` would be given the sign-extended one. And the variable shifts take the whole register for the
shift amount, not its low five bits: C++ leaves a shift by 32 or more undefined.
-/

namespace UcoreMips.Emulator

open Word

/-! ### Immediates -/

/-- The instructions with an immediate operand that have a register form. -/
inductive ImmediateOp
  | addiu | slti | sltiu | andi | ori | xori
  deriving Repr, DecidableEq

namespace ImmediateOp

def instr : ImmediateOp → Instr
  | addiu => .addiu | slti => .slti | sltiu => .sltiu | andi => .andi | ori => .ori | xori => .xori

/-- The register form. -/
def register : ImmediateOp → Instr
  | addiu => .addu | slti => .slt | sltiu => .sltu | andi => .and | ori => .or | xori => .xor

/-- What MIPS32 makes of the immediate: arithmetic and comparisons extend its sign. -/
def extend : ImmediateOp → Half → Word
  | addiu | slti | sltiu => fun imm => imm.signExtend 32
  | andi | ori | xori => fun imm => imm.setWidth 32

/-- The operation, on the values of its operands. -/
def operation : ImmediateOp → Word → Word → Word
  | addiu => fun a b => a + b
  | slti => fun a b => Cpu.flag (a.slt b)
  | sltiu => fun a b => Cpu.flag (a.ult b)
  | andi => fun a b => a &&& b
  | ori => fun a b => a ||| b
  | xori => fun a b => a ^^^ b

/-- The operand the emulator takes: that of `sltiu` is not sign-extended. -/
def taken : ImmediateOp → Half → Word
  | sltiu => fun imm => imm.setWidth 32
  | i => i.extend

theorem exe_register (i : ImmediateOp) (t : Cpu) :
    Cpu.exe i.register t = t.writeRd (i.operation t.rsVal t.rtVal) := by
  cases i <;> rfl

theorem exe_instr (i : ImmediateOp) (t : Cpu) : Cpu.exe i.instr t =
    t.writeRt (i.operation t.rsVal (i.taken (unsignedImmediate t.instruction))) := by
  cases i <;> rfl

end ImmediateOp

theorem flag_inj {a b : Bool} : Cpu.flag a = Cpu.flag b ↔ a = b := by
  cases a <;> cases b <;> decide

/-- A comparison with the immediate gives the same without and with its sign extended, unless the
value is between the two. -/
theorem ult_immediate_iff (a : Word) (imm : Half) :
    a.ult (imm.setWidth 32) = a.ult (imm.signExtend 32) ↔
      imm.toNat < 0x8000 ∨ a.toNat < imm.toNat ∨ 0xffff0000 + imm.toNat ≤ a.toNat := by
  have himm := imm.isLt
  have hzero : (imm.setWidth 32).toNat = imm.toNat := by
    rw [BitVec.toNat_setWidth, Nat.mod_eq_of_lt (by omega)]
  have hsign : (imm.signExtend 32).toNat =
      if imm.toNat < 0x8000 then imm.toNat else 0xffff0000 + imm.toNat := by
    rw [BitVec.toNat_signExtend, hzero, BitVec.msb_eq_decide]
    by_cases hlow : imm.toNat < 0x8000
    · rw [if_pos hlow, if_neg (by simp; omega)]
      rfl
    · rw [if_neg hlow, if_pos (by simp; omega)]
      omega
  rw [BitVec.ult, BitVec.ult, hzero, hsign, decide_eq_decide]
  split <;> omega

namespace Cpu

/-- **Immediate instructions agree with register instructions.** One machine executes an
instruction with an immediate, another that agrees with it the register form, with the same
destination and first operand, and the immediate, extended, in the register of the second. After the
cycle the machines agree; only with `sltiu` they do just if its result is discarded, or the
immediate is not negative, or the first operand is not between the immediate and its extension. -/
theorem immediate_agrees_iff (i : ImmediateOp) {s t s' t' : Cpu} {w w' : Word} (halike : s.Alike s')
    (hfetch : s.Fetches w t) (hfetch' : s'.Fetches w' t') (hw : i.instr.Encodes w)
    (hw' : i.register.Encodes w') (hrs : rs w' = rs w) (hrd : rd w' = rt w)
    (hrt : s'.reg (rt w') = i.extend (unsignedImmediate w)) :
    s.CyclesAgree t s' t' ↔ (i = .sltiu →
      rt w = regZero ∨ (unsignedImmediate w).toNat < 0x8000 ∨
        (s.reg (rs w)).toNat < (unsignedImmediate w).toNat ∨
        0xffff0000 + (unsignedImmediate w).toNat ≤ (s.reg (rs w)).toNat) := by
  have hs := hfetch.exe hw
  have hs' := hfetch'.exe hw'
  rw [i.exe_instr, writeRt, hfetch.latched, hfetch.rsVal] at hs
  rw [i.exe_register, writeRd, hfetch'.latched, hfetch'.rsVal, hfetch'.rtVal, hrs, hrd, hrt,
    ← halike.reg] at hs'
  rw [cyclesAgree_iff (halike.fetches hfetch hfetch') hs hs']
  cases i with
  | sltiu =>
    simp only [ImmediateOp.operation, ImmediateOp.taken, ImmediateOp.extend, flag_inj,
      ult_immediate_iff, true_imp_iff]
  | addiu | slti | andi | ori | xori =>
    simp [ImmediateOp.taken]

/-- The machine with `a` in `$2` and `b` in `$3`, at the start of a ROM with one word. -/
def atWord (w a b : Word) : Cpu :=
  { powerOn [w.extractLsb' 0 8, w.extractLsb' 8 8, w.extractLsb' 16 8, w.extractLsb' 24 8] with
    registers := fun r => if r = 2 then a else if r = 3 then b else 0 }

theorem atWord_alike (w w' a b : Word) : (atWord w a b).Alike (atWord w' a b) :=
  ⟨fun _ _ => rfl, rfl, rfl, rfl, rfl⟩

/-- `addiu $4, $2, -1` against `addu $4, $2, $3`. -/
theorem immediate_agrees_addiu :
    (atWord 0x2444ffff 7 0xffffffff).CyclesAgree (atWord 0x2444ffff 7 0xffffffff).startCycle.fetch.1
      (atWord 0x00432021 7 0xffffffff) (atWord 0x00432021 7 0xffffffff).startCycle.fetch.1 :=
  have hfetch : (atWord 0x2444ffff 7 0xffffffff).Fetches 0x2444ffff _ := ⟨rfl, rfl⟩
  have hfetch' : (atWord 0x00432021 7 0xffffffff).Fetches 0x00432021 _ := ⟨rfl, rfl⟩
  (immediate_agrees_iff .addiu (atWord_alike _ _ _ _) hfetch hfetch'
    (show mainOpcode _ = _ by decide) ⟨by decide, by decide⟩ (by decide) (by decide)
    (by decide)).mpr (by decide)

/-- `sltiu $4, $2, -1` with 65535 in `$2` gives 0, `sltu $4, $2, $3` with -1 in `$3` gives 1. -/
theorem sltiu_is_not_sign_extended :
    ¬(atWord 0x2c44ffff 0xffff 0xffffffff).CyclesAgree
      (atWord 0x2c44ffff 0xffff 0xffffffff).startCycle.fetch.1
      (atWord 0x0043202b 0xffff 0xffffffff)
      (atWord 0x0043202b 0xffff 0xffffffff).startCycle.fetch.1 := by
  rintro ⟨u, u', hu, hu', hagree, -⟩
  have hr := hagree.registers 4 (by decide)
  obtain rfl := Except.ok.inj hu
  obtain rfl := Except.ok.inj hu'
  exact absurd hr (by decide)

end Cpu

/-! ### Shift amounts -/

/-- The shifts that have a variable form. -/
inductive ShiftOp
  | sll | srl | sra
  deriving Repr, DecidableEq

namespace ShiftOp

def instr : ShiftOp → Instr
  | sll => .sll | srl => .srl | sra => .sra

/-- The form that takes its shift amount from a register. -/
def variableForm : ShiftOp → Instr
  | sll => .sllv | srl => .srlv | sra => .srav

def operation : ShiftOp → Word → Nat → Word
  | sll => fun v k => v <<< k
  | srl => fun v k => v >>> k
  | sra => fun v k => v.sshiftRight k

theorem exe_instr (k : ShiftOp) (t : Cpu) : Cpu.exe k.instr t =
    t.writeRd (k.operation t.rtVal (shift t.instruction).toNat) := by
  cases k <;> rfl

theorem exe_variableForm (k : ShiftOp) (t : Cpu) :
    Cpu.exe k.variableForm t = t.shiftByReg k.operation := by
  cases k <;> rfl

end ShiftOp

namespace Cpu

/-- **Variable shifts agree with immediate shifts.** One machine executes a variable shift, another
that agrees with it the shift by the low five bits of the register, with the same operand and
destination. That machine's shift is by less than 32; the cycle of the first is defined, and ends in
machines that agree, just if its register holds less than 32. -/
theorem variable_shift_agrees_iff (k : ShiftOp) {s t s' t' : Cpu} {w w' : Word}
    (halike : s.Alike s') (hfetch : s.Fetches w t) (hfetch' : s'.Fetches w' t')
    (hw : k.variableForm.Encodes w) (hw' : k.instr.Encodes w') (hrt : rt w' = rt w)
    (hrd : rd w' = rd w) (hshift : (shift w').toNat = (s.reg (rs w)).toNat % 32) :
    (s.CyclesAgree t s' t' ↔ (s.reg (rs w)).toNat < 32) ∧
      (s.cycle = .error .shiftCount ↔ 32 ≤ (s.reg (rs w)).toNat) ∧
      (shift w').toNat < 32 ∧ ∃ u', s'.cycle = .ok u' := by
  have hs := hfetch.exe hw
  have hs' := hfetch'.exe hw'
  rw [k.exe_variableForm, shiftByReg, hfetch.rsVal, hfetch.rtVal, writeRd, hfetch.latched] at hs
  rw [k.exe_instr, writeRd, hfetch'.latched, hfetch'.rtVal, hrt, hrd, ← halike.reg, hshift] at hs'
  have hcycle' := s'.cycle_eq
  rw [hs'] at hcycle'
  refine ⟨?_, ?_, (shift w').isLt, _, hcycle'⟩
  · by_cases hlt : (s.reg (rs w)).toNat < 32
    · rw [if_pos hlt] at hs
      rw [Nat.mod_eq_of_lt hlt] at hs'
      exact iff_of_true
        ((cyclesAgree_iff (halike.fetches hfetch hfetch') hs hs').mpr (.inr rfl)) hlt
    · rw [if_neg hlt] at hs
      refine iff_of_false ?_ hlt
      rintro ⟨u, -, hu, -⟩
      rw [cycle_eq, hs] at hu
      cases hu
  · rw [cycle_eq, hs]
    split
    · next hlt => exact iff_of_false (by rintro ⟨⟩) (by omega)
    · next hlt => exact iff_of_true rfl (by omega)

/-- `sllv $4, $3, $2` against `sll $4, $3, 7`, with 7 in `$2`. -/
theorem variable_shift_agrees_sllv :
    (atWord 0x00432004 7 1).CyclesAgree (atWord 0x00432004 7 1).startCycle.fetch.1
      (atWord 0x000321c0 7 1) (atWord 0x000321c0 7 1).startCycle.fetch.1 :=
  have hfetch : (atWord 0x00432004 7 1).Fetches 0x00432004 _ := ⟨rfl, rfl⟩
  have hfetch' : (atWord 0x000321c0 7 1).Fetches 0x000321c0 _ := ⟨rfl, rfl⟩
  (variable_shift_agrees_iff .sll (atWord_alike _ _ _ _) hfetch hfetch' ⟨by decide, by decide⟩
    ⟨by decide, by decide⟩ (by decide) (by decide) (by decide)).1.mpr (by decide)

/-- `sllv $4, $3, $2` with 33 in `$2` shifts a `uint32_t` by 33. -/
theorem sllv_shifts_by_whole_register :
    (atWord 0x00432004 33 1).cycle = .error .shiftCount ∧
      ¬(atWord 0x00432004 33 1).CyclesAgree (atWord 0x00432004 33 1).startCycle.fetch.1
        (atWord 0x00032040 33 1) (atWord 0x00032040 33 1).startCycle.fetch.1 := by
  refine ⟨rfl, ?_⟩
  rintro ⟨u, -, hu, -⟩
  cases (show Except.error Ub.shiftCount = Except.ok u from hu)

end Cpu

end UcoreMips.Emulator
