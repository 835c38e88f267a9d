import UcoreMips.Emulator.Cpu

/-!
# UcoreMips.Emulator.Encode

**Instruction words from their fields**, in the three formats of MIPS32, and the fields that the
decoder cuts out of them.
-/

namespace UcoreMips.Emulator.Word

/-- Register format: opcode, `rs`, `rt`, `rd`, shift amount and function. -/
def rType (op : BitVec 6) (rs rt rd : RegNo) (shift : BitVec 5) (funct : BitVec 6) : Word :=
  op ++ (rs ++ (rt ++ (rd ++ (shift ++ funct))))

section Fields

variable (op : BitVec 6) (r1 r2 r3 : RegNo) (sh : BitVec 5) (fn : BitVec 6)

@[simp] theorem mainOpcode_rType : mainOpcode (rType op r1 r2 r3 sh fn) = op := by
  ext i hi
  simp [mainOpcode, rType]
  grind

@[simp] theorem rs_rType : rs (rType op r1 r2 r3 sh fn) = r1 := by
  ext i hi
  simp [rs, rType]
  grind

@[simp] theorem rt_rType : rt (rType op r1 r2 r3 sh fn) = r2 := by
  ext i hi
  simp [rt, rType]
  grind

@[simp] theorem rd_rType : rd (rType op r1 r2 r3 sh fn) = r3 := by
  ext i hi
  simp [rd, rType]
  grind

@[simp] theorem shift_rType : shift (rType op r1 r2 r3 sh fn) = sh := by
  ext i hi
  simp [shift, rType]
  grind

@[simp] theorem subOpcode_rType : subOpcode (rType op r1 r2 r3 sh fn) = fn := by
  ext i hi
  simp [subOpcode, rType]
  grind

end Fields

/-- A word is put together from its fields. -/
theorem rType_fields (w : Word) :
    rType (mainOpcode w) (rs w) (rt w) (rd w) (shift w) (subOpcode w) = w := by
  apply BitVec.eq_of_getLsbD_eq
  intro i hi
  simp [rType, mainOpcode, rs, rt, rd, shift, subOpcode]
  grind

end UcoreMips.Emulator.Word
