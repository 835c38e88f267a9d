import UcoreMips.Lib.BitField

/-!
# UcoreMips.Emulator.Cp0

The **system control coprocessor** of the emulator (`src/cp0.h`): thirty-two
registers, of which the hardware itself reads and writes the dozen that have an
alias, and the helpers that update single fields of `Status` and `Cause`.

A register number is a five-bit vector, so that an index outside
`registers_[32]` cannot be written down; every number the emulator uses is
either one of the aliases or a five-bit field of an instruction word.
-/

namespace UcoreMips.Emulator

open UcoreMips.Lib

/-- `uint32_t`. -/
abbrev Word := BitVec 32

/-- `uint16_t`. -/
abbrev Half := BitVec 16

/-- `uint8_t`. -/
abbrev Byte := BitVec 8

/-- The number of a general-purpose or CP0 register. -/
abbrev RegNo := BitVec 5

/-- The exceptions the emulator raises, and `int` for interrupts. -/
inductive ExcCode
  | int
  | mod
  | tlbl
  | tlbs
  | adel
  | ades
  | syscall
  | ri
  deriving Repr, DecidableEq

/-- The value of the `ExcCode` field of `Cause`. -/
def ExcCode.code : ExcCode → Word
  | .int => 0
  | .mod => 1
  | .tlbl => 2
  | .tlbs => 3
  | .adel => 4
  | .ades => 5
  | .syscall => 8
  | .ri => 10

/-- `struct CP0`. -/
structure Cp0 where
  registers : RegNo → Word

namespace Cp0

/-! ### Register aliases -/

def index : RegNo := 0
def entryLo0 : RegNo := 2
def entryLo1 : RegNo := 3
def context : RegNo := 4
def badVAddr : RegNo := 8
def count : RegNo := 9
def entryHi : RegNo := 10
def compare : RegNo := 11
def sr : RegNo := 12
def cause : RegNo := 13
def epc : RegNo := 14
def ebase : RegNo := 15

/-- The bit of `IP7-0` (and of `IM7-0`) that belongs to the clock. -/
def ip7 : Word := 128

/-- `registers_[r] = v`. -/
def set (c : Cp0) (r : RegNo) (v : Word) : Cp0 :=
  { c with registers := Function.update c.registers r v }

@[simp] theorem set_registers_self (c : Cp0) (r : RegNo) (v : Word) :
    (c.set r v).registers r = v := by
  simp [set]

theorem set_registers_of_ne (c : Cp0) {r r' : RegNo} (v : Word) (h : r' ≠ r) :
    (c.set r v).registers r' = c.registers r' := by
  simp [set, h]

theorem set_registers (c : Cp0) (r r' : RegNo) (v : Word) :
    (c.set r v).registers r' = if r' = r then v else c.registers r' := by
  simp [set, Function.update_apply]

@[ext] theorem ext {c d : Cp0} (h : ∀ r, c.registers r = d.registers r) : c = d := by
  cases c
  cases d
  simp only [mk.injEq]
  exact funext h

/-- `CP0::set_exception_code`: replace bits 6..2 of `Cause`. -/
def setExceptionCode (c : Cp0) (exc : ExcCode) : Cp0 :=
  let c := c.set cause (c.registers cause &&& 0xffffff83#32)
  c.set cause (c.registers cause ||| exc.code <<< 2)

/-- `CP0::set_interrupt_code`: set the pending bits of `Cause`. -/
def setInterruptCode (c : Cp0) (interruptCode : Word) : Cp0 :=
  c.set cause (c.registers cause ||| interruptCode <<< 8)

/-- `CP0::interrupt_enabled()`: `IE` set, `EXL` and `ERL` clear. -/
def interruptEnabled (c : Cp0) : Bool :=
  (c.registers sr &&& 0b111#32) == 0b001#32

/-- `CP0::interrupt_enabled(uint32_t)`: some interrupt of the mask is enabled. -/
def interruptEnabledMask (c : Cp0) (interruptMask : Word) : Bool :=
  (c.registers sr &&& interruptMask <<< 8) != 0#32

/-- `CP0::set_Status_EXL`. -/
def setStatusEXL (c : Cp0) : Cp0 := c.set sr (c.registers sr ||| 0x02#32)

/-- `CP0::unset_Status_EXL`. -/
def unsetStatusEXL (c : Cp0) : Cp0 := c.set sr (c.registers sr &&& 0xfffffffd#32)

/-- `CP0::Status_EXL`. -/
def statusEXL (c : Cp0) : Bool := (c.registers sr &&& 0x02#32) != 0#32

/-! ### What the helpers leave alone -/

theorem setExceptionCode_registers (c : Cp0) (exc : ExcCode) (r : RegNo) :
    (c.setExceptionCode exc).registers r =
      if r = cause then (c.registers cause &&& 0xffffff83#32) ||| exc.code <<< 2
      else c.registers r := by
  simp only [setExceptionCode, set_registers]
  split <;> simp_all

theorem setInterruptCode_registers (c : Cp0) (k : Word) (r : RegNo) :
    (c.setInterruptCode k).registers r =
      if r = cause then c.registers cause ||| k <<< 8 else c.registers r := by
  simp only [setInterruptCode, set_registers]

theorem setStatusEXL_registers (c : Cp0) (r : RegNo) :
    c.setStatusEXL.registers r =
      if r = sr then c.registers sr ||| 0x02#32 else c.registers r := by
  simp only [setStatusEXL, set_registers]

theorem unsetStatusEXL_registers (c : Cp0) (r : RegNo) :
    c.unsetStatusEXL.registers r =
      if r = sr then c.registers sr &&& 0xfffffffd#32 else c.registers r := by
  simp only [unsetStatusEXL, set_registers]

/-! ### The fields of `Cause` and `Status` -/

/-- `EXL` is bit 1 of `Status`. -/
theorem statusEXL_eq (c : Cp0) : c.statusEXL = (c.registers sr).getLsbD 1 := by
  have h2 : (0x02#32 : Word) = BitVec.twoPow 32 1 := by decide
  rw [statusEXL, h2, BitVec.and_twoPow]
  cases (c.registers sr).getLsbD 1 <;> decide

/-- Setting `EXL` sets bit 1 of `Status` and no other. -/
theorem setStatusEXL_sr_outside (c : Cp0) :
    AgreeOutside 1 1 (c.setStatusEXL.registers sr) (c.registers sr) := by
  intro i hi
  have hbit : ∀ i < 32, i < 1 ∨ 1 + 1 ≤ i → (0x02#32).getLsbD i = false := by decide
  rw [setStatusEXL_registers, if_pos rfl, BitVec.getLsbD_or]
  by_cases h32 : i < 32
  · rw [hbit i h32 hi, Bool.or_false]
  · rw [BitVec.getLsbD_of_ge (0x02#32) i (by omega), Bool.or_false]

theorem setStatusEXL_exl (c : Cp0) : (c.setStatusEXL.registers sr).getLsbD 1 = true := by
  rw [setStatusEXL_registers, if_pos rfl, BitVec.getLsbD_or]
  have : (0x02#32).getLsbD 1 = true := by decide
  rw [this, Bool.or_true]

/-- Setting the exception code writes bits 6..2 of `Cause` and no others. -/
theorem setExceptionCode_cause_outside (c : Cp0) (exc : ExcCode) :
    AgreeOutside 2 5 ((c.setExceptionCode exc).registers cause) (c.registers cause) := by
  refine agreeOutside_mask_or (by decide) ?_
  cases exc <;> decide

theorem setExceptionCode_cause_field (c : Cp0) (exc : ExcCode) :
    ((c.setExceptionCode exc).registers cause).extractLsb' 2 5 = exc.code.setWidth 5 := by
  rw [setExceptionCode_registers, if_pos rfl, extract_mask_or (by decide)]
  cases exc <;> decide

end Cp0

end UcoreMips.Emulator
