import UcoreMips.Emulator.Mmu

/-!
# UcoreMips.Emulator.Cpu

The **processor** (`src/cpu.h`, `src/cpu.cc`, `src/cpu_instructions.cc`): its
state, the forty-eight instructions, the decoder and one cycle of `CPU::run`.

* An instruction takes the state and returns it with the `exception` flag. Three
  of them can leave defined C++ behind — a shift by 32 or more, a TLB index
  outside the arrays, a signed overflow of the 64-bit product — and then return
  an `Ub` instead of a state.
* `dispatch` is the nested `switch` of `instruction_decode`; it names the
  instruction a word is sent to, or none where the decoder raises `RI`.
* `next` is cut at the point where the source checks the clock:
  `fetchExecute` is everything before it, `clockInterrupt` the rest.
-/

namespace UcoreMips.Emulator

/-- The C++ undefined behaviours an instruction can run into. -/
inductive Ub
  | shiftCount
  | tlbIndex
  | signedOverflow
  deriving Repr, DecidableEq

/-- The supported instructions, in the order of `cpu_instructions.cc`. -/
inductive Instr
  | sll | srl | sra | sllv | srlv | srav
  | jr | jalr
  | syscall
  | mfhi | mthi | mflo | mtlo | mult
  | addu | subu | and | or | xor | nor | slt | sltu
  | bltz | bgez | j | jal | beq | bne | blez | bgtz
  | addiu | slti | sltiu | andi | ori | xori | lui
  | mfc0 | mtc0
  | tlbwi
  | eret
  | lb | lw | lbu | lhu | sb | sw
  | cache
  deriving Repr, DecidableEq

/-! ### Fields of an instruction word -/

namespace Word

def mainOpcode (w : Word) : BitVec 6 := w.extractLsb' 26 6
def subOpcode (w : Word) : BitVec 6 := w.extractLsb' 0 6
def rs (w : Word) : RegNo := w.extractLsb' 21 5
def rt (w : Word) : RegNo := w.extractLsb' 16 5
def rd (w : Word) : RegNo := w.extractLsb' 11 5
def shift (w : Word) : BitVec 5 := w.extractLsb' 6 5
def branchOffset (w : Word) : Half := w.extractLsb' 0 16
def jumpTarget (w : Word) : BitVec 26 := w.extractLsb' 0 26
def signedImmediate (w : Word) : Half := w.extractLsb' 0 16
def unsignedImmediate (w : Word) : Half := w.extractLsb' 0 16

end Word

/-- `CPU::instruction_decode` up to the call: the nested `switch` on the fields. -/
def dispatch (w : Word) : Option Instr :=
  match (Word.mainOpcode w).toNat with
  | 0b000000 =>
    match (Word.subOpcode w).toNat with
    | 0b000000 => some .sll
    | 0b000010 => some .srl
    | 0b000011 => some .sra
    | 0b000100 => some .sllv
    | 0b000110 => some .srlv
    | 0b000111 => some .srav
    | 0b001000 => some .jr
    | 0b001001 => some .jalr
    | 0b001100 => some .syscall
    | 0b010000 => some .mfhi
    | 0b010001 => some .mthi
    | 0b010010 => some .mflo
    | 0b010011 => some .mtlo
    | 0b011000 => some .mult
    | 0b100001 => some .addu
    | 0b100011 => some .subu
    | 0b100100 => some .and
    | 0b100101 => some .or
    | 0b100110 => some .xor
    | 0b100111 => some .nor
    | 0b101010 => some .slt
    | 0b101011 => some .sltu
    | _ => none
  | 0b000001 =>
    match (Word.rt w).toNat with
    | 0b00000 => some .bltz
    | 0b00001 => some .bgez
    | _ => none
  | 0b000010 => some .j
  | 0b000011 => some .jal
  | 0b000100 => some .beq
  | 0b000101 => some .bne
  | 0b000110 => some .blez
  | 0b000111 => some .bgtz
  | 0b001001 => some .addiu
  | 0b001010 => some .slti
  | 0b001011 => some .sltiu
  | 0b001100 => some .andi
  | 0b001101 => some .ori
  | 0b001110 => some .xori
  | 0b001111 => some .lui
  | 0b010000 =>
    match (Word.subOpcode w).toNat with
    | 0b000000 =>
      match (Word.rs w).toNat with
      | 0b00000 => some .mfc0
      | 0b00100 => some .mtc0
      | _ => none
    | 0b000010 => some .tlbwi
    | 0b011000 => some .eret
    | _ => none
  | 0b100000 => some .lb
  | 0b100011 => some .lw
  | 0b100100 => some .lbu
  | 0b100101 => some .lhu
  | 0b101000 => some .sb
  | 0b101011 => some .sw
  | 0b101111 => some .cache
  | _ => none

/-! ### State -/

/-- `class CPU`. -/
structure Cpu where
  cp0 : Cp0
  mmu : Mmu
  registers : RegNo → Word
  pc : Word
  instruction : Word
  hi : Word
  lo : Word

/-- `REG_ZERO`. -/
def regZero : RegNo := 0

/-- `REG_RA`. -/
def regRA : RegNo := 31

namespace Cpu

/-- What executing an instruction gives: the state and the `exception` flag,
unless the C++ is undefined. -/
abbrev Result := Except Ub (Cpu × Bool)

/-- `registers_[r] = v`. -/
def setReg (s : Cpu) (r : RegNo) (v : Word) : Cpu :=
  { s with registers := Function.update s.registers r v }

/-- `pc_ += 4`, and no exception. -/
def advance (s : Cpu) : Result := .ok ({ s with pc := s.pc + 4 }, false)

/-- The value of the register an instruction field names. -/
def rsVal (s : Cpu) : Word := s.registers (Word.rs s.instruction)
def rtVal (s : Cpu) : Word := s.registers (Word.rt s.instruction)

/-- `registers_[rs()] + signed_immediate()`, the address of a load or store. -/
def effectiveAddr (s : Cpu) : Word :=
  s.rsVal + (Word.signedImmediate s.instruction).signExtend 32

/-- `registers_[rd()] = v; pc_ += 4`. -/
def writeRd (s : Cpu) (v : Word) : Result := (s.setReg (Word.rd s.instruction) v).advance

/-- `registers_[rt()] = v; pc_ += 4`. -/
def writeRt (s : Cpu) (v : Word) : Result := (s.setReg (Word.rt s.instruction) v).advance

/-- A branch: `pc_ += branch_offset() * 4` if the condition holds, then `pc_ += 4`. -/
def branchIf (s : Cpu) (cond : Bool) : Result :=
  if cond then
    advance { s with pc := s.pc + (Word.branchOffset s.instruction).signExtend 32 * 4 }
  else s.advance

/-- A variable shift, undefined for counts of 32 and more. -/
def shiftByReg (s : Cpu) (f : Word → Nat → Word) : Result :=
  if s.rsVal.toNat < 32 then s.writeRd (f s.rtVal s.rsVal.toNat) else .error .shiftCount

/-- `(pc_ & 0xf0000000) | jump_target() * 4`. -/
def jumpAddr (s : Cpu) : Word :=
  (s.pc &&& 0xf0000000#32) ||| (Word.jumpTarget s.instruction).setWidth 32 * 4

/-- A load: on a fault only what the MMU did remains; otherwise `registers_[rt()] = v; pc_ += 4`. -/
def load {α : Type} (s : Cpu) (a : Access α) (f : α → Word) : Result :=
  let s := { s with cp0 := a.cp0, mmu := a.mmu }
  if a.exception then .ok (s, true) else s.writeRt (f a.val)

/-- A store: on a fault only what the MMU did remains; otherwise `pc_ += 4`. -/
def store (s : Cpu) (a : Access Unit) : Result :=
  let s := { s with cp0 := a.cp0, mmu := a.mmu }
  if a.exception then .ok (s, true) else s.advance

/-- `cond? 0x01: 0x00`. -/
def flag (cond : Bool) : Word := if cond then 0x01 else 0x00

/-! ### Instructions -/

def exeSll (s : Cpu) : Result := s.writeRd (s.rtVal <<< (Word.shift s.instruction).toNat)
def exeSrl (s : Cpu) : Result := s.writeRd (s.rtVal >>> (Word.shift s.instruction).toNat)
def exeSra (s : Cpu) : Result := s.writeRd (s.rtVal.sshiftRight (Word.shift s.instruction).toNat)
def exeSllv (s : Cpu) : Result := s.shiftByReg fun v k => v <<< k
def exeSrlv (s : Cpu) : Result := s.shiftByReg fun v k => v >>> k
def exeSrav (s : Cpu) : Result := s.shiftByReg fun v k => v.sshiftRight k

def exeJr (s : Cpu) : Result := .ok ({ s with pc := s.rsVal }, false)

def exeJalr (s : Cpu) : Result :=
  let npc := s.rsVal
  let s := s.setReg (Word.rd s.instruction) (s.pc + 4)
  .ok ({ s with pc := npc }, false)

def exeSyscall (s : Cpu) : Result :=
  .ok ({ s with cp0 := s.cp0.setExceptionCode .syscall }, true)

def exeMfhi (s : Cpu) : Result := s.writeRd s.hi
def exeMthi (s : Cpu) : Result := advance { s with hi := s.rsVal }
def exeMflo (s : Cpu) : Result := s.writeRd s.lo
def exeMtlo (s : Cpu) : Result := advance { s with lo := s.rsVal }

/-- The operands are widened from `uint32_t`, so their product may pass `INT64_MAX`. -/
def exeMult (s : Cpu) : Result :=
  if s.rsVal.toNat * s.rtVal.toNat < 2 ^ 63 then
    let a : BitVec 64 := s.rsVal.setWidth 64 * s.rtVal.setWidth 64
    advance { s with hi := (a.sshiftRight 32).setWidth 32, lo := a.setWidth 32 }
  else .error .signedOverflow

def exeAddu (s : Cpu) : Result := s.writeRd (s.rsVal + s.rtVal)
def exeSubu (s : Cpu) : Result := s.writeRd (s.rsVal - s.rtVal)
def exeAnd (s : Cpu) : Result := s.writeRd (s.rsVal &&& s.rtVal)
def exeOr (s : Cpu) : Result := s.writeRd (s.rsVal ||| s.rtVal)
def exeXor (s : Cpu) : Result := s.writeRd (s.rsVal ^^^ s.rtVal)
def exeNor (s : Cpu) : Result := s.writeRd (~~~(s.rsVal ||| s.rtVal))
def exeSlt (s : Cpu) : Result := s.writeRd (flag (s.rsVal.slt s.rtVal))
def exeSltu (s : Cpu) : Result := s.writeRd (flag (s.rsVal.ult s.rtVal))

def exeBltz (s : Cpu) : Result := s.branchIf (s.rsVal.slt 0)
def exeBgez (s : Cpu) : Result := s.branchIf (!s.rsVal.slt 0)

def exeJ (s : Cpu) : Result := .ok ({ s with pc := s.jumpAddr }, false)

def exeJal (s : Cpu) : Result :=
  let s := s.setReg regRA (s.pc + 4)
  .ok ({ s with pc := s.jumpAddr }, false)

def exeBeq (s : Cpu) : Result := s.branchIf (s.rsVal == s.rtVal)
def exeBne (s : Cpu) : Result := s.branchIf (s.rsVal != s.rtVal)
def exeBlez (s : Cpu) : Result := s.branchIf (s.rsVal.sle 0)
def exeBgtz (s : Cpu) : Result := s.branchIf (!s.rsVal.sle 0)

def exeAddiu (s : Cpu) : Result :=
  s.writeRt (s.rsVal + (Word.signedImmediate s.instruction).signExtend 32)
def exeSlti (s : Cpu) : Result :=
  s.writeRt (flag (s.rsVal.slt ((Word.signedImmediate s.instruction).signExtend 32)))
/-- The immediate is the `uint16_t` one: it is not sign-extended. -/
def exeSltiu (s : Cpu) : Result :=
  s.writeRt (flag (s.rsVal.ult ((Word.unsignedImmediate s.instruction).setWidth 32)))
def exeAndi (s : Cpu) : Result :=
  s.writeRt (s.rsVal &&& (Word.unsignedImmediate s.instruction).setWidth 32)
def exeOri (s : Cpu) : Result :=
  s.writeRt (s.rsVal ||| (Word.unsignedImmediate s.instruction).setWidth 32)
def exeXori (s : Cpu) : Result :=
  s.writeRt (s.rsVal ^^^ (Word.unsignedImmediate s.instruction).setWidth 32)
def exeLui (s : Cpu) : Result :=
  s.writeRt ((Word.unsignedImmediate s.instruction).setWidth 32 <<< 16)

def exeMfc0 (s : Cpu) : Result := s.writeRt (s.cp0.registers (Word.rd s.instruction))
def exeMtc0 (s : Cpu) : Result :=
  advance { s with cp0 := s.cp0.set (Word.rd s.instruction) s.rtVal }

/-- `Index` is used as it stands: nothing keeps it below the number of entries. -/
def exeTlbwi (s : Cpu) : Result :=
  if h : (s.cp0.registers Cp0.index).toNat < tlbEntries then
    let mmu := s.mmu.writeTlb ⟨(s.cp0.registers Cp0.index).toNat, h⟩
      (s.cp0.registers Cp0.entryHi) (s.cp0.registers Cp0.entryLo0) (s.cp0.registers Cp0.entryLo1)
    advance { s with mmu := mmu }
  else .error .tlbIndex

def exeEret (s : Cpu) : Result :=
  .ok ({ s with pc := s.cp0.registers Cp0.epc, cp0 := s.cp0.unsetStatusEXL }, false)

def exeLb (s : Cpu) : Result :=
  s.load (s.mmu.readByte s.cp0 s.effectiveAddr) fun v => v.signExtend 32
def exeLw (s : Cpu) : Result := s.load (s.mmu.readWord s.cp0 s.effectiveAddr) fun v => v
def exeLbu (s : Cpu) : Result :=
  s.load (s.mmu.readByte s.cp0 s.effectiveAddr) fun v => v.setWidth 32
def exeLhu (s : Cpu) : Result :=
  s.load (s.mmu.readHalfWord s.cp0 s.effectiveAddr) fun v => v.setWidth 32
def exeSb (s : Cpu) : Result :=
  s.store (s.mmu.writeByte s.cp0 s.effectiveAddr (s.rtVal.setWidth 8))
def exeSw (s : Cpu) : Result := s.store (s.mmu.writeWord s.cp0 s.effectiveAddr s.rtVal)

def exeCache (s : Cpu) : Result := s.advance

/-- The function each case of the decoder calls. -/
def exe : Instr → Cpu → Result
  | .sll => exeSll | .srl => exeSrl | .sra => exeSra
  | .sllv => exeSllv | .srlv => exeSrlv | .srav => exeSrav
  | .jr => exeJr | .jalr => exeJalr
  | .syscall => exeSyscall
  | .mfhi => exeMfhi | .mthi => exeMthi | .mflo => exeMflo | .mtlo => exeMtlo
  | .mult => exeMult
  | .addu => exeAddu | .subu => exeSubu | .and => exeAnd | .or => exeOr
  | .xor => exeXor | .nor => exeNor | .slt => exeSlt | .sltu => exeSltu
  | .bltz => exeBltz | .bgez => exeBgez | .j => exeJ | .jal => exeJal
  | .beq => exeBeq | .bne => exeBne | .blez => exeBlez | .bgtz => exeBgtz
  | .addiu => exeAddiu | .slti => exeSlti | .sltiu => exeSltiu
  | .andi => exeAndi | .ori => exeOri | .xori => exeXori | .lui => exeLui
  | .mfc0 => exeMfc0 | .mtc0 => exeMtc0
  | .tlbwi => exeTlbwi
  | .eret => exeEret
  | .lb => exeLb | .lw => exeLw | .lbu => exeLbu | .lhu => exeLhu
  | .sb => exeSb | .sw => exeSw
  | .cache => exeCache

/-- `CPU::instruction_decode`. -/
def instructionDecode (s : Cpu) : Result :=
  match dispatch s.instruction with
  | some i => exe i s
  | none => .ok ({ s with cp0 := s.cp0.setExceptionCode .ri }, true)

/-! ### The cycle -/

/-- The first statements of `CPU::next`: clear register zero and count the cycle. -/
def startCycle (s : Cpu) : Cpu :=
  { s with
    registers := Function.update s.registers regZero 0x00,
    cp0 := s.cp0.set Cp0.count (s.cp0.registers Cp0.count + 1) }

/-- Instruction fetch, into the latch `instruction_`. -/
def fetch (s : Cpu) : Cpu × Bool :=
  let a := s.mmu.readWord s.cp0 s.pc
  ({ s with cp0 := a.cp0, mmu := a.mmu, instruction := a.val }, a.exception)

/-- `CPU::next` before the check of the clock. -/
def fetchExecute (s : Cpu) : Result :=
  let f := s.startCycle.fetch
  if f.2 then .ok (f.1, true) else f.1.instructionDecode

/-- `CPU::next` from the check of the clock on. -/
def clockInterrupt (s : Cpu) : Cpu × Bool :=
  if s.cp0.registers Cp0.compare ≤ s.cp0.registers Cp0.count then
    let s := { s with cp0 := s.cp0.set Cp0.count 0x00 }
    if s.cp0.interruptEnabled && s.cp0.interruptEnabledMask Cp0.ip7 then
      ({ s with cp0 := (s.cp0.setInterruptCode Cp0.ip7).setExceptionCode .int }, true)
    else (s, false)
  else (s, false)

/-- `CPU::next`. -/
def next (s : Cpu) : Result := do
  let (s, exception) ← s.fetchExecute
  if exception then return (s, true)
  return s.clockInterrupt

/-- What `CPU::run` does when `next` set the flag. -/
def enterException (s : Cpu) : Cpu :=
  let cp0 := if s.cp0.statusEXL then s.cp0 else s.cp0.set Cp0.epc s.pc
  { s with pc := cp0.registers Cp0.ebase, cp0 := cp0.setStatusEXL }

/-- One iteration of the loop of `CPU::run`. -/
def cycle (s : Cpu) : Except Ub Cpu := do
  let (s, exception) ← s.next
  return if exception then s.enterException else s

/-! ### Power-on -/

/-- `PC_INITIAL`. -/
def pcInitial : Word := 0xbfc00000

/-- The machine after the constructors, over a ROM image and an empty disk. The
members C++ leaves uninitialised (registers, latch, TLB) are taken to be zero. -/
def powerOn (rom : List Byte) : Cpu where
  cp0 := { registers := fun r => if r = Cp0.ebase then 0x80000180 else 0 }
  mmu :=
    { ram := fun _ => 0
      rom := { image := rom, failbit := false, garbage := fun _ => 0, misses := 0 }
      flash := { image := [], failbit := false, garbage := fun _ => 0, misses := 0 }
      tlbKey := fun _ => 0
      tlbData := fun _ _ => 0
      cout := [] }
  registers := fun _ => 0
  pc := pcInitial
  instruction := 0
  hi := 0
  lo := 0

end Cpu

end UcoreMips.Emulator
