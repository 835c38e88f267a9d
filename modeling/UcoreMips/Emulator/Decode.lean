import UcoreMips.Emulator.Cpu

/-!
# UcoreMips.Emulator.Decode

**Which words are which instruction.** `Instr.encoding` is the instruction set as
MIPS32 defines it, with the fields that select an instruction: the opcode, the
function field, the `rt` selector of `REGIMM`, and in `COP0` the `rs` field, whose
top bit `CO` tells an operation from a move, with the function field or `sel`.

The decoder follows it everywhere but in `COP0`. There it switches on the low six
bits first, and looks at `rs` only where they are zero, so a move with `sel` 2, and
any word with low bits 2 or 24, is run as `tlbwi` or `eret` whatever its `CO` bit.
-/

namespace UcoreMips.Emulator

open UcoreMips.Lib BitVec Word

/-- How an instruction is selected. -/
inductive Encoding
  /-- `SPECIAL`: opcode 0, by the function field. -/
  | special (funct : BitVec 6)
  /-- `REGIMM`: opcode 1, by the `rt` field. -/
  | regimm (rt : RegNo)
  /-- By the opcode alone. -/
  | opcode (op : BitVec 6)
  /-- A move of `COP0`: opcode 16, by the `rs` field, with `sel` 0. -/
  | cop0Move (rs : RegNo)
  /-- An operation of `COP0`: opcode 16 and `CO` set, by the function field. -/
  | cop0Op (funct : BitVec 6)
  deriving Repr, DecidableEq

/-- Bit 25, `CO`. -/
def Word.co (w : Word) : Bool := w.getLsbD 25

/-- The word has the selecting fields of the encoding. -/
def Encoding.Matches (w : Word) : Encoding → Prop
  | special funct => mainOpcode w = 0 ∧ subOpcode w = funct
  | regimm rt => Word.mainOpcode w = 1 ∧ Word.rt w = rt
  | opcode op => mainOpcode w = op
  | cop0Move rs => Word.mainOpcode w = 16 ∧ Word.rs w = rs ∧ Word.subOpcode w = 0
  | cop0Op funct => mainOpcode w = 16 ∧ co w = true ∧ subOpcode w = funct

namespace Instr

/-- The encodings of MIPS32. -/
def encoding : Instr → Encoding
  | sll => .special 0b000000 | srl => .special 0b000010 | sra => .special 0b000011
  | sllv => .special 0b000100 | srlv => .special 0b000110 | srav => .special 0b000111
  | jr => .special 0b001000 | jalr => .special 0b001001
  | syscall => .special 0b001100
  | mfhi => .special 0b010000 | mthi => .special 0b010001
  | mflo => .special 0b010010 | mtlo => .special 0b010011
  | mult => .special 0b011000
  | addu => .special 0b100001 | subu => .special 0b100011
  | and => .special 0b100100 | or => .special 0b100101
  | xor => .special 0b100110 | nor => .special 0b100111
  | slt => .special 0b101010 | sltu => .special 0b101011
  | bltz => .regimm 0b00000 | bgez => .regimm 0b00001
  | j => .opcode 0b000010 | jal => .opcode 0b000011
  | beq => .opcode 0b000100 | bne => .opcode 0b000101
  | blez => .opcode 0b000110 | bgtz => .opcode 0b000111
  | addiu => .opcode 0b001001 | slti => .opcode 0b001010 | sltiu => .opcode 0b001011
  | andi => .opcode 0b001100 | ori => .opcode 0b001101 | xori => .opcode 0b001110
  | lui => .opcode 0b001111
  | mfc0 => .cop0Move 0b00000 | mtc0 => .cop0Move 0b00100
  | tlbwi => .cop0Op 0b000010
  | eret => .cop0Op 0b011000
  | lb => .opcode 0b100000 | lw => .opcode 0b100011
  | lbu => .opcode 0b100100 | lhu => .opcode 0b100101
  | sb => .opcode 0b101000 | sw => .opcode 0b101011
  | cache => .opcode 0b101111

/-- The word is an encoding of the instruction. -/
def Encodes (i : Instr) (w : Word) : Prop := i.encoding.Matches w

end Instr

/-- The word is one the decoder takes for an operation of `COP0` though its `CO` bit
is clear. -/
def MisreadCop0 (w : Word) : Prop :=
  mainOpcode w = 16 ∧ co w = false ∧ (subOpcode w = 2 ∨ subOpcode w = 24)

/-! ### The decoder against the table -/

variable {w : Word}

/-- Whatever encodes an instruction is dispatched to it. -/
theorem dispatch_of_encodes {i : Instr} (h : i.Encodes w) : dispatch w = some i := by
  cases i <;>
    simp only [Instr.Encodes, Instr.encoding, Encoding.Matches] at h <;>
    simp [dispatch, h]

theorem co_of_not_misread (hop : mainOpcode w = 16) (hsub : subOpcode w = 2 ∨ subOpcode w = 24)
    (hco : ¬MisreadCop0 w) :
    co w = true := by
  cases h : co w with
  | true => rfl
  | false => exact absurd ⟨hop, h, hsub⟩ hco

/-- Whatever is dispatched encodes the instruction, unless it is misread. -/
theorem encodes_of_dispatch {i : Instr} (h : dispatch w = some i) (hco : ¬MisreadCop0 w) : i.Encodes w := by
  unfold dispatch at h
  split at h
  -- `SPECIAL` and `REGIMM`, which switch once more
  case h_1 hop =>
    split at h
    all_goals
      rename_i hsub
      cases h <;> exact ⟨eq_of_toNat_eq hop, eq_of_toNat_eq hsub⟩
  case h_2 hop =>
    split at h
    all_goals
      rename_i hrt
      cases h <;> exact ⟨eq_of_toNat_eq hop, eq_of_toNat_eq hrt⟩
  -- `COP0`: here the low six bits come before `rs`
  case h_16 hop =>
    have hop' : Word.mainOpcode w = 16 := eq_of_toNat_eq hop
    split at h
    case h_1 hsub =>
      split at h
      all_goals
        rename_i hrs
        cases h <;> exact ⟨hop', eq_of_toNat_eq hrs, eq_of_toNat_eq hsub⟩
    case h_2 hsub =>
      cases h
      have hsub' : Word.subOpcode w = 2 := eq_of_toNat_eq hsub
      exact ⟨hop', co_of_not_misread hop' (.inl hsub') hco, hsub'⟩
    case h_3 hsub =>
      cases h
      have hsub' : Word.subOpcode w = 24 := eq_of_toNat_eq hsub
      exact ⟨hop', co_of_not_misread hop' (.inr hsub') hco, hsub'⟩
    case h_4 => cases h
  all_goals
    rename_i hop
    cases h <;> exact eq_of_toNat_eq hop

/-- A misread word encodes no instruction. -/
theorem not_encodes_of_misread (h : MisreadCop0 w) (i : Instr) : ¬i.Encodes w := by
  obtain ⟨hop, hco, hsub⟩ := h
  cases i <;>
    simp only [Instr.Encodes, Instr.encoding, Encoding.Matches, hop, hco] <;>
    rcases hsub with hsub | hsub <;> simp [hsub]

/-- What a misread word is run as. -/
theorem dispatch_of_misread (h : MisreadCop0 w) :
    dispatch w = some .tlbwi ∨ dispatch w = some .eret := by
  obtain ⟨hop, -, hsub⟩ := h
  rcases hsub with hsub | hsub <;> simp [dispatch, hop, hsub]

/-! ### Exact decoding -/

/-- The word is decoded exactly: it goes to the instruction it encodes; a move of
`COP0` never becomes an operation; and if it encodes none, every processor with it in
the latch raises `RI`, with no change but to the code in `Cause`. -/
structure ExactDecoding (w : Word) : Prop where
  dispatch_iff : ∀ i, dispatch w = some i ↔ i.Encodes w
  run : ∀ (s : Cpu) (i : Instr), s.instruction = w → i.Encodes w →
    s.instructionDecode = s.exe i
  move : mainOpcode w = 16 → rs w = 0 ∨ rs w = 4 →
    dispatch w ≠ some .tlbwi ∧ dispatch w ≠ some .eret
  reserved : ∀ s : Cpu, s.instruction = w → (∀ i : Instr, ¬i.Encodes w) →
    ∃ c, s.instructionDecode = .ok ({ s with cp0 := c }, true) ∧
      (∀ r ≠ Cp0.cause, c.registers r = s.cp0.registers r) ∧
      AgreeOutside 2 5 (c.registers Cp0.cause) (s.cp0.registers Cp0.cause) ∧
      (c.registers Cp0.cause).extractLsb' 2 5 = ExcCode.ri.code.setWidth 5

theorem dispatch_eq_none (h : ∀ i : Instr, ¬i.Encodes w) (hco : ¬MisreadCop0 w) :
    dispatch w = none := by
  cases hd : dispatch w with
  | none => rfl
  | some i => exact absurd (encodes_of_dispatch hd hco) (h i)

/-- With `rs` 0 or 4 the `CO` bit is clear. -/
theorem co_of_move (h : rs w = 0 ∨ rs w = 4) : co w = false := by
  have hbit : co w = (rs w).getLsbD 4 := by simp [co, rs]
  rcases h with h | h <;> simp [hbit, h]

theorem exactDecoding_of_not_misread (hco : ¬MisreadCop0 w) : ExactDecoding w where
  dispatch_iff _ := ⟨fun h => encodes_of_dispatch h hco, dispatch_of_encodes⟩
  run := by
    rintro s i rfl henc
    rw [Cpu.instructionDecode, dispatch_of_encodes henc]
  move := by
    intro _ hrs
    have hclear := co_of_move hrs
    constructor <;> intro h
    · have henc : Instr.tlbwi.Encodes w := encodes_of_dispatch h hco
      exact absurd (henc.2.1.symm.trans hclear) (by decide)
    · have henc : Instr.eret.Encodes w := encodes_of_dispatch h hco
      exact absurd (henc.2.1.symm.trans hclear) (by decide)
  reserved := by
    rintro s rfl henc
    refine ⟨s.cp0.setExceptionCode .ri, ?_, ?_, s.cp0.setExceptionCode_cause_outside .ri,
      s.cp0.setExceptionCode_cause_field .ri⟩
    · rw [Cpu.instructionDecode, dispatch_eq_none henc hco]
    · intro r hr
      rw [Cp0.setExceptionCode_registers, if_neg hr]

/-- **Exact decoding.** The decoder is exact on a word unless the word is a `COP0` word
with `CO` clear and low bits 2 or 24. -/
theorem exactDecoding_iff (w : Word) : ExactDecoding w ↔ ¬MisreadCop0 w := by
  refine ⟨fun h hmis => ?_, exactDecoding_of_not_misread⟩
  rcases dispatch_of_misread hmis with hd | hd
  · exact not_encodes_of_misread hmis _ ((h.dispatch_iff _).mp hd)
  · exact not_encodes_of_misread hmis _ ((h.dispatch_iff _).mp hd)

/-- `mfc0 $2, $12, 2` is run as `tlbwi`. -/
theorem mfc0_sel2_runs_tlbwi :
    mainOpcode 0x40026002#32 = 16 ∧ rs 0x40026002#32 = 0 ∧
      dispatch 0x40026002#32 = some .tlbwi ∧ ¬Instr.tlbwi.Encodes 0x40026002#32 ∧
      ¬ExactDecoding 0x40026002#32 := by
  refine ⟨by decide, by decide, rfl, fun h => absurd h.2.1 (by decide), fun h => ?_⟩
  exact (h.move (by decide) (.inl (by decide))).1 rfl

end UcoreMips.Emulator
