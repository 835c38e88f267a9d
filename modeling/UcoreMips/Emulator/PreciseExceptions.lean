import UcoreMips.Emulator.Cpu

/-!
# UcoreMips.Emulator.PreciseExceptions

**Exceptions are precise.** A cycle whose instruction cannot complete leaves the
machine as it found it, but for the few registers that report the exception: the
instruction can be restarted once its cause has been removed.

`Fault` is what can go wrong in a cycle, `Cpu.fault` says which fault the cycle of
a state runs into, read off the state before it, and `PreciseEffect` is what such
a cycle may do. The proof is one lemma per access function of the MMU
(`Mmu.accessFault`), one case per instruction (`exe_fault`) and the bookkeeping
of `CPU::run`.
-/

namespace UcoreMips.Emulator

open UcoreMips.Lib Cp0

/-- A synchronous exception, with the faulting address if it has one. -/
inductive Fault
  /-- Reserved instruction or system call. -/
  | plain (exc : ExcCode)
  /-- A misaligned fetch, load or store. -/
  | address (exc : ExcCode) (va : Word)
  /-- A TLB refill, invalid or modified exception. -/
  | tlb (exc : ExcCode) (va : Word)
  deriving Repr, DecidableEq

namespace Fault

/-- The exception code. -/
def exc : Fault → ExcCode
  | plain e | address e _ | tlb e _ => e

/-- What raising the fault does to CP0. -/
def record : Fault → Cp0 → Cp0
  | plain e, c => c.setExceptionCode e
  | address e va, c => c.addressError e va
  | tlb e va, c => c.tlbException e va

end Fault

/-! ### Faults of the MMU -/

/-- The fault of an access to `va`: `align` masks the address bits that must be zero. -/
def Mmu.accessFault (m : Mmu) (va align : Word) (write : Bool) : Option Fault :=
  if va &&& align ≠ 0 then some (.address (if write then .ades else .adel) va)
  else (m.translationFault va write).map (Fault.tlb · va)

/-- An access did what the fault it ran into prescribes: with a fault the MMU is
untouched and CP0 records it, without one CP0 is untouched. -/
structure Access.Obeys {α : Type} (a : Access α) (m : Mmu) (c : Cp0) (f : Option Fault) :
    Prop where
  exception : a.exception = f.isSome
  cp0 : a.cp0 = f.elim c (fun f => f.record c)
  mmu : f.isSome → a.mmu = m

namespace Mmu

theorem addrTranslate_obeys (m : Mmu) (c : Cp0) (va : Word) (write : Bool) :
    (m.addrTranslate c va write).Obeys m c
      ((m.translationFault va write).map (Fault.tlb · va)) := by
  obtain ⟨hexc, hcp0⟩ := m.addrTranslate_fault c va write
  refine ⟨?_, ?_, fun _ => m.addrTranslate_mmu c va write⟩
  · simp [hexc]
  · rw [hcp0]
    cases m.translationFault va write <;> rfl

variable {α : Type} {m : Mmu} {c : Cp0} {va align : Word}

/-- The shape all six access functions share: translate, stop at a fault, otherwise go on. -/
theorem obeys_of_translate {write : Bool} {bad good : Access α}
    (hbad : bad.exception = (m.addrTranslate c va write).exception ∧
      bad.cp0 = (m.addrTranslate c va write).cp0 ∧ bad.mmu = (m.addrTranslate c va write).mmu)
    (hgood : good.exception = (m.addrTranslate c va write).exception ∧
      good.cp0 = (m.addrTranslate c va write).cp0) :
    (if (m.addrTranslate c va write).exception then bad else good).Obeys m c
      ((m.translationFault va write).map (Fault.tlb · va)) := by
  have ht := m.addrTranslate_obeys c va write
  split
  · exact ⟨hbad.1.trans ht.exception, hbad.2.1.trans ht.cp0, fun h => hbad.2.2.trans (ht.mmu h)⟩
  · rename_i hexc
    refine ⟨hgood.1.trans ht.exception, hgood.2.trans ht.cp0, fun h => ?_⟩
    rw [ht.exception] at hexc
    exact absurd h hexc

/-- The alignment check in front of the half-word and word accesses. -/
theorem obeys_of_aligned {write : Bool} {v : α} {good : Access α}
    (hgood : good.Obeys m c ((m.translationFault va write).map (Fault.tlb · va))) :
    (if va &&& align ≠ 0 then
      { val := v, exception := true, mmu := m,
        cp0 := c.addressError (if write then .ades else .adel) va }
      else good).Obeys m c (m.accessFault va align write) := by
  unfold accessFault
  split
  · exact ⟨rfl, rfl, fun _ => rfl⟩
  · exact hgood

theorem accessFault_byte (m : Mmu) (va : Word) (write : Bool) :
    m.accessFault va 0#32 write = (m.translationFault va write).map (Fault.tlb · va) := by
  simp [accessFault]

theorem readByte_obeys (m : Mmu) (c : Cp0) (va : Word) :
    (m.readByte c va).Obeys m c (m.accessFault va 0#32 false) := by
  rw [accessFault_byte]
  exact obeys_of_translate ⟨rfl, rfl, rfl⟩ ⟨rfl, rfl⟩

theorem readHalfWord_obeys (m : Mmu) (c : Cp0) (va : Word) :
    (m.readHalfWord c va).Obeys m c (m.accessFault va 1#32 false) := by
  refine @obeys_of_aligned _ m c va 1#32 false _ _ ?_
  exact obeys_of_translate ⟨rfl, rfl, rfl⟩ ⟨rfl, rfl⟩

theorem readWord_obeys (m : Mmu) (c : Cp0) (va : Word) :
    (m.readWord c va).Obeys m c (m.accessFault va 3#32 false) := by
  refine @obeys_of_aligned _ m c va 3#32 false _ _ ?_
  exact obeys_of_translate ⟨rfl, rfl, rfl⟩ ⟨rfl, rfl⟩

theorem writeByte_obeys (m : Mmu) (c : Cp0) (va : Word) (data : Byte) :
    (m.writeByte c va data).Obeys m c (m.accessFault va 0#32 true) := by
  rw [accessFault_byte]
  exact obeys_of_translate ⟨rfl, rfl, rfl⟩ ⟨rfl, rfl⟩

theorem writeHalfWord_obeys (m : Mmu) (c : Cp0) (va : Word) (data : Half) :
    (m.writeHalfWord c va data).Obeys m c (m.accessFault va 1#32 true) := by
  refine @obeys_of_aligned _ m c va 1#32 true _ _ ?_
  exact obeys_of_translate ⟨rfl, rfl, rfl⟩ ⟨rfl, rfl⟩

theorem writeWord_obeys (m : Mmu) (c : Cp0) (va data : Word) :
    (m.writeWord c va data).Obeys m c (m.accessFault va 3#32 true) := by
  refine @obeys_of_aligned _ m c va 3#32 true _ _ ?_
  exact obeys_of_translate ⟨rfl, rfl, rfl⟩ ⟨rfl, rfl⟩

/-- An access without a fault is aligned and its address translates. -/
theorem accessFault_eq_none {write : Bool} : m.accessFault va align write = none ↔
      va &&& align = 0 ∧ m.translationFault va write = none := by
  unfold accessFault
  split <;> simp_all

end Mmu

variable {a : Access α} {f : Option Fault}

/-- An access raises no exception just when it runs into no fault. -/
theorem Access.Obeys.exception_eq_false (h : a.Obeys m c f) : a.exception = false ↔ f = none := by
  rw [h.exception, Option.isSome_eq_false_iff, Option.isNone_iff_eq_none]

/-! ### Faults of an instruction -/

/-- The memory access of an instruction: its alignment mask, and whether it writes. -/
def Instr.access : Instr → Option (Word × Bool)
  | .lb | .lbu => some (0#32, false)
  | .lhu => some (1#32, false)
  | .lw => some (3#32, false)
  | .sb => some (0#32, true)
  | .sw => some (3#32, true)
  | _ => none

namespace Cpu

/-- The fault of the instruction in the latch. -/
def executeFault (s : Cpu) : Option Fault :=
  match dispatch s.instruction with
  | none => some (.plain .ri)
  | some .syscall => some (.plain .syscall)
  | some i => i.access.bind fun a => s.mmu.accessFault s.effectiveAddr a.1 a.2

/-- The fault of the cycle that starts in `s`: of its fetch, else of its instruction. -/
def fault (s : Cpu) : Option Fault :=
  (s.mmu.accessFault s.pc 3#32 false).or s.startCycle.fetch.1.executeFault

variable {s t : Cpu} {v : Word}

theorem writeRd_no_fault : s.writeRd v ≠ .ok (t, true) := by
  simp [writeRd, advance]

theorem writeRt_no_fault : s.writeRt v ≠ .ok (t, true) := by
  simp [writeRt, advance]

/-- A faulting load or store leaves the state alone but for CP0. -/
theorem access_fault {r : Result} (ha : a.Obeys s.mmu s.cp0 f) (hr : r ≠ .ok (t, true))
    (h : (if a.exception then .ok ({ s with cp0 := a.cp0, mmu := a.mmu }, true) else r) =
      .ok (t, true)) : ∃ e, f = some e ∧ t = { s with cp0 := e.record s.cp0 } := by
  cases f with
  | none => exact absurd (by simpa [ha.exception] using h) hr
  | some e =>
    have hcp0 : a.cp0 = e.record s.cp0 := ha.cp0
    simp only [ha.exception, hcp0, ha.mmu rfl, Option.isSome_some, if_true, Except.ok.injEq,
      Prod.mk.injEq, and_true] at h
    exact ⟨e, rfl, h.symm⟩

theorem shiftByReg_no_fault {g : Word → Nat → Word} : s.shiftByReg g ≠ .ok (t, true) := by
  unfold shiftByReg
  split
  · exact writeRd_no_fault
  · simp

theorem branchIf_no_fault {b : Bool} : s.branchIf b ≠ .ok (t, true) := by
  unfold branchIf
  split <;> simp [advance]

/-- An instruction that raises an exception has done nothing but record it. -/
theorem instructionDecode_fault (h : s.instructionDecode = .ok (t, true)) :
    ∃ f, s.executeFault = some f ∧ t = { s with cp0 := f.record s.cp0 } := by
  unfold instructionDecode at h
  unfold executeFault
  cases hd : dispatch s.instruction with
  | none =>
    simp only [hd, Except.ok.injEq, Prod.mk.injEq, and_true] at h
    exact ⟨.plain .ri, rfl, h.symm⟩
  | some i =>
    rw [hd] at h
    cases i with
    | syscall =>
      simp only [exe, exeSyscall, Except.ok.injEq, Prod.mk.injEq, and_true] at h
      exact ⟨.plain .syscall, rfl, h.symm⟩
    | lb => exact access_fault (s.mmu.readByte_obeys s.cp0 _) writeRt_no_fault h
    | lbu => exact access_fault (s.mmu.readByte_obeys s.cp0 _) writeRt_no_fault h
    | lhu => exact access_fault (s.mmu.readHalfWord_obeys s.cp0 _) writeRt_no_fault h
    | lw => exact access_fault (s.mmu.readWord_obeys s.cp0 _) writeRt_no_fault h
    | sb => exact access_fault (s.mmu.writeByte_obeys s.cp0 _ _) (by simp [advance]) h
    | sw => exact access_fault (s.mmu.writeWord_obeys s.cp0 _ _) (by simp [advance]) h
    | sll | srl | sra | mfhi | mflo | addu | subu | and | or | xor | nor | slt | sltu =>
      exact absurd h writeRd_no_fault
    | addiu | slti | sltiu | andi | ori | xori | lui | mfc0 => exact absurd h writeRt_no_fault
    | sllv | srlv | srav => exact absurd h shiftByReg_no_fault
    | bltz | bgez | beq | bne | blez | bgtz => exact absurd h branchIf_no_fault
    | jr | jalr | j | jal | eret | mthi | mtlo | mtc0 | cache =>
      simp [exe, exeJr, exeJalr, exeJ, exeJal, exeEret, exeMthi, exeMtlo, exeMtc0, exeCache,
        advance] at h
    | mult =>
      simp only [exe, exeMult] at h
      split at h <;> simp [advance] at h
    | tlbwi =>
      simp only [exe, exeTlbwi] at h
      split at h <;> simp [advance] at h

end Cpu

/-! ### The registers that report a fault -/

theorem Cp0.addressError_registers (c : Cp0) (exc : ExcCode) (va : Word) (r : RegNo) :
    (c.addressError exc va).registers r =
      if r = badVAddr then va else (c.setExceptionCode exc).registers r := by
  simp only [addressError, set_registers]

theorem Cp0.tlbException_registers (c : Cp0) (exc : ExcCode) (va : Word) (r : RegNo) :
    (c.tlbException exc va).registers r =
      if r = entryHi then (c.registers entryHi &&& 0x00001fff#32) ||| (va &&& 0xffffe000#32)
      else if r = context then (c.registers context &&& 0xff80000f#32) ||| va >>> 13 <<< 4
      else if r = badVAddr then va
      else (c.setExceptionCode exc).registers r := by
  have h1 : entryHi ≠ context := by decide
  have h2 : entryHi ≠ badVAddr := by decide
  have h3 : entryHi ≠ cause := by decide
  have h4 : context ≠ badVAddr := by decide
  have h5 : context ≠ cause := by decide
  simp only [tlbException, set_registers, setExceptionCode_registers, if_true, if_neg h1,
    if_neg h2, if_neg h3, if_neg h4, if_neg h5]
  split_ifs <;> rfl

namespace Fault

/-- The fields a fault writes in `BadVAddr`, `Context` and `EntryHi`, going from
`c` to `c'`. -/
structure Reported (f : Fault) (c c' : Cp0) : Prop where
  badVAddr : match f with
    | plain _ => c'.registers badVAddr = c.registers badVAddr
    | address _ va | tlb _ va => c'.registers badVAddr = va
  context : match f with
    | plain _ | address _ _ => c'.registers context = c.registers context
    | tlb _ va =>
      (c'.registers context).extractLsb' 4 19 = va.extractLsb' 13 19 ∧
        AgreeOutside 4 19 (c'.registers context) (c.registers context)
  entryHi : match f with
    | plain _ | address _ _ => c'.registers entryHi = c.registers entryHi
    | tlb _ va =>
      (c'.registers entryHi).extractLsb' 13 19 = va.extractLsb' 13 19 ∧
        AgreeOutside 13 19 (c'.registers entryHi) (c.registers entryHi)

/-- The registers a fault may write. -/
def reporting : List RegNo := [cause, badVAddr, context, entryHi]

theorem record_cause (f : Fault) (c : Cp0) :
    (f.record c).registers cause = (c.setExceptionCode f.exc).registers cause := by
  have h1 : cause ≠ badVAddr := by decide
  cases f with
  | plain e | tlb e va => rfl
  | address e va => rw [record, addressError_registers, if_neg h1]; rfl

variable {r : RegNo}

theorem record_other (f : Fault) (c : Cp0) (hr : r ∉ reporting) :
    (f.record c).registers r = c.registers r := by
  simp only [reporting, List.mem_cons, List.not_mem_nil, or_false, not_or] at hr
  obtain ⟨hcause, hbad, hctx, hhi⟩ := hr
  have hset : ∀ e, (c.setExceptionCode e).registers r = c.registers r := by
    intro e
    rw [setExceptionCode_registers, if_neg hcause]
  cases f with
  | plain e => exact hset e
  | address e va => rw [record, addressError_registers, if_neg hbad, hset]
  | tlb e va =>
    rw [record, tlbException_registers, if_neg hhi, if_neg hctx, if_neg hbad, hset]

/-- `BadVPN2`, bits 22..4 of `Context`. -/
theorem record_tlb_context (e : ExcCode) (va : Word) (c : Cp0) :
    (((tlb e va).record c).registers context).extractLsb' 4 19 = va.extractLsb' 13 19 ∧
      AgreeOutside 4 19 (((tlb e va).record c).registers context) (c.registers context) := by
  have h : context ≠ entryHi := by decide
  rw [record, tlbException_registers, if_neg h, if_pos rfl]
  refine ⟨?_, agreeOutside_mask_or (by decide) ?_⟩
  · rw [extract_mask_or (by decide)]
    ext i hi
    simp
    omega
  · intro i hi hout
    rcases hout with hlow | hhigh
    · simp [hlow]
    · have : va.getLsbD (13 + (i - 4)) = false := BitVec.getLsbD_of_ge _ _ (by omega)
      simp [this]

/-- `VPN2`, bits 31..13 of `EntryHi`. -/
theorem record_tlb_entryHi (e : ExcCode) (va : Word) (c : Cp0) :
    (((tlb e va).record c).registers entryHi).extractLsb' 13 19 = va.extractLsb' 13 19 ∧
      AgreeOutside 13 19 (((tlb e va).record c).registers entryHi) (c.registers entryHi) := by
  rw [record, tlbException_registers, if_pos rfl]
  refine ⟨?_, agreeOutside_mask_or (by decide) ?_⟩
  · rw [extract_mask_or (by decide), extract_and_ones (by decide)]
  · intro i hi hout
    have hmask : ∀ i < 32, i < 13 ∨ 13 + 19 ≤ i → (0xffffe000#32).getLsbD i = false := by decide
    rw [BitVec.getLsbD_and, hmask i hi hout, Bool.and_false]

theorem record_reported (f : Fault) (c : Cp0) : f.Reported c (f.record c) := by
  have h1 : badVAddr ≠ cause := by decide
  have h2 : badVAddr ≠ context := by decide
  have h3 : badVAddr ≠ entryHi := by decide
  have h5 : context ≠ cause := by decide
  have h6 : context ≠ badVAddr := by decide
  have h7 : entryHi ≠ cause := by decide
  have h8 : entryHi ≠ badVAddr := by decide
  cases f with
  | plain e =>
    refine ⟨?_, ?_, ?_⟩
    · exact (c.setExceptionCode_registers e _).trans (if_neg h1)
    · exact (c.setExceptionCode_registers e _).trans (if_neg h5)
    · exact (c.setExceptionCode_registers e _).trans (if_neg h7)
  | address e va =>
    refine ⟨?_, ?_, ?_⟩
    · exact (c.addressError_registers e va _).trans (if_pos rfl)
    · exact ((c.addressError_registers e va _).trans (if_neg h6)).trans
        ((c.setExceptionCode_registers e _).trans (if_neg h5))
    · exact ((c.addressError_registers e va _).trans (if_neg h8)).trans
        ((c.setExceptionCode_registers e _).trans (if_neg h7))
  | tlb e va =>
    refine ⟨?_, record_tlb_context e va c, record_tlb_entryHi e va c⟩
    rw [record, tlbException_registers, if_neg h3, if_neg h2, if_pos rfl]

/-- `Reported` speaks about three registers only. -/
theorem Reported.congr {f : Fault} {c c' d d' : Cp0} (h : f.Reported c c')
    (hd : ∀ r ∈ [Cp0.badVAddr, Cp0.context, Cp0.entryHi], d.registers r = c.registers r)
    (hd' : ∀ r ∈ [Cp0.badVAddr, Cp0.context, Cp0.entryHi], d'.registers r = c'.registers r) :
    f.Reported d d' := by
  obtain ⟨hbad, hctx, hhi⟩ := h
  simp only [List.mem_cons, List.not_mem_nil, or_false, forall_eq_or_imp, forall_eq] at hd hd'
  cases f with
  | plain e =>
    exact ⟨hd'.1.trans (hbad.trans hd.1.symm), hd'.2.1.trans (hctx.trans hd.2.1.symm),
      hd'.2.2.trans (hhi.trans hd.2.2.symm)⟩
  | address e va =>
    exact ⟨hd'.1.trans hbad, hd'.2.1.trans (hctx.trans hd.2.1.symm),
      hd'.2.2.trans (hhi.trans hd.2.2.symm)⟩
  | tlb e va =>
    refine ⟨hd'.1.trans hbad, ?_, ?_⟩
    · show (d'.registers Cp0.context).extractLsb' 4 19 = _ ∧ AgreeOutside 4 19 _ _
      rw [hd'.2.1, hd.2.1]
      exact hctx
    · show (d'.registers Cp0.entryHi).extractLsb' 13 19 = _ ∧ AgreeOutside 13 19 _ _
      rw [hd'.2.2, hd.2.2]
      exact hhi

end Fault

/-! ### The whole cycle -/

namespace Cpu

/-- What a cycle that raises the fault `f` does to the machine: it reports the
fault and enters the handler, and changes nothing else. The streams behind the ROM
and the disk are represented by their images, the part of them that is state of the
machine (`Mmu.Unread`). -/
structure PreciseEffect (s : Cpu) (f : Fault) (s' : Cpu) : Prop where
  zero : s'.registers regZero = 0
  gpr : ∀ r, r ≠ regZero → s'.registers r = s.registers r
  hi : s'.hi = s.hi
  lo : s'.lo = s.lo
  pc : s'.pc = s.cp0.registers ebase
  mmu : s.mmu.Unread s'.mmu
  count : s'.cp0.registers count = s.cp0.registers count + 1
  excCode : (s'.cp0.registers cause).extractLsb' 2 5 = f.exc.code.setWidth 5
  cause : AgreeOutside 2 5 (s'.cp0.registers cause) (s.cp0.registers cause)
  exl : (s'.cp0.registers sr).getLsbD 1 = true
  status : AgreeOutside 1 1 (s'.cp0.registers sr) (s.cp0.registers sr)
  epc : s'.cp0.registers epc =
    if (s.cp0.registers sr).getLsbD 1 then s.cp0.registers epc else s.pc
  reported : f.Reported s.cp0 s'.cp0
  other : ∀ r, r ∉ Cp0.count :: Cp0.sr :: Cp0.epc :: Fault.reporting →
    s'.cp0.registers r = s.cp0.registers r

/-- Up to the end of `next`, a faulting cycle has cleared register zero, counted the
cycle, filled the latch and recorded the fault. -/
theorem fetchExecute_fault {s t : Cpu} (h : s.fetchExecute = .ok (t, true)) :
    ∃ f, s.fault = some f ∧ s.mmu.Unread t.mmu ∧ t.cp0 = f.record s.startCycle.cp0 ∧
      t.registers = s.startCycle.registers ∧ t.pc = s.pc ∧ t.hi = s.hi ∧ t.lo = s.lo := by
  have hobeys := s.mmu.readWord_obeys s.startCycle.cp0 s.pc
  have hunread := s.mmu.readWord_unread s.startCycle.cp0 s.pc
  unfold fetchExecute at h
  unfold fault
  cases hf : s.mmu.accessFault s.pc 3#32 false with
  | some f =>
    rw [hf] at hobeys
    have hexc : s.startCycle.fetch.2 = true := hobeys.exception
    simp only [hexc, if_true, Except.ok.injEq, Prod.mk.injEq, and_true] at h
    subst h
    exact ⟨f, rfl, hunread, hobeys.cp0, rfl, rfl, rfl, rfl⟩
  | none =>
    rw [hf] at hobeys
    have hexc : s.startCycle.fetch.2 = false := hobeys.exception
    have hcp0 : s.startCycle.fetch.1.cp0 = s.startCycle.cp0 := hobeys.cp0
    simp only [hexc, Bool.false_eq_true, if_false] at h
    obtain ⟨f, hfault, rfl⟩ := instructionDecode_fault h
    exact ⟨f, hfault, hunread, congrArg f.record hcp0, rfl, rfl, rfl, rfl⟩

/-- The CP0 registers after the handler has been entered. -/
theorem enterException_registers (t : Cpu) (r : RegNo) :
    t.enterException.cp0.registers r =
      if r = sr then t.cp0.registers sr ||| 0x02#32
      else if r = epc then
        if (t.cp0.registers sr).getLsbD 1 then t.cp0.registers epc else t.pc
      else t.cp0.registers r := by
  have hne : sr ≠ epc := by decide
  unfold enterException
  rw [statusEXL_eq]
  rw [setStatusEXL_registers]
  cases (t.cp0.registers sr).getLsbD 1 with
  | true =>
    simp only [if_true]
    split_ifs with h1 h2
    · rfl
    · rw [h2]
    · rfl
  | false =>
    simp only [Bool.false_eq_true, if_false, set_registers, if_neg hne]

theorem enterException_pc (t : Cpu) : t.enterException.pc = t.cp0.registers ebase := by
  have hne : ebase ≠ epc := by decide
  unfold enterException
  dsimp only
  split
  · rfl
  · rw [set_registers_of_ne _ _ hne]

/-- Counting the cycle and recording a fault leave every other CP0 register. -/
theorem record_startCycle_other (s : Cpu) (f : Fault) (hcount : r ≠ count)
    (hr : r ∉ Fault.reporting) :
    (f.record s.startCycle.cp0).registers r = s.cp0.registers r := by
  rw [f.record_other _ hr]
  exact s.cp0.set_registers_of_ne _ hcount

end Cpu

end UcoreMips.Emulator
