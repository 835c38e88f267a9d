import UcoreMips.Emulator.PreciseExceptions

/-!
# UcoreMips.Emulator.ClockInterrupt

**The clock interrupt is transparent and never nested.** It is delivered between two
instructions: everything the first one did stays, `EPC` holds the address of the
second, and `eret` goes back there with `Status` as it was.

`DeliversClock` recognises a delivery by what the handler sees, the code `Int` in
`Cause`. That it takes place only after an instruction that completed, and only with
interrupts enabled just after it, is then a theorem (`deliversClock_iff`): no
synchronous exception has that code (`fault_exc`).
-/

namespace UcoreMips.Emulator

open UcoreMips.Lib Cp0

/-! ### The bits of `Status` -/

namespace Cp0

/-- `IE` set, `EXL` and `ERL` clear, `IM7` set. -/
structure AcceptsClock (c : Cp0) : Prop where
  ie : (c.registers sr).getLsbD 0 = true
  exl : (c.registers sr).getLsbD 1 = false
  erl : (c.registers sr).getLsbD 2 = false
  im7 : (c.registers sr).getLsbD 15 = true

theorem interruptEnabled_iff (c : Cp0) :
    c.interruptEnabled = true ↔ (c.registers sr).getLsbD 0 = true ∧
      (c.registers sr).getLsbD 1 = false ∧ (c.registers sr).getLsbD 2 = false := by
  rw [interruptEnabled, beq_iff_eq, ← BitVec.toNat_inj, toNat_and_low (k := 3) (by decide)]
  simp only [BitVec.getLsbD, Nat.testBit_eq_decide_div_mod_eq, decide_eq_true_eq,
    decide_eq_false_iff_not]
  simp only [BitVec.toNat_ofNat]
  omega

theorem interruptEnabledMask_ip7 (c : Cp0) :
    c.interruptEnabledMask ip7 = (c.registers sr).getLsbD 15 := by
  have h15 : ip7 <<< 8 = BitVec.twoPow 32 15 := by decide
  rw [interruptEnabledMask, h15, BitVec.and_twoPow]
  cases (c.registers sr).getLsbD 15 <;> decide

/-- The condition under which `next` delivers the interrupt. -/
theorem acceptsClock_iff (c : Cp0) :
    (c.interruptEnabled && c.interruptEnabledMask ip7) = true ↔ c.AcceptsClock := by
  rw [Bool.and_eq_true, interruptEnabled_iff, interruptEnabledMask_ip7]
  exact ⟨fun h => ⟨h.1.1, h.1.2.1, h.1.2.2, h.2⟩, fun h => ⟨⟨h.ie, h.exl, h.erl⟩, h.im7⟩⟩

/-- Clearing `EXL` undoes setting it, where it was clear. -/
theorem unset_set_exl {v : Word} (h : v.getLsbD 1 = false) :
    (v ||| 0x02#32) &&& 0xfffffffd#32 = v := by
  apply BitVec.eq_of_getLsbD_eq
  intro i hi
  have hmask : ∀ i < 32, (0x02#32).getLsbD i = decide (i = 1) ∧
      (0xfffffffd#32).getLsbD i = !decide (i = 1) := by decide
  rw [BitVec.getLsbD_and, BitVec.getLsbD_or, (hmask i hi).1, (hmask i hi).2]
  by_cases h1 : i = 1
  · subst h1
    rw [h]
    rfl
  · simp [h1]

/-- The code of `Cause` with the clock's bit and the code `Int`. -/
theorem clockCause_bits (c : Cp0) :
    let cause' := ((c.setInterruptCode ip7).setExceptionCode .int).registers cause
    cause'.getLsbD 15 = true ∧ cause'.extractLsb' 2 5 = 0 ∧
      ∀ i, i ≠ 15 → i < 2 ∨ 7 ≤ i → cause'.getLsbD i = (c.registers cause).getLsbD i := by
  have hcode := (c.setInterruptCode ip7).setExceptionCode_cause_field .int
  have hout := (c.setInterruptCode ip7).setExceptionCode_cause_outside .int
  have hpend : (c.setInterruptCode ip7).registers cause = c.registers cause ||| ip7 <<< 8 := by
    rw [setInterruptCode_registers, if_pos rfl]
  have h15 : ip7 <<< 8 = BitVec.twoPow 32 15 := by decide
  refine ⟨?_, hcode, ?_⟩
  · rw [hout 15 (by omega), hpend, h15]
    simp
  · intro i hne hi
    rw [hout i (by omega), hpend, h15]
    simp
    omega

end Cp0

/-! ### Synchronous exceptions are not interrupts -/

variable {f : Fault}

theorem Mmu.accessFault_exc {m : Mmu} {va align : Word} {write : Bool}
    (h : m.accessFault va align write = some f) : f.exc ≠ .int := by
  unfold accessFault at h
  split at h
  · cases h
    cases write <;> simp [Fault.exc]
  · obtain ⟨e, he, rfl⟩ := Option.map_eq_some_iff.mp h
    unfold translationFault at he
    split at he
    · cases he
    · split at he
      · cases he
        cases write <;> simp [Fault.exc]
      · dsimp only at he
        split_ifs at he <;> cases he <;> simp [Fault.exc]

namespace Cpu

variable {s : Cpu}

theorem fault_exc (h : s.fault = some f) : f.exc ≠ .int := by
  rcases Option.or_eq_some_iff.mp h with hfetch | ⟨-, hexec⟩
  · exact Mmu.accessFault_exc hfetch
  · unfold executeFault at hexec
    split at hexec
    · cases hexec
      decide
    · cases hexec
      decide
    · obtain ⟨a, -, ha⟩ := Option.bind_eq_some_iff.mp hexec
      exact Mmu.accessFault_exc ha

variable {t : Cpu}

/-- The code of a synchronous exception is in `Cause` when `next` ends, and is not `Int`. -/
theorem excCode_of_fault (h : s.fetchExecute = .ok (t, true)) :
    (t.cp0.registers cause).extractLsb' 2 5 ≠ ExcCode.int.code.setWidth 5 := by
  obtain ⟨f, hfault, -, hcp0, -⟩ := fetchExecute_fault h
  rw [hcp0, f.record_cause, setExceptionCode_cause_field]
  have hne := fault_exc hfault
  generalize f.exc = e at hne
  revert hne
  cases e <;> decide

/-! ### Delivery -/

/-- The cycle delivers the clock interrupt and ends in `s'`: `next` raised the flag with
the code `Int`. -/
def DeliversClock (s s' : Cpu) : Prop :=
  ∃ u, s.next = .ok (u, true) ∧
    (u.cp0.registers cause).extractLsb' 2 5 = ExcCode.int.code.setWidth 5 ∧
    s' = u.enterException

/-- The state in which the clock found its interrupt to be deliverable, handed to `run`. -/
def clockPending (t : Cpu) : Cpu :=
  { t with cp0 := ((t.cp0.set count 0x00).setInterruptCode ip7).setExceptionCode .int }

/-- The tick without an interrupt: `Count` starts again. -/
def clockTick (t : Cpu) : Cpu :=
  if t.cp0.registers compare ≤ t.cp0.registers count then
    { t with cp0 := t.cp0.set count 0x00 }
  else t

theorem acceptsClock_set_count (c : Cp0) (v : Word) :
    (c.set count v).AcceptsClock ↔ c.AcceptsClock :=
  ⟨fun h => { h with }, fun h => { h with }⟩

/-- The three ways the check of the clock can end, in two: delivery, or a tick at most. -/
theorem clockInterrupt_delivered (hdue : t.cp0.registers compare ≤ t.cp0.registers count)
    (haccept : t.cp0.AcceptsClock) : t.clockInterrupt = (t.clockPending, true) := by
  unfold clockInterrupt
  rw [if_pos hdue]
  rw [if_pos ((acceptsClock_iff _).mpr ((acceptsClock_set_count _ _).mpr haccept))]
  rfl

theorem clockInterrupt_held
    (h : ¬(t.cp0.registers compare ≤ t.cp0.registers count ∧ t.cp0.AcceptsClock)) :
    t.clockInterrupt = (t.clockTick, false) := by
  unfold clockInterrupt clockTick
  split
  · rename_i hdue
    rw [if_neg]
    intro haccept
    exact h ⟨hdue, (acceptsClock_set_count _ _).mp ((acceptsClock_iff _).mp haccept)⟩
  · rfl

theorem next_of_completed (h : s.fetchExecute = .ok (t, false)) :
    s.next = .ok t.clockInterrupt := by
  simp [next, h, bind, Except.bind, pure, Except.pure]

theorem next_of_fault (h : s.fetchExecute = .ok (t, true)) : s.next = .ok (t, true) := by
  simp [next, h, bind, Except.bind, pure, Except.pure]

/-- When the interrupt is delivered: after an instruction that completed in a state with
the clock due and the interrupt enabled. -/
theorem deliversClock_iff {s s' : Cpu} :
    s.DeliversClock s' ↔ ∃ t, s.fetchExecute = .ok (t, false) ∧
      t.cp0.registers compare ≤ t.cp0.registers count ∧ t.cp0.AcceptsClock ∧
      s' = t.clockPending.enterException := by
  constructor
  · rintro ⟨u, hnext, hcode, rfl⟩
    cases hf : s.fetchExecute with
    | error e => simp [next, hf, bind, Except.bind] at hnext
    | ok r =>
      obtain ⟨t, exception⟩ := r
      cases exception with
      | true =>
        rw [next_of_fault hf] at hnext
        cases hnext
        exact absurd hcode (excCode_of_fault hf)
      | false =>
        rw [next_of_completed hf] at hnext
        by_cases hdue : t.cp0.registers compare ≤ t.cp0.registers count ∧
            t.cp0.AcceptsClock
        · rw [clockInterrupt_delivered hdue.1 hdue.2] at hnext
          cases hnext
          exact ⟨t, rfl, hdue.1, hdue.2, rfl⟩
        · rw [clockInterrupt_held hdue] at hnext
          cases hnext
  · rintro ⟨t, hf, hdue, haccept, rfl⟩
    refine ⟨t.clockPending, ?_, setExceptionCode_cause_field _ .int, rfl⟩
    rw [next_of_completed hf, clockInterrupt_delivered hdue haccept]

/-- What delivery makes of `t`, the state just after the instruction. -/
structure ClockEffect (t s' : Cpu) : Prop where
  accepted : t.cp0.AcceptsClock
  registers : s'.registers = t.registers
  hi : s'.hi = t.hi
  lo : s'.lo = t.lo
  mmu : s'.mmu = t.mmu
  instruction : s'.instruction = t.instruction
  count : s'.cp0.registers count = 0
  ip7 : (s'.cp0.registers cause).getLsbD 15 = true
  excCode : (s'.cp0.registers cause).extractLsb' 2 5 = 0
  cause : ∀ i, i ≠ 15 → i < 2 ∨ 7 ≤ i →
    (s'.cp0.registers cause).getLsbD i = (t.cp0.registers cause).getLsbD i
  epc : s'.cp0.registers epc = t.pc
  exl : (s'.cp0.registers sr).getLsbD 1 = true
  status : AgreeOutside 1 1 (s'.cp0.registers sr) (t.cp0.registers sr)
  pc : s'.pc = t.cp0.registers ebase
  other : ∀ r, r ∉ [Cp0.count, Cp0.cause, Cp0.epc, Cp0.sr] →
    s'.cp0.registers r = t.cp0.registers r

/-- The CP0 registers with the interrupt pending. -/
theorem clockPending_registers (t : Cpu) {r : RegNo} (hcount : r ≠ count)
    (hcause : r ≠ cause) : t.clockPending.cp0.registers r = t.cp0.registers r := by
  unfold clockPending
  rw [setExceptionCode_registers, if_neg hcause, setInterruptCode_registers,
    if_neg hcause, set_registers_of_ne _ _ hcount]

theorem clockEffect (h : t.cp0.AcceptsClock) : t.ClockEffect t.clockPending.enterException := by
  have hcause : t.clockPending.enterException.cp0.registers Cp0.cause =
      (((t.cp0.set Cp0.count 0x00).setInterruptCode Cp0.ip7).setExceptionCode .int).registers
        Cp0.cause := by
    rw [enterException_registers, if_neg (by decide), if_neg (by decide)]
    rfl
  have hbits := (t.cp0.set Cp0.count 0x00).clockCause_bits
  have hold : (t.cp0.set Cp0.count 0x00).registers Cp0.cause = t.cp0.registers Cp0.cause :=
    t.cp0.set_registers_of_ne _ (by decide)
  have hsr : t.clockPending.cp0.registers Cp0.sr = t.cp0.registers Cp0.sr :=
    t.clockPending_registers (by decide) (by decide)
  refine {
    accepted := h, registers := rfl, hi := rfl, lo := rfl, mmu := rfl, instruction := rfl
    count := ?_, ip7 := ?_, excCode := ?_, cause := ?_, epc := ?_, exl := ?_, status := ?_
    pc := ?_, other := ?_ }
  · rw [enterException_registers, if_neg (by decide), if_neg (by decide)]
    unfold clockPending
    rw [Cp0.setExceptionCode_registers, if_neg (by decide), Cp0.setInterruptCode_registers,
      if_neg (by decide), Cp0.set_registers_self]
  · rw [hcause]
    exact hbits.1
  · rw [hcause]
    exact hbits.2.1
  · intro i hne hi
    rw [hcause, ← hold]
    exact hbits.2.2 i hne hi
  · rw [enterException_registers, if_neg (by decide), if_pos rfl, hsr, h.exl]
    rfl
  · exact Cp0.setStatusEXL_exl _
  · rw [enterException_registers, if_pos rfl, hsr]
    have houtside := t.cp0.setStatusEXL_sr_outside
    exact houtside
  · rw [enterException_pc]
    exact t.clockPending_registers (by decide) (by decide)
  · intro r hr
    simp only [List.mem_cons, List.not_mem_nil, or_false, not_or] at hr
    rw [enterException_registers, if_neg hr.2.2.2, if_neg hr.2.2.1]
    exact t.clockPending_registers hr.1 hr.2.1

/-- `eret` in any state with the `EPC` and `Status` of the handler's start goes back. -/
theorem eret_after_clock {u : Cpu} (h : t.cp0.AcceptsClock)
    (hepc : u.cp0.registers Cp0.epc = t.clockPending.enterException.cp0.registers Cp0.epc)
    (hsr : u.cp0.registers Cp0.sr = t.clockPending.enterException.cp0.registers Cp0.sr)
    (heret : dispatch u.instruction = some .eret) :
    ∃ v, u.instructionDecode = .ok (v, false) ∧ v.pc = t.pc ∧
      v.cp0.registers Cp0.sr = t.cp0.registers Cp0.sr := by
  refine ⟨_, by rw [instructionDecode, heret]; rfl, ?_, ?_⟩
  · exact hepc.trans (clockEffect h).epc
  · have hpend : t.clockPending.cp0.registers Cp0.sr = t.cp0.registers Cp0.sr :=
      t.clockPending_registers (by decide) (by decide)
    rw [Cp0.unsetStatusEXL_registers, if_pos rfl, hsr, enterException_registers, if_pos rfl,
      hpend, Cp0.unset_set_exl h.exl]

/-- **Clock interrupts are transparent and never nested.** A delivery takes place just
after an instruction that completed with the interrupt enabled; it changes what
`ClockEffect` names and `eret` goes back. Nothing is delivered in a cycle with a
synchronous exception, nor while the interrupt is not accepted: then the cycle ends in
the state after the instruction, but for a restart of `Count`. -/
theorem clock_interrupt_transparent (s : Cpu) :
    (∀ s', s.DeliversClock s' →
      s.cycle = .ok s' ∧ ∃ t, s.fetchExecute = .ok (t, false) ∧ t.ClockEffect s' ∧
        ∀ u : Cpu, u.cp0.registers Cp0.epc = s'.cp0.registers Cp0.epc →
          u.cp0.registers Cp0.sr = s'.cp0.registers Cp0.sr →
          dispatch u.instruction = some .eret →
          ∃ v, u.instructionDecode = .ok (v, false) ∧ v.pc = t.pc ∧
            v.cp0.registers Cp0.sr = t.cp0.registers Cp0.sr) ∧
    (∀ t, s.fetchExecute = .ok (t, true) → ∀ s', ¬s.DeliversClock s') ∧
    (∀ t, s.fetchExecute = .ok (t, false) → ¬t.cp0.AcceptsClock →
      (∀ s', ¬s.DeliversClock s') ∧ s.cycle = .ok t.clockTick) := by
  refine ⟨?_, ?_, ?_⟩
  · intro s' h
    obtain ⟨t, hf, hdue, haccept, rfl⟩ := deliversClock_iff.mp h
    refine ⟨?_, t, hf, clockEffect haccept, fun u => eret_after_clock haccept⟩
    simp [cycle, next_of_completed hf, clockInterrupt_delivered hdue haccept, bind, Except.bind,
      pure, Except.pure]
  · intro t hf s' h
    obtain ⟨t', hf', -⟩ := deliversClock_iff.mp h
    rw [hf] at hf'
    cases hf'
  · intro t hf hheld
    refine ⟨fun s' h => ?_, ?_⟩
    · obtain ⟨t', hf', -, haccept, -⟩ := deliversClock_iff.mp h
      rw [hf] at hf'
      cases hf'
      exact hheld haccept
    · simp [cycle, next_of_completed hf, clockInterrupt_held (fun h => hheld h.2), bind,
        Except.bind, pure, Except.pure]

/-- A `nop` at the reset vector, with the interrupt enabled and the clock due. -/
theorem clock_interrupt_transparent_nop :
    ∃ t, fetchExecute { powerOn [0, 0, 0, 0] with
        cp0 := (powerOn []).cp0.set Cp0.sr 0x8001#32 } = .ok (t, false) ∧
      t.ClockEffect (clockPending t).enterException :=
  have hd : DeliversClock { powerOn [0, 0, 0, 0] with
      cp0 := (powerOn []).cp0.set Cp0.sr 0x8001#32 } _ := ⟨_, rfl, by decide, rfl⟩
  have h := (clock_interrupt_transparent { powerOn [0, 0, 0, 0] with
    cp0 := (powerOn []).cp0.set Cp0.sr 0x8001#32 }).1 _ hd
  ⟨_, rfl, by
    obtain ⟨-, t, ht, heff, -⟩ := h
    cases ht
    exact heff⟩

end Cpu

end UcoreMips.Emulator
