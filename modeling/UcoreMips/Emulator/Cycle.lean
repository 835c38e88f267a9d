import UcoreMips.Emulator.Decode
import UcoreMips.Emulator.PreciseExceptions

/-!
# UcoreMips.Emulator.Cycle

**One cycle, cut at its fetch.** `Fetches` is a cycle whose fetch succeeds, with the machine as the
fetch leaves it; what remains is the instruction and `finish`, the check of the clock and the entry
of the handler. `Alike` compares two machines that run different programs: everything a program can
see is the same, but for memory. `run` is the loop of `CPU::run`.
-/

namespace UcoreMips.Emulator.Cpu

/-- The register as an instruction reads it: `$zero` is cleared at the start of every cycle. -/
def reg (s : Cpu) (r : RegNo) : Word := if r = regZero then 0 else s.registers r

theorem startCycle_registers (s : Cpu) : s.startCycle.registers = s.reg := by
  funext r
  simp only [startCycle, reg, Function.update_apply]

/-! ### The fetch -/

/-- The cycle that starts in `s` fetches `w`, and `t` is the machine with `w` in the latch. -/
structure Fetches (s : Cpu) (w : Word) (t : Cpu) : Prop where
  fetched : s.startCycle.fetch = (t, false)
  latched : t.instruction = w

namespace Fetches

variable {s t : Cpu} {w : Word} (h : s.Fetches w t) {r : RegNo}

include h

theorem eq_fetch : t = s.startCycle.fetch.1 := (congrArg Prod.fst h.fetched).symm

theorem registers : t.registers = s.reg := by
  rw [h.eq_fetch, ← startCycle_registers]
  rfl

theorem pc : t.pc = s.pc := by
  rw [h.eq_fetch]
  rfl

theorem hi : t.hi = s.hi := by
  rw [h.eq_fetch]
  rfl

theorem lo : t.lo = s.lo := by
  rw [h.eq_fetch]
  rfl

theorem unread : s.mmu.Unread t.mmu := by
  rw [h.eq_fetch]
  exact s.mmu.readWord_unread s.startCycle.cp0 s.pc

theorem accessFault : s.mmu.accessFault s.pc 3#32 false = none := by
  rw [← (s.mmu.readWord_obeys s.startCycle.cp0 s.pc).exception_eq_false]
  exact congrArg Prod.snd h.fetched

theorem cp0 : t.cp0 = s.startCycle.cp0 := by
  have hobeys := s.mmu.readWord_obeys s.startCycle.cp0 s.pc
  rw [h.accessFault] at hobeys
  rw [h.eq_fetch]
  exact hobeys.cp0

theorem cp0_registers (hr : r ≠ Cp0.count) : t.cp0.registers r = s.cp0.registers r := by
  rw [h.cp0]
  exact s.cp0.set_registers_of_ne _ hr

theorem fetchExecute : s.fetchExecute = t.instructionDecode := by
  unfold Cpu.fetchExecute
  rw [h.fetched]
  rfl

theorem exe {i : Instr} (hw : i.Encodes w) : s.fetchExecute = Cpu.exe i t := by
  rw [h.fetchExecute, instructionDecode, h.latched, dispatch_of_encodes hw]

theorem rsVal : t.rsVal = s.reg (Word.rs w) := by
  rw [Cpu.rsVal, h.latched, h.registers]

theorem rtVal : t.rtVal = s.reg (Word.rt w) := by
  rw [Cpu.rtVal, h.latched, h.registers]

end Fetches

variable {s : Cpu}

/-- A cycle without an exception has fetched an instruction and executed it. -/
theorem fetches_of_fetchExecute {r : Result} (h : s.fetchExecute = r)
    (hr : ∀ t, r ≠ .ok (t, true)) :
    ∃ w t i, s.Fetches w t ∧ dispatch w = some i ∧ exe i t = r := by
  cases hexc : s.startCycle.fetch.2 with
  | true =>
    rw [fetchExecute, hexc] at h
    exact absurd h.symm (hr _)
  | false =>
    have hfetch : s.Fetches _ s.startCycle.fetch.1 := ⟨Prod.ext rfl hexc, rfl⟩
    rw [hfetch.fetchExecute, instructionDecode] at h
    cases hd : dispatch s.startCycle.fetch.1.instruction with
    | none =>
      rw [hd] at h
      exact absurd h.symm (hr _)
    | some i =>
      rw [hd] at h
      exact ⟨_, _, i, hfetch, hd, h⟩

/-! ### The rest of the cycle -/

/-- The cycle after the instruction: the check of the clock, and the entry of the handler. -/
def finish (r : Cpu × Bool) : Cpu :=
  let r := if r.2 then r else r.1.clockInterrupt
  if r.2 then r.1.enterException else r.1

theorem cycle_eq (s : Cpu) : s.cycle = s.fetchExecute.map finish := by
  cases h : s.fetchExecute with
  | error e => simp [cycle, next, h, bind, Except.bind, Except.map]
  | ok r =>
    obtain ⟨t, exception⟩ := r
    cases exception <;>
      simp [cycle, next, h, bind, Except.bind, pure, Except.pure, Except.map, finish]

theorem cycle_eq_error {e : Ub} (h : s.cycle = .error e) : s.fetchExecute = .error e := by
  rw [cycle_eq] at h
  cases hfe : s.fetchExecute with
  | error e' =>
    rw [hfe] at h
    cases h
    rfl
  | ok r =>
    rw [hfe] at h
    cases h

/-- The end of the cycle writes `pc` and CP0, as `pc` and CP0 have it. -/
theorem finish_eq (t : Cpu) (e : Bool) :
    ∃ f : Cp0 → Word → Cp0 × Word, ∀ t' : Cpu, finish (t', e) =
      { t' with cp0 := (f t'.cp0 t'.pc).1, pc := (f t'.cp0 t'.pc).2 } := by
  refine ⟨fun c pc => ((finish ({ t with cp0 := c, pc := pc }, e)).cp0,
    (finish ({ t with cp0 := c, pc := pc }, e)).pc), fun t' => ?_⟩
  obtain ⟨cp0, mmu, registers, pc, instruction, -, lo⟩ := t'
  unfold finish clockInterrupt enterException
  dsimp only
  split_ifs <;> rfl

theorem finish_mmu (t : Cpu) (e : Bool) : (finish (t, e)).mmu = t.mmu := by
  obtain ⟨f, hf⟩ := finish_eq t e
  rw [hf]

/-! ### Machines that agree -/

/-- The two machines agree in all a program can see, but for memory. -/
structure Alike (s s' : Cpu) : Prop where
  registers : ∀ r ≠ regZero, s.registers r = s'.registers r
  pc : s.pc = s'.pc
  hi : s.hi = s'.hi
  lo : s.lo = s'.lo
  cp0 : s.cp0 = s'.cp0

namespace Alike

theorem reg {s s' : Cpu} (h : s.Alike s') : s.reg = s'.reg := by
  funext r
  unfold Cpu.reg
  split
  · rfl
  · next hr => exact h.registers r hr

theorem fetches {s s' t t' : Cpu} {w w' : Word} (h : s.Alike s') (hf : s.Fetches w t)
    (hf' : s'.Fetches w' t') : t.Alike t' where
  registers := by
    intro r _
    rw [hf.registers, hf'.registers, h.reg]
  pc := by rw [hf.pc, hf'.pc, h.pc]
  hi := by rw [hf.hi, hf'.hi, h.hi]
  lo := by rw [hf.lo, hf'.lo, h.lo]
  cp0 := by
    rw [hf.cp0, hf'.cp0, startCycle, startCycle, h.cp0]

/-- The end of the cycle reads nothing in which the machines differ. -/
theorem finish {s s' : Cpu} (h : s.Alike s') (e : Bool) :
    (Cpu.finish (s, e)).Alike (Cpu.finish (s', e)) := by
  obtain ⟨f, hf⟩ := finish_eq s e
  rw [hf, hf, h.cp0, h.pc]
  exact ⟨h.registers, rfl, h.hi, h.lo, rfl⟩

/-- The end of the cycle does not undo a difference between the registers. -/
theorem of_finish {s s' : Cpu} {e : Bool} (h : (Cpu.finish (s, e)).Alike (Cpu.finish (s', e))) :
    ∀ r ≠ regZero, s.registers r = s'.registers r := by
  obtain ⟨f, hf⟩ := finish_eq s e
  rw [hf, hf] at h
  exact h.registers

/-- Both machines write a register and go on. -/
theorem advance {s s' : Cpu} (h : s.Alike s') {v v' : Word} (hv : r = regZero ∨ v = v') :
    Alike { s.setReg r v with pc := s.pc + 4 } { s'.setReg r v' with pc := s'.pc + 4 } where
  registers := by
    intro r' hr'
    simp only [setReg, Function.update_apply]
    split
    · next heq => exact hv.resolve_left (heq ▸ hr')
    · exact h.registers r' hr'
  pc := congrArg (· + 4) h.pc
  hi := h.hi
  lo := h.lo
  cp0 := h.cp0

end Alike

/-- The cycles of the two machines both end, with machines that agree and, each, the memory its
fetch left. -/
def CyclesAgree (s t s' t' : Cpu) : Prop :=
  ∃ u u', s.cycle = .ok u ∧ s'.cycle = .ok u' ∧ u.Alike u' ∧ u.mmu = t.mmu ∧ u'.mmu = t'.mmu

/-- Two instructions that write one register agree just if they write the same value, or `$zero`. -/
theorem cyclesAgree_iff {s t s' t' : Cpu} {v v' : Word} (halike : t.Alike t')
    (hs : s.fetchExecute = (t.setReg r v).advance)
    (hs' : s'.fetchExecute = (t'.setReg r v').advance) :
    s.CyclesAgree t s' t' ↔ r = regZero ∨ v = v' := by
  have hcycle := s.cycle_eq
  have hcycle' := s'.cycle_eq
  rw [hs] at hcycle
  rw [hs'] at hcycle'
  constructor
  · rintro ⟨u, u', hu, hu', hagree, -⟩
    obtain rfl := Except.ok.inj (hcycle.symm.trans hu)
    obtain rfl := Except.ok.inj (hcycle'.symm.trans hu')
    by_cases hr : r = regZero
    · exact .inl hr
    · have heq := hagree.of_finish r hr
      simp only [setReg, Function.update_self] at heq
      exact .inr heq
  · intro hv
    exact ⟨_, _, hcycle, hcycle', (halike.advance hv).finish false, finish_mmu _ _, finish_mmu _ _⟩

/-! ### The loop -/

/-- `k` iterations of the loop of `CPU::run`. -/
def run : Nat → Cpu → Except Ub Cpu
  | 0, s => .ok s
  | k + 1, s => do
    let s ← s.cycle
    run k s

end UcoreMips.Emulator.Cpu
