import UcoreMips.Emulator.ClockInterrupt
import UcoreMips.Emulator.Cycle
import UcoreMips.Lib.Result

/-!
# UcoreMips.Emulator.ClockTicks

**No clock tick is lost or doubled.** `next` counts every cycle, but looks at the clock only after an
instruction that completed. A tick that falls due in a cycle with a synchronous exception is not
lost: `Count` stays at or above `Compare` and the next instruction to complete clears it.

`sinceClear` is the number of cycles since the last one that left `Count` at zero, a notion of the
trace and not of the machine. As long as the program writes neither register, `Count` is that
number (`count_eq_sinceClear`); all else follows from what one cycle does (`cycle_count`).
-/

namespace UcoreMips.Emulator.Cpu

open UcoreMips.Lib Nat Cp0

/-! ### What an instruction does to the clock -/

/-- The cycle executes an `mtc0` to `Count` or `Compare`. -/
def WritesClock (s : Cpu) : Prop :=
  ∃ w t, s.Fetches w t ∧ dispatch w = some .mtc0 ∧ (Word.rd w = Cp0.count ∨ Word.rd w = Cp0.compare)

/-- The cycle raises no synchronous exception. -/
def Completes (s : Cpu) : Prop := ∃ t, s.fetchExecute = .ok (t, false)

/-- The clock interrupt is enabled when the instruction of the cycle has completed. -/
def ClockEnabled (s : Cpu) : Prop := ∃ t, s.fetchExecute = .ok (t, false) ∧ t.cp0.AcceptsClock

variable {t s : Cpu} {f : Option Fault} {e : Bool}

theorem load_cp0 {α : Type} {t' : Cpu} {a : Access α} {g : α → Word}
    (ha : a.Obeys t.mmu t.cp0 f) (h : t.load a g = .ok (t', false)) : t'.cp0 = t.cp0 := by
  unfold load at h
  split at h
  · cases h
  · next hexc =>
    have hnone := ha.exception_eq_false.mp (by simpa using hexc)
    rw [hnone] at ha
    cases h
    exact ha.cp0

theorem store_cp0 {t' : Cpu} {a : Access Unit} (ha : a.Obeys t.mmu t.cp0 f)
    (h : t.store a = .ok (t', false)) : t'.cp0 = t.cp0 := by
  unfold store at h
  split at h
  · cases h
  · next hexc =>
    have hnone := ha.exception_eq_false.mp (by simpa using hexc)
    rw [hnone] at ha
    cases h
    exact ha.cp0

/-- Of the instructions that complete, only `mtc0` and `eret` write CP0. -/
theorem exe_cp0 {i : Instr} {t' : Cpu} (h : exe i t = .ok (t', false)) (hmtc0 : i ≠ .mtc0) (heret : i ≠ .eret)
    : t'.cp0 = t.cp0 := by
  cases i with
  | mtc0 => exact absurd rfl hmtc0
  | eret => exact absurd rfl heret
  | lb => exact load_cp0 (t.mmu.readByte_obeys t.cp0 _) h
  | lbu => exact load_cp0 (t.mmu.readByte_obeys t.cp0 _) h
  | lhu => exact load_cp0 (t.mmu.readHalfWord_obeys t.cp0 _) h
  | lw =>
    have hload : t.load (t.mmu.readWord t.cp0 t.effectiveAddr) (fun v => v) = .ok (t', false) := h
    exact load_cp0 (t.mmu.readWord_obeys t.cp0 _) hload
  | sb => exact store_cp0 (t.mmu.writeByte_obeys t.cp0 _ _) h
  | sw => exact store_cp0 (t.mmu.writeWord_obeys t.cp0 _ _) h
  | sllv | srlv | srav =>
    simp only [exe, exeSllv, exeSrlv, exeSrav, shiftByReg] at h
    split at h <;> cases h
    rfl
  | bltz | bgez | beq | bne | blez | bgtz =>
    simp only [exe, exeBltz, exeBgez, exeBeq, exeBne, exeBlez, exeBgtz, branchIf] at h
    split at h <;> cases h <;> rfl
  | mult =>
    simp only [exe, exeMult] at h
    split at h <;> cases h
    rfl
  | tlbwi =>
    simp only [exe, exeTlbwi] at h
    split at h <;> cases h
    rfl
  | syscall => cases h
  | _ =>
    cases h
    rfl

/-- A cycle that writes neither `Count` nor `Compare` counts itself, whether it faults or not. -/
theorem fetchExecute_clock (h : s.fetchExecute = .ok (t, e)) (hclock : ¬s.WritesClock) :
    t.cp0.registers count = s.cp0.registers count + 1 ∧
      t.cp0.registers compare = s.cp0.registers compare := by
  have hstart : s.startCycle.cp0.registers count = s.cp0.registers count + 1 ∧
      s.startCycle.cp0.registers compare = s.cp0.registers compare :=
    ⟨s.cp0.set_registers_self _ _, s.cp0.set_registers_of_ne _ (by decide)⟩
  rw [← hstart.1, ← hstart.2]
  cases e with
  | true =>
    obtain ⟨f, -, -, hcp0, -⟩ := fetchExecute_fault h
    rw [hcp0]
    exact ⟨f.record_other _ (by decide), f.record_other _ (by decide)⟩
  | false =>
    obtain ⟨w, u, i, hfetch, hw, hexe⟩ := fetches_of_fetchExecute h (by simp)
    rw [← hfetch.cp0]
    by_cases heret : i = .eret
    · subst heret
      cases hexe
      exact ⟨u.cp0.set_registers_of_ne _ (by decide), u.cp0.set_registers_of_ne _ (by decide)⟩
    by_cases hmtc0 : i = .mtc0
    · subst hmtc0
      cases hexe
      have hne : Word.rd u.instruction ≠ Cp0.count ∧ Word.rd u.instruction ≠ Cp0.compare := by
        rw [hfetch.latched]
        exact ⟨fun h => hclock ⟨w, u, hfetch, hw, .inl h⟩,
          fun h => hclock ⟨w, u, hfetch, hw, .inr h⟩⟩
      exact ⟨u.cp0.set_registers_of_ne _ hne.1.symm, u.cp0.set_registers_of_ne _ hne.2.symm⟩
    · rw [exe_cp0 hexe hmtc0 heret]
      exact ⟨rfl, rfl⟩

/-- The clock is due when the instruction of the cycle has completed. -/
def ClockDue (s : Cpu) : Prop :=
  s.Completes ∧ s.cp0.registers compare ≤ s.cp0.registers count + 1

theorem finish_held (h : ¬(t.cp0.registers compare ≤ t.cp0.registers count ∧ t.cp0.AcceptsClock)) :
    finish (t, false) = t.clockTick := by
  simp [finish, clockInterrupt_held h]

theorem finish_delivered (hdue : t.cp0.registers compare ≤ t.cp0.registers count)
    (haccept : t.cp0.AcceptsClock) : finish (t, false) = t.clockPending.enterException := by
  simp [finish, clockInterrupt_delivered hdue haccept]

/-- The end of a cycle clears `Count` if the clock is due after its instruction. -/
theorem finish_count (t : Cpu) :
    (finish (t, false)).cp0.registers count =
        (if t.cp0.registers compare ≤ t.cp0.registers count then 0
          else t.cp0.registers count) ∧
      (finish (t, false)).cp0.registers compare = t.cp0.registers compare := by
  by_cases hdue : t.cp0.registers compare ≤ t.cp0.registers count
  · by_cases haccept : t.cp0.AcceptsClock
    · rw [finish_delivered hdue haccept, if_pos hdue]
      exact ⟨(clockEffect haccept).count, (clockEffect haccept).other _ (by decide)⟩
    · rw [finish_held (fun h => haccept h.2), clockTick, if_pos hdue, if_pos hdue]
      exact ⟨t.cp0.set_registers_self _ _, t.cp0.set_registers_of_ne _ (by decide)⟩
  · rw [finish_held (fun h => hdue h.1), clockTick, if_neg hdue, if_neg hdue]
    exact ⟨rfl, rfl⟩

theorem finish_fault_count (t : Cpu) :
    (finish (t, true)).cp0.registers count = t.cp0.registers count ∧
      (finish (t, true)).cp0.registers compare = t.cp0.registers compare := by
  have hkeep : ∀ r, r ≠ sr → r ≠ epc →
      t.enterException.cp0.registers r = t.cp0.registers r := by
    intro r hsr hepc
    rw [enterException_registers, if_neg hsr, if_neg hepc]
  exact ⟨hkeep _ (by decide) (by decide), hkeep _ (by decide) (by decide)⟩

theorem completes_iff (h : s.fetchExecute = .ok (t, e)) : s.Completes ↔ e = false := by
  constructor
  · rintro ⟨t', ht'⟩
    rw [h] at ht'
    cases ht'
    rfl
  · rintro rfl
    exact ⟨t, h⟩

/-- What a cycle that writes neither register does to them: it counts, and an instruction that
completes with the clock due clears `Count`. -/
theorem cycle_count {s s' : Cpu} (h : s.cycle = .ok s') (hclock : ¬s.WritesClock) :
    (s.ClockDue → s'.cp0.registers count = 0) ∧
      (¬s.ClockDue → s'.cp0.registers count = s.cp0.registers count + 1) ∧
      s'.cp0.registers compare = s.cp0.registers compare := by
  rw [cycle_eq] at h
  obtain ⟨⟨t, e⟩, hfe, rfl⟩ := map_eq_ok.mp h
  obtain ⟨hcount, hcompare⟩ := fetchExecute_clock hfe hclock
  rw [ClockDue, completes_iff hfe, ← hcount, ← hcompare]
  cases e with
  | true =>
    obtain ⟨hcount', hcompare'⟩ := finish_fault_count t
    exact ⟨fun hdue => absurd hdue.1 (by decide), fun _ => hcount', hcompare'⟩
  | false =>
    obtain ⟨hcount', hcompare'⟩ := finish_count t
    refine ⟨fun hdue => ?_, fun hdue => ?_, hcompare'⟩
    · rw [hcount', if_pos hdue.2]
    · rw [hcount', if_neg fun hle => hdue ⟨rfl, hle⟩]

/-- The interrupt is delivered in the cycles with the clock due in which it is enabled. -/
theorem deliversClock_iff_due {s s' : Cpu} (h : s.cycle = .ok s') (hclock : ¬s.WritesClock) :
    s.DeliversClock s' ↔ s.ClockDue ∧ s.ClockEnabled := by
  rw [deliversClock_iff]
  constructor
  · rintro ⟨t, hfe, hdue, haccept, -⟩
    obtain ⟨hcount, hcompare⟩ := fetchExecute_clock hfe hclock
    exact ⟨⟨⟨t, hfe⟩, by rwa [← hcount, ← hcompare]⟩, t, hfe, haccept⟩
  · rintro ⟨⟨-, hdue⟩, t, hfe, haccept⟩
    obtain ⟨hcount, hcompare⟩ := fetchExecute_clock hfe hclock
    rw [← hcount, ← hcompare] at hdue
    refine ⟨t, hfe, hdue, haccept, ?_⟩
    rw [cycle_eq, hfe] at h
    exact (Except.ok.inj h).symm.trans (finish_delivered hdue haccept)

/-! ### Traces -/

/-- `Count` is zero after the cycle `i`. -/
abbrev Cleared (σ : Nat → Cpu) (i : Nat) : Prop := (σ (i + 1)).cp0.registers count = 0

/-- The number of cycles since the last one that left `Count` at zero. -/
def sinceClear (σ : Nat → Cpu) : Nat → Nat
  | 0 => 0
  | i + 1 => if Cleared σ i then 0 else sinceClear σ i + 1

/-- `k` iterations of `CPU::run`, with `σ` the states between them, in which no instruction writes
the clock's registers; it starts with `Count` at zero and `Compare` at `c`, and fewer than `2 ^ 32`
cycles go by between two ticks. -/
structure Ticking (σ : Nat → Cpu) (k : Nat) (c : Word) : Prop where
  step : ∀ i < k, (σ i).cycle = .ok (σ (i + 1))
  kept : ∀ i < k, ¬(σ i).WritesClock
  count : (σ 0).cp0.registers count = 0
  compare : (σ 0).cp0.registers compare = c
  pos : 0 < c.toNat
  fits : ∀ i < k, sinceClear σ i + 1 < 2 ^ 32

namespace Ticking

variable {σ : Nat → Cpu} {k : Nat} {c : Word} (h : Ticking σ k c)

include h

variable {i : Nat}

theorem compare_eq (hi : i ≤ k) : (σ i).cp0.registers Cp0.compare = c := by
  induction i with
  | zero => exact h.compare
  | succ i ih => exact (cycle_count (h.step i hi) (h.kept i hi)).2.2.trans (ih (by omega))

/-- `Count` is the number of cycles since it was cleared. -/
theorem count_eq_sinceClear (hi : i ≤ k) :
    ((σ i).cp0.registers Cp0.count).toNat = sinceClear σ i := by
  induction i with
  | zero =>
    rw [h.count]
    rfl
  | succ i ih =>
    obtain ⟨hdue, hcounted, -⟩ := cycle_count (h.step i hi) (h.kept i hi)
    have hfits := h.fits i hi
    rw [sinceClear]
    split
    · next hclear => rw [hclear]; rfl
    · next hclear =>
      rw [hcounted (fun hd => hclear (hdue hd)), BitVec.toNat_add, ih (by omega)]
      exact mod_eq_of_lt hfits

/-- The count of the current cycle, without wrapping around. -/
theorem toNat_count_add_one (hi : i < k) :
    ((σ i).cp0.registers Cp0.count + 1).toNat = sinceClear σ i + 1 := by
  rw [BitVec.toNat_add, h.count_eq_sinceClear (le_of_lt hi)]
  exact mod_eq_of_lt (h.fits i hi)

theorem clockDue_iff (hi : i < k) :
    (σ i).ClockDue ↔ c.toNat ≤ sinceClear σ i + 1 ∧ (σ i).Completes := by
  rw [ClockDue, h.compare_eq (le_of_lt hi), BitVec.le_def, h.toNat_count_add_one hi, and_comm]

/-- `Count` is cleared in the cycles with the clock due: in the others it has been counted up. -/
theorem cleared_iff (hi : i < k) : Cleared σ i ↔ (σ i).ClockDue := by
  obtain ⟨hdue, hcounted, -⟩ := cycle_count (h.step i hi) (h.kept i hi)
  refine ⟨fun hclear => ?_, hdue⟩
  by_contra hnot
  have hzero := congrArg BitVec.toNat ((hcounted hnot).symm.trans hclear)
  rw [h.toNat_count_add_one hi] at hzero
  exact succ_ne_zero _ hzero

/-- Without synchronous exceptions, the cycles are `c` for each tick, and those since the last. -/
theorem count_cleared (hall : ∀ i < k, (σ i).Completes) (hi : i ≤ k) :
    i = c.toNat * Nat.count (Cleared σ) i + sinceClear σ i ∧ sinceClear σ i < c.toNat := by
  have hpos := h.pos
  induction i with
  | zero => exact ⟨by simp [sinceClear], by simpa [sinceClear] using hpos⟩
  | succ i ih =>
    obtain ⟨-, -⟩ := ih (by omega)
    have hiff := (h.cleared_iff hi).trans (h.clockDue_iff hi)
    rw [sinceClear, count_succ]
    split
    · next hclear =>
      have hle := (hiff.mp hclear).1
      rw [Nat.mul_add, Nat.mul_one]
      omega
    · next hclear =>
      have hnot : ¬c.toNat ≤ sinceClear σ i + 1 := fun hle => hclear (hiff.mpr ⟨hle, hall i hi⟩)
      simp only [add_zero]
      omega

end Ticking

/-- **No clock tick is lost or doubled.** With `n` the number of cycles since `Count` was cleared,
the current one included, it is cleared in exactly the cycles with `n` at least `Compare` and no
synchronous exception, and is `n` after every other cycle; the interrupt is delivered in exactly
those of the clearing cycles in which it is enabled. Without synchronous exceptions, `k` cycles clear
`Count` `k / Compare` times. -/
theorem clock_ticks {σ : Nat → Cpu} {k : Nat} {c : Word} (h : Ticking σ k c) :
    (∀ i < k, (Cleared σ i ↔ c.toNat ≤ sinceClear σ i + 1 ∧ (σ i).Completes) ∧
      (¬Cleared σ i → ((σ (i + 1)).cp0.registers Cp0.count).toNat = sinceClear σ i + 1) ∧
      ((σ i).DeliversClock (σ (i + 1)) ↔ Cleared σ i ∧ (σ i).ClockEnabled)) ∧
    ((∀ i < k, (σ i).Completes) → Nat.count (Cleared σ) k = k / c.toNat) := by
  refine ⟨fun i hi => ⟨(h.cleared_iff hi).trans (h.clockDue_iff hi), fun hclear => ?_, ?_⟩,
    fun hall => ?_⟩
  · rw [h.count_eq_sinceClear hi, sinceClear, if_neg hclear]
  · rw [h.cleared_iff hi]
    exact deliversClock_iff_due (h.step i hi) (h.kept i hi)
  · obtain ⟨hsum, hlt⟩ := h.count_cleared hall (le_refl k)
    refine (Nat.div_eq_of_lt_le ?_ ?_).symm
    · rw [Nat.mul_comm]
      omega
    · rw [Nat.mul_comm, Nat.mul_add]
      omega

/-- The machine at the start of two `nop`s, with `Compare` at 2, and after each of them. -/
def twoNops : Nat → Cpu
  | 0 => { powerOn [0, 0, 0, 0, 0, 0, 0, 0] with cp0 := (powerOn []).cp0.set compare 2 }
  | i + 1 => match (twoNops i).cycle with
    | .ok s => s
    | .error _ => twoNops i

/-- The second `nop` clears `Count`. -/
theorem clock_ticks_nops : Nat.count (Cleared twoNops) 2 = 1 := by
  have hclock : ∀ i < 2, ¬(twoNops i).WritesClock := by
    rintro i hi ⟨w, t, hfetch, hd, -⟩
    rw [← hfetch.latched, hfetch.eq_fetch] at hd
    match i, hi with
    | 0, _ => exact absurd hd (by decide)
    | 1, _ => exact absurd hd (by decide)
  have hticking : Ticking twoNops 2 2 := by
    refine ⟨fun i hi => ?_, hclock, by decide, by decide, by decide, fun i hi => ?_⟩
    · match i, hi with
      | 0, _ => rfl
      | 1, _ => rfl
    · match i, hi with
      | 0, _ => decide
      | 1, _ => decide
  refine (clock_ticks hticking).2 fun i hi => ?_
  match i, hi with
  | 0, _ => exact ⟨_, rfl⟩
  | 1, _ => exact ⟨_, rfl⟩

end UcoreMips.Emulator.Cpu
