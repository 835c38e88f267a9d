import UcoreMips.Emulator.Cycle

/-!
# UcoreMips.Emulator.ControlTransfer

**Where branches and jumps go.** `Transfer.target` is the address MIPS32 gives for each of them, from
the address of the instruction and the registers before it; `Transfer.link` the register that gets the
return address.

The emulator has no delay slots. In MIPS32 the region of a `j` or `jal` is that of the instruction in
the delay slot, at `pc + 4`; the emulator takes that of the jump itself. The two are the same except
at the last word of a region of 256 MiB.
-/

namespace UcoreMips.Emulator

open BitVec Word

/-- The branches and jumps. -/
inductive Transfer
  | bltz | bgez | blez | bgtz | beq | bne | j | jal | jr | jalr
  deriving Repr, DecidableEq

namespace Transfer

def instr : Transfer → Instr
  | bltz => .bltz | bgez => .bgez | blez => .blez | bgtz => .bgtz | beq => .beq | bne => .bne
  | j => .j | jal => .jal | jr => .jr | jalr => .jalr

/-- The target of a branch. -/
def branchTarget (pc : Word) (offset : Half) (taken : Bool) : Word :=
  if taken then pc + 4 + 4 * offset.signExtend 32 else pc + 4

/-- The 256 MiB around an address. -/
def region (pc : Word) : Word := pc &&& 0xf0000000#32

/-- The target of a jump within the region of the next instruction. -/
def regionTarget (pc : Word) (target : BitVec 26) : Word :=
  region (pc + 4) ||| target.setWidth 32 <<< 2

/-- Where the transfer in `w` goes from `s`. -/
def target (s : Cpu) (w : Word) : Transfer → Word
  | bltz => branchTarget s.pc (branchOffset w) ((s.reg (rs w)).toInt < 0)
  | bgez => branchTarget s.pc (branchOffset w) (0 ≤ (s.reg (rs w)).toInt)
  | blez => branchTarget s.pc (branchOffset w) ((s.reg (rs w)).toInt ≤ 0)
  | bgtz => branchTarget s.pc (branchOffset w) (0 < (s.reg (rs w)).toInt)
  | beq => branchTarget s.pc (branchOffset w) (s.reg (rs w) = s.reg (rt w))
  | bne => branchTarget s.pc (branchOffset w) (s.reg (rs w) ≠ s.reg (rt w))
  | j | jal => regionTarget s.pc (jumpTarget w)
  | jr | jalr => s.reg (rs w)

/-- The link register. -/
def link (w : Word) : Transfer → Option RegNo
  | jal => some regRA
  | jalr => some (rd w)
  | _ => none

end Transfer

/-! ### Regions -/

/-- A region and a target within it are two fields of the address. -/
theorem region_or_target (pc : Word) (target : BitVec 26) :
    Transfer.region pc ||| target.setWidth 32 <<< 2 = pc.extractLsb' 28 4 ++ (target ++ 0#2) := by
  have hmask : ∀ i < 32, (0xf0000000#32).getLsbD i = decide (28 ≤ i) := by decide
  apply eq_of_getLsbD_eq
  intro i hi
  rw [Transfer.region, getLsbD_or, getLsbD_and, hmask i hi]
  simp
  grind

variable {pc : Word}

/-- The next instruction is in another region just at the last word of one. -/
theorem extract_region_iff (haligned : pc.toNat % 4 = 0) :
    pc.extractLsb' 28 4 = (pc + 4).extractLsb' 28 4 ↔ pc.toNat % 2 ^ 28 ≠ 2 ^ 28 - 4 := by
  rw [← toNat_inj, BitVec.extractLsb'_toNat, BitVec.extractLsb'_toNat, toNat_add,
    Nat.shiftRight_eq_div_pow, Nat.shiftRight_eq_div_pow]
  have hfour : (4 : Word).toNat = 4 := rfl
  omega

theorem regionTarget_eq_iff (haligned : pc.toNat % 4 = 0) (target : BitVec 26) :
    Transfer.region pc ||| target.setWidth 32 * 4 = Transfer.regionTarget pc target ↔
      pc.toNat % 2 ^ 28 ≠ 2 ^ 28 - 4 := by
  have hshift : (target.setWidth 32 * 4 : Word) = target.setWidth 32 <<< 2 := by
    apply eq_of_toNat_eq
    rw [toNat_mul, toNat_shiftLeft, Nat.shiftLeft_eq]
    rfl
  rw [hshift, Transfer.regionTarget, region_or_target, region_or_target,
    ← extract_region_iff haligned]
  constructor
  · intro h
    have hfield := congrArg (BitVec.extractLsb' 28 4) h
    rw [extractLsb'_append_eq_left, extractLsb'_append_eq_left] at hfield
    exact hfield
  · intro h
    rw [h]

namespace Cpu

variable {w pc : Word} {t s u : Cpu} {taken cond : Bool} {x : Transfer}

theorem Fetches.aligned (h : s.Fetches w t) : s.pc.toNat % 4 = 0 := by
  have hbits := (Mmu.accessFault_eq_none.mp h.accessFault).1
  have hnat := congrArg BitVec.toNat hbits
  rw [UcoreMips.Lib.toNat_and_low (k := 2) (by decide)] at hnat
  exact hnat

theorem Fetches.jumpAddr (h : s.Fetches w t) :
    t.jumpAddr = Transfer.region s.pc ||| (jumpTarget w).setWidth 32 * 4 := by
  rw [Cpu.jumpAddr, h.latched, h.pc, Transfer.region]

/-! ### Branches -/

theorem branchIf_eq (hpc : t.pc = pc) (hlatched : t.instruction = w) (hcond : cond = taken) :
    t.branchIf cond =
      .ok ({ t with pc := Transfer.branchTarget pc (branchOffset w) taken }, false) := by
  subst hpc hlatched hcond
  unfold branchIf Transfer.branchTarget
  cases cond with
  | false => rfl
  | true =>
    simp only [if_true, advance]
    congr 3
    bv_omega

/-! ### Following MIPS32 -/

/-- A `jr` through `r`, in any machine that still has in `r` what `u` has there, goes to `pc`. -/
def ReturnsTo (u : Cpu) (r : RegNo) (pc : Word) : Prop :=
  ∀ (v t : Cpu) (w : Word), v.registers r = u.registers r → v.Fetches w t →
    Instr.jr.Encodes w → rs w = r → ∃ v', v.fetchExecute = .ok (v', false) ∧ v'.pc = pc

theorem fetchExecute_jr {v : Cpu} (hfetch : v.Fetches w t) (hw : Instr.jr.Encodes w) :
    v.fetchExecute = .ok ({ t with pc := v.reg (rs w) }, false) := by
  rw [hfetch.exe hw, exe, exeJr, hfetch.rsVal]

theorem returnsTo_of_reg {r : RegNo} (h : u.reg r = pc) : u.ReturnsTo r pc := by
  rintro v t w hv hfetch hw rfl
  refine ⟨_, fetchExecute_jr hfetch hw, ?_⟩
  rw [← h, reg, reg, hv]

/-- What was written to `$zero` is lost: through it, `jr` goes to 0. -/
theorem ReturnsTo.eq_zero (h : u.ReturnsTo regZero pc) : pc = 0 := by
  let v : Cpu := { powerOn [0x08, 0x00, 0x00, 0x00] with registers := u.registers }
  -- the registers have no part in the fetch
  have hfetch : v.Fetches 0x00000008 v.startCycle.fetch.1 :=
    ⟨Prod.ext rfl (show (powerOn [0x08, 0x00, 0x00, 0x00]).startCycle.fetch.2 = false from rfl),
      show (powerOn [0x08, 0x00, 0x00, 0x00]).startCycle.fetch.1.instruction = _ from rfl⟩
  have hw : Instr.jr.Encodes 0x00000008 := ⟨by decide, by decide⟩
  obtain ⟨v', hv', hpc⟩ := h v _ _ rfl hfetch hw (by decide)
  rw [fetchExecute_jr hfetch hw] at hv'
  cases hv'
  exact hpc.symm

/-- The instruction in `w` transfers control as MIPS32 has it: it goes to the target, stores the
return address in the link register, where `jr` finds it, and does nothing else. -/
def FollowsMips (s t : Cpu) (w : Word) (x : Transfer) : Prop :=
  ∃ u, s.fetchExecute = .ok (u, false) ∧ u.pc = x.target s w ∧
    u = { t with pc := u.pc, registers := u.registers } ∧
    (∀ r, u.registers r = if x.link w = some r then s.pc + 4 else s.reg r) ∧
    ∀ r, x.link w = some r → u.ReturnsTo r (s.pc + 4)

/-- A transfer that links nowhere follows MIPS32 just if it goes to the target. -/
theorem followsMips_iff_of_unlinked (hfetch : s.Fetches w t)
    (hlink : x.link w = none) (hexe : s.fetchExecute = .ok ({ t with pc := pc }, false)) :
    s.FollowsMips t w x ↔ pc = x.target s w := by
  constructor
  · rintro ⟨u, hu, hpc, -⟩
    rw [hexe] at hu
    cases hu
    exact hpc
  · intro hpc
    refine ⟨_, hexe, hpc, rfl, fun r => ?_, fun r hr => ?_⟩
    · rw [hlink, if_neg (by simp), ← hfetch.registers]
    · rw [hlink] at hr
      cases hr

/-- A transfer that links follows MIPS32 just if it goes to the target and the link can be read. -/
theorem followsMips_iff_of_linked {link : RegNo} (hfetch : s.Fetches w t)
    (hlink : x.link w = some link)
    (hexe : s.fetchExecute = .ok ({ t.setReg link (s.pc + 4) with pc := pc }, false)) :
    s.FollowsMips t w x ↔ pc = x.target s w ∧ (link = regZero → s.pc + 4 = 0) := by
  constructor
  · rintro ⟨u, hu, hpc, -, -, hreturns⟩
    rw [hexe] at hu
    cases hu
    refine ⟨hpc, ?_⟩
    rintro rfl
    exact (hreturns _ hlink).eq_zero
  · rintro ⟨hpc, hzero⟩
    refine ⟨_, hexe, hpc, rfl, fun r => ?_, fun r hr => ?_⟩
    · simp only [setReg, Function.update_apply, hlink, Option.some.injEq, hfetch.registers, eq_comm]
    · obtain rfl := Option.some.inj (hlink.symm.trans hr)
      refine returnsTo_of_reg ?_
      simp only [reg, setReg, Function.update_self]
      split
      · next hr => exact (hzero hr).symm
      · rfl

theorem fetchExecute_branch (hfetch : s.Fetches w t) (hw : x.instr.Encodes w)
    (hlink : x.link w = none)
    (htarget : x.target s w = Transfer.branchTarget s.pc (branchOffset w) taken)
    (hexe : exe x.instr t = t.branchIf cond) (hcond : cond = taken) : s.FollowsMips t w x := by
  refine (followsMips_iff_of_unlinked hfetch hlink ?_).mpr htarget.symm
  rw [hfetch.exe hw, hexe, branchIf_eq hfetch.pc hfetch.latched hcond]

/-- **Control transfer.** Every branch and jump goes where MIPS32 has it go and links as it should,
except that `j` and `jal` do not at the last word of a region of 256 MiB, and that a `jalr` with
`$zero` for its link register leaves nothing to return through. -/
theorem follows_mips_iff (x : Transfer) {s t : Cpu} {w : Word} (hfetch : s.Fetches w t)
    (hw : x.instr.Encodes w) : s.FollowsMips t w x ↔
      (x = .j ∨ x = .jal → s.pc.toNat % 2 ^ 28 ≠ 2 ^ 28 - 4) ∧
      (x = .jalr → rd w = regZero → s.pc + 4 = 0) := by
  have hexe := hfetch.exe hw
  cases x with
  | bltz =>
    refine iff_of_true (fetchExecute_branch hfetch hw rfl rfl rfl ?_) (by simp)
    rw [hfetch.rsVal]
    rfl
  | bgez =>
    refine iff_of_true (fetchExecute_branch hfetch hw rfl rfl rfl ?_) (by simp)
    rw [hfetch.rsVal, BitVec.slt, ← decide_not, decide_eq_decide]
    exact Int.not_lt
  | blez =>
    refine iff_of_true (fetchExecute_branch hfetch hw rfl rfl rfl ?_) (by simp)
    rw [hfetch.rsVal]
    rfl
  | bgtz =>
    refine iff_of_true (fetchExecute_branch hfetch hw rfl rfl rfl ?_) (by simp)
    rw [hfetch.rsVal, BitVec.sle, ← decide_not, decide_eq_decide]
    exact Int.not_le
  | beq =>
    refine iff_of_true (fetchExecute_branch hfetch hw rfl rfl rfl ?_) (by simp)
    rw [hfetch.rsVal, hfetch.rtVal, beq_eq_decide]
  | bne =>
    refine iff_of_true (fetchExecute_branch hfetch hw rfl rfl rfl ?_) (by simp)
    rw [hfetch.rsVal, hfetch.rtVal, bne, beq_eq_decide, decide_not]
  | j =>
    rw [Transfer.instr, exe, exeJ, hfetch.jumpAddr] at hexe
    rw [followsMips_iff_of_unlinked hfetch rfl hexe]
    simpa [Transfer.target] using regionTarget_eq_iff hfetch.aligned (jumpTarget w)
  | jal =>
    have hjump : (t.setReg regRA (t.pc + 4)).jumpAddr = t.jumpAddr := rfl
    rw [Transfer.instr, exe, exeJal, hjump, hfetch.jumpAddr, hfetch.pc] at hexe
    rw [followsMips_iff_of_linked hfetch rfl hexe]
    simpa [Transfer.target, regRA, regZero] using regionTarget_eq_iff hfetch.aligned (jumpTarget w)
  | jr =>
    rw [Transfer.instr, exe, exeJr, hfetch.rsVal] at hexe
    rw [followsMips_iff_of_unlinked hfetch rfl hexe]
    simp [Transfer.target]
  | jalr =>
    rw [Transfer.instr, exe, exeJalr, hfetch.rsVal, hfetch.pc, hfetch.latched] at hexe
    rw [followsMips_iff_of_linked hfetch rfl hexe]
    simp [Transfer.target]

/-- `jalr $2` at the reset vector, with 7 in `$2`. -/
theorem follows_mips_jalr :
    ∃ t, FollowsMips { powerOn [0x09, 0x10, 0x40, 0x00] with registers := fun _ => 7 } t
      0x00401009 .jalr :=
  have hfetch : Fetches { powerOn [0x09, 0x10, 0x40, 0x00] with registers := fun _ => 7 }
    0x00401009 _ := ⟨rfl, rfl⟩
  ⟨_, (follows_mips_iff .jalr hfetch ⟨by decide, by decide⟩).mpr
    ⟨by decide, fun _ h => absurd h (by decide)⟩⟩

/-- A `j 0` in the last word of the first region, which the TLB maps to the first page of RAM. -/
def jumpAtRegionEnd : Cpu :=
  { powerOn [] with
    mmu := { (powerOn []).mmu with
      ram := fun a => if a = 0xfff then 0x08 else 0x00
      tlbKey := fun _ => 0x0fffe000
      tlbData := fun _ _ => 2 }
    pc := 0x0ffffffc }

/-- The emulator jumps to 0, MIPS32 has the jump go to `0x10000000`. -/
theorem jump_at_region_end : ∃ t u, jumpAtRegionEnd.Fetches 0x08000000 t ∧
    Instr.j.Encodes 0x08000000 ∧ jumpAtRegionEnd.fetchExecute = .ok (u, false) ∧ u.pc = 0 ∧
    Transfer.target jumpAtRegionEnd 0x08000000 .j = 0x10000000 ∧
    ¬jumpAtRegionEnd.FollowsMips t 0x08000000 .j := by
  have hexe : jumpAtRegionEnd.fetchExecute = .ok (_, false) := rfl
  refine ⟨_, _, ⟨rfl, rfl⟩, show mainOpcode _ = _ by decide, hexe, rfl, by decide, ?_⟩
  rintro ⟨u, hu, hpc, -⟩
  cases hu
  exact absurd hpc (by decide)

end Cpu

end UcoreMips.Emulator
