import UcoreMips.Emulator.Cycle

/-!
# UcoreMips.Emulator.TlbWrite

**Writing the TLB.** `tlbwi` replaces the entry that `Index` names. `Index` is a register like any
other: `mtc0` moves all 32 bits into it, and `exe_tlbwi` indexes `tlb_key_` and `tlb_data_` with
them. With a value below 16 it does what it should, and the next access that no earlier entry
matches goes through the new one (`writeTlb_lookup`); with any other it writes outside the arrays.

That is the only way to leave them: `addr_translate` runs over the entries from 0 to 15.
-/

namespace UcoreMips.Emulator

namespace Mmu

/-- What `addr_translate` does once it has found the half of an entry. -/
def useEntry (m : Mmu) (c : Cp0) (va : Word) (write : Bool) (entryLo : Word) : Access Word :=
  if entryLo.getLsbD 1 = false then
    { val := 0, exception := true, mmu := m,
      cp0 := c.tlbException (if write then .tlbs else .tlbl) va }
  else if entryLo.getLsbD 2 = false ∧ write = true then
    { val := 0, exception := true, cp0 := c.tlbException .mod va, mmu := m }
  else
    { val := (entryLo <<< 6 &&& 0xfffff000#32) ||| (va &&& 0x00000fff#32),
      exception := false, cp0 := c, mmu := m }

/-- The address is translated by the TLB. -/
def Translated (va : Word) : Prop := ¬(kseg0Base ≤ va ∧ va < kseg1Base + kseg1Size)

variable {m : Mmu} {va : Word} {i : Fin tlbEntries}

theorem addrTranslate_of_lookup (c : Cp0) (write : Bool)
    (hva : Translated va) (h : m.tlbLookup (va >>> 13) = some i) :
    m.addrTranslate c va write = m.useEntry c va write (m.tlbData (va.extractLsb' 12 1) i) := by
  have hout := fun hseg => hva ((unmapped_iff va).mp hseg)
  unfold addrTranslate
  rw [if_neg fun hseg => hout (.inl hseg), if_neg fun hseg => hout (.inr hseg), h]
  rfl

/-- A lookup finds the first entry with the key. -/
theorem tlbLookup_eq_some {vpn2 : Word}
    (hkey : m.tlbKey i >>> 13 = vpn2) (hlower : ∀ j < i, m.tlbKey j >>> 13 ≠ vpn2) :
    m.tlbLookup vpn2 = some i := by
  unfold tlbLookup
  rw [List.find?_eq_some_iff_getElem]
  refine ⟨by simpa using hkey, i, by simp, by simp, ?_⟩
  intro j hj
  have hne := hlower ⟨j, Nat.lt_trans hj i.isLt⟩ hj
  simpa using hne

/-- The halves of an entry, by bit 12 of the address. -/
def half (lo0 lo1 va : Word) : Word := if va.extractLsb' 12 1 = 0 then lo0 else lo1

/-- An access that matches the new key, and none before it, uses the new entry. -/
theorem writeTlb_lookup {hi lo0 lo1 : Word} (c : Cp0)
    (write : Bool) (hva : Translated va) (hkey : hi >>> 13 = va >>> 13)
    (hlower : ∀ j < i, (m.writeTlb i hi lo0 lo1).tlbKey j >>> 13 ≠ va >>> 13) :
    (m.writeTlb i hi lo0 lo1).addrTranslate c va write =
      (m.writeTlb i hi lo0 lo1).useEntry c va write (half lo0 lo1 va) := by
  have hself : (m.writeTlb i hi lo0 lo1).tlbKey i = hi := Function.update_self _ _ _
  rw [addrTranslate_of_lookup c write hva (tlbLookup_eq_some (by rw [hself, hkey]) hlower)]
  congr 1
  exact Function.update_self _ _ _

end Mmu

namespace Cpu

/-- The cycle of `s`, which fetches a `tlbwi`, replaces the entry `Index mod 16` and goes on;
an access that the new entry is the first to match then uses it. -/
def WritesEntry (s t : Cpu) : Prop :=
  let i : Fin tlbEntries := Fin.ofNat _ (s.cp0.registers Cp0.index).toNat
  let hi := s.cp0.registers Cp0.entryHi
  let lo0 := s.cp0.registers Cp0.entryLo0
  let lo1 := s.cp0.registers Cp0.entryLo1
  ∃ u, s.fetchExecute = .ok (u, false) ∧
    u = { t with pc := s.pc + 4, mmu := { t.mmu with
      tlbKey := Function.update t.mmu.tlbKey i hi
      tlbData := fun odd => Function.update (t.mmu.tlbData odd) i (if odd = 0 then lo0 else lo1) } } ∧
    ∀ c va write, Mmu.Translated va → hi >>> 13 = va >>> 13 →
      (∀ j < i, u.mmu.tlbKey j >>> 13 ≠ va >>> 13) →
      u.mmu.addrTranslate c va write = u.mmu.useEntry c va write (Mmu.half lo0 lo1 va)

/-- A `tlbwi` that the cycle executes finds `Index` within the TLB. -/
def IndexInBounds (s : Cpu) : Prop :=
  ∀ w t, s.Fetches w t → dispatch w = some .tlbwi → (s.cp0.registers Cp0.index).toNat < tlbEntries

variable {s t : Cpu} {w : Word}

theorem Fetches.exeTlbwi (h : s.Fetches w t)
    (hw : dispatch w = some .tlbwi) : s.fetchExecute = t.exeTlbwi := by
  rw [h.fetchExecute, instructionDecode, h.latched, hw]
  rfl

/-- Only `tlbwi` leaves the TLB. -/
theorem exe_tlbIndex {i : Instr} (h : exe i t = .error .tlbIndex) : i = .tlbwi := by
  cases i
  case tlbwi => rfl
  all_goals exfalso
  case sllv | srlv | srav =>
    simp only [exe, exeSllv, exeSrlv, exeSrav, shiftByReg] at h
    split at h <;> cases h
  case mult =>
    simp only [exe, exeMult] at h
    split at h <;> cases h
  case bltz | bgez | beq | bne | blez | bgtz =>
    simp only [exe, exeBltz, exeBgez, exeBeq, exeBne, exeBlez, exeBgtz, branchIf] at h
    split at h <;> cases h
  case lb | lw | lbu | lhu =>
    simp only [exe, exeLb, exeLw, exeLbu, exeLhu, load] at h
    split at h <;> cases h
  case sb | sw =>
    simp only [exe, exeSb, exeSw, store] at h
    split at h <;> cases h
  all_goals cases h

theorem exeTlbwi_eq_error {e : Ub} (h : t.exeTlbwi = .error e) :
    ¬(t.cp0.registers Cp0.index).toNat < tlbEntries := by
  intro hlt
  rw [exeTlbwi, dif_pos hlt] at h
  cases h

/-- A cycle leaves the TLB just if it executes a `tlbwi` with `Index` out of bounds. -/
theorem cycle_tlbIndex_iff (s : Cpu) : s.cycle = .error .tlbIndex ↔ ¬s.IndexInBounds := by
  have hindex : ∀ {w t}, s.Fetches w t →
      t.cp0.registers Cp0.index = s.cp0.registers Cp0.index := fun h =>
    h.cp0_registers (by decide)
  constructor
  · intro h hbounds
    obtain ⟨w, t, i, hfetch, hw, hexe⟩ := fetches_of_fetchExecute (cycle_eq_error h) (by simp)
    obtain rfl := exe_tlbIndex hexe
    refine exeTlbwi_eq_error hexe ?_
    rw [hindex hfetch]
    exact hbounds w t hfetch hw
  · intro h
    simp only [IndexInBounds, not_forall] at h
    obtain ⟨w, t, hfetch, hw, hlt⟩ := h
    rw [← hindex hfetch] at hlt
    rw [cycle_eq, hfetch.exeTlbwi hw, exeTlbwi, dif_neg hlt]
    rfl

/-- A `tlbwi` does what it should just if `Index` is within the TLB. -/
theorem writesEntry_iff (hfetch : s.Fetches w t) (hw : dispatch w = some .tlbwi) :
    s.WritesEntry t ↔ (s.cp0.registers Cp0.index).toNat < tlbEntries := by
  have hexe := hfetch.exeTlbwi hw
  unfold exeTlbwi at hexe
  rw [hfetch.cp0_registers (by decide), hfetch.cp0_registers (by decide),
    hfetch.cp0_registers (by decide), hfetch.cp0_registers (by decide)] at hexe
  constructor
  · rintro ⟨u, hu, -⟩
    by_contra hlt
    rw [hu, dif_neg hlt] at hexe
    cases hexe
  · intro hlt
    rw [dif_pos hlt] at hexe
    have hfin : Fin.ofNat tlbEntries (s.cp0.registers Cp0.index).toNat =
        ⟨(s.cp0.registers Cp0.index).toNat, hlt⟩ := Fin.ext (Nat.mod_eq_of_lt hlt)
    refine ⟨_, hexe, ?_, ?_⟩
    · rw [hfin, ← hfetch.pc]
      rfl
    · rw [hfin]
      intro c va write hva hkey hlower
      exact Mmu.writeTlb_lookup c write hva hkey hlower

/-- A run stays within the TLB just if every `tlbwi` it executes finds `Index` within it. -/
theorem run_tlbIndex_iff (k : Nat) (s : Cpu) : s.run k ≠ .error .tlbIndex ↔
    ∀ j < k, ∀ u, s.run j = .ok u → u.IndexInBounds := by
  -- the run is cut after its first cycle
  induction k generalizing s with
  | zero => exact iff_of_true (by rintro ⟨⟩) (by simp)
  | succ k ih =>
    have hsplit : (∀ j < k + 1, ∀ u, s.run j = .ok u → u.IndexInBounds) ↔
        s.IndexInBounds ∧ ∀ j < k, ∀ u, s.run (j + 1) = .ok u → u.IndexInBounds := by
      constructor
      · exact fun h => ⟨h 0 (by omega) s rfl, fun j hj => h (j + 1) (by omega)⟩
      · rintro ⟨hzero, hsucc⟩ (_ | j) hj u hu
        · cases hu
          exact hzero
        · exact hsucc j (by omega) u hu
    rw [hsplit]
    have hcycle := s.cycle_tlbIndex_iff
    cases hc : s.cycle with
    | error e =>
      have hrun : ∀ j, s.run (j + 1) = .error e := fun j => by rw [run, hc]; rfl
      simp only [hrun, reduceCtorEq, false_imp_iff, implies_true, and_true]
      rw [hc] at hcycle
      exact not_iff_comm.mp hcycle.symm
    | ok s' =>
      have hrun : ∀ j, s.run (j + 1) = s'.run j := fun j => by rw [run, hc]; rfl
      have hbounds : s.IndexInBounds := by
        by_contra hout
        cases hc.symm.trans (hcycle.mpr hout)
      simp only [hrun, hbounds, true_and]
      exact ih s'

/-- **The TLB is written within its bounds** just if `Index` is below 16. A `tlbwi` then replaces
exactly the entry it names, and later accesses use it; and a run stays within the TLB just if every
`tlbwi` it executes finds `Index` below 16. -/
theorem tlbwi_in_bounds_iff (s : Cpu) :
    (∀ (t : Cpu) (w : Word), s.Fetches w t → dispatch w = some .tlbwi →
      (s.WritesEntry t ↔ (s.cp0.registers Cp0.index).toNat < tlbEntries)) ∧
    ∀ k : Nat, s.run k ≠ .error .tlbIndex ↔ ∀ j < k, ∀ u, s.run j = .ok u → u.IndexInBounds :=
  ⟨fun _ _ => writesEntry_iff, fun k => s.run_tlbIndex_iff k⟩

/-- A `tlbwi` at the reset vector writes the first entry. -/
theorem tlbwi_in_bounds_first : ∃ t, (powerOn [0x02, 0x00, 0x00, 0x42]).WritesEntry t :=
  have hfetch : (powerOn [0x02, 0x00, 0x00, 0x42]).Fetches 0x42000002 _ := ⟨rfl, rfl⟩
  ⟨_, ((tlbwi_in_bounds_iff _).1 _ _ hfetch rfl).mpr (by decide)⟩

/-- `addiu $2, $0, 16; mtc0 $2, Index; tlbwi` writes behind the TLB. -/
theorem tlbwi_writes_outside :
    (powerOn [0x10, 0x00, 0x02, 0x24, 0x00, 0x00, 0x82, 0x40, 0x02, 0x00, 0x00, 0x42]).run 3 =
      .error .tlbIndex := by
  rfl

end Cpu

end UcoreMips.Emulator
