import UcoreMips.Emulator.MemoryModel
import UcoreMips.Kernel.Mm.TlbCoherence

/-!
# UcoreMips.Kernel.Mm.TlbRefill

**The kernel's refill and the machine's lookup agree.** The machine takes the first TLB
entry that matches; the kernel writes entries to the slots of its own choice. With the
invariant of the running kernel no two entries have the same key, so the first match is
the slot the mark of the page names, and its half holds the page-table entry.

Two consequences: a page that is marked never misses, so that the handler is only called
where it may (`unmarked_of_raised`); and after the handler every address of the page is
translated as the page table says (`refill_translates`).
-/

namespace UcoreMips.Kernel

open UcoreMips.Lib Vpage
open Emulator (Word Cp0 Mmu Cpu)

/-! ### Lookup in a coherent TLB -/

theorem Vpage.of_shift (la : Word) : (Vpage.of la).key >>> 13 = la >>> 13 := by
  rw [ushiftRight_eq_iff, key_toNat, Vpage.of, BitVec.extractLsb'_toNat, Nat.shiftRight_eq_div_pow]
  omega

section Lookup

variable {pte : Vpage → Word} {m : Mmu} {a : TlbAlgo} {la : Word} {i : Fin 16}

/-- Keys in the TLB have nothing below the page number of the pair. -/
theorem TlbInv.key_eq (h : TlbInv pte m a) {v : Vpage} (hv : v.User)
    (hkey : m.tlbKey i >>> 13 = v.key >>> 13) : i ∈ usedSlots a ∧ m.tlbKey i = v.key := by
  have hvk := v.key_toNat
  unfold Vpage.User at hv
  rw [ushiftRight_eq_iff] at hkey
  have hused : i ∈ usedSlots a := by
    by_contra hnot
    rw [h.idle i hnot, show entryHiInvalid.toNat = 2147483648 from rfl] at hkey
    omega
  obtain ⟨u, -, -, hukey, -⟩ := h.held.slot i hused
  refine ⟨hused, ?_⟩
  have huk := u.key_toNat
  rw [hukey, ← BitVec.toNat_inj]
  rw [hukey] at hkey
  omega

/-- The machine finds a marked page in the slot its mark names. -/
theorem TlbInv.lookup (h : TlbInv pte m a) (hu : (Vpage.of la).User)
    (hm : Marked (pte (Vpage.of la))) :
    m.tlbLookup (la >>> 13) = some (tlbIdx (pte (Vpage.of la))) ∧
      m.tlbData (la.extractLsb' 12 1) (tlbIdx (pte (Vpage.of la))) =
        entryLo (pte (Vpage.of la)) := by
  obtain ⟨hused, hkey⟩ := h.held.page _ hu hm
  obtain ⟨-, hhalf⟩ := h.held.halves hu hm
  constructor
  · unfold Mmu.tlbLookup
    cases hfind : (List.finRange 16).find? fun i => m.tlbKey i >>> 13 == la >>> 13 with
    | none =>
      have hnone := List.find?_eq_none.mp hfind _ (List.mem_finRange (tlbIdx (pte (Vpage.of la))))
      rw [hkey, of_shift, beq_self_eq_true] at hnone
      exact absurd rfl hnone
    | some i =>
      have hmatch := List.find?_some hfind
      obtain ⟨hiu, hikey⟩ := h.key_eq hu ((eq_of_beq hmatch).trans (of_shift la).symm)
      rw [h.held.key_inj hiu hused (hikey.trans hkey.symm)]
  · rcases hhalf with ⟨-, -, hdata⟩ | ⟨hnot, -⟩
    · exact hdata
    · exact absurd hm hnot

/-- User addresses are mapped ones. -/
theorem user_mapped (hu : (Vpage.of la).User) :
    ¬(Emulator.kseg0Base ≤ la ∧ la < Emulator.kseg1Base + Emulator.kseg1Size) := by
  rw [user_of] at hu
  exact fun h => absurd h.1 (BitVec.not_le.mpr hu)

/-- What an access to a marked page comes to. -/
theorem TlbInv.fault (h : TlbInv pte m a) (hu : (Vpage.of la).User)
    (hm : Marked (pte (Vpage.of la))) (write : Bool) :
    m.translationFault la write =
      if pte (Vpage.of la) &&& pteW = 0 ∧ write = true then some .mod else none := by
  obtain ⟨hlookup, hdata⟩ := h.lookup hu hm
  have hw : pte (Vpage.of la) &&& pteW = 0 ↔ (pte (Vpage.of la)).getLsbD 1 = false := by
    have hbit : pteW = BitVec.twoPow 32 1 := by decide
    rw [hbit, ← Bool.not_eq_true, ← and_twoPow_ne_zero (by decide), not_not]
  unfold Mmu.translationFault
  rw [if_neg (user_mapped hu), hlookup]
  dsimp only
  rw [hdata, entryLo_valid, if_neg Bool.noConfusion, entryLo_dirty]
  simp only [hw]

/-- Only pages without a mark miss. -/
theorem TlbInv.unmarked_of_raised (h : TlbInv pte m a) (hu : (Vpage.of la).User) {store : Bool}
    (hmiss : m.translationFault la store = some (if store then .tlbs else .tlbl)) :
    ¬Marked (pte (Vpage.of la)) := by
  intro hm
  rw [h.fault hu hm] at hmiss
  split at hmiss
  · cases store <;> cases hmiss
  · cases hmiss

/-- The frame of the half-entry is that of the entry. -/
theorem entryLo_addr (w : Word) : entryLo w <<< 6 &&& 0xfffff000#32 = w &&& 0xfffff000#32 := by
  have hmask : ∀ i < 12, (0xfffff000#32 : Word).getLsbD i = false := by decide
  ext i hi
  rw [BitVec.getElem_and, BitVec.getElem_and]
  by_cases hlow : i < 12
  · rw [← BitVec.getLsbD_eq_getElem, ← BitVec.getLsbD_eq_getElem, hmask i hlow]
    simp
  · have hbit := congrArg (fun b : Ppn => b.getLsbD (i - 12)) (entryLo_frame w)
    simp only [ppn, BitVec.getLsbD_extractLsb', show i - 12 < 20 by omega, decide_true,
      Bool.true_and] at hbit
    rw [show 6 + (i - 12) = i - 6 by omega, show 12 + (i - 12) = i by omega] at hbit
    congr 1
    rw [BitVec.getElem_shiftLeft, decide_eq_false (by omega), ← BitVec.getLsbD_eq_getElem,
      ← BitVec.getLsbD_eq_getElem, hbit]
    rfl

end Lookup

/-! ### After the handler -/

/-- The machine translates the page of `la` as the entry says: to the frame of the entry, and
for writing only with `PTE_W`; a store without it raises `Mod`. -/
def TranslatesPage (m : Mmu) (la pte : Word) : Prop :=
  ∀ (cp0 : Cp0) (va : Word), va.toNat / 4096 = la.toNat / 4096 →
    m.TranslatesTo cp0 va false ((pte &&& 0xfffff000#32) + (va &&& 0x00000fff#32)) ∧
      if pte &&& pteW ≠ 0 then
        m.TranslatesTo cp0 va true ((pte &&& 0xfffff000#32) + (va &&& 0x00000fff#32))
      else
        (m.addrTranslate cp0 va true).exception = true ∧
          (m.addrTranslate cp0 va true).cp0 = cp0.tlbException .mod va

variable {la : Word} {pte : Vpage → Word} {m : Mmu} {a : TlbAlgo}

theorem Vpage.of_page {va : Word} (h : va.toNat / 4096 = la.toNat / 4096) :
    Vpage.of va = Vpage.of la := by
  unfold Vpage.of
  congr 1 <;>
  · rw [← BitVec.toNat_inj, BitVec.extractLsb'_toNat, BitVec.extractLsb'_toNat,
      Nat.shiftRight_eq_div_pow, Nat.shiftRight_eq_div_pow]
    omega

theorem TlbInv.translatesPage
    (h : TlbInv pte m a) (hu : (Vpage.of la).User) (hm : Marked (pte (Vpage.of la))) :
    TranslatesPage m la (pte (Vpage.of la)) := by
  intro cp0 va hva
  have hof := of_page hva
  rw [← hof] at hu hm ⊢
  obtain ⟨hlookup, hdata⟩ := h.lookup hu hm
  have htrans : m.translated va =
      (pte (Vpage.of va) &&& 0xfffff000#32) + (va &&& 0x00000fff#32) := by
    unfold Mmu.translated
    rw [if_neg (user_mapped hu), hlookup]
    dsimp only
    rw [hdata, entryLo_addr, BitVec.add_eq_or_of_and_eq_zero]
    rw [BitVec.and_assoc, ← BitVec.and_assoc _ va, BitVec.and_comm _ va, BitVec.and_assoc va]
    simp
  have hfault := h.fault hu hm
  constructor
  · rw [Mmu.translatesTo_iff, hfault, if_neg (by simp)]
    exact ⟨rfl, htrans⟩
  · split
    · rename_i hw
      rw [Mmu.translatesTo_iff, hfault, if_neg fun h => hw h.1]
      exact ⟨rfl, htrans⟩
    · rename_i hw
      have hmod : m.translationFault va true = some .mod := by
        rw [hfault, if_pos ⟨not_not.mp hw, rfl⟩]
      obtain ⟨hexc, hcp0⟩ := m.addrTranslate_fault cp0 va true
      rw [hmod] at hexc hcp0
      exact ⟨hexc, hcp0⟩

/-- No two entries in use are for the same pair. -/
theorem TlbInv.distinct (h : TlbInv pte m a)
    {j : Fin 16} (hi : m.tlbKey i ≠ entryHiInvalid) (hij : m.tlbKey i >>> 13 = m.tlbKey j >>> 13) :
    i = j := by
  have hused : i ∈ usedSlots a := by
    by_contra hnot
    exact hi (h.idle i hnot)
  obtain ⟨v, hv, -, hvkey, -⟩ := h.held.slot i hused
  obtain ⟨hj, hjkey⟩ := h.key_eq hv (hij.symm.trans (by rw [hvkey]))
  exact h.held.key_inj hused hj (hvkey.trans hjkey.symm)

namespace Vm

variable {D : Set Ppn} {held : Ppn → Nat} {s t : Vm} {c p : Ppn} {la : Word} {store : Bool}

/-- `tlb_write` on the machine: with its four arguments in the registers, `tlbwi` leaves the
TLB `tlbWrite` has. -/
theorem tlbWrite_tlbwi (s : Vm) (idx : Fin 16) (hi lo0 lo1 : Word) (k : Cpu)
    (hmmu : k.mmu = s.mmu) (hcp0 : k.cp0 = (s.tlbWrite idx hi lo0 lo1).cp0) :
    ∃ k', k.exeTlbwi = .ok (k', false) ∧ k'.mmu = (s.tlbWrite idx hi lo0 lo1).mmu ∧
      k'.cp0 = (s.tlbWrite idx hi lo0 lo1).cp0 := by
  have hreg : k.cp0.registers Cp0.index = BitVec.ofNat 32 idx ∧
      k.cp0.registers Cp0.entryHi = hi ∧ k.cp0.registers Cp0.entryLo0 = lo0 ∧
      k.cp0.registers Cp0.entryLo1 = lo1 := by
    rw [hcp0]
    simp [tlbWrite, Cp0.set_registers, Cp0.index, Cp0.entryHi, Cp0.entryLo0, Cp0.entryLo1]
  obtain ⟨hidx, hhi, hlo0, hlo1⟩ := hreg
  have hnat : (k.cp0.registers Cp0.index).toNat = idx.val := by
    rw [hidx, BitVec.toNat_ofNat]
    have := idx.isLt
    omega
  have hlt : (k.cp0.registers Cp0.index).toNat < 16 := hnat ▸ idx.isLt
  unfold Cpu.exeTlbwi
  rw [dif_pos hlt, show (⟨_, hlt⟩ : Fin 16) = idx from Fin.ext hnat, hhi, hlo0, hlo1, hmmu]
  exact ⟨_, rfl, rfl, hcp0⟩

/-- An operation other than `load_pgdir`; a miss is one the machine raises. -/
theorem Good.step_resident (hs : s.Good D held c) {op : VmOp} (hl : op.Legal D s)
    (hr : op.Raised s) (hop : ∀ d, op ≠ .loadPgdir d) (h : s.step op = .ok t) :
    t.Good D held c := by
  cases op with
  | loadPgdir d => exact absurd rfl (hop d)
  | tlbMiss la store =>
    have hu := (user_of la).mpr hl
    exact (hs.tlbMissHandler hu (hs.inv.unmarked_of_raised hu hr) h).1
  | pageInsert d page la perm =>
    obtain ⟨hd, hla, hpage, hperm⟩ := hl
    exact (hs.pageInsert hd ((user_of la).mpr hla) hperm hpage h).1
  | pageRemove d la =>
    obtain ⟨hd, hla⟩ := hl
    obtain ⟨t', ht', hgood, -⟩ := hs.pageRemove hd ((user_of la).mpr hla)
    cases ht'.symm.trans h
    exact hgood

/-- A run in one address space. -/
theorem Good.run_resident (hs : s.Good D held c)
    (hrun : Relation.ReflTransGen
      (fun t u => ∃ op : VmOp, op.Legal D t ∧ op.Raised t ∧ (∀ d, op ≠ .loadPgdir d) ∧
        t.step op = .ok u) s t) : t.Good D held c := by
  induction hrun with
  | refl => exact hs
  | tail _ hstep ih =>
    obtain ⟨op, hl, hr, hop, hok⟩ := hstep
    exact ih.step_resident hl hr hop hok

/-- **A refill does what the page table says.** After any run in one address space the
handler, called for a miss the machine raises, leaves a TLB with which the machine
translates the page as its entry says, and no two entries of which have the same key. The
entry is present then, unless the page fault found no frame for it. -/
theorem refill_translates (s0 : Vm) (hwf : s0.Wf D) (hrefs : s0.Refs D held) (hp : p ∈ D)
    (hun : ∀ v : Vpage, v.User → ¬Marked (s0.pte p v))
    (hrun : Relation.ReflTransGen
      (fun t u => ∃ op : VmOp, op.Legal D t ∧ op.Raised t ∧ (∀ d, op ≠ .loadPgdir d) ∧
        t.step op = .ok u) (s0.loadPgdir p) s)
    (hla : la < userTop)
    (hmiss : s.mmu.translationFault la store = some (if store then .tlbs else .tlbl))
    (h : s.tlbMissHandler la store = .ok t) :
    t.curPgdir = some p ∧ TranslatesPage t.mmu la (t.pte p (Vpage.of la)) ∧
      ∀ i j, t.mmu.tlbKey i ≠ entryHiInvalid → t.mmu.tlbKey j ≠ entryHiInvalid →
        t.mmu.tlbKey i >>> 13 = t.mmu.tlbKey j >>> 13 → i = j := by
  have hs : s.Good D held p := (Good.loadPgdir hwf hrefs hp hun).run_resident hrun
  have hu := (user_of la).mpr hla
  obtain ⟨ht, hm⟩ := hs.tlbMissHandler hu (hs.inv.unmarked_of_raised hu hmiss) h
  exact ⟨ht.cur, ht.inv.translatesPage hu hm, fun i j hi _ hij => ht.inv.distinct hi hij⟩

/-- A store that misses, in a TLB that has just been emptied. -/
theorem refill_translates_first :
    ∃ t, (boot.loadPgdir 1).tlbMissHandler 0x2000 true = .ok t ∧
      t.pte 1 (Vpage.of 0x2000) &&& pteP ≠ 0 ∧
      TranslatesPage t.mmu 0x2000 (t.pte 1 (Vpage.of 0x2000)) := by
  have hs := Good.loadPgdir boot_wf boot_refs rfl fun v _ => boot_unmarked v
  have hp : (boot.loadPgdir 1).pte 1 (Vpage.of 0x2000) &&& pteP ≠ 0 := by decide +kernel
  have hmiss : (boot.loadPgdir 1).mmu.translationFault 0x2000 true = some .tlbs := by
    decide +kernel
  have huser : (0x2000#32 : Word) < userTop := by decide
  have hu := (user_of 0x2000).mpr huser
  obtain ⟨t, ht, hfill⟩ := hs.tlbMissHandler_present hu
    (.inl (hs.inv.unmarked_of_raised hu hmiss)) hp true
  refine ⟨t, ht, ?_, (refill_translates boot boot_wf boot_refs rfl
    (fun v _ => boot_unmarked v) .refl huser hmiss ht).2.1⟩
  rw [Ne, ← frameOf_eq_none, (entry_congr hfill.same).1, frameOf_eq_none]
  exact hp

end Vm

end UcoreMips.Kernel
