import UcoreMips.Kernel.Mm.PageTable
import UcoreMips.Kernel.Mm.TlbRefill
import UcoreMips.Kernel.Mm.UserMem

/-!
# UcoreMips.Kernel.Mm.FaultMapping

**What a page fault leaves behind.** `do_pgfault` should return 0 only with a mapping that the access
can use, and otherwise leave the mappings alone. Refusals do, and so does every fault that finds its
frame. But the result of `pgdir_alloc_page` is not looked at: where no frame is left for the page the
fault still returns 0, with an entry of zero, and `tlb_miss_handler` makes a valid TLB entry of it, for
frame 0.
-/

namespace UcoreMips.Kernel

open UcoreMips.Lib Vpage
open Emulator (Word)

/-! ### What the range permits -/

/-- Bit 1 of the error code tells a write from a read. -/
def Vma.Permits (vma : Vma) (errorCode : Word) : Prop :=
  if errorCode &&& 2#32 ≠ 0 then vma.vmFlags &&& vmWrite ≠ 0
  else vma.vmFlags &&& (vmRead ||| vmExec) ≠ 0

/-- A read of a page that is present is refused, whatever the range permits. -/
theorem Vma.allows_iff (vma : Vma) (errorCode : Word) :
    vma.allows errorCode = true ↔ errorCode &&& 3#32 ≠ 1 ∧ vma.Permits errorCode := by
  have hbit : errorCode &&& 2#32 = (errorCode &&& 3#32) &&& 2#32 := by
    rw [BitVec.and_assoc]
    rfl
  have hcases : errorCode &&& 3#32 = 0 ∨ errorCode &&& 3#32 = 1 ∨ errorCode &&& 3#32 = 2 ∨
      errorCode &&& 3#32 = 3 := by
    have hlow : (errorCode &&& 3#32).toNat = errorCode.toNat % 4 := toNat_and_low (k := 2) (by decide)
    simp only [← BitVec.toNat_inj, hlow]
    show errorCode.toNat % 4 = 0 ∨ errorCode.toNat % 4 = 1 ∨ errorCode.toNat % 4 = 2 ∨
      errorCode.toNat % 4 = 3
    omega
  unfold Vma.allows Vma.Permits
  rw [hbit]
  rcases hcases with h | h | h | h <;> rw [h] <;> simp

theorem newEntry_writable (page : Ppn) (vma : Vma) :
    (page2pa page ||| pteP ||| vma.perm) &&& pteW ≠ 0 ↔ vma.vmFlags &&& vmWrite ≠ 0 := by
  have hlow : (page2pa page ||| pteP ||| vma.perm) &&& pteW = (vma.perm ||| pteP) &&& pteW := by
    rw [← Vm.newEntry_flags page vma.perm_mask, BitVec.and_assoc]
    rfl
  rw [hlow, Vma.perm]
  split
  · next hw => exact iff_of_true (by decide) hw
  · next hw => exact iff_of_false (by decide) hw

variable {vma : Vma}

/-- `find_vma` finds the range the address is in. -/
theorem Mm.InOrder.found_iff {mm : Mm} (h : mm.InOrder) {la : Word} :
    (mm.findVma la).1 = some vma ↔ vma ∈ mm.mmapList ∧ vma.Contains la := by
  have hspec := mm.findVma_spec h.cache la
  cases hfind : mm.findVma la with
  | mk o mm' =>
    rw [hfind] at hspec
    cases o with
    | none =>
      refine iff_of_false (by rintro ⟨⟩) ?_
      rintro ⟨hmem, hcontains⟩
      exact hspec.1 vma hmem hcontains
    | some found =>
      obtain ⟨hmem, hcontains, -⟩ := hspec
      constructor
      · rintro ⟨⟩
        exact ⟨hmem, hcontains⟩
      · rintro ⟨hmem', hcontains'⟩
        exact congrArg some (h.ordered.unique hmem hmem' hcontains hcontains')

namespace Vm

variable {D : Set Ppn} {s t : Vm} {c : Ppn} {la errorCode : Word} {held : Ppn → Nat} {mm : Mm}

/-- What `do_pgfault` should guarantee when it returns `ok`: with success, that the range permits the
access and the page has a frame of its own, writable as the range is; else that nothing is mapped
differently. -/
structure Handled (D : Set Ppn) (mm : Mm) (errorCode la : Word) (s t : Vm) (ok : Bool) : Prop where
  success : ok = true → ∃ vma ∈ mm.mmapList, vma.Contains la ∧ vma.Permits errorCode ∧
    ∃ f, frameOf (t.pte mm.pgdir (Vpage.of la)) = some f ∧ f.toNat < npage ∧ t.free f = false ∧
      (t.pte mm.pgdir (Vpage.of la) &&& pteW ≠ 0 ↔ vma.vmFlags &&& vmWrite ≠ 0)
  failure : ok = false → ∀ d ∈ D, ∀ v : Vpage, v.User → t.pte d v = s.pte d v

/-- A permitted fault on a page without an entry, in a system without swapping that has no frame for
the page. -/
structure Unserved (s : Vm) (mm : Mm) (errorCode la : Word) : Prop where
  range : ∃ vma ∈ mm.mmapList, vma.Contains la ∧ vma.Permits errorCode
  absent : errorCode &&& 3#32 ≠ 1
  entry : s.pte mm.pgdir (Vpage.of la) = 0
  swap : s.swapInitOk = false
  starved : s.Starved mm.pgdir la

/-- The condition, as `do_pgfault` comes to it. -/
theorem unserved_iff (hmm : mm.InOrder) : s.Unserved mm errorCode la ↔
    mm.Resolves s errorCode la ∧ s.swapInitOk = false ∧ s.Starved mm.pgdir la := by
  constructor
  · rintro ⟨⟨vma, hmem, hcontains, hpermits⟩, habsent, hentry, hswap, hstarved⟩
    exact ⟨⟨⟨vma, hmm.found_iff.mpr ⟨hmem, hcontains⟩,
      (vma.allows_iff errorCode).mpr ⟨habsent, hpermits⟩⟩, hentry⟩, hswap, hstarved⟩
  · rintro ⟨⟨⟨vma, hfound, hallows⟩, hentry⟩, hswap, hstarved⟩
    obtain ⟨hmem, hcontains⟩ := hmm.found_iff.mp hfound
    obtain ⟨habsent, hpermits⟩ := (vma.allows_iff errorCode).mp hallows
    exact ⟨⟨vma, hmem, hcontains, hpermits⟩, habsent, hentry, hswap, hstarved⟩

/-- With no frame for the page, `do_pgfault` returns 0 and an entry of zero. -/
theorem doPgfault_unserved (hwf : s.Wf D) (hd : mm.pgdir ∈ D) (hu : (Vpage.of la).User)
    (hres : mm.Resolves s errorCode la) (hswap : s.swapInitOk = false)
    (hstarved : s.Starved mm.pgdir la) :
    ∃ t, s.doPgfault mm errorCode la = .ok (true, t) ∧ t.pte mm.pgdir (Vpage.of la) = 0 ∧
      (t.ptep mm.pgdir (Vpage.of la)).isSome := by
  obtain ⟨⟨vma, hvma, hallows⟩, hzero⟩ := hres
  obtain ⟨s0, hs0⟩ : ∃ s0, { s with mm := some (mm.findVma la).2 } = s0 := ⟨_, rfl⟩
  have hwf0 : s0.Wf D := by
    subst hs0
    exact hwf.of_mem rfl rfl
  have hof := of_mask la
  have hu' : (Vpage.of (la &&& 0xfffff000#32)).User := by rwa [hof]
  have hpdx : pdx (la &&& 0xfffff000#32) = pdx la := by
    rw [← of_pdx, ← of_pdx, hof]
  -- there is a page table, or the last frame becomes one
  obtain ⟨o, s1, hget⟩ : ∃ o s1, s0.getPte mm.pgdir (la &&& 0xfffff000#32) true = .ok (o, s1) := by
    rcases hstarved with ⟨⟨f, hf⟩, -⟩ | ⟨-, f, hlt, hfree, -⟩
    · refine ⟨_, _, getPte_have hwf0.toTables hd hu' (f := f) ?_ true⟩
      rw [hpdx, ← hs0]
      exact hf
    · refine getPte_returns hwf0.guarded hd hu' (f := f) ?_ hlt
      rw [← hs0]
      exact hfree
  obtain ⟨r, rfl, hr, hgrown⟩ := getPte_create hwf0 hd hu' hget
  have hpte : s1.pte mm.pgdir (Vpage.of la) = 0 := by
    rw [hgrown.pte _ hd _ hu, ← hs0]
    exact hzero
  have hload : s1.load r = 0 := by rw [load_of_ptep hr, hof, hpte]
  have hfull : s1.Exhausted := by
    rw [starved_iff hwf0.guarded hd hu' hget, Starved, hpdx, ← hs0]
    exact hstarved
  have hswap1 : s1.swapInitOk = false := by
    rw [hgrown.rest, ← hs0]
    exact hswap
  refine ⟨s1, ?_, hpte, ?_⟩
  · unfold Vm.doPgfault
    dsimp only
    rw [findVma_pgdir, hs0, hvma]
    dsimp only
    rw [if_neg (by simp [hallows]), hget]
    dsimp only [ok_bind]
    rw [if_pos hload, pgdirAllocPage, allocPage_of_exhausted hfull hswap1]
    rfl
  · rw [← hof, hr]
    rfl

/-- The handler on such a fault: it fills the TLB from the entry of zero. -/
theorem tlbMissHandler_unserved (hs : s.Good D held c) (hu : (Vpage.of la).User)
    (hcur : s.mm = some mm) (hpgdir : mm.pgdir = c) {store : Bool}
    (hres : mm.Resolves s (if store then 2 else 0) la) (hswap : s.swapInitOk = false)
    (hstarved : s.Starved mm.pgdir la) :
    ∃ t, s.tlbMissHandler la store = .ok t ∧ t.pte c (Vpage.of la) &&& pteP = 0 := by
  have hd : mm.pgdir ∈ D := hpgdir ▸ hs.mem
  obtain ⟨s1, hfault, hzero, hsome⟩ := doPgfault_unserved hs.wf hd hu hres hswap hstarved
  obtain ⟨hs1, -, -⟩ := hs.doPgfault hd (fun _ _ => hu) hfault
  obtain ⟨r, hr⟩ := Option.isSome_iff_exists.mp hsome
  rw [hpgdir] at hzero hr
  have hpgfault : s.handlePgfault c la store = .ok s1 := by
    unfold Vm.handlePgfault
    rw [hcur]
    dsimp only
    rw [if_neg (not_not.mpr hpgdir), hfault]
    rfl
  have hmiss : ¬Marked (s1.pte c (Vpage.of la)) := hzero ▸ not_marked_zero
  obtain ⟨t, ht, hfill⟩ := refill_spec hs1.wf.toTables hs.mem hs1.inv hu hr (.inl hmiss)
  refine ⟨t, ?_, ?_⟩
  · have hentry : s.pte c (Vpage.of la) = 0 := hpgdir ▸ hres.entry
    unfold Vm.tlbMissHandler
    rw [hs.cur]
    dsimp only [bind, Except.bind]
    rw [getPte_find hs.wf.toTables hs.mem hu]
    dsimp only
    rcases filter_ptep pteP c (Vpage.of la) (s := s) with ⟨r', -, hp, -⟩ | ⟨-, hf⟩
    · rw [hentry] at hp
      exact absurd rfl hp
    · rw [hf, hpgfault]
      dsimp only
      rw [getPte_find hs1.wf.toTables hs.mem hu, hr]
      exact ht
  · rw [← frameOf_eq_none, (entry_congr hfill.same).1, hzero, frameOf_zero]

/-- A page that is mapped has the frame its entry names. -/
theorem handled_of_mapped (ht : t.Good D held c) (hd : mm.pgdir ∈ D) (hmm : mm.InOrder)
    (hu : (Vpage.of la).User) {page : Ppn}
    (hfound : (mm.findVma la).1 = some vma) (hallows : vma.allows errorCode = true)
    (hentry : t.pte mm.pgdir (Vpage.of la) = page2pa page ||| pteP ||| vma.perm) :
    Handled D mm errorCode la s t true := by
  obtain ⟨hmem, hcontains⟩ := hmm.found_iff.mp hfound
  have hframe : frameOf (t.pte mm.pgdir (Vpage.of la)) = some page := by
    rw [hentry]
    exact (newEntry page vma.perm_mask).1
  refine ⟨fun _ => ⟨vma, hmem, hcontains, ((vma.allows_iff errorCode).mp hallows).2, page, hframe,
    ht.wf.mappedLt hd hu hframe, ht.wf.mappedFree hd hu hframe, ?_⟩, by simp⟩
  rw [hentry]
  exact newEntry_writable page vma

/-- A range of one page that has no frame yet. -/
def onePage : Mm where
  mmapList := [⟨0x40000, 0x41000, vmRead ||| vmWrite⟩]
  mmapCache := none
  pgdir := 1
  smPriv := false

theorem onePage_inOrder : onePage.InOrder where
  ordered := by
    rw [onePage, Vma.Ordered.cons_iff]
    exact ⟨by simp, by decide, Vma.Ordered.nil⟩
  cache := by
    rintro vma ⟨⟩

theorem onePage_mem : onePage.pgdir ∈ ({1} : Set Ppn) := rfl

/-- The system `boot` with that range, without swapping and without a free frame. -/
def tight : Vm :=
  Vm.loadPgdir { boot with free := fun _ => false, swapInitOk := false, mm := some onePage } 1

theorem tight_good : tight.Good {1} (fun _ => 0) 1 := by
  refine Good.loadPgdir ?_ boot_refs rfl fun v _ => boot_unmarked v
  exact {
    toTables := boot_wf.toTables.of_table fun _ _ _ => rfl
    structural := fun _ => rfl
    mappedLt := boot_wf.mappedLt
    mappedNot := boot_wf.mappedNot
    mappedFree := fun _ _ _ => rfl }

end Vm

end UcoreMips.Kernel
