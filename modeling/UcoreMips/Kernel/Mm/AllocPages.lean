import UcoreMips.Kernel.Lists
import UcoreMips.Kernel.Mm.FirstFit
import UcoreMips.Kernel.Mm.TlbCoherence

/-!
# UcoreMips.Kernel.Mm.AllocPages

**`alloc_pages` and the swap manager** (`kern/mm/pmm.c`, `kern/mm/swap.c`, `kern/mm/swap_fifo.c`,
`kern/fs/swap/swapfs.c`). Where the page manager has nothing to give, a request for one page makes
the swap manager put a victim out, and is then tried again.

* The page tables are those of `Vm`; which frames are free is for the page manager to say here, so
  `Vm.free` has no part in it (`allocPage_refines` relates the two).
* The queue of the FIFO manager is a list through `pra_page_link`; `sm_priv`, where it is set, points
  to its head. `le2page` of the head is no page: the field that `swap_out` reads next lies outside
  every page.
* `swapfs_write` moves nothing, and always succeeds.

The victim is looked for in `check_mm_struct`, which the boot-time checks set and which is `NULL` ever
after, while `swap_init_ok` stays 1: out of memory, the running system reads `sm_priv` through `NULL`.
-/

namespace UcoreMips.Kernel

open UcoreMips.Lib Finset
open Emulator (Word)

/-- What `alloc_pages` reads and writes. -/
structure PageAlloc where
  pmm : Pmm
  vm : Vm
  checkMmStruct : Option Mm
  /-- The queue of `pra_list_head`. -/
  praList : Links (ListNode Nat)
  praVaddr : Nat → Word
  cleanBlock : Word

/-! ### The swap file -/

def blockBase (addr : Word) : Word := addr &&& 0xff7e0000#32
def blockOff (addr : Word) : Word := addr &&& 0x0001f000#32

/-- `swapfs_write`: the entry it stores, and the new `clean_block`. -/
def swapfsWrite (cleanBlock entry : Word) : Word × Word :=
  let empty : Word := 0xbe421000
  (cleanBlock ||| blockOff empty ||| (entry &&& 0x6#32), blockBase empty)

namespace PageAlloc

/-! ### The manager -/

/-- `_fifo_swap_out_victim`, with `in_tick` 0. -/
def fifoSwapOutVictim (s : PageAlloc) (mm : Option Mm) : Except Stop (Nat × PageAlloc) :=
  match mm with
  -- `mm->sm_priv`
  | none => .error .nullPointer
  | some mm =>
    if mm.smPriv = false then .error .assertion
    else
      match s.praList.next .head with
      | .head => .error .outOfBounds
      | .entry page => .ok (page, { s with praList := listDel s.praList (.entry page) })

/-- The loop of `swap_out` on the victim it has got. -/
def putOut (fuel : Nat) (s : PageAlloc) (mm : Mm) (page : Nat) : Except Stop PageAlloc := do
  let v := s.praVaddr page
  match ← s.vm.getPte mm.pgdir v false with
  | (none, _) => throw .nullPointer
  | (some ptep, vm) =>
    if vm.load ptep &&& pteP = 0 then throw .assertion
    else
      let (ptepNew, cleanBlock) := swapfsWrite s.cleanBlock (vm.load ptep)
      let vm ← vm.tlbInvalidate mm.pgdir v
      let pmm ← s.pmm.defaultFreePages fuel page 1
      return { s with
        vm := (vm.store ptep ptepNew).setPageRef (BitVec.ofNat 20 page) 0
        pmm := pmm
        cleanBlock := cleanBlock }

/-- One turn of the loop of `swap_out`. -/
def swapOutOne (fuel : Nat) (s : PageAlloc) (mm : Option Mm) : Except Stop PageAlloc := do
  let (page, s) ← s.fifoSwapOutVictim mm
  match mm with
  | none => throw .nullPointer
  | some mm => s.putOut fuel mm page

/-- `swap_out`, with `in_tick` 0. -/
def swapOut (fuel : Nat) (mm : Option Mm) : Nat → PageAlloc → Except Stop PageAlloc
  | 0, s => .ok s
  | n + 1, s => do
    let s ← s.swapOutOne fuel mm
    swapOut fuel mm n s

/-- `alloc_pages`; the loop may make a number of turns. -/
def allocPages (fuel n : Nat) : Nat → PageAlloc → Except Stop (Option Nat × PageAlloc)
  | 0, _ => .error .outOfFuel
  | turns + 1, s => do
    let (page, pmm) ← s.pmm.defaultAllocPages fuel n
    let s := { s with pmm := pmm }
    if page.isSome ∨ 1 < n ∨ s.vm.swapInitOk = false then return (page, s)
    let s ← swapOut fuel s.checkMmStruct n s
    allocPages fuel n turns s

/-! ### Victims -/

section Spec

variable {D : Set Ppn} {held : Ppn → Nat} {c : Ppn} {lo hi fuel n page p turns : Nat}
  {s : PageAlloc} {rs : List Run} {queue : List Nat}

/-- What the kernel keeps: page tables and TLB are in order, the page manager has the runs
`rs` of the frames from `lo` to `hi`, and the queue holds frames of it, noted under user addresses. -/
structure Ready (D : Set Ppn) (held : Ppn → Nat) (c : Ppn) (lo hi : Nat) (s : PageAlloc)
    (rs : List Run) (queue : List Nat) : Prop where
  vm : s.vm.Good D held c
  pmm : s.pmm.Repr lo hi rs
  pgdir : ∀ mm, s.checkMmStruct = some mm → mm.pgdir ∈ D
  listed : Listed s.praList queue fun _ => False
  frame : ∀ page ∈ queue, lo ≤ page ∧ page < hi
  user : ∀ page ∈ queue, s.praVaddr page < userTop

/-- There is a victim: the first of the queue of `check_mm_struct`, still mapped where it was noted. -/
def Victim (s : PageAlloc) (queue : List Nat) (page : Nat) : Prop :=
  ∃ mm, s.checkMmStruct = some mm ∧ mm.smPriv = true ∧ queue.head? = some page ∧
    s.vm.pte mm.pgdir (Vpage.of (s.praVaddr page)) &&& pteP ≠ 0

/-- A page of the queue is put out if it is mapped where it was noted. -/
theorem putOut_spec {mm : Mm} (hvm : s.vm.Good D held c) (hpmm : s.pmm.Repr lo hi rs)
    (hd : mm.pgdir ∈ D) (hframe : lo ≤ page ∧ page < hi) (huser : s.praVaddr page < userTop)
    (hempty : cells rs = ∅) (hfuel : hi - lo < fuel) :
    (s.vm.pte mm.pgdir (Vpage.of (s.praVaddr page)) &&& pteP ≠ 0 ∧
      ∃ t rs', s.putOut fuel mm page = .ok t ∧ t.pmm.Repr lo hi rs' ∧ cells rs' = {page}) ∨
    s.vm.pte mm.pgdir (Vpage.of (s.praVaddr page)) &&& pteP = 0 ∧
      ∃ e, s.putOut fuel mm page = .error e := by
  have hu := (Vpage.user_of _).mpr huser
  unfold putOut
  dsimp only
  rw [Vm.getPte_find hvm.wf.toTables hd hu]
  cases hr : s.vm.ptep mm.pgdir (Vpage.of (s.praVaddr page)) with
  | none =>
    refine .inr ⟨?_, _, rfl⟩
    rw [Vm.pte_of_ptep_none hr]
    rfl
  | some r =>
    dsimp only [bind, Except.bind]
    rw [Vm.load_of_ptep hr]
    by_cases hp : s.vm.pte mm.pgdir (Vpage.of (s.praVaddr page)) &&& pteP = 0
    · rw [if_pos hp]
      exact .inr ⟨hp, _, rfl⟩
    · rw [if_neg hp]
      obtain ⟨vm, hinv, -⟩ := Vm.tlbInvalidate_spec hvm.wf.toTables hvm.mem hd hvm.cur hu hvm.inv
      have hone : Finset.Ico page (page + 1) = {page} := Nat.Ico_succ_singleton page
      have hin : Finset.Ico page (page + 1) ⊆ Finset.Ico lo hi := by
        simpa using hframe
      obtain ⟨pmm, rs', hfree, hrepr, hcells⟩ := Pmm.defaultFreePages_spec hpmm Nat.one_pos hin
        (by rw [hempty]; exact disjoint_empty_left _) hfuel
      rw [hempty, hone, empty_union] at hcells
      rw [hinv]
      rw [hfree]
      exact .inl ⟨hp, _, rs', rfl, hrepr, hcells⟩

/-- With a victim, `swap_out` frees it; without one it does not return. -/
theorem swapOutOne_spec (h : s.Ready D held c lo hi rs queue) (hempty : cells rs = ∅)
    (hfuel : hi - lo < fuel) :
    (∃ page t rs', s.Victim queue page ∧ s.swapOutOne fuel s.checkMmStruct = .ok t ∧
        t.pmm.Repr lo hi rs' ∧ cells rs' = {page}) ∨
      (¬∃ page, s.Victim queue page) ∧ ∃ e, s.swapOutOne fuel s.checkMmStruct = .error e := by
  cases hmm : s.checkMmStruct with
  | none =>
    refine .inr ⟨?_, _, rfl⟩
    rintro ⟨page, mm, hcheck, -⟩
    cases hmm.symm.trans hcheck
  | some mm =>
    have hvictim : ∀ page, s.Victim queue page ↔ mm.smPriv = true ∧ queue.head? = some page ∧
        s.vm.pte mm.pgdir (Vpage.of (s.praVaddr page)) &&& pteP ≠ 0 := by
      intro page
      simp [Victim, hmm]
    simp only [hvictim]
    unfold swapOutOne fifoSwapOutVictim
    dsimp only
    by_cases hpriv : mm.smPriv = false
    · rw [if_pos hpriv]
      exact .inr ⟨by simp [hpriv], _, rfl⟩
    rw [if_neg hpriv, h.listed.next_head]
    cases queue with
    | nil => exact .inr ⟨by simp, _, rfl⟩
    | cons page queue =>
      rcases putOut_spec (s := { s with praList := listDel s.praList (.entry page) }) h.vm h.pmm
        (h.pgdir mm hmm) (h.frame page List.mem_cons_self) (h.user page List.mem_cons_self) hempty
        hfuel with ⟨hp, t, rs', ht, hrepr, hcells⟩ | ⟨hp, e, he⟩
      · exact .inl ⟨page, t, rs', ⟨by simpa using hpriv, rfl, hp⟩, ht, hrepr, hcells⟩
      · refine .inr ⟨?_, e, he⟩
        rintro ⟨page', -, hhead, hp'⟩
        cases hhead
        exact hp' hp

/-! ### Requests -/

/-- The request comes back: with a run of pages that were free, or with the victim that was put out for
it; or with nothing, where there is no run and no swapping for it. -/
def ComesBack (lo hi fuel n : Nat) (s : PageAlloc) (F : Finset Nat) (queue : List Nat) : Prop :=
  ∃ turns r t, allocPages fuel n turns s = .ok (r, t) ∧
    match r with
    | some p =>
      Finset.Ico p (p + n) ⊆ F ∧ t.pmm.Manages lo hi (F \ Finset.Ico p (p + n)) ∨
        F = ∅ ∧ n = 1 ∧ s.Victim queue p ∧ t.pmm.Manages lo hi ∅
    | none => (∀ r, MaximalRun F r → r.len < n) ∧ (1 < n ∨ s.vm.swapInitOk = false) ∧ t = s

/-- No page is free where a request for one is refused. -/
theorem cells_eq_empty (hsep : Separated rs) (h : ∀ r, MaximalRun (cells rs) r → r.len < 1) :
    cells rs = ∅ := by
  cases rs with
  | nil => rfl
  | cons r rs =>
    have hmax := hsep.mem_iff.mp (List.mem_cons_self (a := r) (l := rs))
    have hlen := h r hmax
    have hpos := hmax.nonempty
    omega

theorem lowestFit_subset {F : Finset Nat} (h : Pmm.LowestFit F n p) : Finset.Ico p (p + n) ⊆ F := by
  obtain ⟨len, hlen, hmax, -⟩ := h
  intro i hi
  rw [mem_Ico] at hi
  exact hmax.inside i hi.1 (show i < p + len by omega)

/-- A turn of the loop that finds a run, or gives up. -/
theorem allocPages_last {r : Option Nat} {pmm : Pmm}
    (h : s.pmm.defaultAllocPages fuel n = .ok (r, pmm))
    (hlast : r.isSome ∨ 1 < n ∨ s.vm.swapInitOk = false) :
    allocPages fuel n (turns + 1) s = .ok (r, { s with pmm := pmm }) := by
  rw [allocPages, h]
  dsimp only [ok_bind]
  rw [if_pos hlast]
  rfl

/-- A turn that swaps. -/
theorem allocPages_swap (h : s.pmm.defaultAllocPages fuel 1 = .ok (none, s.pmm))
    (hswap : ¬s.vm.swapInitOk = false) :
    allocPages fuel 1 (turns + 1) s =
      s.swapOutOne fuel s.checkMmStruct >>= allocPages fuel 1 turns := by
  rw [allocPages, h]
  dsimp only [ok_bind]
  rw [if_neg (by simp [hswap]), swapOut]
  cases s.swapOutOne fuel s.checkMmStruct <;> rfl

/-- After a victim has been put out, the request is served with it. -/
theorem allocPages_victim {t : PageAlloc} (ht : t.pmm.Repr lo hi rs)
    (hcells : cells rs = {page}) (hfuel : hi - lo < fuel) :
    ∃ u, allocPages fuel 1 1 t = .ok (some page, u) ∧ u.pmm.Manages lo hi ∅ := by
  rcases Pmm.defaultAllocPages_spec ht hfuel Nat.one_pos with
    ⟨p, pmm, rs', halloc, hlow, hrepr, hrest⟩ | ⟨-, hnone⟩
  · have hp : p = page := by
      have hsub := lowestFit_subset hlow
      rw [Nat.Ico_succ_singleton, hcells, Finset.singleton_subset_iff, Finset.mem_singleton] at hsub
      exact hsub
    subst hp
    refine ⟨_, allocPages_last halloc (.inl rfl), ?_⟩
    rw [hcells, Nat.Ico_succ_singleton, Finset.sdiff_self] at hrest
    exact hrest ▸ hrepr.manages
  · have hempty := cells_eq_empty ht.sep hnone
    rw [hcells] at hempty
    exact absurd hempty (Finset.singleton_ne_empty page)

/-! ### The allocator of the page tables -/

theorem allocPage_lowest {vm : Vm} (hlt : p < npage) (hfree : vm.free (BitVec.ofNat 20 p) = true)
    (hlow : ∀ q < p, vm.free (BitVec.ofNat 20 q) = false) :
    ∃ t, vm.allocPage = .ok (some (BitVec.ofNat 20 p), t) := by
  have hfind : (List.range npage).find? (vm.free ∘ BitVec.ofNat 20) = some p := by
    rw [List.find?_range_eq_some]
    refine ⟨hfree, List.mem_range.mpr hlt, fun q hq => ?_⟩
    rw [Function.comp_apply, hlow q hq]
    rfl
  unfold Vm.allocPage
  rw [List.find?_map, hfind]
  exact ⟨_, rfl⟩

/-- Outside the boot-time checks `alloc_page` is that of `Vm`, on the set of the free frames. -/
theorem allocPage_refines (h : s.Ready D held c lo hi rs queue) (hnull : s.checkMmStruct = none)
    (hhi : hi ≤ npage) (hfree : ∀ f < npage, s.vm.free (BitVec.ofNat 20 f) = true ↔ f ∈ cells rs)
    (hfuel : hi - lo < fuel) (turns : Nat) :
    (allocPages fuel 1 (turns + 1) s).map (·.1.map (BitVec.ofNat 20)) =
      s.vm.allocPage.map (·.1) := by
  rcases Pmm.defaultAllocPages_spec h.pmm hfuel Nat.one_pos with
    ⟨p, pmm, rs', halloc, hlow, -⟩ | ⟨halloc, hnone⟩
  · have hp : p ∈ cells rs := by
      have hsub := lowestFit_subset hlow
      rwa [Nat.Ico_succ_singleton, singleton_subset_iff] at hsub
    have hlt : p < npage := lt_of_lt_of_le (mem_Ico.mp (h.pmm.within hp)).2 hhi
    obtain ⟨t, ht⟩ := allocPage_lowest hlt ((hfree p hlt).mpr hp) fun q hq => by
      rw [← Bool.not_eq_true, hfree q (by omega)]
      intro hmem
      obtain ⟨-, -, -, hfirst⟩ := hlow
      obtain ⟨r, hr, hstart, -⟩ := mem_cells.mp hmem
      have hmax := h.pmm.sep.mem_iff.mp hr
      have hle := hfirst r hmax hmax.nonempty
      omega
    rw [allocPages_last halloc (.inl rfl), ht]
    rfl
  · have hempty := cells_eq_empty h.pmm.sep hnone
    have hfull : s.vm.Exhausted := by
      intro f hf
      rw [← Bool.not_eq_true]
      intro hin
      have hmem := (hfree f.toNat hf).mp (by rwa [BitVec.ofNat_toNat, BitVec.setWidth_eq])
      rw [hempty] at hmem
      exact absurd hmem (notMem_empty _)
    cases hswap : s.vm.swapInitOk with
    | false =>
      rw [allocPages_last halloc (.inr (.inr hswap)), Vm.allocPage_of_exhausted hfull hswap]
      rfl
    | true =>
      rw [allocPages_swap halloc (by rw [hswap]; decide), hnull,
        Vm.allocPage_eq_of_exhausted hfull, hswap]
      rfl

end Spec

/-! ### Out of memory -/

/-- The running system: the checks are over, swapping is on. -/
def running (pmm : Pmm) : PageAlloc where
  pmm := pmm
  vm := Vm.boot.loadPgdir 1
  checkMmStruct := none
  praList := listInit ⟨id, id⟩ .head
  praVaddr _ := 0
  cleanBlock := 0

variable {rs : List Run}

theorem running_ready {lo hi : Nat} {pmm : Pmm} (h : pmm.Repr lo hi rs) :
    (running pmm).Ready {1} (fun _ => 0) 1 lo hi rs [] where
  vm := Vm.Good.loadPgdir Vm.boot_wf Vm.boot_refs rfl fun v _ => Vm.boot_unmarked v
  pmm := h
  pgdir := by
    rintro mm ⟨⟩
  listed := Listed.init _
  frame := List.forall_mem_nil _
  user := List.forall_mem_nil _

/-- Without a page, a request for one reads `sm_priv` through `NULL`. -/
theorem running_null {lo hi fuel : Nat} {pmm : Pmm} (h : pmm.Repr lo hi rs)
    (hempty : cells rs = ∅) (hfuel : hi - lo < fuel) (turns : Nat) :
    allocPages fuel 1 (turns + 1) (running pmm) = .error .nullPointer := by
  rcases Pmm.defaultAllocPages_spec h hfuel Nat.one_pos with ⟨p, -, -, -, hlow, -⟩ | ⟨hnone, -⟩
  · have hsub := lowestFit_subset hlow
    rw [hempty, Nat.Ico_succ_singleton, singleton_subset_iff] at hsub
    exact absurd hsub (notMem_empty p)
  · rw [allocPages_swap hnone Bool.noConfusion]
    rfl

theorem allocPage_refines_boot : ∃ pmm, (allocPages 1049 1 1 (running pmm)).map (·.1.map (BitVec.ofNat 20)) =
    (running pmm).vm.allocPage.map (·.1) := by
  obtain ⟨pmm, -, rs, hrepr, hcells⟩ :=
    @Pmm.defaultInitMemmap_spec 1049 1048 1000 Pmm.pageInit (by decide) (fun _ _ _ => rfl) (by decide)
  refine ⟨pmm, allocPage_refines (running_ready hrepr) rfl le_rfl (fun f hf => ?_) (by decide) 0⟩
  have hmod : (BitVec.ofNat 20 f).toNat = f := Nat.mod_eq_of_lt (hf.trans (by decide))
  rw [hcells, Finset.mem_Ico]
  exact decide_eq_true_iff.trans (by rw [hmod]; rfl)

end PageAlloc

end UcoreMips.Kernel
