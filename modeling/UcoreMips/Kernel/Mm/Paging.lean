import UcoreMips.Emulator.Cpu
import UcoreMips.Kernel.Base

/-!
# UcoreMips.Kernel.Mm.Paging

**Page tables and the TLB** as the kernel manages them (`kern/mm/pmm.c`,
`kern/mm/tlb.c`, `do_pgfault` of `kern/mm/vmm.c`), on the emulated machine.

* Physical memory is seen as frames of 1024 words. A page directory, a page table
  and a `struct Page *` are all named by the number of their frame, and a `pte_t *`
  by a frame and an index (`PteRef`).
* The TLB is the one of the emulator: `tlbWrite` ends in `Mmu.writeTlb`, which is
  what `tlbwi` does.
* `alloc_page` takes the lowest free frame, as the first-fit manager does for one
  page. With no frame left and swapping enabled `alloc_pages` calls `swap_out` on
  `check_mm_struct`, which is `NULL` in the running system.
* A call that does not return — a failed assertion, a `panic`, an access through
  `NULL` or past an array, `do_exit` — ends in a `Stop`.
-/

namespace UcoreMips.Kernel

open Emulator (Word Cp0 Mmu)
open Function (update)

/-! ### Addresses and entries -/

/-- A physical page number. -/
abbrev Ppn := BitVec 20

/-- `KMEMSIZE / PGSIZE`, the value of `npage`. -/
def npage : Nat := 2048

def userTop : Word := 0x80000000

def pteP : Word := 0x001
def pteW : Word := 0x002
def pteU : Word := 0x004

/-- `TLB_P`: the entry is in the TLB, at the index in its bits 11..8. -/
def tlbP : Word := 0x80

def pdx (la : Word) : BitVec 10 := la.extractLsb' 22 10
def ptx (la : Word) : BitVec 10 := la.extractLsb' 12 10
def ppn (la : Word) : Ppn := la.extractLsb' 12 20

instance neZeroSixteen : NeZero 16 := ⟨by decide⟩
instance neZeroSeventeen : NeZero 17 := ⟨by decide⟩

/-- `TLBIDX`. -/
def tlbIdx (pte : Word) : Fin 16 := (pte.extractLsb' 8 4).toFin

/-- `TLBPAIR`: the other page of the pair one TLB entry maps. -/
def tlbPair (la : Word) : Word := la ^^^ 0x1000#32

/-- `TLBLO`: which half of the entry maps the page. -/
def tlbLo (la : Word) : BitVec 1 := la.extractLsb' 12 1

/-- `ENTRYLO`: `C` = 2, `D` from `PTE_W`, `V` and `G` set. -/
def entryLo (pte : Word) : Word :=
  ((ppn pte).setWidth 32 <<< 6) ||| 0x10#32 ||| (pte >>> 1 &&& 1#32) <<< 2 ||| 0x3#32

def entryLoInvalid : Word := 0x00000000
def entryHiInvalid : Word := 0x80000000

/-- `la & 0xffffe000`, the key of the entry for `la`. -/
def entryHi (la : Word) : Word := la &&& 0xffffe000#32

/-- `page2pa`. -/
def page2pa (page : Ppn) : Word := page.setWidth 32 <<< 12

/-! ### State -/

/-- `struct vma_struct`: a range of addresses with its flags. -/
structure Vma where
  vmStart : Word
  vmEnd : Word
  vmFlags : Word
  deriving Repr, DecidableEq

/-- `VM_READ`, `VM_WRITE`, `VM_EXEC`. -/
def vmRead : Word := 0x1
def vmWrite : Word := 0x2
def vmExec : Word := 0x4

/-- `struct mm_struct`, as far as the fault handler uses it. -/
structure Mm where
  mmapList : List Vma
  mmapCache : Option Vma
  pgdir : Ppn
  /-- Whether `sm_priv`, the queue of the swap manager, has been set. -/
  smPriv : Bool
  deriving Repr

/-- The replacement algorithm's record of the slots: `tlb_algo_empty`, `tlb_algo_n`,
`tlb_algo_hi` and `tlb_algo_ptr`. -/
structure TlbAlgo where
  empty : Fin 16 → Fin 16
  n : Fin 17
  hi : Fin 16 → Word
  ptr : Fin 16

/-- What the functions below read and write. -/
structure Vm where
  mem : Ppn → BitVec 10 → Word
  ref : Ppn → Int
  free : Ppn → Bool
  curPgdir : Option Ppn
  algo : TlbAlgo
  cp0 : Cp0
  mmu : Mmu
  swapInitOk : Bool
  /-- `current->mm`. -/
  mm : Option Mm

/-- A `pte_t *`. -/
structure PteRef where
  frame : Ppn
  index : BitVec 10
  deriving Repr, DecidableEq

namespace Vm

/-- `*r`. -/
def load (s : Vm) (r : PteRef) : Word := s.mem r.frame r.index

/-- `*r = w`. -/
def store (s : Vm) (r : PteRef) (w : Word) : Vm :=
  { s with mem := update s.mem r.frame (update (s.mem r.frame) r.index w) }

/-- `*r &= ~TLB_P`. -/
def clearTlbP (s : Vm) (r : PteRef) : Vm := s.store r (s.load r &&& ~~~tlbP)

def setPageRef (s : Vm) (page : Ppn) (v : Int) : Vm :=
  { s with ref := update s.ref page v }

def pageRefInc (s : Vm) (page : Ppn) : Vm := s.setPageRef page (s.ref page + 1)
def pageRefDec (s : Vm) (page : Ppn) : Vm := s.setPageRef page (s.ref page - 1)

/-- `free_page`. -/
def freePage (s : Vm) (page : Ppn) : Vm := { s with free := update s.free page true }

/-- `alloc_page`. -/
def allocPage (s : Vm) : Except Stop (Option Ppn × Vm) :=
  match ((List.range npage).map (BitVec.ofNat 20)).find? s.free with
  | some page => .ok (some page, { s with free := update s.free page false })
  | none => if s.swapInitOk then .error .nullPointer else .ok (none, s)

end Vm

/-- `KADDR`: the frame a physical address lies in. -/
def kaddr (pa : Word) : Except Stop Ppn :=
  if (ppn pa).toNat < npage then .ok (ppn pa) else .error .invalidPa

/-- `pte2page`, on an entry that is present. -/
def pte2page (pte : Word) : Except Stop Ppn :=
  if pte &&& pteP = 0 then .error .assertion
  else if (ppn pte).toNat < npage then .ok (ppn pte) else .error .invalidPa

namespace Vm

/-! ### `get_pte` -/

/-- The last statement of `get_pte`, for a directory entry that is present. -/
def entryRef (s : Vm) (pgdir : Ppn) (la : Word) : Except Stop PteRef := do
  let table ← kaddr (s.mem pgdir (pdx la) &&& 0xfffff000#32)
  return ⟨table, ptx la⟩

/-- `get_pte`: a new page table is needed where the directory entry is not present. The
page is used without a check for `NULL`. -/
def getPte (s : Vm) (pgdir : Ppn) (la : Word) (create : Bool) :
    Except Stop (Option PteRef × Vm) := do
  if s.mem pgdir (pdx la) &&& pteP = 0 then
    if create = false then return (none, s)
    match ← s.allocPage with
    | (none, _) => throw .nullPointer
    | (some page, s) =>
      let s := s.setPageRef page 1
      let s := s.store ⟨pgdir, pdx la⟩ (page2pa page ||| pteP ||| pteW ||| pteU)
      let table ← kaddr (page2pa page)
      let s := { s with mem := update s.mem table fun _ => 0 }
      return (some (← s.entryRef pgdir la), s)
  else return (some (← s.entryRef pgdir la), s)

/-! ### The TLB -/

/-- `tlb_write`: four `mtc0`, then `tlbwi`. -/
def tlbWrite (s : Vm) (idx : Fin 16) (hi lo0 lo1 : Word) : Vm :=
  { s with
    cp0 := (((s.cp0.set Cp0.index (BitVec.ofNat 32 idx)).set Cp0.entryHi hi).set
      Cp0.entryLo0 lo0).set Cp0.entryLo1 lo1
    mmu := s.mmu.writeTlb idx hi lo0 lo1 }

/-- `tlb_init_callback`. -/
def tlbInitCallback (s : Vm) : Vm :=
  { s with algo := { s.algo with empty := fun i => i, n := 16 } }

/-- `tlb_init`. -/
def tlbInit (s : Vm) : Vm :=
  ((List.finRange 16).foldl
    (fun s i => s.tlbWrite i entryHiInvalid entryLoInvalid entryLoInvalid) s).tlbInitCallback

/-- `load_pgdir`. -/
def loadPgdir (s : Vm) (pgdir : Ppn) : Vm := { s with curPgdir := some pgdir }.tlbInit

/-- `tlb_del_callback`: push the slot. -/
def tlbDelCallback (s : Vm) (idx : Fin 16) : Except Stop Vm :=
  if h : s.algo.n.val < 16 then
    .ok { s with algo :=
      { s.algo with
        empty := update s.algo.empty ⟨s.algo.n.val, h⟩ idx
        n := ⟨s.algo.n.val + 1, by omega⟩ } }
  else .error .outOfBounds

/-- Clear `TLB_P` in the entry of `la`, if there is a page table for it. -/
def forget (s : Vm) (pgdir : Ppn) (la : Word) : Except Stop Vm := do
  match ← s.getPte pgdir la false with
  | (none, s) => return s
  | (some ptep, s) => return s.clearTlbP ptep

/-- `tlb_get_empty`: pop a slot, or take the next one in turn and forget both of its
pages. -/
def tlbGetEmpty (s : Vm) (cur : Ppn) (hi : Word) : Except Stop (Fin 16 × Vm) := do
  if h : 0 < s.algo.n.val then
    let idx := s.algo.empty ⟨s.algo.n.val - 1, by omega⟩
    let algo := { s.algo with n := ⟨s.algo.n.val - 1, by omega⟩ }
    return (idx, { s with algo := { algo with hi := update algo.hi idx hi } })
  else
    let idx := s.algo.ptr
    let hi0 := s.algo.hi idx
    let s := { s with algo := { s.algo with ptr := s.algo.ptr + 1 } }
    let s ← s.forget cur hi0
    let s ← s.forget cur (tlbPair hi0)
    return (idx, { s with algo := { s.algo with hi := update s.algo.hi idx hi } })

/-- `tlb_write` of the pair around `la`, `lo` being the half for `la` itself. -/
def tlbWritePair (s : Vm) (idx : Fin 16) (hi la lo lo2 : Word) : Vm :=
  if tlbLo la = 0 then s.tlbWrite idx hi lo lo2 else s.tlbWrite idx hi lo2 lo

/-- `tlb_invalidate`. -/
def tlbInvalidate (s : Vm) (pgdir : Ppn) (la : Word) : Except Stop Vm := do
  if some pgdir ≠ s.curPgdir then return s
  match ← s.getPte pgdir la false with
  | (none, s) => return s
  | (some ptep, s) =>
    if s.load ptep &&& tlbP = 0 then return s
    let idx := tlbIdx (s.load ptep)
    let (ptep2, s) ← s.getPte pgdir (tlbPair la) false
    match ptep2.filter fun ptep2 => s.load ptep2 &&& tlbP ≠ 0 with
    | some ptep2 =>
      let s := s.tlbWritePair idx (entryHi la) la entryLoInvalid (entryLo (s.load ptep2))
      return s.clearTlbP ptep
    | none =>
      let s ← s.tlbDelCallback idx
      let s := s.tlbWritePair idx entryHiInvalid la entryLoInvalid entryLoInvalid
      return s.clearTlbP ptep

/-! ### Mapping and unmapping -/

/-- `page_remove_pte`. -/
def pageRemovePte (s : Vm) (pgdir : Ppn) (la : Word) (ptep : PteRef) : Except Stop Vm := do
  if s.load ptep &&& pteP = 0 then return s
  let page ← pte2page (s.load ptep)
  let s := s.pageRefDec page
  let s := if s.ref page = 0 then s.freePage page else s
  let s ← s.tlbInvalidate pgdir la
  return s.store ptep 0

/-- `page_remove`. -/
def pageRemove (s : Vm) (pgdir : Ppn) (la : Word) : Except Stop Vm := do
  match ← s.getPte pgdir la false with
  | (none, s) => return s
  | (some ptep, s) => s.pageRemovePte pgdir la ptep

/-- `page_insert`. Its failure for want of a page table cannot happen: `get_pte` does not
return `NULL` when it may create one. -/
def pageInsert (s : Vm) (pgdir page : Ppn) (la perm : Word) : Except Stop Vm := do
  match ← s.getPte pgdir la true with
  | (none, s) => return s
  | (some ptep, s) =>
    let s := s.pageRefInc page
    let s ←
      if s.load ptep &&& pteP = 0 then pure s
      else do
        let p ← pte2page (s.load ptep)
        if p = page then pure (s.pageRefDec page) else s.pageRemovePte pgdir la ptep
    let s ← s.tlbInvalidate pgdir la
    return s.store ptep (page2pa page ||| pteP ||| perm)

/-- `pgdir_alloc_page`, with `check_mm_struct` `NULL`. -/
def pgdirAllocPage (s : Vm) (pgdir : Ppn) (la perm : Word) : Except Stop (Option Ppn × Vm) := do
  match ← s.allocPage with
  | (none, s) => return (none, s)
  | (some page, s) => return (some page, ← s.pageInsert pgdir page la perm)

/-! ### Page faults -/

end Vm

/-- `find_vma`: the cached range if it holds the address, else the first that does. -/
def Mm.findVma (mm : Mm) (addr : Word) : Option Vma × Mm :=
  let holds (vma : Vma) : Bool := vma.vmStart ≤ addr ∧ addr < vma.vmEnd
  match (mm.mmapCache.filter holds).or (mm.mmapList.find? holds) with
  | some vma => (some vma, { mm with mmapCache := some vma })
  | none => (none, mm)

/-- Whether the range allows the access, by the error code: 2 is a write to a page that
is not present, 0 a read. -/
def Vma.allows (vma : Vma) (errorCode : Word) : Bool :=
  if errorCode &&& 3#32 = 1 then false
  else if errorCode &&& 3#32 = 0 then vma.vmFlags &&& (vmRead ||| vmExec) ≠ 0
  else vma.vmFlags &&& vmWrite ≠ 0

/-- The permission of a page of the range. -/
def Vma.perm (vma : Vma) : Word := if vma.vmFlags &&& vmWrite ≠ 0 then pteU ||| pteW else pteU

namespace Vm

/-- `swap_in`, on a swap file that reads as it stands: `swapfs_read` copies nothing. -/
def swapIn (s : Vm) (pgdir : Ppn) (addr : Word) : Except Stop (Ppn × Vm) := do
  match ← s.allocPage with
  | (none, _) => throw .assertion
  | (some result, s) =>
    match ← s.getPte pgdir addr false with
    | (none, _) => throw .nullPointer
    | (some _, s) => return (result, s)

/-- `do_pgfault`: whether it succeeded. What `pgdir_alloc_page` returns is not looked at. -/
def doPgfault (s : Vm) (mm : Mm) (errorCode addr : Word) : Except Stop (Bool × Vm) := do
  let (vma, mm) := mm.findVma addr
  let s := { s with mm := some mm }
  match vma with
  | none => return (false, s)
  | some vma =>
    if vma.allows errorCode = false then return (false, s)
    let addr := addr &&& 0xfffff000#32
    match ← s.getPte mm.pgdir addr true with
    | (none, _) => throw .nullPointer
    | (some ptep, s) =>
      if s.load ptep = 0 then
        let (_, s) ← s.pgdirAllocPage mm.pgdir addr vma.perm
        return (true, s)
      else if s.swapInitOk then
        let (page, s) ← s.swapIn mm.pgdir addr
        let s ← s.pageInsert mm.pgdir page addr vma.perm
        -- `swap_map_swappable` asserts that the queue is there
        if mm.smPriv then return (true, s) else throw .assertion
      else return (false, s)

/-- The first part of `tlb_miss_handler` where the page is not present. A fault that
cannot be resolved kills the process or the kernel. -/
def handlePgfault (s : Vm) (cur : Ppn) (la : Word) (store : Bool) : Except Stop Vm := do
  match s.mm with
  | none => throw .assertion
  | some mm =>
    if mm.pgdir ≠ cur then throw .assertion
    let (ok, s) ← s.doPgfault mm (if store then 2 else 0) la
    if ok then return s else throw .killed

/-- `tlb_miss_handler` from the comment "check for paired entry" on. -/
def refill (s : Vm) (cur : Ppn) (la : Word) (ptep : PteRef) : Except Stop Vm := do
  let (ptep2, s) ← s.getPte cur (tlbPair la) false
  let lo := entryLo (s.load ptep)
  let (idx, lo2, s) ←
    match ptep2.filter fun ptep2 => s.load ptep2 &&& tlbP ≠ 0 with
    | some ptep2 => pure (tlbIdx (s.load ptep2), entryLo (s.load ptep2), s)
    | none => do
      let (idx, s) ← s.tlbGetEmpty cur (entryHi la)
      pure (idx, entryLoInvalid, s)
  let s := s.tlbWritePair idx (entryHi la) la lo lo2
  return s.store ptep ((s.load ptep &&& 0xfffff0ff#32) ||| BitVec.ofNat 32 idx <<< 8 ||| tlbP)

/-- `tlb_miss_handler`, for the faulting address and whether the access was a store. -/
def tlbMissHandler (s : Vm) (la : Word) (store : Bool) : Except Stop Vm := do
  match s.curPgdir with
  | none => throw .assertion
  | some cur =>
    let (ptep, s) ← s.getPte cur la false
    match ptep.filter fun ptep => s.load ptep &&& pteP ≠ 0 with
    | some ptep => s.refill cur la ptep
    | none =>
      let s ← s.handlePgfault cur la store
      match ← s.getPte cur la false with
      | (none, _) => throw .nullPointer
      | (some ptep, s) => s.refill cur la ptep

end Vm

/-! ### Runs -/

/-- The operations on address spaces. -/
inductive VmOp
  | loadPgdir (pgdir : Ppn)
  | tlbMiss (la : Word) (store : Bool)
  | pageInsert (pgdir page : Ppn) (la perm : Word)
  | pageRemove (pgdir : Ppn) (la : Word)
  deriving Repr, DecidableEq

/-- One operation. -/
def Vm.step (s : Vm) : VmOp → Except Stop Vm
  | .loadPgdir pgdir => .ok (s.loadPgdir pgdir)
  | .tlbMiss la store => s.tlbMissHandler la store
  | .pageInsert pgdir page la perm => s.pageInsert pgdir page la perm
  | .pageRemove pgdir la => s.pageRemove pgdir la

end UcoreMips.Kernel
