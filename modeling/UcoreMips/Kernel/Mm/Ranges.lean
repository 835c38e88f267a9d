import UcoreMips.Kernel.Mm.Paging

/-!
# UcoreMips.Kernel.Mm.Ranges

**Ranges of pages** (`kern/mm/pmm.c`) and the copy of an address space (`dup_mmap` of
`kern/mm/vmm.c`).

* `unmap_range` and `copy_range` go over a range page by page, and skip to the next page table
  where there is none. The body of the loop is a function of its own; it answers with the
  address to go on with.
* `mmap_list` is kept as the list of its ranges, in order; `vm_mm`, which is not read, is left
  out, and `map_count` comes in with `MmStruct`.
-/

namespace UcoreMips.Kernel

open Emulator (Word)

def pgSize : Word := 0x1000
def ptSize : Word := 0x400000
def userBase : Word := 0x00200000

/-- `PTE_USER`. -/
def pteUser : Word := pteU ||| pteW ||| pteP

/-- `USER_ACCESS`. -/
def userAccess (start stop : Word) : Bool := userBase ≤ start ∧ start < stop ∧ stop ≤ userTop

/-- `ROUNDDOWN`. -/
def roundDown (a n : Word) : Word := a - a % n

namespace Vm

/-- `get_page`. -/
def getPage (s : Vm) (pgdir : Ppn) (la : Word) : Except Stop (Option Ppn) := do
  match ← s.getPte pgdir la false with
  | (none, _) => return none
  | (some ptep, s) =>
    if s.load ptep &&& pteP = 0 then return none
    return some (← kaddr (s.load ptep))

/-- The loop over a range: after each turn the address is compared with the end. A turn may
also make the function return, without success. -/
def rangeLoop (turn : Vm → Word → Except Stop (Option Word × Vm)) (stop : Word) :
    Nat → Vm → Word → Except Stop (Bool × Vm)
  | 0, _, _ => .error .outOfFuel
  | fuel + 1, s, start => do
    match ← turn s start with
    | (none, s) => return (false, s)
    | (some start, s) =>
      if start ≠ 0 ∧ start < stop then rangeLoop turn stop fuel s start else return (true, s)

/-- The assertions at the beginning, then the loop. -/
def overRange (turn : Vm → Word → Except Stop (Option Word × Vm)) (fuel : Nat) (s : Vm)
    (start stop : Word) : Except Stop (Bool × Vm) :=
  if ¬(start % pgSize = 0 ∧ stop % pgSize = 0) then .error .assertion
  else if ¬userAccess start stop then .error .assertion
  else rangeLoop turn stop fuel s start

/-- A turn of `unmap_range`. -/
def unmapTurn (pgdir : Ppn) (s : Vm) (start : Word) : Except Stop (Option Word × Vm) := do
  match ← s.getPte pgdir start false with
  | (none, s) => return (some (roundDown (start + ptSize) ptSize), s)
  | (some ptep, s) =>
    let s ← if s.load ptep ≠ 0 then s.pageRemovePte pgdir start ptep else pure s
    return (some (start + pgSize), s)

/-- `unmap_range`. -/
def unmapRange (fuel : Nat) (s : Vm) (pgdir : Ppn) (start stop : Word) :
    Except Stop (Bool × Vm) := overRange (unmapTurn pgdir) fuel s start stop

/-- A turn of `copy_range` where the page is present: `ptep` is its entry in `from`. -/
def copyPage (dst : Ppn) (s : Vm) (ptep : PteRef) (start : Word) :
    Except Stop (Option Word × Vm) := do
  match ← s.getPte dst start true with
  | (none, s) => return (none, s)
  | (some _, s) =>
    let perm := s.load ptep &&& pteUser
    let page ← pte2page (s.load ptep)
    match ← s.allocPage with
    | (none, _) => throw .assertion
    | (some npage, s) =>
      let s := { s with mem := Function.update s.mem npage (s.mem page) }
      let s ← s.pageInsert dst npage start perm
      return (some (start + pgSize), s)

/-- A turn of `copy_range`. -/
def copyTurn (dst src : Ppn) (s : Vm) (start : Word) : Except Stop (Option Word × Vm) := do
  match ← s.getPte src start false with
  | (none, s) => return (some (roundDown (start + ptSize) ptSize), s)
  | (some ptep, s) =>
    if s.load ptep &&& pteP = 0 then return (some (start + pgSize), s)
    else s.copyPage dst ptep start

/-- `copy_range`: whether it returned 0. -/
def copyRange (fuel : Nat) (s : Vm) (dst src : Ppn) (start stop : Word) :
    Except Stop (Bool × Vm) := overRange (copyTurn dst src) fuel s start stop

end Vm

/-! ### Copying an address space -/

/-- `check_vma_overlap`. -/
def checkVmaOverlap (prev next : Vma) : Bool :=
  prev.vmStart < prev.vmEnd ∧ prev.vmEnd ≤ next.vmStart ∧ next.vmStart < next.vmEnd

/-- `insert_vma_struct`: the range goes before the first that starts behind it. -/
def Mm.insertVmaStruct (mm : Mm) (vma : Vma) : Except Stop Mm :=
  let before := mm.mmapList.takeWhile (·.vmStart ≤ vma.vmStart)
  let after := mm.mmapList.dropWhile (·.vmStart ≤ vma.vmStart)
  if ¬vma.vmStart < vma.vmEnd then .error .assertion
  else if before.getLast?.any (fun prev => ¬checkVmaOverlap prev vma) then .error .assertion
  else if after.head?.any (fun next => ¬checkVmaOverlap vma next) then .error .assertion
  else .ok { mm with mmapList := before ++ vma :: after }

namespace Vm

/-- The loop of `dup_mmap` over the ranges that are left. `kmalloc k` is the call in the `k`-th
`vma_create`, as far as it acts on the frames: `none` where it returns `NULL`. -/
def dupVmas (fuel : Nat) (src : Ppn) (kmalloc : Nat → Vm → Option Vm) :
    Nat → Mm → Vm → List Vma → Except Stop (Bool × Mm × Vm)
  | _, dst, s, [] => .ok (true, dst, s)
  | k, dst, s, vma :: vmas =>
    match kmalloc k s with
    | none => .ok (false, dst, s)
    | some s => do
      let dst ← dst.insertVmaStruct vma
      match ← s.copyRange fuel dst.pgdir src vma.vmStart vma.vmEnd with
      | (false, s) => return (false, dst, s)
      | (true, s) => dupVmas fuel src kmalloc (k + 1) dst s vmas

/-- `dup_mmap`, which goes through the list from its end: whether it returned 0, and the new
`mm`. -/
def dupMmap (fuel : Nat) (s : Vm) (dst src : Mm) (kmalloc : Nat → Vm → Option Vm) :
    Except Stop (Bool × Mm × Vm) :=
  dupVmas fuel src.pgdir kmalloc 0 dst s src.mmapList.reverse

end Vm

end UcoreMips.Kernel
