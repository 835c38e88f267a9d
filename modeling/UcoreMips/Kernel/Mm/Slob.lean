import UcoreMips.Kernel.Base

/-!
# UcoreMips.Kernel.Mm.Slob

The **SLOB heap** (`kern/mm/kmalloc.c`).

* Addresses are counted in units of `sizeof(slob_t)` = 8 bytes, so that `cur + units` is a
  sum. A unit holds two words: in the first unit of a block these are `units` and `next`.
* `pages` are the pages `alloc_pages(1)` will hand to the heap, in turn; when there are
  none it returns `NULL`. What it returns for a big block is an argument of the call.
* `bigblocks` is kept as a list. The fields of a `bigblock_t` are in memory as well,
  over the header of their block.
* `slob_alloc` is only called with `align` = 0, and the branch for alignment is left out.
-/

namespace UcoreMips.Kernel

def slobUnit : Nat := 8
def pageSize : Nat := 4096

/-- The units of a page. -/
def pageUnits : Nat := 512

/-- `SLOB_UNITS`. -/
def slobUnits (size : Nat) : Nat := (size + slobUnit - 1) / slobUnit

/-- `sizeof(bigblock_t)`. -/
def bigblockSize : Nat := 12

/-- `struct bigblock`, with its address. -/
structure Bigblock where
  addr : Nat
  order : Nat
  pages : Nat
  deriving Repr, DecidableEq

structure Slob where
  units : Nat → Nat
  next : Nat → Nat
  slobfree : Nat
  bigblocks : List Bigblock
  pages : List Nat

namespace Slob

def setUnits (s : Slob) (a : Nat) (n : Nat) : Slob :=
  { s with units := Function.update s.units a n }

def setNext (s : Slob) (a b : Nat) : Slob := { s with next := Function.update s.next a b }

/-- The heap before the first call: `arena` is the only block. -/
def init (arena : Nat) : Slob where
  units a := if a = arena then 1 else 0
  next _ := arena
  slobfree := arena
  bigblocks := []
  pages := []

/-! ### `slob_free` -/

/-- The search for the reinsertion point, at `cur`. -/
def findFrom (s : Slob) (b : Nat) : Nat → Nat → Except Stop Nat
  | 0, _ => .error .outOfFuel
  | fuel + 1, cur =>
    if b > cur ∧ b < s.next cur then .ok cur
    else if cur ≥ s.next cur ∧ (b > cur ∨ b < s.next cur) then .ok cur
    else s.findFrom b fuel (s.next cur)

/-- The block `b` is put in after `cur`, and merged with its neighbours. -/
def linkAfter (s : Slob) (b cur : Nat) : Slob :=
  let s :=
    if b + s.units b = s.next cur then
      (s.setUnits b (s.units b + s.units (s.next cur))).setNext b (s.next (s.next cur))
    else s.setNext b (s.next cur)
  let s :=
    if cur + s.units cur = b then
      (s.setUnits cur (s.units cur + s.units b)).setNext cur (s.next b)
    else s.setNext cur b
  { s with slobfree := cur }

/-- `slob_free`. -/
def slobFree (fuel : Nat) (s : Slob) (b : Nat) (size : Nat) : Except Stop Slob := do
  if b = 0 then return s
  let s := if size ≠ 0 then s.setUnits b (slobUnits size) else s
  let cur ← s.findFrom b fuel s.slobfree
  return s.linkAfter b cur

/-! ### `slob_alloc` -/

/-- The block `cur` after `prev`, or the first `units` of it, is taken from the list. -/
def take (s : Slob) (units : Nat) (prev cur : Nat) : Slob :=
  let s :=
    if s.units cur = units then s.setNext prev (s.next cur)
    else
      let s := s.setNext prev (cur + units)
      let s := s.setUnits (s.next prev) (s.units cur - units)
      -- `cur->next` is read after `prev->next` has been written
      let s := s.setNext (s.next prev) (s.next cur)
      s.setUnits cur units
  { s with slobfree := prev }

/-- The loop of `slob_alloc`, at `prev` and `cur`. -/
def allocFrom (s : Slob) (units : Nat) : Nat → Nat → Nat →
    Except Stop (Option Nat × Slob)
  | 0, _, _ => .error .outOfFuel
  | fuel + 1, prev, cur =>
    if units ≤ s.units cur then .ok (some cur, s.take units prev cur)
    else if cur = s.slobfree then
      match s.pages with
      | [] => .ok (none, s)
      | page :: pages => do
        let s ← slobFree fuel { s with pages := pages } page pageSize
        s.allocFrom units fuel s.slobfree (s.next s.slobfree)
    else s.allocFrom units fuel cur (s.next cur)

/-- `slob_alloc`. The test for `size == PAGE_SIZE` is never true after the assertion. -/
def slobAlloc (fuel : Nat) (s : Slob) (size : Nat) : Except Stop (Option Nat × Slob) := do
  if ¬size + slobUnit < pageSize then throw .assertion
  s.allocFrom (slobUnits size) fuel s.slobfree (s.next s.slobfree)

/-! ### `kmalloc` and `kfree` -/

/-- The loop of `find_order`. -/
def findOrderFrom (size : Nat) : Nat := if 4096 < size then findOrderFrom (size / 2) + 1 else 0

/-- `find_order`: its argument is an `int`, so large sizes are negative. -/
def findOrder (size : Nat) : Nat := if size < 2 ^ 31 then findOrderFrom size else 0

/-- The fields `order` and `pages` of the `bigblock_t` at `bb` are written. -/
def fillBigblock (s : Slob) (bb order pages : Nat) : Slob :=
  (s.setUnits bb order).setNext bb pages

/-- The `bigblock_t` at `bb` is filled in and put in front of `bigblocks`. -/
def pushBigblock (s : Slob) (bb order pages : Nat) : Slob :=
  { (s.fillBigblock bb order pages).setUnits (bb + 1) ((s.bigblocks.map (·.addr)).headD 0) with
    bigblocks := ⟨bb, order, pages⟩ :: s.bigblocks }

/-- `__kmalloc`; `bigPages` is what `__slob_get_free_pages` returns for a big block. -/
def kmalloc (fuel : Nat) (s : Slob) (size : Nat) (bigPages : Option Nat) :
    Except Stop (Option Nat × Slob) := do
  if size < pageSize - slobUnit then
    let (m, s) ← s.slobAlloc fuel (size + slobUnit)
    return (m.map (· + 1), s)
  else
    match ← s.slobAlloc fuel bigblockSize with
    | (none, s) => return (none, s)
    | (some bb, s) =>
      let order := findOrder size
      match bigPages with
      | some pages => return (some pages, s.pushBigblock bb order pages)
      | none =>
        let s ← slobFree fuel (s.fillBigblock bb order 0) bb bigblockSize
        return (none, s)

/-- `kfree`. -/
def kfree (fuel : Nat) (s : Slob) (block : Nat) : Except Stop Slob := do
  if block = 0 then return s
  match if block % pageUnits = 0 then s.bigblocks.find? (·.pages = block) else none with
  | some bb =>
    let s := { s with bigblocks := s.bigblocks.erase bb }
    slobFree fuel s bb.addr bigblockSize
  | none => slobFree fuel s (block - 1) 0

end Slob

end UcoreMips.Kernel
