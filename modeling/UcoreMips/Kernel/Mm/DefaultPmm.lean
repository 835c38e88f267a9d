import UcoreMips.Kernel.Base

/-!
# UcoreMips.Kernel.Mm.DefaultPmm

The **first-fit page manager** (`kern/mm/default_pmm.c`).

* A `struct Page *` is the index of the page in the array `pages`, and the nodes of
  the free list are its head and the field `page_link` of each page (`FreeLink`), so
  that `le2page` is the projection from a node that is not the head.
* Of `flags` the manager uses two bits; `p->flags = 0` clears both.
* A loop over the free list takes the number of turns it may make. That a number
  suffices is part of what is proved about it.
-/

namespace UcoreMips.Kernel

open UcoreMips.Lib

/-- `struct Page`, as far as the manager uses it. -/
structure Page where
  ref : Int
  /-- `PG_reserved`. -/
  pageReserved : Bool
  /-- `PG_property`. -/
  pageProperty : Bool
  property : Nat
  deriving Repr, DecidableEq

/-- A `list_entry_t *`: `&free_list`, or `&(p->page_link)`. -/
inductive FreeLink
  | freeList
  | pageLink (p : Nat)
  deriving Repr, DecidableEq

/-- The pages and `free_area`. -/
structure Pmm where
  pages : Nat → Page
  links : Links FreeLink
  nrFree : Nat

namespace Pmm

/-- An assignment to fields of one page. -/
def modify (s : Pmm) (p : Nat) (f : Page → Page) : Pmm :=
  { s with pages := Function.update s.pages p (f (s.pages p)) }

/-- `p->property = n`. -/
def setProperty (s : Pmm) (p n : Nat) : Pmm := s.modify p fun page => { page with property := n }

def setPageProperty (s : Pmm) (p : Nat) : Pmm :=
  s.modify p fun page => { page with pageProperty := true }

def clearPageProperty (s : Pmm) (p : Nat) : Pmm :=
  s.modify p fun page => { page with pageProperty := false }

/-- The loop of `default_list_add`, at the node `listelm`. -/
def defaultListAddFrom (s : Pmm) (base : Nat) : Nat → FreeLink → Except Stop Pmm
  | 0, _ => .error .outOfFuel
  | fuel + 1, listelm =>
    match s.links.next listelm with
    | .freeList => .ok { s with links := listAddBefore s.links .freeList (.pageLink base) }
    | .pageLink p =>
      if base = p then .error .assertion
      else if base < p then
        if base + (s.pages base).property ≤ p then
          .ok { s with links := listAddBefore s.links (.pageLink p) (.pageLink base) }
        else .error .assertion
      else if p + (s.pages p).property ≤ base then s.defaultListAddFrom base fuel (.pageLink p)
      else .error .assertion

/-- `default_list_add`; its first argument is always `&free_list`. -/
def defaultListAdd (fuel : Nat) (s : Pmm) (base : Nat) : Except Stop Pmm :=
  s.defaultListAddFrom base fuel .freeList

/-- `default_init`. -/
def defaultInit (s : Pmm) : Pmm := { s with links := listInit s.links .freeList, nrFree := 0 }

/-- A loop over the `n` pages from `p` on, with an assertion and assignments for each. -/
def forPages (check : Page → Bool) (reset : Page → Page) (s : Pmm) (p : Nat) :
    Nat → Except Stop Pmm
  | 0 => .ok s
  | n + 1 =>
    if check (s.pages p) then forPages check reset (s.modify p reset) (p + 1) n
    else .error .assertion

/-- `default_init_memmap`. -/
def defaultInitMemmap (fuel : Nat) (s : Pmm) (base n : Nat) : Except Stop Pmm := do
  if n = 0 then throw .assertion
  let s ← s.forPages (fun p => p.pageReserved)
    (fun _ => { ref := 0, pageReserved := false, pageProperty := false, property := 0 }) base n
  let s := (s.setProperty base n).setPageProperty base
  let s := { s with nrFree := s.nrFree + n }
  s.defaultListAdd fuel base

/-- The search of `default_alloc_pages`, at the node `le`. -/
def firstFit (s : Pmm) (n : Nat) : Nat → FreeLink → Except Stop (Option Nat)
  | 0, _ => .error .outOfFuel
  | fuel + 1, le =>
    match s.links.next le with
    | .freeList => .ok none
    | .pageLink p =>
      if n ≤ (s.pages p).property then .ok (some p) else s.firstFit n fuel (.pageLink p)

/-- `default_alloc_pages`. -/
def defaultAllocPages (fuel : Nat) (s : Pmm) (n : Nat) : Except Stop (Option Nat × Pmm) := do
  if n = 0 then throw .assertion
  if s.nrFree < n then return (none, s)
  match ← s.firstFit n fuel .freeList with
  | none => return (none, s)
  | some page =>
    let s := { s with links := listDel s.links (.pageLink page) }
    let s :=
      if n < (s.pages page).property then
        let p := page + n
        let s := (s.setProperty p ((s.pages page).property - n)).setPageProperty p
        -- `list_add`, at the place the block had
        { s with links := listAddAfter s.links (s.links.prev (.pageLink page)) (.pageLink p) }
      else s
    let s := { s with nrFree := s.nrFree - n }
    return (some page, s.clearPageProperty page)

/-- The second loop of `default_free_pages`, at the node `le`: merge the block at `base`
with its neighbours, taking them off the list. -/
def mergeFrom (s : Pmm) (base : Nat) : Nat → FreeLink → Except Stop (Nat × Pmm)
  | _, .freeList => .ok (base, s)
  | 0, .pageLink _ => .error .outOfFuel
  | fuel + 1, .pageLink p =>
    let le := s.links.next (.pageLink p)
    if base + (s.pages base).property = p then
      let s := s.setProperty base ((s.pages base).property + (s.pages p).property)
      let s := s.clearPageProperty p
      { s with links := listDel s.links (.pageLink p) }.mergeFrom base fuel le
    else if p + (s.pages p).property = base then
      let s := s.setProperty p ((s.pages p).property + (s.pages base).property)
      let s := s.clearPageProperty base
      { s with links := listDel s.links (.pageLink p) }.mergeFrom p fuel le
    else s.mergeFrom base fuel le

/-- `default_free_pages`. -/
def defaultFreePages (fuel : Nat) (s : Pmm) (base n : Nat) : Except Stop Pmm := do
  if n = 0 then throw .assertion
  let s ← s.forPages (fun p => !p.pageReserved && !p.pageProperty)
    (fun p => { p with ref := 0, pageReserved := false, pageProperty := false }) base n
  let s := (s.setProperty base n).setPageProperty base
  let (base, s) ← s.mergeFrom base fuel (s.links.next .freeList)
  let s := { s with nrFree := s.nrFree + n }
  s.defaultListAdd fuel base

end Pmm

end UcoreMips.Kernel
