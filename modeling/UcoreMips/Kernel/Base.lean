import UcoreMips.Lib.Ring

/-!
# UcoreMips.Kernel.Base

What the modules of the kernel share: the ways in which a call does not come back, the
error codes, and the **doubly linked lists** of `libs/list.h`, which are threaded through
fields of other structures. The type of the nodes stands for the places such a field can be in.
-/

namespace UcoreMips.Kernel

open UcoreMips.Lib
open Function (update update_self)

/-- Why a call does not come back. -/
inductive Stop
  | assertion
  | invalidPa
  | nullPointer
  | outOfBounds
  | killed
  /-- The loop was cut off after a number of turns the caller has set. -/
  | outOfFuel
  deriving Repr, DecidableEq

/-! ### `error.h` -/

def eBadProc : Int := 2
def eInval : Int := 3
def eNoMem : Int := 4
def eNoFreeProc : Int := 5
def eKilled : Int := 9
def eNoDev : Int := 13
def eNaDev : Int := 14
def eBusy : Int := 15
def eNoent : Int := 16
def eIsdir : Int := 17
def eNotdir : Int := 18
def eMaxOpen : Int := 22
def eExists : Int := 23

/-! ### `list.h` -/

section List

variable {N : Type} [DecidableEq N]

/-- `list_init`. -/
def listInit (l : Links N) (elm : N) : Links N :=
  { prev := update l.prev elm elm, next := update l.next elm elm }

/-- `__list_add`. -/
def listAddBetween (l : Links N) (elm prev next : N) : Links N :=
  { prev := update (update l.prev next elm) elm prev
    next := update (update l.next prev elm) elm next }

/-- `list_add_before`. -/
def listAddBefore (l : Links N) (listelm elm : N) : Links N :=
  listAddBetween l elm (l.prev listelm) listelm

/-- `list_add_after`, which is also `list_add`. -/
def listAddAfter (l : Links N) (listelm elm : N) : Links N :=
  listAddBetween l elm listelm (l.next listelm)

/-- `__list_del`. -/
def listDelBetween (l : Links N) (prev next : N) : Links N :=
  { prev := update l.prev next prev, next := update l.next prev next }

/-- `list_del`: the pointers of the node itself stay as they are. -/
def listDel (l : Links N) (listelm : N) : Links N :=
  listDelBetween l (l.prev listelm) (l.next listelm)

/-- `list_del_init`. -/
def listDelInit (l : Links N) (listelm : N) : Links N := listInit (listDel l listelm) listelm

/-- `list_empty`. -/
def listEmpty (l : Links N) (list : N) : Bool := l.next list = list

variable {l : Links N} {h e y : N} {xs ys : List N}

theorem listInit_ring (l : Links N) (h : N) : Ring (listInit l h) h [] :=
  ⟨update_self .., update_self .., List.nodup_singleton h⟩

/-- Adding before a node, or at the end before the head. -/
theorem listAddBefore_ring (hr : Ring l h (xs ++ ys)) (he : e ∉ h :: (xs ++ ys))
    (hy : y = ys.headD h) : Ring (listAddBefore l y e) h (xs ++ e :: ys) := by
  rw [hy, listAddBefore, hr.prev_first]
  exact hr.insert he

/-- Adding after a node, or at the beginning after the head. -/
theorem listAddAfter_ring (hr : Ring l h (xs ++ ys)) (he : e ∉ h :: (xs ++ ys))
    (hy : y = xs.getLastD h) : Ring (listAddAfter l y e) h (xs ++ e :: ys) := by
  rw [hy, listAddAfter, hr.next_last]
  exact hr.insert he

theorem listDel_ring (hr : Ring l h (xs ++ e :: ys)) : Ring (listDel l e) h (xs ++ ys) := by
  rw [listDel, hr.prev_mem, hr.next_mem]
  exact hr.erase

/-- A node that has been taken out still points to its old neighbour. -/
theorem listDel_prev (hr : Ring l h (xs ++ e :: ys)) : (listDel l e).prev e = xs.getLastD h := by
  have hne : e ≠ ys.headD h := by
    have hnd := hr.nodup
    rw [List.nodup_cons, List.nodup_append, List.nodup_cons] at hnd
    cases ys with
    | nil => exact fun heq => hnd.1 (heq ▸ by simp)
    | cons y ys => exact fun heq => hnd.2.2.1.1 (heq ▸ List.mem_cons_self)
  rw [listDel, hr.prev_mem, hr.next_mem]
  exact (Function.update_of_ne hne ..).trans hr.prev_mem

end List

end UcoreMips.Kernel
