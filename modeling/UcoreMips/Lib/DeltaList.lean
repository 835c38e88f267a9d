import Mathlib

/-!
# UcoreMips.Lib.DeltaList

**Alarms kept as differences.** A `Countdown` says for each alarm in how many ticks it goes
off. A *delta list* is a way to keep one: the alarms stand in the order in which they go
off, and each of them only records its distance to the one before it, so that a tick changes
one number. The lemmas below say which edits of such a list are the operations on the
countdown: an alarm is wedged in or taken out while its successor pays for it, or the first
number goes down and the alarms that have reached zero are dropped.
-/

namespace UcoreMips.Lib

open List Function

variable {α : Type} [DecidableEq α]

/-- In how many ticks each of the alarms that are set goes off. -/
abbrev Countdown (α : Type) := α → Option Nat

namespace Countdown

variable (c : Countdown α) (a : α)

def start (n : Nat) : Countdown α := Function.update c a (some n)

def cancel : Countdown α := Function.update c a none

/-- One tick less; what has one tick left goes off. -/
def less : Option Nat → Option Nat
  | some (n + 2) => some (n + 1)
  | _ => none

def tick (c : Countdown α) : Countdown α := fun a => less (c a)

/-- What goes off at a tick is what had one tick left. -/
theorem less_eq_none_iff {n : Nat} (hn : 0 < n) : less (some n) = none ↔ n = 1 := by
  obtain ⟨m, rfl⟩ : ∃ m, n = m + 1 := ⟨n - 1, by omega⟩
  cases m with
  | zero => exact ⟨fun _ => rfl, fun _ => rfl⟩
  | succ m => exact ⟨nofun, nofun⟩

/-- After a number of ticks. -/
theorem less_iterate (k : Nat) {n : Nat} (hn : 0 < n) :
    less^[k] (some n) = if k < n then some (n - k) else none := by
  induction k generalizing n with
  | zero => rw [iterate_zero, id, if_pos hn, Nat.sub_zero]
  | succ k ih =>
    obtain ⟨m, rfl⟩ : ∃ m, n = m + 1 := ⟨n - 1, by omega⟩
    rw [iterate_succ, comp_apply]
    cases m with
    | zero =>
      exact iterate_fixed (show less none = none from rfl) k
    | succ m =>
      rw [show less (some (m + 1 + 1)) = some (m + 1) from rfl, ih (Nat.succ_pos m),
        Nat.succ_sub_succ,
        if_congr Nat.succ_lt_succ_iff rfl rfl]

end Countdown

/-! ### Sums of differences -/

section Due

variable {d e : α → Nat} {a : α} {xs ys : List α}

/-- The time at which an alarm of the list goes off: the differences up to it, added up. -/
def due (d : α → Nat) : List α → α → Nat
  | [], _ => 0
  | x :: xs, a => if x = a then d x else d x + due d xs a

/-- The countdown a delta list stands for. -/
def countdown (d : α → Nat) (xs : List α) : Countdown α := fun a =>
  if a ∈ xs then some (due d xs a) else none

theorem due_append_of_mem (h : a ∈ xs) : due d (xs ++ ys) a = due d xs a := by
  induction xs with
  | nil => cases h
  | cons x xs ih =>
    rw [cons_append, due, due]
    split
    · rfl
    · next hne => rw [ih ((mem_cons.mp h).resolve_left fun heq => hne heq.symm)]

theorem due_append_of_notMem (h : a ∉ xs) : due d (xs ++ ys) a = (xs.map d).sum + due d ys a := by
  induction xs with
  | nil => rw [nil_append, map_nil, sum_nil, Nat.zero_add]
  | cons x xs ih =>
    have hx : x ≠ a := fun heq => h (heq ▸ mem_cons_self)
    rw [cons_append, due, if_neg hx, ih fun hin => h (mem_cons_of_mem x hin),
      map_cons, sum_cons, Nat.add_assoc]

theorem due_congr (h : ∀ x ∈ xs, e x = d x) : due e xs a = due d xs a := by
  induction xs with
  | nil => rfl
  | cons x xs ih =>
    rw [due, due, h x mem_cons_self, ih fun z hz => h z (mem_cons_of_mem x hz)]

theorem due_le_sum : due d xs a ≤ (xs.map d).sum := by
  induction xs with
  | nil => exact Nat.zero_le _
  | cons x xs ih =>
    rw [due, map_cons, sum_cons]
    split <;> omega

/-- A list whose first difference is positive has no alarm that is due already. -/
theorem due_pos (h : ∀ x ∈ xs.head?, 0 < d x) (ha : a ∈ xs) : 0 < due d xs a := by
  cases xs with
  | nil => cases ha
  | cons x xs =>
    have hx := h x rfl
    rw [due]
    split <;> omega

end Due

/-! ### Edits of a delta list -/

section Edits

variable {d e : α → Nat} {a b : α} {k : Nat} {xs ys : List α}

/-- The differences `e` are `d`, but for the first of the list, which is larger by `k`. -/
def Shifted (k : Nat) (d e : α → Nat) : List α → Prop
  | [] => True
  | y :: ys => e y = d y + k ∧ ∀ z ∈ ys, e z = d z

omit [DecidableEq α] in
theorem Shifted.congr {e' : α → Nat} (h : Shifted k d e ys) (he : ∀ y ∈ ys, e' y = e y) :
    Shifted k d e' ys := by
  cases ys with
  | nil => trivial
  | cons y ys =>
    exact ⟨(he y mem_cons_self).trans h.1,
      fun z hz => (he z (mem_cons_of_mem y hz)).trans (h.2 z hz)⟩

theorem Shifted.due_eq (h : Shifted k d e ys) (hb : b ∈ ys) : due e ys b = due d ys b + k := by
  cases ys with
  | nil => cases hb
  | cons y ys =>
    rw [due, due, h.1, due_congr h.2]
    split <;> omega

omit [DecidableEq α] in
theorem Shifted.sum_le (h : Shifted k d e ys) : (ys.map e).sum ≤ (ys.map d).sum + k := by
  cases ys with
  | nil => exact Nat.zero_le _
  | cons y ys =>
    rw [map_cons, map_cons, sum_cons, sum_cons, h.1, map_congr_left h.2]
    omega

omit [DecidableEq α] in
theorem Shifted.sum_eq (h : Shifted k d e ys) (hys : ys ≠ []) :
    (ys.map e).sum = (ys.map d).sum + k := by
  cases ys with
  | nil => exact absurd rfl hys
  | cons y ys =>
    rw [map_cons, map_cons, sum_cons, sum_cons, h.1, map_congr_left h.2]
    omega

/-- `a` stands between `xs` and `ys` in the list with the differences `e`; without it, and
with what it adds given to its successor, the differences are `d`. -/
structure Wedged (d e : α → Nat) (xs : List α) (a : α) (ys : List α) : Prop where
  fresh : a ∉ xs ++ ys
  before : ∀ x ∈ xs, e x = d x
  after : Shifted (e a) e d ys

/-- The countdowns with and without an alarm differ only there. -/
theorem Wedged.countdown_eq (h : Wedged d e xs a ys) :
    countdown e (xs ++ a :: ys) = (countdown d (xs ++ ys)).start a ((xs.map d).sum + e a) := by
  have hax : a ∉ xs := fun hin => h.fresh (mem_append_left ys hin)
  have hsum : (xs.map e).sum = (xs.map d).sum := by rw [map_congr_left h.before]
  funext b
  rw [Countdown.start]
  by_cases hba : b = a
  · subst hba
    rw [update_self, countdown, if_pos (mem_append_right xs mem_cons_self),
      due_append_of_notMem hax, due, if_pos rfl, hsum]
  rw [update_of_ne hba, countdown, countdown]
  have hmem : b ∈ xs ++ a :: ys ↔ b ∈ xs ++ ys := by
    rw [mem_append, mem_append, mem_cons, or_iff_right hba]
  rw [if_congr hmem rfl rfl]
  split
  · next hb =>
    congr 1
    by_cases hbx : b ∈ xs
    · rw [due_append_of_mem hbx, due_append_of_mem hbx, due_congr h.before]
    · have hby := (mem_append.mp hb).resolve_left hbx
      rw [due_append_of_notMem hbx, due_append_of_notMem hbx, due, if_neg (Ne.symm hba), hsum,
        h.after.due_eq hby]
      omega
  · rfl

/-- Taking an alarm out cancels it. -/
theorem Wedged.countdown_cancel (h : Wedged d e xs a ys) :
    countdown d (xs ++ ys) = (countdown e (xs ++ a :: ys)).cancel a := by
  have hnone : countdown d (xs ++ ys) a = none := if_neg h.fresh
  rw [h.countdown_eq, Countdown.cancel, Countdown.start, update_idem, ← hnone, update_eq_self]

omit [DecidableEq α] in
theorem Wedged.sum_le (h : Wedged d e xs a ys) :
    ((xs ++ ys).map d).sum ≤ ((xs ++ a :: ys).map e).sum := by
  have hle := h.after.sum_le
  rw [map_append, map_append, sum_append, sum_append, map_cons, sum_cons, map_congr_left h.before]
  omega

omit [DecidableEq α] in
/-- The last alarm goes off no later than it did, or it is the new one. -/
theorem Wedged.le_max (h : Wedged d e xs a ys) :
    ((xs ++ a :: ys).map e).sum ≤ max ((xs ++ ys).map d).sum ((xs.map d).sum + e a) := by
  have hsum : (xs.map e).sum = (xs.map d).sum := by rw [map_congr_left h.before]
  rw [map_append, map_append, sum_append, sum_append, map_cons, sum_cons, hsum]
  cases ys with
  | nil => exact Nat.le_max_right _ _
  | cons y ys =>
    have heq := h.after.sum_eq (cons_ne_nil y ys)
    omega

/-- The first difference goes down, and the alarms that are due then are dropped. -/
theorem countdown_tick (hnd : (xs ++ ys).Nodup) (hsh : Shifted 1 e d (xs ++ ys))
    (hxs : ∀ x ∈ xs, e x = 0) (hys : ∀ y ∈ ys.head?, 0 < e y) :
    countdown e ys = (countdown d (xs ++ ys)).tick := by
  have hzero : (xs.map e).sum = 0 := by
    refine sum_eq_zero fun m hm => ?_
    obtain ⟨x, hx, rfl⟩ := mem_map.mp hm
    exact hxs x hx
  funext b
  show _ = Countdown.less (countdown d (xs ++ ys) b)
  rw [countdown, countdown]
  by_cases hb : b ∈ xs ++ ys
  · rw [if_pos hb, hsh.due_eq hb]
    by_cases hby : b ∈ ys
    · have hbx : b ∉ xs := fun hbx => (nodup_append.mp hnd).2.2 b hbx b hby rfl
      obtain ⟨m, hm⟩ : ∃ m, due e ys b = m + 1 := ⟨_, (Nat.succ_pred_eq_of_pos (due_pos hys hby)).symm⟩
      rw [if_pos hby, due_append_of_notMem hbx, hzero, hm, Nat.zero_add]
      rfl
    · have hbx := (mem_append.mp hb).resolve_right hby
      have hle : due e xs b = 0 := Nat.le_zero.mp (hzero ▸ due_le_sum)
      rw [if_neg hby, due_append_of_mem hbx, hle]
      rfl
  · rw [if_neg hb, if_neg fun hby => hb (mem_append_right xs hby)]
    rfl

end Edits

end UcoreMips.Lib
