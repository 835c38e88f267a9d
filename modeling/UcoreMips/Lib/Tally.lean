import Mathlib

/-!
# UcoreMips.Lib.Tally

**Counting what processes do.** Each process is at one place (`headcount` counts those at a given
one) and holds a number of shares of each thing (`shares` adds them up). Both follow the move of one
process.
-/

namespace UcoreMips.Lib

open Finset

open Function (update update_eq_self)

section Headcount

variable {P S : Type} [Fintype P] [DecidableEq P] [DecidableEq S] {place : P → S} {p : P} {x y : S}

/-- The number of processes at `x`. -/
def headcount (place : P → S) (x : S) : Nat := (Finset.univ.filter (place · = x)).card

omit [DecidableEq P] in
theorem headcount_eq_zero : headcount place x = 0 ↔ ∀ p, place p ≠ x := by
  simp [headcount, filter_eq_empty_iff]

omit [DecidableEq P] in
theorem headcount_pos (hp : place p = x) : 0 < headcount place x :=
  Nat.pos_of_ne_zero fun h => headcount_eq_zero.mp h p hp

omit [DecidableEq P] in
/-- The only one there. -/
theorem headcount_one (h : headcount place x = 1) (hp : place p = x) {q : P} (hq : place q = x) :
    q = p := by
  obtain ⟨r, hr⟩ := card_eq_one.mp h
  have hmem : ∀ r', place r' = x → r' = r := fun r' hr' => by
    have : r' ∈ Finset.univ.filter (place · = x) := by simpa using hr'
    rw [hr] at this
    exact mem_singleton.mp this
  exact (hmem q hq).trans (hmem p hp).symm

theorem headcount_enter (hp : place p ≠ x) :
    headcount (update place p x) x = headcount place x + 1 := by
  have hset : Finset.univ.filter (update place p x · = x) =
      insert p (Finset.univ.filter (place · = x)) := by
    ext q
    by_cases hq : q = p
    · simp [hq]
    · simp [hq]
  rw [headcount, hset, card_insert_of_notMem (by simpa using hp)]
  rfl

theorem headcount_leave (hp : place p = x) (hy : y ≠ x) :
    headcount (update place p y) x + 1 = headcount place x := by
  have hback : update (update place p y) p x = place := by
    rw [Function.update_idem, ← hp, update_eq_self]
  have henter : headcount (update (update place p y) p x) x =
      headcount (update place p y) x + 1 := headcount_enter (by simpa using hy)
  rw [hback] at henter
  exact henter.symm

theorem headcount_other (hp : place p ≠ x) (hy : y ≠ x) :
    headcount (update place p y) x = headcount place x := by
  unfold headcount
  congr 1
  ext q
  by_cases hq : q = p
  · simp [hq, hp, hy]
  · simp [hq]

/-- One process moves. -/
theorem headcount_update (place : P → S) (p : P) (x y : S) :
    headcount (update place p y) x + (if place p = x then 1 else 0) =
      headcount place x + if y = x then 1 else 0 := by
  by_cases hp : place p = x
  · by_cases hy : y = x
    · rw [show update place p y = place by rw [hy, ← hp, update_eq_self], hp, hy]
    · rw [if_pos hp, if_neg hy, headcount_leave hp hy, Nat.add_zero]
  · by_cases hy : y = x
    · rw [if_neg hp, if_pos hy, hy, headcount_enter hp, Nat.add_zero]
    · rw [if_neg hp, if_neg hy, headcount_other hp hy]

omit [Fintype P] [DecidableEq S] in
/-- Who is somewhere after the move to another place was there before. -/
theorem of_update {q : P} (hx : x ≠ y) (h : update place p x q = y) : place q = y := by
  by_cases hq : q = p
  · subst hq
    exact absurd ((Function.update_self ..).symm.trans h) hx
  · rwa [Function.update_of_ne hq] at h

end Headcount

section Shares

variable {P N : Type} [Fintype P] [DecidableEq P] [DecidableEq N] {held : P → N → Nat} {p : P}
  {n n' : N} {k : Nat}

/-- The shares in `n` that are held. -/
def shares (held : P → N → Nat) (n : N) : Nat := ∑ p, held p n

/-- `p` holds `k` shares in `n`. -/
def setShares (held : P → N → Nat) (p : P) (n : N) (k : Nat) : P → N → Nat :=
  update held p (update (held p) n k)

omit [Fintype P] in
@[simp] theorem setShares_self : setShares held p n k p n = k := by
  simp [setShares]

omit [Fintype P] in
theorem setShares_of_ne (hn : n' ≠ n) (q : P) : setShares held p n k q n' = held q n' := by
  by_cases hq : q = p
  · simp [setShares, hq, hn]
  · simp [setShares, hq]

omit [Fintype P] in
theorem setShares_other {q : P} (hq : q ≠ p) (n' : N) : setShares held p n k q n' = held q n' := by
  simp [setShares, hq]

omit [DecidableEq P] [DecidableEq N] in
theorem shares_eq_zero : shares held n = 0 ↔ ∀ p, held p n = 0 := by
  simp [shares]

omit [DecidableEq P] [DecidableEq N] in
theorem held_le_shares (held : P → N → Nat) (p : P) (n : N) : held p n ≤ shares held n :=
  single_le_sum (f := fun p => held p n) (fun _ _ => Nat.zero_le _) (mem_univ p)

theorem shares_set (held : P → N → Nat) (p : P) (n : N) (k : Nat) :
    shares (setShares held p n k) n + held p n = shares held n + k := by
  have hsum : ∀ f : P → N → Nat, shares f n = f p n + ∑ q ∈ Finset.univ.erase p, f q n := fun f =>
    (add_sum_erase _ _ (mem_univ p)).symm
  have hrest : ∑ q ∈ Finset.univ.erase p, setShares held p n k q n =
      ∑ q ∈ Finset.univ.erase p, held q n :=
    sum_congr rfl fun q hq => setShares_other (ne_of_mem_erase hq) n
  rw [hsum held, hsum (setShares held p n k), hrest, setShares_self]
  omega

theorem shares_set_of_ne (hn : n' ≠ n) : shares (setShares held p n k) n' = shares held n' :=
  sum_congr rfl fun q _ => setShares_of_ne hn q

end Shares

end UcoreMips.Lib
