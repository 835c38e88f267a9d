import Mathlib

/-!
# UcoreMips.Lib.Result

Inverting computations that may fail: a `do` block that came to its end did so
through successful runs of its steps.

A loop that is not structural is given fuel. It *returns* a value when it does so with every
fuel from some amount on (`Returns`): the value is then the one the loop computes, however
much fuel there is, and running out of fuel stands for not coming to an end.
-/

namespace UcoreMips.Lib

variable {ε α β : Type} {x : Except ε α} {f : α → Except ε β} {b : β} {a : α}

@[simp] theorem ok_bind (a : α) (f : α → Except ε β) : (Except.ok a >>= f) = f a := rfl

@[simp] theorem error_bind (e : ε) (f : α → Except ε β) : (Except.error e >>= f) = .error e := rfl

@[simp] theorem pure_eq_ok (a : α) : (pure a : Except ε α) = .ok a := rfl

theorem bind_eq_ok : (x >>= f) = .ok b ↔ ∃ a, x = .ok a ∧ f a = .ok b := by
  cases x with
  | error e =>
    constructor
    · intro h
      cases h
    · rintro ⟨a, h, -⟩
      cases h
  | ok a =>
    constructor
    · exact fun h => ⟨a, rfl, h⟩
    · rintro ⟨a', h, hf⟩
      cases h
      exact hf

theorem mapError_eq_ok {δ : Type} {g : ε → δ} : x.mapError g = .ok a ↔ x = .ok a := by
  cases x with
  | error e =>
    constructor <;>
      · intro h
        cases h
  | ok b =>
    constructor <;>
      · intro h
        cases h
        rfl

theorem map_eq_ok {g : α → β} : x.map g = .ok b ↔ ∃ a, x = .ok a ∧ g a = b := by
  have hmap : x.map g = x >>= fun a => .ok (g a) := by
    cases x <;> rfl
  rw [hmap, bind_eq_ok]
  simp only [Except.ok.injEq]

/-- The computation gives a value with `P`, or stops for one of the reasons `E`. -/
def Ensures (E : ε → Prop) (P : α → Prop) : Except ε α → Prop
  | .ok a => P a
  | .error e => E e

namespace Ensures

variable {E F : ε → Prop} {P : α → Prop} {x : Except ε α}

theorem mono {Q : α → Prop} (h : Ensures E P x) (hE : ∀ e, E e → F e) (hP : ∀ a, P a → Q a) :
    Ensures F Q x := by
  cases x with
  | ok a => exact hP a h
  | error e => exact hE e h

/-- Two steps, one after the other. -/
theorem bind {Q : β → Prop} (h : Ensures E P x)
    (hf : ∀ a, P a → Ensures E Q (f a)) : Ensures E Q (x >>= f) := by
  cases x with
  | ok a => exact hf a h
  | error e => exact h

/-- A computation that has no reason to stop gives a value. -/
theorem exists_ok (h : Ensures E P x) (hE : ∀ e, ¬E e) : ∃ a, x = .ok a ∧ P a := by
  cases x with
  | ok a => exact ⟨a, rfl, h⟩
  | error e => exact absurd h (hE e)

/-- What is said of the value only. -/
theorem of_forall (h : ∀ a, x = .ok a → P a) : Ensures (fun _ => True) P x := by
  cases x with
  | ok a => exact h a rfl
  | error e => trivial

theorem of_ok (h : Ensures E P x) (hx : x = .ok a) : P a := by
  rw [hx] at h
  exact h

theorem of_error {e : ε} (h : Ensures E P x) (hx : x = .error e) : E e := by
  rw [hx] at h
  exact h

end Ensures

section Steps

variable {S O : Type} (legal : S → O → Prop) [∀ s o, Decidable (legal s o)]
  (exec : S → O → Except ε S)

/-- The steps of a list, when they are legal and come back. -/
def execAll (s : S) : List O → Option S
  | [] => some s
  | o :: os =>
    if legal s o then
      match exec s o with
      | .ok t => execAll t os
      | .error _ => none
    else none

variable {legal exec}

/-- What such a step keeps, they keep. -/
theorem execAll_keeps {R : S → Prop} {s t : S} {os : List O}
    (hstep : ∀ s o t, R s → legal s o → exec s o = .ok t → R t)
    (h : execAll legal exec s os = some t) (hs : R s) : R t := by
  induction os generalizing s with
  | nil => exact Option.some.inj h ▸ hs
  | cons o os ih =>
    rw [execAll] at h
    split at h
    · next hlegal =>
      split at h
      · next u hu => exact ih h (hstep s o u hs hlegal hu)
      · cases h
    · cases h

end Steps

/-- With enough fuel, the computation returns this value. -/
def Returns (f : Nat → Except ε α) (a : α) : Prop := ∃ N, ∀ fuel ≥ N, f fuel = .ok a

namespace Returns

variable {f : Nat → Except ε α} {a b : α}

/-- It returns one value only. -/
theorem unique (ha : Returns f a) (hb : Returns f b) : a = b := by
  obtain ⟨N, ha⟩ := ha
  obtain ⟨M, hb⟩ := hb
  have h : (.ok a : Except ε α) = .ok b :=
    (ha _ (Nat.le_max_left N M)).symm.trans (hb _ (Nat.le_max_right N M))
  cases h
  rfl

theorem pure (a : α) : Returns (fun _ => (.ok a : Except ε α)) a := ⟨0, fun _ _ => rfl⟩

end Returns

end UcoreMips.Lib
