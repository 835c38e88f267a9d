import Mathlib

/-!
# UcoreMips.Lib.Ownership

**Who owns what.** Places own things, each at most one, and the things that nobody owns may be
free. A free thing can be claimed by a place that has none, a place can release what it owns,
and, where losses are possible, free things can be lost.

Whatever is done, no thing is owned twice or owned while it is free (`Exclusive.moves`), and
as long as nothing is lost everything that is not free has an owner (`Complete.moves`). Places
can be grouped: changes at the places of one group are changes of the whole (`Moves.set`).
-/

namespace UcoreMips.Lib

open Relation
open Function (update update_of_ne update_self)

/-- What each place owns, and the free things. -/
@[ext]
structure Holding (P T : Type) where
  own : P → Option T
  free : Set T

namespace Holding

variable {P T : Type} [DecidableEq P] {lossy : Prop} {h h' : Holding P T} {own : P → Option T}
  {p q : P} {t u : T} {all : Set T}

/-- A change of owners. Things are lost only where losses are possible. -/
inductive Move (lossy : Prop) : Holding P T → Holding P T → Prop
  /-- A place without a thing gets a free one. -/
  | claim {h : Holding P T} {p : P} {t : T} :
      h.own p = none → t ∈ h.free →
      Move lossy h ⟨update h.own p (some t), h.free \ {t}⟩
  /-- A place gives its thing back. -/
  | release {h : Holding P T} {p : P} {t : T} :
      h.own p = some t → Move lossy h ⟨update h.own p none, insert t h.free⟩
  /-- Free things go out of sight. -/
  | lose {h : Holding P T} {free : Set T} :
      lossy → free ⊆ h.free → Move lossy h ⟨h.own, free⟩

/-- Any number of changes. -/
def Moves (lossy : Prop) : Holding P T → Holding P T → Prop := ReflTransGen (Move lossy)

/-- Nothing is owned twice, or owned and free. -/
structure Exclusive (h : Holding P T) : Prop where
  used : ∀ p t, h.own p = some t → t ∉ h.free
  once : ∀ p q t, h.own p = some t → h.own q = some t → p = q

/-- Of the things in `all`, those that are not free have an owner. -/
def Complete (all : Set T) (h : Holding P T) : Prop :=
  ∀ t ∈ all, t ∉ h.free → ∃ p, h.own p = some t

/-! ### What is owned after an update -/

theorem own_update_some
    (h : update own p (some t) q = some u) : (q = p ∧ u = t) ∨ (q ≠ p ∧ own q = some u) := by
  by_cases hqp : q = p
  · subst hqp
    rw [update_self] at h
    cases h
    exact .inl ⟨rfl, rfl⟩
  · rw [update_of_ne hqp] at h
    exact .inr ⟨hqp, h⟩

theorem own_update_none (h : update own p none q = some u) : q ≠ p ∧ own q = some u := by
  by_cases hqp : q = p
  · subst hqp
    rw [update_self] at h
    cases h
  · rw [update_of_ne hqp] at h
    exact ⟨hqp, h⟩

/-! ### Changes keep the account -/

theorem Exclusive.move (he : Exclusive h) (hm : Move lossy h h') : Exclusive h' := by
  cases hm with
  | @claim p t hp ht =>
    refine ⟨fun q u hq hu => ?_, fun q r u hq hr => ?_⟩
    · rcases own_update_some hq with ⟨-, rfl⟩ | ⟨-, hq⟩
      · exact hu.2 rfl
      · exact he.used q u hq hu.1
    · rcases own_update_some hq with ⟨hqp, hut⟩ | ⟨-, hq⟩ <;>
        rcases own_update_some hr with ⟨hrp, hut'⟩ | ⟨-, hr⟩
      · rw [hqp, hrp]
      · exact absurd ht (he.used r t (hut ▸ hr))
      · exact absurd ht (he.used q t (hut' ▸ hq))
      · exact he.once q r u hq hr
  | @release p t hp =>
    refine ⟨fun q u hq hu => ?_, fun q r u hq hr => ?_⟩
    · obtain ⟨hqp, hown⟩ := own_update_none hq
      rcases hu with rfl | hu
      · exact hqp (he.once q p u hown hp)
      · exact he.used q u hown hu
    · exact he.once q r u (own_update_none hq).2 (own_update_none hr).2
  | lose _ hsub => exact ⟨fun q u hq hu => he.used q u hq (hsub hu), he.once⟩

theorem Exclusive.moves (he : Exclusive h) (hm : Moves lossy h h') : Exclusive h' := by
  induction hm with
  | refl => exact he
  | tail _ hstep ih => exact ih.move hstep

theorem Complete.move (hc : Complete all h) (hl : ¬lossy) (hm : Move lossy h h') :
    Complete all h' := by
  intro u hu hfree
  cases hm with
  | @claim p t hp ht =>
    by_cases hut : u = t
    · exact ⟨p, by rw [hut]; exact update_self p _ _⟩
    · obtain ⟨q, hq⟩ := hc u hu fun hmem => hfree ⟨hmem, hut⟩
      have hqp : q ≠ p := fun hqp => by rw [hqp, hp] at hq; cases hq
      exact ⟨q, (update_of_ne hqp _ _).trans hq⟩
  | @release p t hp =>
    obtain ⟨q, hq⟩ := hc u hu fun hmem => hfree (.inr hmem)
    have hqp : q ≠ p := by
      intro hqp
      rw [hqp, hp] at hq
      cases hq
      exact hfree (.inl rfl)
    exact ⟨q, (update_of_ne hqp _ _).trans hq⟩
  | lose hlossy _ => exact absurd hlossy hl

theorem Complete.moves (hc : Complete all h) (hl : ¬lossy) (hm : Moves lossy h h') :
    Complete all h' := by
  induction hm with
  | refl => exact hc
  | tail _ hstep ih => exact ih.move hl hstep

/-- The things around are those in `all`. -/
structure Within (all : Set T) (h : Holding P T) : Prop where
  free : h.free ⊆ all
  own : ∀ p t, h.own p = some t → t ∈ all

theorem Within.move (hw : Within all h) (hm : Move lossy h h') : Within all h' := by
  cases hm with
  | @claim p t hp ht =>
    refine ⟨fun u hu => hw.free hu.1, fun q u hq => ?_⟩
    rcases own_update_some hq with ⟨-, rfl⟩ | ⟨-, hq⟩
    · exact hw.free ht
    · exact hw.own q u hq
  | @release p t hp =>
    refine ⟨fun u hu => ?_, fun q u hq => hw.own q u (own_update_none hq).2⟩
    rcases hu with rfl | hu
    · exact hw.own p u hp
    · exact hw.free hu
  | lose _ hsub => exact ⟨hsub.trans hw.free, hw.own⟩

theorem Within.moves (hw : Within all h) (hm : Moves lossy h h') : Within all h' := by
  induction hm with
  | refl => exact hw
  | tail _ hstep ih => exact ih.move hstep

/-- Neither free nor owned here. -/
def Foreign (h : Holding P T) (t : T) : Prop := t ∉ h.free ∧ ∀ p, h.own p ≠ some t

omit [DecidableEq P] in
theorem foreign_iff : Foreign h u ↔ Within {u}ᶜ h :=
  ⟨fun hf => ⟨fun _ ht heq => hf.1 (heq ▸ ht), fun p _ ht heq => hf.2 p (heq ▸ ht)⟩,
    fun hw => ⟨fun hu => hw.free hu rfl, fun p hp => hw.own p u hp rfl⟩⟩

theorem Foreign.moves (hf : Foreign h u) (hm : Moves lossy h h') : Foreign h' u :=
  foreign_iff.mpr ((foreign_iff.mp hf).moves hm)

/-! ### Making runs of changes -/

theorem Moves.refl (h : Holding P T) : Moves lossy h h := ReflTransGen.refl

theorem Moves.trans {h'' : Holding P T} (hm : Moves lossy h h') (hm' : Moves lossy h' h'') :
    Moves lossy h h'' := ReflTransGen.trans hm hm'

theorem Moves.mono {l : Prop} (hl : lossy → l) (hm : Moves lossy h h') : Moves l h h' := by
  induction hm with
  | refl => exact Moves.refl h
  | tail _ hstep ih =>
    refine ReflTransGen.tail ih ?_
    cases hstep with
    | claim hp ht => exact .claim hp ht
    | release hp => exact .release hp
    | lose hlossy hsub => exact .lose (hl hlossy) hsub

theorem Moves.claim (hp : h.own p = none) (ht : t ∈ h.free)
    (hown : h'.own = update h.own p (some t)) (hfree : h'.free = h.free \ {t}) :
    Moves lossy h h' := by
  rw [Holding.ext (y := ⟨_, _⟩) hown hfree]
  exact ReflTransGen.single (Move.claim hp ht)

theorem Moves.release (hp : h.own p = some t)
    (hown : h'.own = update h.own p none) (hfree : h'.free = insert t h.free) :
    Moves lossy h h' := by
  rw [Holding.ext (y := ⟨_, _⟩) hown hfree]
  exact ReflTransGen.single (Move.release hp)

/-- The owners are the same; what is not free any more was lost. -/
theorem Moves.lose (hown : h'.own = h.own) (hsub : h'.free ⊆ h.free)
    (hlossy : h'.free ≠ h.free → lossy) : Moves lossy h h' := by
  by_cases hfree : h'.free = h.free
  · rw [Holding.ext hown hfree]
    exact Moves.refl h
  · rw [Holding.ext (y := ⟨h.own, h'.free⟩) hown rfl]
    exact ReflTransGen.single (Move.lose (hlossy hfree) hsub)

/-! ### Groups of places -/

section Groups

variable {I : Type} [DecidableEq I] {g : Holding (I × P) T} {i : I}

/-- What one group owns. -/
def group (g : Holding (I × P) T) (i : I) : Holding P T := ⟨fun p => g.own (i, p), g.free⟩

/-- What the places of one group own, and what is free, replaced. -/
def set (g : Holding (I × P) T) (i : I) (h : Holding P T) : Holding (I × P) T :=
  ⟨fun q => if q.1 = i then h.own q.2 else g.own q, h.free⟩

omit [DecidableEq P] in
theorem set_group (g : Holding (I × P) T) (i : I) : g.set i (g.group i) = g := by
  refine Holding.ext (funext fun ⟨j, p⟩ => ?_) rfl
  by_cases hji : j = i
  · subst hji
    exact if_pos rfl
  · exact if_neg hji

theorem update_set_own (own : P → Option T) (x : Option T) (p : P) :
    (fun q : I × P => if q.1 = i then update own p x q.2 else g.own q) =
      update (fun q => if q.1 = i then own q.2 else g.own q) (i, p) x := by
  funext ⟨j, q⟩
  by_cases hji : j = i
  · subst hji
    by_cases hqp : q = p
    · subst hqp
      rw [if_pos rfl, update_self, update_self]
    · rw [if_pos rfl, update_of_ne hqp, update_of_ne fun heq => hqp (Prod.mk.inj heq).2, if_pos rfl]
  · rw [if_neg hji, update_of_ne fun heq => hji (Prod.mk.inj heq).1, if_neg hji]

theorem Moves.set (hm : Moves lossy h h') (g : Holding (I × P) T) (i : I) :
    Moves lossy (g.set i h) (g.set i h') := by
  induction hm with
  | refl => exact Moves.refl _
  | @tail a b _ hstep ih =>
    refine ih.trans ?_
    cases hstep with
    | @claim p t hp ht =>
      have hp' : (g.set i a).own (i, p) = none := (if_pos rfl).trans hp
      exact .claim hp' ht (update_set_own a.own (some t) p) rfl
    | @release p t hp =>
      have hp' : (g.set i a).own (i, p) = some t := (if_pos rfl).trans hp
      exact .release hp' (update_set_own a.own none p) rfl
    | lose hlossy hsub => exact .lose rfl hsub fun _ => hlossy

omit [DecidableEq P] [DecidableEq I]

theorem Exclusive.group (he : Exclusive g) (i : I) : Exclusive (g.group i) :=
  ⟨fun p t hp => he.used (i, p) t hp,
    fun p q t hp hq => (Prod.mk.inj (he.once (i, p) (i, q) t hp hq)).2⟩

/-- What another group owns is foreign here. -/
theorem Exclusive.foreign (he : Exclusive g) {j : I} (hji : j ≠ i)
    (hp : g.own (j, p) = some t) : Foreign (g.group i) t :=
  ⟨he.used (j, p) t hp, fun q hq => hji (Prod.mk.inj (he.once (j, p) (i, q) t hp hq)).1⟩

theorem Within.group (hw : Within all g) (i : I) : Within all (g.group i) :=
  ⟨hw.free, fun p t hp => hw.own (i, p) t hp⟩

end Groups

end Holding

end UcoreMips.Lib
