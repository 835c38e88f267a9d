import Mathlib

/-!
# UcoreMips.Lib.Ring

**Lists through pointers.** A path follows a successor function from one node over a list
of nodes to another; a ring is a path that comes back to its head, with a second path the
other way round.

Both edits of a path, linking a node in (`Path.insert`) and taking one out
(`Path.erase`), are one or two updates of the function. A ring is edited by the same
lemmas, once along each direction.
-/

namespace UcoreMips.Lib

open Function (update update_of_ne update_self update_apply)
open List

variable {N : Type}

/-! ### Paths -/

/-- Following `f` from `a` leads over the nodes of the list to `b`. -/
def Path (f : N → N) (a : N) : List N → N → Prop
  | [], b => f a = b
  | x :: xs, b => f a = x ∧ Path f x xs b

namespace Path

variable {f g : N → N} {a b c e y n : N} {xs ys : List N}

theorem append : Path f a (xs ++ y :: ys) b ↔ Path f a xs y ∧ Path f y ys b := by
  induction xs generalizing a with
  | nil => exact Iff.rfl
  | cons x xs ih =>
    show (f a = x ∧ Path f x (xs ++ y :: ys) b) ↔ (f a = x ∧ Path f x xs y) ∧ Path f y ys b
    rw [ih, and_assoc]

/-- A path looks at the successors of its nodes only. -/
theorem congr (h : Path f a xs b) (hfg : ∀ n ∈ a :: xs, g n = f n) : Path g a xs b := by
  induction xs generalizing a with
  | nil => exact (hfg a mem_cons_self).trans h
  | cons x xs ih =>
    exact ⟨(hfg a mem_cons_self).trans h.1, ih h.2 fun n hn => hfg n (mem_cons_of_mem a hn)⟩

/-- The way out of the last node of a first part. -/
theorem last (h : Path f a (xs ++ ys) b) : f (xs.getLastD a) = ys.headD b := by
  induction xs generalizing a with
  | nil =>
    cases ys with
    | nil => exact h
    | cons y ys => exact h.1
  | cons x xs ih =>
    rw [getLastD_cons]
    exact ih h.2

/-- The first part of a path ends where the second begins. -/
theorem left (h : Path f a (xs ++ ys) b) : Path f a xs (ys.headD b) := by
  cases ys with
  | nil => rwa [append_nil] at h
  | cons y ys => exact (append.mp h).1

/-- A path can be put together at a node that goes where the second part begins. -/
theorem join (h : Path f a (xs ++ ys) b) (hl : Path g a xs y)
    (hy : g y = ys.headD b) (hfg : ∀ n ∈ ys, g n = f n) : Path g a (xs ++ y :: ys) b := by
  rw [append]
  refine ⟨hl, ?_⟩
  cases ys with
  | nil => exact hy
  | cons z ys => exact ⟨hy, (append.mp h).2.congr hfg⟩

/-- A path reaches its nodes. -/
theorem reach (h : Path f a xs b) (hn : n ∈ xs) :
    Relation.ReflTransGen (fun x y => f x = y) a n := by
  induction xs generalizing a with
  | nil => cases hn
  | cons x xs ih =>
    rcases mem_cons.mp hn with rfl | hn
    · exact Relation.ReflTransGen.single h.1
    · exact Relation.ReflTransGen.head h.1 (ih h.2 hn)

variable [DecidableEq N]

/-- Turning the last node to another end. -/
theorem retarget (h : Path f a xs b) (hnd : (a :: xs).Nodup) :
    Path (update f (xs.getLastD a) c) a xs c := by
  induction xs generalizing a with
  | nil => exact update_self ..
  | cons x xs ih =>
    rw [nodup_cons] at hnd
    have hne : a ≠ xs.getLastD x := fun heq => hnd.1 (heq ▸ getLastD_mem_cons)
    rw [getLastD_cons]
    exact ⟨(update_of_ne hne ..).trans h.1, ih h.2 hnd.2⟩

/-- Linking a node in. -/
theorem insert (h : Path f a (xs ++ ys) b) (hnd : (a :: (xs ++ ys)).Nodup)
    (he : e ∉ a :: (xs ++ ys)) :
    Path (update (update f (xs.getLastD a) e) e (ys.headD b)) a (xs ++ e :: ys) b := by
  have hlast : xs.getLastD a ∈ a :: xs := getLastD_mem_cons
  have hsplit : (a :: xs).Nodup ∧ ys.Nodup ∧ ∀ n ∈ a :: xs, ∀ m ∈ ys, n ≠ m := by
    exact nodup_append.mp hnd
  refine h.join ((h.left.retarget hsplit.1).congr fun n hn => ?_) (update_self ..) fun n hn => ?_
  · have hne : n ≠ e := fun heq => he (heq ▸ mem_append_left ys hn)
    exact update_of_ne hne ..
  · have hne : n ≠ e := fun heq => he (heq ▸ mem_append_right (a :: xs) hn)
    rw [update_of_ne hne, update_of_ne fun heq => hsplit.2.2 _ hlast n hn heq.symm]

/-- Taking a node out. -/
theorem erase (h : Path f a (xs ++ e :: ys) b) (hnd : (a :: (xs ++ e :: ys)).Nodup) :
    Path (update f (xs.getLastD a) (f e)) a (xs ++ ys) b := by
  obtain ⟨hl, hr⟩ := append.mp h
  have hsplit : (a :: xs).Nodup ∧ (e :: ys).Nodup ∧ ∀ n ∈ a :: xs, ∀ m ∈ e :: ys, n ≠ m := by
    exact nodup_append.mp hnd
  have hnew := hl.retarget (c := f e) hsplit.1
  cases ys with
  | nil =>
    rw [append_nil, ← (hr : f e = b)]
    exact hnew
  | cons y ys =>
    rw [append]
    rw [hr.1] at hnew ⊢
    refine ⟨hnew, hr.2.congr fun n hn => update_of_ne (fun heq => ?_) ..⟩
    exact hsplit.2.2 _ getLastD_mem_cons n (mem_cons_of_mem e hn) heq.symm

end Path

/-! ### Loops -/

/-- Following `f` from the first node of the list leads over the others back to it. -/
def Loop (f : N → N) : List N → Prop
  | [] => True
  | a :: xs => Path f a xs a

namespace Loop

variable {f g : N → N} {a e : N} {xs ys : List N}

/-- It does not matter which node comes first. -/
theorem rotate (h : Loop f (xs ++ ys)) : Loop f (ys ++ xs) := by
  cases xs with
  | nil => rwa [append_nil]
  | cons x xs =>
    cases ys with
    | nil => rwa [append_nil] at h
    | cons y ys =>
      have hpath := Path.append.mp h
      exact Path.append.mpr ⟨hpath.2, hpath.1⟩

theorem congr (h : Loop f xs) (hfg : ∀ n ∈ xs, g n = f n) : Loop g xs := by
  cases xs with
  | nil => trivial
  | cons x xs => exact Path.congr h hfg

theorem next_last (h : Loop f (a :: xs)) : f (xs.getLastD a) = a := by
  have hpath : Path f a (xs ++ []) a := by rwa [append_nil]
  exact hpath.last

theorem next_first (h : Loop f (a :: xs)) : f a = xs.headD a := by
  have hpath : Path f a ([] ++ xs) a := h
  exact hpath.last

theorem next_mem (h : Loop f xs) (hn : n ∈ xs) : f n ∈ xs := by
  obtain ⟨us, ws, rfl⟩ := append_of_mem hn
  have hfirst : f n = (ws ++ us).headD n := next_first h.rotate
  rw [hfirst]
  cases hws : ws ++ us with
  | nil => exact hn
  | cons y ys =>
    have hy : y ∈ ws ++ us := hws ▸ mem_cons_self
    simp only [headD_cons, mem_append, mem_cons] at hy ⊢
    tauto

/-- Its nodes are those reached from any of them. -/
theorem reach_iff (h : Loop f xs) (ha : a ∈ xs) :
    Relation.ReflTransGen (fun x y => f x = y) a n ↔ n ∈ xs := by
  constructor
  · intro hreach
    induction hreach with
    | refl => exact ha
    | tail _ hstep ih => exact hstep ▸ h.next_mem ih
  · intro hn
    obtain ⟨us, ws, rfl⟩ := append_of_mem ha
    have hloop : Path f a (ws ++ us) a := h.rotate
    simp only [mem_append, mem_cons] at hn
    rcases hn with hn | rfl | hn
    · exact hloop.reach (mem_append_right ws hn)
    · exact Relation.ReflTransGen.refl
    · exact hloop.reach (mem_append_left us hn)

variable [DecidableEq N]

/-- Linking a node in after the last one. -/
theorem insert (h : Loop f (a :: xs)) (hnd : (a :: xs).Nodup) (he : e ∉ a :: xs) :
    Loop (update (update f (xs.getLastD a) e) e a) (a :: (xs ++ [e])) := by
  have hpath : Path f a (xs ++ []) a := by rwa [append_nil]
  exact hpath.insert (by rwa [append_nil]) (by rwa [append_nil])

/-- Taking the last node out. -/
theorem erase (h : Loop f (a :: (xs ++ [e]))) (hnd : (a :: (xs ++ [e])).Nodup) :
    Loop (update f (xs.getLastD a) a) (a :: xs) := by
  have hlast : f e = a := by
    have := h.next_last
    rwa [getLastD_concat] at this
  have hpath : Path f a (xs ++ e :: []) a := h
  have herase := hpath.erase hnd
  rwa [hlast, append_nil] at herase

/-- Linking a node in after the last one, where the first node may be left out on the way
(`skip`), and the new node itself may be left out as well (`join`). -/
theorem link (h : Loop f (a :: xs)) (hnd : (a :: xs).Nodup) (he : e ∉ a :: xs) (skip join : Prop)
    [Decidable skip] [Decidable join] (hskip : skip → xs ≠ []) :
    Loop
      (update (update f e (if skip then f a else a)) (xs.getLastD a)
        (if join then if skip then f a else a else e))
      ((if skip then xs else a :: xs) ++ if join then [] else [e]) := by
  obtain ⟨b, ys, hys⟩ : ∃ b ys, (if skip then xs else a :: xs) = b :: ys := by
    split
    · exact exists_cons_of_ne_nil (hskip ‹_›)
    · exact ⟨a, xs, rfl⟩
  have hlast : ys.getLastD b = xs.getLastD a := by
    by_cases hs : skip
    · rw [if_pos hs] at hys
      rw [hys, getLastD_cons]
    · rw [if_neg hs] at hys
      cases hys
      rfl
  have hfirst : (if skip then f a else a) = b := by
    by_cases hs : skip
    · rw [if_pos hs] at hys ⊢
      rw [h.next_first, hys, headD_cons]
    · rw [if_neg hs] at hys ⊢
      cases hys
      rfl
  have hsub : ∀ n ∈ b :: ys, n ∈ a :: xs := by
    rw [← hys]
    intro n hn
    split at hn
    · exact mem_cons_of_mem a hn
    · exact hn
  have hbase : Loop (update f (ys.getLastD b) b) (b :: ys) := by
    by_cases hs : skip
    · rw [if_pos hs] at hys
      subst hys
      have hrot : Loop f ((b :: ys) ++ [a]) := Loop.rotate (show Loop f ([a] ++ b :: ys) from h)
      exact Loop.erase hrot ((perm_append_singleton a (b :: ys)).nodup_iff.mpr hnd)
    · rw [if_neg hs] at hys
      cases hys
      rw [← h.next_last, h.next_last, Function.update_eq_self_iff.mpr h.next_last.symm]
      exact h
  rw [hys, hfirst, ← hlast]
  have hne : e ≠ ys.getLastD b := fun heq => he (hsub e (heq ▸ getLastD_mem_cons))
  split
  · rw [append_nil]
    refine hbase.congr fun n hn => ?_
    have hnb : n ≠ e := fun heq => he (hsub e (heq ▸ hn))
    rw [update_apply, update_apply, update_apply, if_neg hnb]
  · have hnd' : (b :: ys).Nodup := by
      rw [← hys]
      split
      · exact (nodup_cons.mp hnd).2
      · exact hnd
    have hins := hbase.insert hnd' fun hin => he (hsub e hin)
    rwa [Function.update_idem, Function.update_comm hne.symm] at hins

end Loop

/-! ### Rings -/

/-- The two pointers of every node. -/
structure Links (N : Type) where
  prev : N → N
  next : N → N

/-- The nodes of the list follow the head, and the last one leads back to it; the other
pointers go the other way round. -/
structure Ring (l : Links N) (h : N) (xs : List N) : Prop where
  forward : Path l.next h xs h
  backward : Path l.prev h xs.reverse h
  nodup : (h :: xs).Nodup

namespace Ring

variable {l : Links N} {h e : N} {xs ys : List N}

theorem getLastD_reverse (a : N) (ys : List N) : ys.reverse.getLastD a = ys.headD a := by
  cases ys with
  | nil => rfl
  | cons y ys => rw [reverse_cons, getLastD_concat, headD_cons]

theorem headD_reverse (a : N) (xs : List N) : xs.reverse.headD a = xs.getLastD a := by
  rw [← getLastD_reverse, reverse_reverse]

theorem next_last (hr : Ring l h (xs ++ ys)) : l.next (xs.getLastD h) = ys.headD h :=
  hr.forward.last

theorem prev_first (hr : Ring l h (xs ++ ys)) : l.prev (ys.headD h) = xs.getLastD h := by
  have hb := hr.backward
  rw [reverse_append] at hb
  rw [← getLastD_reverse, hb.last, headD_reverse]

theorem next_mem (hr : Ring l h (xs ++ y :: ys)) : l.next y = ys.headD h := by
  rw [append_cons] at hr
  have := hr.next_last
  rwa [getLastD_concat] at this

theorem prev_mem (hr : Ring l h (xs ++ y :: ys)) : l.prev y = xs.getLastD h :=
  hr.prev_first

/-- A ring looks at the pointers of its nodes only. -/
theorem congr {l' : Links N} (hr : Ring l h xs) (hnext : ∀ n ∈ h :: xs, l'.next n = l.next n)
    (hprev : ∀ n ∈ h :: xs, l'.prev n = l.prev n) : Ring l' h xs := by
  refine ⟨hr.forward.congr hnext, hr.backward.congr fun n hn => hprev n ?_, hr.nodup⟩
  rwa [mem_cons, mem_reverse, ← mem_cons] at hn

variable [DecidableEq N]

/-- Linking a node in between two neighbours. -/
theorem insert (hr : Ring l h (xs ++ ys)) (he : e ∉ h :: (xs ++ ys)) :
    Ring
      { next := update (update l.next (xs.getLastD h) e) e (ys.headD h)
        prev := update (update l.prev (ys.headD h) e) e (xs.getLastD h) }
      h (xs ++ e :: ys) := by
  have hrev : (h :: (ys.reverse ++ xs.reverse)).Nodup := by
    rw [← reverse_append, nodup_cons, mem_reverse, nodup_reverse]
    exact nodup_cons.mp hr.nodup
  have herev : e ∉ h :: (ys.reverse ++ xs.reverse) := by
    rwa [← reverse_append, mem_cons, mem_reverse, ← mem_cons]
  constructor
  · exact hr.forward.insert hr.nodup he
  · have hb := hr.backward
    rw [reverse_append] at hb
    have hins := hb.insert hrev herev
    rw [getLastD_reverse, headD_reverse] at hins
    rwa [reverse_append, reverse_cons, append_assoc, singleton_append]
  · have hperm : (h :: (xs ++ e :: ys)).Perm (e :: h :: (xs ++ ys)) :=
      (perm_middle.cons h).trans (List.Perm.swap e h _)
    exact hperm.nodup_iff.mpr (nodup_cons.mpr ⟨he, hr.nodup⟩)

/-- Taking a node out. -/
theorem erase (hr : Ring l h (xs ++ e :: ys)) :
    Ring
      { next := update l.next (xs.getLastD h) (ys.headD h)
        prev := update l.prev (ys.headD h) (xs.getLastD h) }
      h (xs ++ ys) := by
  have hrev : (h :: (ys.reverse ++ e :: xs.reverse)).Nodup := by
    have heq : ys.reverse ++ e :: xs.reverse = (xs ++ e :: ys).reverse := by
      rw [reverse_append, reverse_cons, append_assoc, singleton_append]
    rw [heq, nodup_cons, mem_reverse, nodup_reverse]
    exact nodup_cons.mp hr.nodup
  constructor
  · have hf := hr.forward.erase hr.nodup
    rwa [hr.next_mem] at hf
  · have hb := hr.backward
    rw [reverse_append, reverse_cons, append_assoc, singleton_append] at hb
    have hera := hb.erase hrev
    rwa [getLastD_reverse, hr.prev_mem, ← reverse_append] at hera
  · exact hr.nodup.sublist ((sublist_cons_self e ys).append_left xs |>.cons_cons h)

end Ring

end UcoreMips.Lib
