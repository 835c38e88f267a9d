import UcoreMips.Kernel.Base

/-!
# UcoreMips.Kernel.Lists

**Lists of elements.** Most lists of the kernel have a head that is a variable of its own
and run through one field of their elements (`run_list` and `run_link`, `timer_list` and
`timer_link`). `Listed` says which elements are on such a list; an element that is not on it
points to itself, which is what `list_empty` tests.
-/

namespace UcoreMips.Kernel

open UcoreMips.Lib
open Function (update_of_ne)
open List

/-- The nodes of a list of `α`: a head of its own, and a field of each element. -/
inductive ListNode (α : Type)
  | head
  | entry (a : α)
  deriving Repr, DecidableEq

/-- The elements on a list, in order. Of the others, those that are `known` have their
field initialised. -/
structure Listed {α : Type} (l : Links (ListNode α)) (xs : List α) (known : α → Prop) : Prop where
  ring : Ring l .head (xs.map .entry)
  apart : ∀ a, known a → a ∉ xs → l.next (.entry a) = .entry a

namespace Listed

variable {α : Type} {l : Links (ListNode α)} {a : α} {xs ys : List α} {known : α → Prop}

theorem mem_map {a : α} {xs : List α} : ListNode.entry a ∈ xs.map .entry ↔ a ∈ xs := by
  simp

/-- What is not among the first elements is not the last of them. -/
theorem entry_ne_last {b : α} (hb : b ∉ xs) :
    ListNode.entry b ≠ (xs.map ListNode.entry).getLastD .head := by
  intro heq
  have hin : _ ∈ ListNode.head :: xs.map .entry := getLastD_mem_cons
  rw [← heq] at hin
  exact hb (mem_map.mp ((mem_cons.mp hin).resolve_left fun h => nomatch h))

theorem nodup (h : Listed l xs known) : xs.Nodup :=
  List.Nodup.of_map _ (nodup_cons.mp h.ring.nodup).2

theorem next_head (h : Listed l xs known) : l.next .head = (xs.map .entry).headD .head := by
  have hr : Ring l .head ([] ++ xs.map .entry) := h.ring
  exact hr.next_last

theorem next_entry (h : Listed l (xs ++ a :: ys) known) :
    l.next (.entry a) = (ys.map .entry).headD .head := by
  have hr := h.ring
  rw [map_append, map_cons] at hr
  exact hr.next_mem

variable [DecidableEq α]

theorem init (l : Links (ListNode α)) : Listed (listInit l .head) [] (fun _ => False) :=
  ⟨listInit_ring l .head, fun _ h => h.elim⟩

/-- The test whether an element is on the list. -/
theorem empty_iff (h : Listed l xs known) (ha : known a) :
    listEmpty l (.entry a) = true ↔ a ∉ xs := by
  rw [listEmpty, decide_eq_true_iff]
  refine ⟨fun heq hin => ?_, h.apart a ha⟩
  obtain ⟨us, ws, rfl⟩ := append_of_mem hin
  have hnd := h.nodup
  rw [h.next_entry] at heq
  cases ws with
  | nil => cases heq
  | cons w ws =>
    cases heq
    exact (nodup_cons.mp (nodup_append.mp hnd).2.1).1 mem_cons_self

/-- An element comes to be known. -/
theorem know (h : Listed l xs known) (ha : a ∉ xs) :
    Listed (listInit l (.entry a)) xs (fun b => known b ∨ b = a) := by
  have hne : ∀ n ∈ ListNode.head :: xs.map .entry, n ≠ .entry a := by
    rintro n hn rfl
    exact ha (mem_map.mp ((mem_cons.mp hn).resolve_left fun h => nomatch h))
  refine ⟨h.ring.congr (fun n hn => update_of_ne (hne n hn) ..)
    (fun n hn => update_of_ne (hne n hn) ..), fun b hb hbx => ?_⟩
  by_cases hba : b = a
  · rw [hba]
    exact Function.update_self ..
  · refine (update_of_ne (fun heq => hba (ListNode.entry.inj heq)) ..).trans ?_
    exact h.apart b (hb.resolve_right hba) hbx

/-- Adding an element before another, or at the end. -/
theorem add (h : Listed l (xs ++ ys) known) (ha : a ∉ xs ++ ys) :
    Listed (listAddBefore l ((ys.map .entry).headD .head) (.entry a)) (xs ++ a :: ys) known := by
  have hr := h.ring
  rw [map_append] at hr
  have hnew : ListNode.entry a ∉ ListNode.head :: (xs.map ListNode.entry ++ ys.map .entry) := by
    rw [← map_append, mem_cons, mem_map]
    exact fun hin => ha (hin.resolve_left fun h => nomatch h)
  refine ⟨?_, fun b hb hbx => ?_⟩
  · rw [map_append, map_cons]
    exact listAddBefore_ring hr hnew rfl
  · have hba : b ≠ a := fun heq => hbx (heq ▸ mem_append_right xs mem_cons_self)
    have hbxy : b ∉ xs ++ ys := fun hin => hbx (by
      rcases mem_append.mp hin with hin | hin
      · exact mem_append_left _ hin
      · exact mem_append_right _ (mem_cons_of_mem a hin))
    have hlast := entry_ne_last fun hin => hbxy (mem_append_left ys hin)
    rw [listAddBefore, hr.prev_first]
    refine (update_of_ne (fun heq => hba (ListNode.entry.inj heq)) ..).trans ?_
    exact (update_of_ne hlast ..).trans (h.apart b hb hbxy)

/-- Taking an element out. -/
theorem remove (h : Listed l (xs ++ a :: ys) known) :
    Listed (listDelInit l (.entry a)) (xs ++ ys) known := by
  have hr := h.ring
  rw [map_append, map_cons] at hr
  have hnd := nodup_middle.mp h.nodup
  have hdel : Listed (listDel l (.entry a)) (xs ++ ys) (fun b => known b ∧ b ≠ a) := by
    refine ⟨?_, fun b hb hbx => ?_⟩
    · rw [map_append]
      exact listDel_ring hr
    · have hlast := entry_ne_last fun hin => hbx (mem_append_left ys hin)
      have hbx' : b ∉ xs ++ a :: ys := fun hin =>
        (mem_cons.mp (perm_middle.mem_iff.mp hin)).elim hb.2 hbx
      rw [listDel, hr.prev_mem, hr.next_mem]
      exact (update_of_ne hlast ..).trans (h.apart b hb.1 hbx')
  obtain ⟨hring, hapart⟩ := hdel.know (nodup_cons.mp hnd).1
  refine ⟨hring, fun b hb hbx => hapart b ?_ hbx⟩
  by_cases hba : b = a
  · exact .inr hba
  · exact .inl ⟨hb, hba⟩

end Listed

end UcoreMips.Kernel
