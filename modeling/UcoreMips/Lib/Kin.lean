import Mathlib

/-!
# UcoreMips.Lib.Kin

**Trees through sibling pointers.** Each node has a parent, a first child, and a younger and an
older sibling. `Siblings` says that the children of a node are a list along these pointers, and
`Tree` that this list holds exactly the nodes with that parent.

The first child of a node may point back to something else than nothing (`back`): a list that is
being taken apart from its front is still a list, although its first node still points to the one
that has just been taken away.
-/

namespace UcoreMips.Lib

open Function (update update_of_ne update_self)
open List

variable {α : Type}

/-- The list starts at `first` and goes on along `older`; `younger` leads back, from the first node
to `back`. -/
def Siblings (older younger : α → Option α) : Option α → Option α → List α → Prop
  | _, first, [] => first = none
  | back, first, a :: xs =>
    first = some a ∧ younger a = back ∧ Siblings older younger (some a) (older a) xs

namespace Siblings

variable {older younger older' younger' : α → Option α} {back first : Option α} {p a : α}
  {xs us ws : List α}

theorem congr (h : Siblings older younger back first xs)
    (hsame : ∀ a ∈ xs, older' a = older a ∧ younger' a = younger a) :
    Siblings older' younger' back first xs := by
  induction xs generalizing back first with
  | nil => exact h
  | cons a xs ih =>
    obtain ⟨hfirst, hback, hrest⟩ := h
    obtain ⟨hold, hyoung⟩ := hsame a (by simp)
    refine ⟨hfirst, hyoung.trans hback, ?_⟩
    rw [hold]
    exact ih hrest fun b hb => hsame b (by simp [hb])

theorem first_eq (h : Siblings older younger back first xs) : first = xs.head? := by
  cases xs with
  | nil => exact h
  | cons a xs => exact h.1

/-- The node after a node of the list. -/
theorem older_eq (h : Siblings older younger back first (us ++ p :: ws)) : older p = ws.head? := by
  induction us generalizing back first with
  | nil => exact h.2.2.first_eq
  | cons a us ih => exact ih h.2.2

/-- The node before the first one. -/
theorem younger_first (h : Siblings older younger back first (p :: ws)) : younger p = back := h.2.1

/-- The node before another one. -/
theorem younger_eq (h : Siblings older younger back first (us ++ a :: p :: ws)) :
    younger p = some a := by
  induction us generalizing back first with
  | nil => exact h.2.2.2.1
  | cons b us ih => exact ih h.2.2

variable [DecidableEq α]

/-- The pointers of `younger` after the node `o` has got another one before it. -/
def setYounger (younger : α → Option α) (o : Option α) (y : Option α) : α → Option α :=
  match o with
  | none => younger
  | some a => update younger a y

theorem setYounger_of_ne {o y : Option α} (h : o ≠ some a) :
    setYounger younger o y a = younger a := by
  cases o with
  | none => rfl
  | some b =>
    have hne : a ≠ b := fun heq => h (congrArg some heq.symm)
    exact update_of_ne hne ..

/-- A node is put in front. -/
theorem push (h : Siblings older younger none first xs) (hp : p ∉ xs) (hnd : xs.Nodup) :
    Siblings (update older p first)
      (setYounger (update younger p none) first (some p)) none (some p) (p :: xs) := by
  have hfirst := h.first_eq
  have hne : first ≠ some p := by
    intro heq
    exact hp (mem_of_head? (hfirst.symm.trans heq))
  refine ⟨rfl, ?_, ?_⟩
  · rw [setYounger_of_ne hne, update_self]
  rw [update_self]
  cases xs with
  | nil => exact hfirst
  | cons a xs =>
    obtain ⟨rfl, -, hrest⟩ := h
    have hap : a ≠ p := fun heq => hp (by simp [heq])
    refine ⟨rfl, update_self .., ?_⟩
    rw [update_of_ne hap]
    refine hrest.congr fun b hb => ?_
    have hbp : b ≠ p := fun heq => hp (by simp [← heq, hb])
    have hba : b ≠ a := fun heq => (nodup_cons.mp hnd).1 (heq ▸ hb)
    rw [update_of_ne hbp, setYounger_of_ne (fun heq => hba (Option.some.inj heq).symm),
      update_of_ne hbp]
    exact ⟨rfl, rfl⟩

/-- The node after a node is joined to the one before it. -/
theorem drop_first (h : Siblings older younger back first (p :: ws)) (hnd : (p :: ws).Nodup)
    (y : Option α) :
    Siblings older (setYounger younger (older p) y) y (older p) ws := by
  obtain ⟨-, -, hrest⟩ := h
  cases ws with
  | nil => exact hrest
  | cons a ws =>
    obtain ⟨hold, -, hrest⟩ := hrest
    refine ⟨hold, ?_, hrest.congr fun b hb => ⟨rfl, setYounger_of_ne ?_⟩⟩
    · rw [hold]
      exact update_self ..
    · rw [hold]
      intro heq
      obtain rfl := Option.some.inj heq
      simp [hb] at hnd

/-- A node is taken out from behind another one. -/
theorem drop_next (h : Siblings older younger back first (us ++ a :: p :: ws))
    (hnd : (us ++ a :: p :: ws).Nodup) :
    Siblings (update older a (older p)) (setYounger younger (older p) (some a)) back first
      (us ++ a :: ws) := by
  have hold : older p = ws.head? := by
    have h' : Siblings older younger back first ((us ++ [a]) ++ p :: ws) := by simpa using h
    exact h'.older_eq
  have hout : ∀ b, b ∉ ws → setYounger younger (older p) (some a) b = younger b := by
    intro b hb
    refine setYounger_of_ne fun heq => hb ?_
    exact mem_of_head? (hold.symm.trans heq)
  induction us generalizing back first with
  | nil =>
    obtain ⟨hfirst, hback, hrest⟩ := h
    have haw : a ∉ ws := by
      simp only [nil_append, nodup_cons, mem_cons] at hnd
      tauto
    refine ⟨hfirst, (hout a haw).trans hback, ?_⟩
    rw [update_self]
    refine (hrest.drop_first (nodup_cons.mp hnd).2 (some a)).congr fun b hb => ⟨?_, rfl⟩
    have hne : b ≠ a := fun heq => haw (heq ▸ hb)
    exact update_of_ne hne ..
  | cons b us ih =>
    obtain ⟨hfirst, hback, hrest⟩ := h
    obtain ⟨hb, hnd'⟩ : b ∉ us ++ a :: p :: ws ∧ (us ++ a :: p :: ws).Nodup := nodup_cons.mp hnd
    simp only [mem_append, mem_cons, not_or] at hb
    refine ⟨hfirst, (hout b hb.2.2.2).trans hback, ?_⟩
    rw [update_of_ne hb.2.1]
    exact ih hrest hnd'

end Siblings

/-! ### Trees -/

/-- The pointers of all nodes. -/
structure Kin (α : Type) where
  parent : α → Option α
  first : α → Option α
  younger : α → Option α
  older : α → Option α

namespace Kin

/-- The children of the nodes `mem` are the lists `ch`. -/
structure Tree (k : Kin α) (mem : α → Prop) (ch : α → List α) (back : α → Option α) : Prop where
  chain : ∀ q, mem q → Siblings k.older k.younger (back q) (k.first q) (ch q)
  mem_iff : ∀ q, mem q → ∀ c, c ∈ ch q ↔ mem c ∧ k.parent c = some q
  nodup : ∀ q, mem q → (ch q).Nodup
  irrefl : ∀ c, mem c → k.parent c ≠ some c

variable [DecidableEq α] {k : Kin α} {mem : α → Prop} {ch : α → List α} {back : α → Option α}
  {p q : α} {us ws : List α}

/-- The pointers of a node are cleared. -/
def clear (k : Kin α) (p : α) : Kin α where
  parent := update k.parent p none
  first := update k.first p none
  younger := update k.younger p none
  older := update k.older p none

def setParent (k : Kin α) (p : α) (q : Option α) : Kin α :=
  { k with parent := update k.parent p q }

def setFirst (k : Kin α) (q : α) (c : Option α) : Kin α :=
  { k with first := update k.first q c }

/-- `p` is put in front of the children of `q`. -/
def link (k : Kin α) (p q : α) : Kin α where
  parent := k.parent
  first := update k.first q (some p)
  younger := Siblings.setYounger (update k.younger p none) (k.first q) (some p)
  older := update k.older p (k.first q)

/-- `p` is taken out of the children of `q`. -/
def unlink (k : Kin α) (p q : α) : Kin α where
  parent := k.parent
  first := match k.younger p with
    | none => update k.first q (k.older p)
    | some _ => k.first
  younger := Siblings.setYounger k.younger (k.older p) (k.younger p)
  older := match k.younger p with
    | none => k.older
    | some y => update k.older y (k.older p)

section Tree

variable (h : k.Tree mem ch back)

include h

omit [DecidableEq α] in
/-- A node is a child of one node only. -/
theorem Tree.parent_unique {r : α} (hq : mem q) (hr : mem r)
    (hpq : p ∈ ch q) (hpr : p ∈ ch r) : q = r :=
  Option.some.inj (((h.mem_iff q hq p).mp hpq).2.symm.trans ((h.mem_iff r hr p).mp hpr).2)

omit [DecidableEq α] in
theorem Tree.congr {k' : Kin α} (hsame : ∀ r, mem r → k'.parent r = k.parent r ∧ k'.first r = k.first r ∧
      k'.younger r = k.younger r ∧ k'.older r = k.older r) : k'.Tree mem ch back where
  chain q hq := by
    rw [(hsame q hq).2.1]
    refine (h.chain q hq).congr fun a ha => ?_
    obtain ⟨-, -, hyounger, holder⟩ := hsame a ((h.mem_iff q hq a).mp ha).1
    exact ⟨holder, hyounger⟩
  mem_iff q hq c := by
    rw [h.mem_iff q hq]
    refine and_congr_right fun hc => ?_
    rw [(hsame c hc).1]
  nodup := h.nodup
  irrefl c hc := by
    rw [(hsame c hc).1]
    exact h.irrefl c hc

/-- A new node without children, and not yet a child. -/
theorem Tree.clear (hp : ¬mem p) (hchild : ∀ c, mem c → k.parent c ≠ some p) :
    (k.clear p).Tree (fun r => mem r ∨ r = p) (update ch p []) back where
  chain q hq := by
    by_cases hqp : q = p
    · simp [hqp, Kin.clear, Siblings]
    have hq' := hq.resolve_right hqp
    simp only [Kin.clear, update_of_ne hqp]
    refine (h.chain q hq').congr fun a ha => ?_
    have hap : a ≠ p := fun heq => hp (heq ▸ ((h.mem_iff q hq' a).mp ha).1)
    simp [hap]
  mem_iff q hq c := by
    by_cases hqp : q = p
    · subst hqp
      by_cases hcq : c = q
      · simp [hcq, Kin.clear]
      · simpa [hcq, Kin.clear] using hchild c
    have hq' := hq.resolve_right hqp
    rw [update_of_ne hqp, h.mem_iff q hq']
    by_cases hcp : c = p
    · simp [hcp, Kin.clear, hp]
    · simp [hcp, Kin.clear]
  nodup q hq := by
    by_cases hqp : q = p
    · simp [hqp]
    · simpa [hqp] using h.nodup q (hq.resolve_right hqp)
  irrefl c hc := by
    by_cases hcp : c = p
    · simp [hcp, Kin.clear]
    · simpa [hcp, Kin.clear] using h.irrefl c (hc.resolve_right hcp)

/-- The first child is taken away; the next one still points to it. -/
theorem Tree.pop (hq : mem q) (hch : ch q = p :: ws) :
    ((k.setFirst q (k.older p)).setParent p none).Tree mem (update ch q ws)
      (update back q (some p)) where
  chain r hr := by
    by_cases hrq : r = q
    · subst hrq
      have hchain := h.chain r hr
      rw [hch] at hchain
      simpa [setFirst, setParent] using hchain.2.2
    · simpa [setFirst, setParent, hrq] using h.chain r hr
  mem_iff r hr c := by
    have hnd := h.nodup q hq
    rw [hch, nodup_cons] at hnd
    have hpq : p ∈ ch q := by simp [hch]
    by_cases hcp : c = p
    · subst hcp
      by_cases hrq : r = q
      · simp [hrq, hnd.1, setParent]
      · have hno : c ∉ ch r := fun hin => hrq (h.parent_unique hr hq hin hpq)
        simp [hrq, hno, setParent]
    · by_cases hrq : r = q
      · subst hrq
        have hmem := h.mem_iff r hr c
        simp only [hch, mem_cons, hcp, false_or] at hmem
        simp [setParent, setFirst, hcp, hmem]
      · simp [hrq, hcp, setParent, setFirst, h.mem_iff r hr c]
  nodup r hr := by
    by_cases hrq : r = q
    · have hnd := h.nodup q hq
      rw [hch, nodup_cons] at hnd
      simpa [hrq] using hnd.2
    · simpa [hrq] using h.nodup r hr
  irrefl c hc := by
    by_cases hcp : c = p
    · simp [hcp, setParent]
    · simpa [hcp, setParent, setFirst] using h.irrefl c hc

/-- A node without a parent becomes a first child. -/
theorem Tree.push (hp : mem p) (hq : mem q) (hne : p ≠ q)
    (hnone : k.parent p = none) (hback : back q = none) :
    ((k.setParent p (some q)).link p q).Tree mem (update ch q (p :: ch q)) back where
  chain r hr := by
    have hout : ∀ r, mem r → p ∉ ch r := fun r hr hin => by
      simp [((h.mem_iff r hr p).mp hin).2] at hnone
    have hchain := h.chain q hq
    by_cases hrq : r = q
    · subst hrq
      rw [hback] at hchain ⊢
      simpa [link, setParent] using hchain.push (hout r hr) (h.nodup r hr)
    · simp only [link, setParent, update_of_ne hrq]
      refine (h.chain r hr).congr fun a ha => ?_
      have hap : a ≠ p := fun heq => hout r hr (heq ▸ ha)
      have hafirst : k.first q ≠ some a := fun heq => by
        have hin : a ∈ ch q := mem_of_head? (hchain.first_eq.symm.trans heq)
        exact hrq (h.parent_unique hr hq ha hin)
      rw [update_of_ne hap, Siblings.setYounger_of_ne hafirst, update_of_ne hap]
      exact ⟨rfl, rfl⟩
  mem_iff r hr c := by
    by_cases hcp : c = p
    · subst hcp
      by_cases hrq : r = q
      · simp [hrq, link, setParent, hp]
      · have hno : c ∉ ch r := fun hin => by
          simp [((h.mem_iff r hr c).mp hin).2] at hnone
        simp [hrq, hno, link, setParent, Ne.symm hrq]
    · by_cases hrq : r = q
      · simp [hrq, hcp, link, setParent, h.mem_iff q hq c]
      · simp [hrq, hcp, link, setParent, h.mem_iff r hr c]
  nodup r hr := by
    by_cases hrq : r = q
    · have hno : p ∉ ch q := fun hin => by
        simp [((h.mem_iff q hq p).mp hin).2] at hnone
      simpa [hrq, hno] using h.nodup q hq
    · simpa [hrq] using h.nodup r hr
  irrefl c hc := by
    by_cases hcp : c = p
    · simpa [hcp, link, setParent] using Ne.symm hne
    · simpa [hcp, link, setParent] using h.irrefl c hc

end Tree

/-- The pointers of the children of another node are left alone. -/
theorem unlink_other (h : Siblings k.older k.younger none (k.first q) (us ++ p :: ws)) {b : α}
    (hb : b ∉ us ++ p :: ws) :
    (k.unlink p q).older b = k.older b ∧ (k.unlink p q).younger b = k.younger b := by
  simp only [mem_append, mem_cons, not_or] at hb
  have hyounger : k.older p ≠ some b := fun heq =>
    hb.2.2 (mem_of_head? (h.older_eq.symm.trans heq))
  refine ⟨?_, Siblings.setYounger_of_ne hyounger⟩
  cases hy : k.younger p with
  | none => simp [Kin.unlink, hy]
  | some y =>
    have hne : b ≠ y := by
      rintro rfl
      rcases eq_nil_or_concat us with rfl | ⟨us, a, rfl⟩
      · simp [h.younger_first] at hy
      · rw [concat_eq_append, append_assoc] at h
        have hab : a = b := Option.some.inj (h.younger_eq.symm.trans hy)
        exact hb.1 (by simp [hab])
    simp [Kin.unlink, hy, hne]

/-- The list from which a node has been taken. -/
theorem unlink_chain (h : Siblings k.older k.younger none (k.first q) (us ++ p :: ws))
    (hnd : (us ++ p :: ws).Nodup) :
    Siblings (k.unlink p q).older (k.unlink p q).younger none ((k.unlink p q).first q) (us ++ ws) := by
  rcases eq_nil_or_concat us with rfl | ⟨us, a, rfl⟩
  · have hyounger : k.younger p = none := h.younger_first
    simpa [Kin.unlink, hyounger] using h.drop_first hnd none
  · rw [concat_eq_append, append_assoc] at *
    have hyounger : k.younger p = some a := h.younger_eq
    simpa [Kin.unlink, hyounger] using h.drop_next hnd

/-- A node is removed. -/
theorem Tree.unlink (h : k.Tree mem ch back) (hq : mem q) (hch : ch q = us ++ p :: ws)
    (hback : back q = none) :
    (k.unlink p q).Tree (fun r => mem r ∧ r ≠ p) (update ch q (us ++ ws)) back := by
  have hpin : p ∈ ch q := by simp [hch]
  obtain ⟨-, hparent⟩ := (h.mem_iff q hq p).mp hpin
  have hchain := h.chain q hq
  have hnd := h.nodup q hq
  rw [hback, hch] at hchain
  rw [hch] at hnd
  have hnot : p ∉ us ++ ws := (nodup_middle.mp hnd |> nodup_cons.mp).1
  refine ⟨fun r hr => ?_, fun r hr c => ?_, fun r hr => ?_, fun c hc => h.irrefl c hc.1⟩
  · by_cases hrq : r = q
    · subst hrq
      rw [hback, update_self]
      exact unlink_chain hchain hnd
    · have hfirst : (k.unlink p q).first r = k.first r := by
        cases hy : k.younger p <;> simp [Kin.unlink, hy, hrq]
      rw [update_of_ne hrq, hfirst]
      refine (h.chain r hr.1).congr fun b hb => unlink_other hchain fun hin => ?_
      rw [← hch] at hin
      exact hrq (h.parent_unique hr.1 hq hb hin)
  · show _ ↔ (mem c ∧ c ≠ p) ∧ k.parent c = some r
    by_cases hrq : r = q
    · subst hrq
      have hmem := h.mem_iff r hr.1 c
      rw [hch] at hmem
      rw [update_self, and_right_comm, ← hmem]
      by_cases hcp : c = p
      · simp [hcp, hnot]
      · simp [hcp]
    · rw [update_of_ne hrq, h.mem_iff r hr.1]
      have hne : k.parent c = some r → c ≠ p := by
        rintro hc rfl
        exact hrq (Option.some.inj (hc.symm.trans hparent))
      tauto
  · by_cases hrq : r = q
    · rw [hrq, update_self]
      exact (nodup_middle.mp hnd |> nodup_cons.mp).2
    · rw [update_of_ne hrq]
      exact h.nodup r hr.1

end Kin

end UcoreMips.Lib
