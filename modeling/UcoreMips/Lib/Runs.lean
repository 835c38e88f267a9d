import Mathlib

/-!
# UcoreMips.Lib.Runs

**Runs of numbers.** A finite set of numbers falls into maximal runs. A list of runs in
increasing order with a gap between any two is the list of all maximal runs of the set
it covers (`Separated.mem_iff`), so a set can be kept as such a list:

* taking numbers from the front of a run shortens or removes it (`Separated.carve`);
* a run put back is first merged with the runs it touches (`absorb`), and then has its
  place among the others (`Separated.insert`).
-/

namespace UcoreMips.Lib

open List

/-- The numbers from `start` on, `len` of them. -/
structure Run where
  start : Nat
  len : Nat
  deriving Repr, DecidableEq

namespace Run

/-- The first number after the run. -/
def stop (r : Run) : Nat := r.start + r.len

def toFinset (r : Run) : Finset Nat := Finset.Ico r.start r.stop

/-- The first run ends before the second begins, and they do not touch. -/
def Before (a b : Run) : Prop := a.stop < b.start

variable {i : Nat}

theorem mem_toFinset {r : Run} : i ∈ r.toFinset ↔ r.start ≤ i ∧ i < r.stop :=
  Finset.mem_Ico

theorem start_mem {r : Run} (h : 0 < r.len) : r.start ∈ r.toFinset :=
  mem_toFinset.mpr ⟨le_rfl, Nat.lt_add_of_pos_right h⟩

theorem card_toFinset (r : Run) : r.toFinset.card = r.len := by
  rw [toFinset, Nat.card_Ico, stop, Nat.add_sub_cancel_left]

/-- Of two disjoint runs one comes first. -/
theorem le_or_le_of_disjoint {r f : Run} (hr : 0 < r.len) (hf : 0 < f.len)
    (h : Disjoint r.toFinset f.toFinset) : r.stop ≤ f.start ∨ f.stop ≤ r.start := by
  by_contra hno
  have hmem : max r.start f.start ∈ r.toFinset ∧ max r.start f.start ∈ f.toFinset := by
    rw [mem_toFinset, mem_toFinset]
    unfold stop at *
    omega
  exact Finset.disjoint_left.mp h hmem.1 hmem.2

end Run

/-- The numbers in some run of the list. -/
def cells : List Run → Finset Nat
  | [] => ∅
  | r :: rs => r.toFinset ∪ cells rs

/-- The runs are not empty, in increasing order, and no two of them touch. -/
structure Separated (rs : List Run) : Prop where
  order : rs.Pairwise Run.Before
  nonempty : ∀ r ∈ rs, 0 < r.len

/-- A run of numbers of the set that cannot be extended. -/
structure MaximalRun (F : Finset Nat) (r : Run) : Prop where
  nonempty : 0 < r.len
  inside : ∀ i, r.start ≤ i → i < r.stop → i ∈ F
  right : r.stop ∉ F
  left : ∀ i, i + 1 = r.start → i ∉ F

variable {rs : List Run}

theorem mem_cells : i ∈ cells rs ↔ ∃ r ∈ rs, r.start ≤ i ∧ i < r.stop := by
  induction rs with
  | nil => simp [cells]
  | cons r rs ih =>
    rw [cells, Finset.mem_union, ih, Run.toFinset, Finset.mem_Ico, exists_mem_cons_iff]

theorem cells_append (rs rs' : List Run) : cells (rs ++ rs') = cells rs ∪ cells rs' := by
  induction rs with
  | nil => exact (Finset.empty_union _).symm
  | cons r rs ih => rw [cons_append, cells, cells, ih, Finset.union_assoc]

namespace Separated

variable {rs as bs : List Run} {r : Run}

theorem sublist (h : Separated rs) {rs' : List Run} (hsub : rs'.Sublist rs) : Separated rs' :=
  ⟨h.order.sublist hsub, fun r hr => h.nonempty r (hsub.subset hr)⟩

theorem append_iff :
    Separated (as ++ bs) ↔ Separated as ∧ Separated bs ∧ ∀ a ∈ as, ∀ b ∈ bs, a.Before b := by
  constructor
  · intro h
    exact ⟨h.sublist (sublist_append_left as bs), h.sublist (sublist_append_right as bs),
      (pairwise_append.mp h.order).2.2⟩
  · rintro ⟨ha, hb, hab⟩
    refine ⟨pairwise_append.mpr ⟨ha.order, hb.order, hab⟩, fun r hr => ?_⟩
    rcases mem_append.mp hr with hr | hr
    · exact ha.nonempty r hr
    · exact hb.nonempty r hr

theorem cons_iff : Separated (r :: rs) ↔ 0 < r.len ∧ (∀ b ∈ rs, r.Before b) ∧ Separated rs := by
  constructor
  · intro h
    exact ⟨h.nonempty r mem_cons_self, (pairwise_cons.mp h.order).1,
      h.sublist (sublist_cons_self r rs)⟩
  · rintro ⟨hr, hb, h⟩
    exact ⟨pairwise_cons.mpr ⟨hb, h.order⟩, forall_mem_cons.mpr ⟨hr, h.nonempty⟩⟩

theorem nil : Separated [] := ⟨List.Pairwise.nil, fun _ h => nomatch h⟩

/-- Two runs of the list are the same one, or lie apart. -/
theorem apart (h : Separated rs) {a b : Run} (ha : a ∈ rs) (hb : b ∈ rs) :
    a = b ∨ a.Before b ∨ b.Before a := by
  induction rs with
  | nil => cases ha
  | cons r rs ih =>
    obtain ⟨-, hbefore, hrs⟩ := cons_iff.mp h
    rcases mem_cons.mp ha with har | ha <;> rcases mem_cons.mp hb with hbr | hb
    · exact .inl (har.trans hbr.symm)
    · exact .inr (.inl (har ▸ hbefore b hb))
    · exact .inr (.inr (hbr ▸ hbefore a ha))
    · exact ih hrs ha hb

/-- A run of the list starts where no other does. -/
theorem start_ne (h : Separated (as ++ r :: bs)) : ∀ x ∈ as ++ bs, x.start ≠ r.start := by
  obtain ⟨-, hrbs, hab⟩ := append_iff.mp h
  obtain ⟨-, hrb, -⟩ := cons_iff.mp hrbs
  intro x hx
  rcases mem_append.mp hx with hx | hx
  · have := hab x hx r mem_cons_self
    unfold Run.Before Run.stop at this
    omega
  · have := hrb x hx
    unfold Run.Before Run.stop at this
    omega

theorem start_mem (h : Separated rs) (hr : r ∈ rs) : r.start ∈ cells rs :=
  mem_cells.mpr ⟨r, hr, le_rfl, Nat.lt_add_of_pos_right (h.nonempty r hr)⟩

/-- **The list holds exactly the maximal runs** of the set it covers. -/
theorem mem_iff (h : Separated rs) : r ∈ rs ↔ MaximalRun (cells rs) r := by
  have hmax : ∀ a ∈ rs, MaximalRun (cells rs) a := by
    intro a ha
    have hpos := h.nonempty a ha
    refine ⟨hpos, fun i h1 h2 => mem_cells.mpr ⟨a, ha, h1, h2⟩, fun hin => ?_, fun i hi hin => ?_⟩
    all_goals
      obtain ⟨b, hb, h1, h2⟩ := mem_cells.mp hin
      have hapart := h.apart ha hb
      unfold Run.Before at hapart
      unfold Run.stop at *
      rcases hapart with rfl | hab | hba <;> omega
  refine ⟨hmax r, fun hr => ?_⟩
  have hpos := hr.nonempty
  obtain ⟨a, ha, h1, h2⟩ := mem_cells.mp (hr.inside r.start le_rfl (by unfold Run.stop; omega))
  have hstart : a.start = r.start := by
    by_contra hne
    exact hr.left (r.start - 1) (by omega) (mem_cells.mpr ⟨a, ha, by omega, by omega⟩)
  have hstop : a.stop = r.stop := by
    rcases lt_trichotomy a.stop r.stop with hlt | heq | hgt
    · exact absurd (hr.inside a.stop (by omega) hlt) (hmax a ha).right
    · exact heq
    · exact absurd (mem_cells.mpr ⟨a, ha, by unfold Run.stop; omega, hgt⟩) hr.right
  have har : a = r := by
    cases a
    cases r
    simp only [Run.stop, Run.mk.injEq] at *
    omega
  exact har ▸ ha

/-- The lengths add up to the number of numbers covered. -/
theorem card_cells (h : Separated rs) : (cells rs).card = (rs.map Run.len).sum := by
  induction rs with
  | nil => rfl
  | cons r rs ih =>
    obtain ⟨-, hb, hrs⟩ := cons_iff.mp h
    have hdisj : Disjoint r.toFinset (cells rs) := by
      rw [Finset.disjoint_left]
      intro i hi hin
      obtain ⟨b, hbm, h1, -⟩ := mem_cells.mp hin
      have hbefore := hb b hbm
      rw [Run.toFinset, Finset.mem_Ico] at hi
      unfold Run.Before at hbefore
      omega
    rw [cells, Finset.card_union_of_disjoint hdisj, ih hrs, map_cons, sum_cons,
      Run.toFinset, Nat.card_Ico, Run.stop, Nat.add_sub_cancel_left]

end Separated

open Separated (cons_iff append_iff)

/-! ### Taking from the front of a run -/

/-- What is left of a run when `n` numbers are taken from its front. -/
def carve (r : Run) (n : Nat) : List Run := if n < r.len then [⟨r.start + n, r.len - n⟩] else []

theorem Separated.carve {as bs : List Run} {r : Run} {n : Nat} (h : Separated (as ++ r :: bs))
    (hn : n ≤ r.len) :
    Separated (as ++ (Lib.carve r n ++ bs)) ∧
      cells (as ++ (Lib.carve r n ++ bs)) =
        cells (as ++ r :: bs) \ Finset.Ico r.start (r.start + n) := by
  obtain ⟨has, hrbs, hab⟩ := append_iff.mp h
  obtain ⟨-, hrb, hbs⟩ := cons_iff.mp hrbs
  have hbefore : ∀ a ∈ as, a.Before r := fun a ha => hab a ha r mem_cons_self
  have hmem : ∀ x ∈ Lib.carve r n, x = ⟨r.start + n, r.len - n⟩ ∧ n < r.len := by
    intro x hx
    unfold Lib.carve at hx
    split at hx
    · exact ⟨mem_singleton.mp hx, ‹_›⟩
    · cases hx
  have hstop : n < r.len → (⟨r.start + n, r.len - n⟩ : Run).stop = r.stop := by
    intro hlt
    unfold Run.stop
    dsimp only
    omega
  have hcarve : Separated (Lib.carve r n) := by
    unfold Lib.carve
    split
    · exact cons_iff.mpr ⟨Nat.sub_pos_of_lt ‹_›, forall_mem_nil _, Separated.nil⟩
    · exact Separated.nil
  constructor
  · refine append_iff.mpr ⟨has, append_iff.mpr ⟨hcarve, hbs, ?_⟩, ?_⟩
    · intro x hx b hb
      obtain ⟨rfl, hlt⟩ := hmem x hx
      have hrbef := hrb b hb
      unfold Run.Before at hrbef ⊢
      rwa [hstop hlt]
    · intro a ha x hx
      rcases mem_append.mp hx with hx | hx
      · obtain ⟨rfl, -⟩ := hmem x hx
        have habef := hbefore a ha
        unfold Run.Before at habef ⊢
        dsimp only
        omega
      · exact hab a ha x (mem_cons_of_mem r hx)
  · ext i
    rw [Finset.mem_sdiff, Finset.mem_Ico, cells_append, cells_append, cells_append, cells]
    simp only [Finset.mem_union, mem_cells, Run.toFinset, Finset.mem_Ico]
    constructor
    · rintro (⟨a, ha, h1, h2⟩ | ⟨x, hx, h1, h2⟩ | ⟨b, hb, h1, h2⟩)
      · have habef := hbefore a ha
        unfold Run.Before at habef
        exact ⟨.inl ⟨a, ha, h1, h2⟩, by omega⟩
      · obtain ⟨rfl, hlt⟩ := hmem x hx
        rw [hstop hlt] at h2
        dsimp only at h1
        exact ⟨.inr (.inl ⟨by omega, h2⟩), by omega⟩
      · have hbbef := hrb b hb
        unfold Run.Before Run.stop at hbbef
        exact ⟨.inr (.inr ⟨b, hb, h1, h2⟩), by omega⟩
    · rintro ⟨ha | ⟨h1, h2⟩ | hb, hout⟩
      · exact .inl ha
      · unfold Run.stop at h2
        have hlt : n < r.len := by omega
        refine .inr (.inl ⟨⟨r.start + n, r.len - n⟩, ?_, ?_, ?_⟩)
        · rw [Lib.carve, if_pos hlt]
          exact mem_singleton.mpr rfl
        · dsimp only
          omega
        · rw [hstop hlt]
          exact h2
      · exact .inr (.inr hb)

/-! ### Putting a run back -/

/-- Merge a run with those it touches, going over the list once. -/
def absorb (c : Run) : List Run → Run × List Run
  | [] => (c, [])
  | r :: rs =>
    if c.stop = r.start then absorb ⟨c.start, c.len + r.len⟩ rs
    else if r.stop = c.start then absorb ⟨r.start, r.len + c.len⟩ rs
    else ((absorb c rs).1, r :: (absorb c rs).2)

variable {c : Run}

/-- A run that lies before the whole list, without touching it, is left alone. -/
theorem absorb_before (h : ∀ r ∈ rs, c.Before r) : absorb c rs = (c, rs) := by
  induction rs with
  | nil => rfl
  | cons r rs ih =>
    have hr := h r mem_cons_self
    unfold Run.Before at hr
    have h1 : ¬c.stop = r.start := by omega
    have h2 : ¬r.stop = c.start := by
      unfold Run.stop at *
      omega
    rw [absorb, if_neg h1, if_neg h2, ih fun r hr => h r (mem_cons_of_mem _ hr)]

/-- Merging never reaches below a bound of the run and of the list. -/
theorem absorb_start {k : Nat} (hk : k ≤ c.start) (h : ∀ r ∈ rs, k ≤ r.start) :
    k ≤ (absorb c rs).1.start := by
  induction rs generalizing c with
  | nil => exact hk
  | cons r rs ih =>
    have hrs : ∀ x ∈ rs, k ≤ x.start := fun x hx => h x (mem_cons_of_mem r hx)
    unfold absorb
    split
    · exact ih hk hrs
    · split
      · exact ih (h r mem_cons_self) hrs
      · exact ih hk hrs

/-- Two runs that touch cover what the one run over both covers. -/
theorem cells_touch {a b : Run} (h : a.stop = b.start) :
    cells (⟨a.start, a.len + b.len⟩ :: rs) = cells (a :: b :: rs) := by
  rw [cells, cells, cells, ← Finset.union_assoc]
  congr 1
  ext i
  simp only [Finset.mem_union, Run.toFinset, Finset.mem_Ico]
  unfold Run.stop at *
  dsimp only
  omega

/-- What is behind a run that starts behind `c` is behind `c`. -/
theorem Run.Before.of_le {r x : Run} (h : c.stop ≤ r.start) (hx : r.Before x) : c.Before x := by
  unfold Run.Before Run.stop at *
  omega

/-- What merging comes to: some runs of the list are left, the new run touches none of them,
and together they cover what the list and the run covered. -/
structure Absorbed (c : Run) (rs : List Run) (d : Run) (rs' : List Run) : Prop where
  sublist : rs'.Sublist rs
  nonempty : 0 < d.len
  apart : ∀ r ∈ rs', d.Before r ∨ r.Before d
  cells : cells (d :: rs') = cells (c :: rs)

theorem absorb_spec (h : Separated rs) (hc : 0 < c.len)
    (hd : ∀ r ∈ rs, c.stop ≤ r.start ∨ r.stop ≤ c.start) :
    Absorbed c rs (absorb c rs).1 (absorb c rs).2 := by
  induction rs generalizing c with
  | nil => exact ⟨List.Sublist.refl _, hc, forall_mem_nil _, rfl⟩
  | cons r rs ih =>
    obtain ⟨hr, hbefore, hrs⟩ := cons_iff.mp h
    have hdrs : ∀ x ∈ rs, c.stop ≤ x.start ∨ x.stop ≤ c.start :=
      fun x hx => hd x (mem_cons_of_mem r hx)
    unfold absorb
    split
    · -- the run ends where `r` begins
      rename_i htouch
      have hnew : ∀ x ∈ rs, (⟨c.start, c.len + r.len⟩ : Run).stop ≤ x.start ∨
          x.stop ≤ c.start := by
        intro x hx
        have hrx := hbefore x hx
        unfold Run.Before Run.stop at *
        dsimp only
        omega
      obtain ⟨hsub, hpos, hapart, hcells⟩ := ih hrs (c := ⟨c.start, c.len + r.len⟩)
        (Nat.add_pos_left hc _) hnew
      exact ⟨hsub.cons r, hpos, hapart, hcells.trans (cells_touch htouch)⟩
    · split
      · -- the run begins where `r` ends
        rename_i htouch
        have hnew : ∀ x ∈ rs, (⟨r.start, r.len + c.len⟩ : Run).stop ≤ x.start ∨
            x.stop ≤ r.start := by
          intro x hx
          have hrx := hbefore x hx
          have hcr := hdrs x hx
          unfold Run.Before Run.stop at *
          dsimp only
          omega
        obtain ⟨hsub, hpos, hapart, hcells⟩ := ih hrs (c := ⟨r.start, r.len + c.len⟩)
          (Nat.add_pos_left hr _) hnew
        refine ⟨hsub.cons r, hpos, hapart, hcells.trans ((cells_touch htouch).trans ?_)⟩
        rw [cells, cells, cells, cells, Finset.union_left_comm]
      · -- `r` stays
        rename_i hright hleft
        obtain ⟨hsub, hpos, hapart, hcells⟩ := ih hrs hc hdrs
        refine ⟨hsub.cons_cons r, hpos, ?_, ?_⟩
        · refine forall_mem_cons.mpr ⟨?_, hapart⟩
          rcases hd r mem_cons_self with hlt | hgt
          · -- behind `r` nothing can touch the run
            rw [absorb_before fun x hx => .of_le hlt (hbefore x hx)]
            exact .inl (lt_of_le_of_ne hlt hright)
          · right
            have hstart : r.stop + 1 ≤ (absorb c rs).1.start :=
              absorb_start (by omega) fun x hx => hbefore x hx
            exact hstart
        · rw [cells] at hcells
          rw [cells, cells, Finset.union_left_comm, hcells]
          exact Finset.union_left_comm ..

/-- A run that touches no run of the list has its place in it. -/
theorem Separated.insert (h : Separated rs) (hc : 0 < c.len)
    (hapart : ∀ r ∈ rs, c.Before r ∨ r.Before c) :
    ∃ as bs, rs = as ++ bs ∧ (∀ a ∈ as, a.Before c) ∧ (∀ b ∈ bs, c.Before b) ∧
      Separated (as ++ c :: bs) := by
  induction rs with
  | nil =>
    exact ⟨[], [], rfl, forall_mem_nil _, forall_mem_nil _,
      cons_iff.mpr ⟨hc, forall_mem_nil _, Separated.nil⟩⟩
  | cons r rs ih =>
    obtain ⟨hr, hbefore, hrs⟩ := cons_iff.mp h
    obtain ⟨hcr, hapart'⟩ := forall_mem_cons.mp hapart
    rcases hcr with hcr | hrc
    · have hall : ∀ b ∈ r :: rs, c.Before b :=
        forall_mem_cons.mpr ⟨hcr, fun b hb => .of_le hcr.le (hbefore b hb)⟩
      exact ⟨[], r :: rs, rfl, forall_mem_nil _, hall, cons_iff.mpr ⟨hc, hall, h⟩⟩
    · obtain ⟨as, bs, rfl, has, hbs, hsep⟩ := ih hrs hapart'
      refine ⟨r :: as, bs, rfl, forall_mem_cons.mpr ⟨hrc, has⟩, hbs,
        cons_iff.mpr ⟨hr, fun b hb => ?_, hsep⟩⟩
      rcases mem_append.mp hb with hb | hb
      · exact hbefore b (mem_append_left bs hb)
      · rcases mem_cons.mp hb with rfl | hb
        · exact hrc
        · exact hbefore b (mem_append_right as hb)

/-! ### A run and its two neighbours -/

/-- The run lies between the two lists. It may touch the last of the first and the first of
the second. -/
structure Between (as : List Run) (c : Run) (bs : List Run) : Prop where
  below : ∀ a ∈ as, a.stop ≤ c.start
  above : ∀ b ∈ bs, c.stop ≤ b.start
  nonempty : 0 < c.len

/-- A run disjoint from those of the list lies somewhere between them. -/
theorem Separated.between (h : Separated rs) (hc : 0 < c.len)
    (hd : ∀ r ∈ rs, c.stop ≤ r.start ∨ r.stop ≤ c.start) :
    ∃ as bs, rs = as ++ bs ∧ Between as c bs := by
  induction rs with
  | nil => exact ⟨[], [], rfl, forall_mem_nil _, forall_mem_nil _, hc⟩
  | cons r rs ih =>
    obtain ⟨-, hbefore, hrs⟩ := cons_iff.mp h
    obtain ⟨hcr, hd'⟩ := forall_mem_cons.mp hd
    rcases hcr with hcr | hrc
    · exact ⟨[], r :: rs, rfl, forall_mem_nil _,
        forall_mem_cons.mpr ⟨hcr, fun b hb => (Run.Before.of_le hcr (hbefore b hb)).le⟩, hc⟩
    · obtain ⟨as, bs, rfl, hbetween⟩ := ih hrs hd'
      exact ⟨r :: as, bs, rfl, forall_mem_cons.mpr ⟨hrc, hbetween.below⟩, hbetween.above,
        hbetween.nonempty⟩

namespace Between

variable {as bs : List Run} {a b c : Run}

/-- No run of the lists starts where it does. -/
theorem start_ne (hsep : Separated (as ++ bs)) (h : Between as c bs) :
    ∀ r ∈ as ++ bs, r.start ≠ c.start := by
  intro r hr heq
  have hpos := h.nonempty
  have hrpos := hsep.nonempty r hr
  rcases mem_append.mp hr with hr | hr
  · have := h.below r hr
    unfold Run.stop at this
    omega
  · have := h.above r hr
    unfold Run.stop at this
    omega

/-- Merging with the run above. -/
theorem right (hsep : Separated (as ++ b :: bs)) (h : Between as c (b :: bs))
    (htouch : c.stop = b.start) :
    Between as ⟨c.start, c.len + b.len⟩ bs ∧ ∀ x ∈ bs, Run.Before ⟨c.start, c.len + b.len⟩ x := by
  obtain ⟨-, hbbs, -⟩ := append_iff.mp hsep
  obtain ⟨-, hbefore, -⟩ := cons_iff.mp hbbs
  have hapart : ∀ x ∈ bs, Run.Before ⟨c.start, c.len + b.len⟩ x := by
    intro x hx
    have hbx := hbefore x hx
    unfold Run.Before Run.stop at *
    dsimp only
    omega
  exact ⟨⟨h.below, fun x hx => (hapart x hx).le, Nat.add_pos_left h.nonempty _⟩, hapart⟩

/-- A run that does not touch the one above touches none above. -/
theorem apart_right (hsep : Separated (as ++ bs)) (h : Between as c bs)
    (hfirst : ∀ b ∈ bs.head?, c.stop ≠ b.start) : ∀ x ∈ bs, c.Before x := by
  cases bs with
  | nil => exact forall_mem_nil _
  | cons b bs =>
    obtain ⟨-, hbbs, -⟩ := append_iff.mp hsep
    obtain ⟨-, hbefore, -⟩ := cons_iff.mp hbbs
    have hcb : c.Before b := lt_of_le_of_ne (h.above b mem_cons_self) (hfirst b rfl)
    exact forall_mem_cons.mpr ⟨hcb, fun x hx => .of_le hcb.le (hbefore x hx)⟩

/-- Merging with the run below. -/
theorem left (hsep : Separated (as ++ a :: bs)) (h : Between (as ++ [a]) c bs)
    (hbs : ∀ x ∈ bs, c.Before x) (htouch : a.stop = c.start) :
    Separated (as ++ ⟨a.start, a.len + c.len⟩ :: bs) := by
  obtain ⟨has, habs, hbefore⟩ := append_iff.mp hsep
  obtain ⟨-, -, hsbs⟩ := cons_iff.mp habs
  refine append_iff.mpr ⟨has, cons_iff.mpr ⟨?_, fun x hx => ?_, hsbs⟩, ?_⟩
  · exact Nat.add_pos_right _ h.nonempty
  · have hcx := hbs x hx
    unfold Run.Before Run.stop at *
    dsimp only
    omega
  · intro y hy
    exact forall_mem_cons.mpr ⟨hbefore y hy a mem_cons_self,
      fun x hx => hbefore y hy x (mem_cons_of_mem a hx)⟩

/-- A run that touches neither neighbour has its place between them. -/
theorem apart (hsep : Separated (as ++ bs)) (h : Between as c bs) (hbs : ∀ x ∈ bs, c.Before x)
    (hlast : ∀ a ∈ as.getLast?, a.stop ≠ c.start) : Separated (as ++ c :: bs) := by
  obtain ⟨has, hsbs, hbefore⟩ := append_iff.mp hsep
  have hac : ∀ a ∈ as, a.Before c := by
    rcases eq_nil_or_concat' as with rfl | ⟨as', z, rfl⟩
    · exact forall_mem_nil _
    · have hzc : z.Before c :=
        lt_of_le_of_ne (h.below z (by simp)) (hlast z (List.getLast?_concat ..))
      obtain ⟨-, -, hz⟩ := append_iff.mp has
      intro a ha
      rcases mem_append.mp ha with ha | ha
      · have haz := hz a ha z mem_cons_self
        unfold Run.Before Run.stop at *
        omega
      · exact (mem_singleton.mp ha) ▸ hzc
  refine append_iff.mpr ⟨has, cons_iff.mpr ⟨h.nonempty, hbs, hsbs⟩, ?_⟩
  exact fun a ha => forall_mem_cons.mpr ⟨hac a ha, hbefore a ha⟩

end Between

end UcoreMips.Lib
