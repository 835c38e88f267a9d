import UcoreMips.Kernel.Mm.AddressSpace
import UcoreMips.Lib.Result

/-!
# UcoreMips.Kernel.Mm.PageFault

**The miss handler** keeps the invariant of the running kernel, with the page faults it
resolves on the way.

A fault gives the page a frame that was free, so that it becomes a mapping like any
other; where it returns without one the entry has not changed. In both cases no mark
appears (`Keeps`), and the refill that follows finds the page unmarked if it was so
before the fault.
-/

namespace UcoreMips.Kernel

open UcoreMips.Lib
open Emulator (Word)

theorem Vma.perm_mask (vma : Vma) : vma.perm &&& ~~~0x7#32 = 0 := by
  unfold Vma.perm
  split <;> decide

/-- The page of an address is that of its first byte. -/
theorem Vpage.of_mask (la : Word) : Vpage.of (la &&& 0xfffff000#32) = Vpage.of la := by
  unfold Vpage.of
  congr 1
  · exact extract_and_ones (by decide)
  · exact extract_and_ones (by decide)

namespace Vm

variable {D : Set Ppn} {s t : Vm} {c d : Ppn} {la : Word} {held : Ppn → Nat} {o : Option PteRef}

/-- `alloc_page` keeps the invariant, and a frame it hands out may be mapped. -/
theorem Good.allocPage (hs : s.Good D held c) {o : Option Ppn} (h : s.allocPage = .ok (o, t)) :
    t.Good D held c ∧ Keeps D s t ∧ ∀ f, o = some f → DataFrame D t f := by
  cases o with
  | none =>
    obtain rfl := allocPage_none h
    exact ⟨hs, (Quiet.refl D t).keeps, fun f hf => nomatch hf⟩
  | some f =>
    obtain ⟨hfree, hlt, rfl⟩ := allocPage_some h
    have hclaim : ∀ {g}, s.free g = false → Function.update s.free f false g = false := by
      intro g hg
      by_cases hgf : g = f
      · rw [hgf, Function.update_self]
      · rw [Function.update_of_ne hgf, hg]
    refine ⟨{ hs with wf := ?_ }, ⟨fun _ _ _ _ _ => rfl, rfl⟩, ?_⟩
    · exact {
        toTables := hs.wf.toTables.of_table fun _ _ _ => rfl
        structural := fun hg => hclaim (hs.wf.structural hg)
        mappedLt := hs.wf.mappedLt
        mappedNot := hs.wf.mappedNot
        mappedFree := fun hd hv hg => hclaim (hs.wf.mappedFree hd hv hg) }
    · rintro g ⟨⟩
      refine ⟨hlt, Function.update_self .., fun hst => ?_⟩
      rw [hs.wf.structural hst] at hfree
      cases hfree

/-- A page table is made where there is none. -/
theorem Good.getPte (hs : s.Good D held c) (hd : d ∈ D) (hu : (Vpage.of la).User)
    (h : s.getPte d la true = .ok (o, t)) :
    ∃ r, o = some r ∧ t.ptep d (Vpage.of la) = some r ∧ t.Good D held c ∧ Grown D s t := by
  obtain ⟨r, rfl, hr, hgrown⟩ := getPte_create hs.wf hd hu h
  have hcur : t.curPgdir = s.curPgdir := by rw [hgrown.rest]
  refine ⟨r, rfl, hr, ⟨hgrown.wf, hgrown.refs held hs.refs, hs.mem, hcur.trans hs.cur, ?_⟩, hgrown⟩
  rw [hgrown.rest]
  exact hs.inv.congr fun v hv => hgrown.pte c hs.mem v hv

theorem Grown.keeps (h : Grown D s t) : Keeps D s t := by
  refine ⟨fun d hd v hv _ => h.pte d hd v hv, ?_⟩
  rw [h.rest]

/-- `swap_in`. -/
theorem Good.swapIn (hs : s.Good D held c) (hd : d ∈ D) (hu : (Vpage.of la).User) {page : Ppn}
    (h : s.swapIn d la = .ok (page, t)) :
    t.Good D held c ∧ Keeps D s t ∧ DataFrame D t page := by
  obtain ⟨⟨o1, s1⟩, halloc, h⟩ := bind_eq_ok.mp h
  obtain ⟨hs1, hk1, hdata⟩ := hs.allocPage halloc
  cases o1 with
  | none => cases h
  | some f =>
    dsimp only at h
    rw [getPte_find hs1.wf.toTables hd hu] at h
    cases hr : s1.ptep d (Vpage.of la) with
    | none =>
      rw [hr] at h
      cases h
    | some r =>
      rw [hr] at h
      cases h
      exact ⟨hs1, hk1, hdata page rfl⟩

/-! ### `do_pgfault` -/

/-- No frame is free. -/
def Exhausted (s : Vm) : Prop := ∀ f, f.toNat < npage → s.free f = false

theorem allocPage_exhausted (h : s.allocPage = .ok (none, t)) :
    s.Exhausted ∧ s.swapInitOk = false := by
  have hfull : s.Exhausted := by
    intro f hlt
    rw [← Bool.not_eq_true]
    intro hf
    obtain ⟨g, u, hg⟩ := allocPage_of_free hf hlt
    rw [hg] at h
    cases h
  refine ⟨hfull, ?_⟩
  unfold Vm.allocPage at h
  split at h
  · cases h
  · split at h
    · cases h
    · next hswap => exact Bool.not_eq_true _ ▸ hswap

theorem allocPage_eq_of_exhausted (h : s.Exhausted) :
    s.allocPage = if s.swapInitOk then .error .nullPointer else .ok (none, s) := by
  have hfind : ((List.range npage).map (BitVec.ofNat 20)).find? s.free = none := by
    refine List.find?_eq_none.mpr fun f hf => ?_
    obtain ⟨q, hq, rfl⟩ := List.mem_map.mp hf
    rw [h _ (lt_of_le_of_lt (Nat.mod_le _ _) (List.mem_range.mp hq))]
    exact Bool.false_ne_true
  unfold allocPage
  rw [hfind]

theorem allocPage_of_exhausted (h : s.Exhausted) (hswap : s.swapInitOk = false) :
    s.allocPage = .ok (none, s) := by
  rw [allocPage_eq_of_exhausted h, hswap]
  rfl

/-- There is no frame for a page at `la`, once it has a page table: none is free, or just one and
the page table is still to be made. -/
def Starved (s : Vm) (d : Ppn) (la : Word) : Prop :=
  (∃ f, s.table d (pdx la) = some f) ∧ s.Exhausted ∨
    s.table d (pdx la) = none ∧ ∃ f, f.toNat < npage ∧ s.free f = true ∧
      ∀ g, g.toNat < npage → s.free g = true → g = f

/-- After `get_pte` no frame is free just if there was none for a page. -/
theorem starved_iff (hs : s.Guarded D) (hd : d ∈ D) (hu : (Vpage.of la).User)
    (h : s.getPte d la true = .ok (o, t)) : t.Exhausted ↔ s.Starved d la := by
  obtain ⟨f, -, htable, rfl | ⟨hnone, hfree, hlt, rfl⟩⟩ := getPte_cases hs hd hu h
  · rw [Starved, htable]
    simp
  · have hrest : (s.withTable d (pdx la) f).Exhausted ↔
        ∀ g, g.toNat < npage → s.free g = true → g = f := by
      refine forall_congr' fun g => imp_congr_right fun hg => ?_
      simp only [withTable, Function.update_apply]
      by_cases hgf : g = f
      · simp [hgf]
      · simp [hgf]
    rw [hrest, Starved, hnone]
    constructor
    · exact fun hall => .inr ⟨rfl, f, hlt, hfree, hall⟩
    · rintro (⟨⟨g, hg⟩, -⟩ | ⟨-, g, -, -, hall⟩)
      · cases hg
      · intro g' hg' hfree'
        rw [hall g' hg' hfree', hall f hlt hfree]

end Vm

/-- `do_pgfault` takes the fault for one it resolves: a range has the address and allows the access,
and the page has neither a frame nor a place in the swap file. -/
structure Mm.Resolves (mm : Mm) (s : Vm) (errorCode la : Word) : Prop where
  range : ∃ vma, (mm.findVma la).1 = some vma ∧ vma.allows errorCode = true
  entry : s.pte mm.pgdir (Vpage.of la) = 0

namespace Vm

variable {D : Set Ppn} {s t : Vm} {c d : Ppn} {la : Word} {held : Ppn → Nat} {store : Bool}

/-- How a page fault ends, when it returns. -/
inductive FaultOutcome (D : Set Ppn) (mm : Mm) (errorCode la : Word) (s t : Vm) : Bool → Prop
  /-- It fails, and the mappings are as before. -/
  | refused (pte : ∀ d ∈ D, ∀ v : Vpage, v.User → t.pte d v = s.pte d v) :
      FaultOutcome D mm errorCode la s t false
  /-- The page has a frame, with the permissions of the range. -/
  | mapped {vma : Vma} {page : Ppn} (found : (mm.findVma la).1 = some vma)
      (allows : vma.allows errorCode = true)
      (entry : t.pte mm.pgdir (Vpage.of la) = page2pa page ||| pteP ||| vma.perm) :
      FaultOutcome D mm errorCode la s t true
  /-- No frame was left for it, which goes unnoticed. -/
  | unserved (resolves : mm.Resolves s errorCode la) (swap : s.swapInitOk = false)
      (starved : s.Starved mm.pgdir la) (entry : t.pte mm.pgdir (Vpage.of la) = 0) :
      FaultOutcome D mm errorCode la s t true

theorem findVma_pgdir (mm : Mm) (la : Word) : (mm.findVma la).2.pgdir = mm.pgdir := by
  unfold Mm.findVma
  dsimp only
  split <;> rfl

/-- `do_pgfault` keeps the invariant, and ends in one of the three ways. -/
theorem Good.doPgfault (hs : s.Good D held c) {mm : Mm} (hmm : mm.pgdir ∈ D)
    (hu : ∀ vma, (mm.findVma la).1 = some vma → (Vpage.of la).User) {errorCode : Word} {ok : Bool}
    (h : s.doPgfault mm errorCode la = .ok (ok, t)) :
    t.Good D held c ∧ Keeps D s t ∧ FaultOutcome D mm errorCode la s t ok := by
  unfold Vm.doPgfault at h
  dsimp only at h
  rw [findVma_pgdir] at h
  -- the range found is only remembered
  obtain ⟨s0, hs0⟩ : ∃ s0, { s with mm := some (mm.findVma la).2 } = s0 := ⟨_, rfl⟩
  rw [hs0] at h
  have hgood0 : s0.Good D held c ∧ Keeps D s s0 := by
    subst hs0
    exact ⟨{ hs with wf := hs.wf.of_mem rfl rfl }, fun _ _ _ _ _ => rfl, rfl⟩
  have hpte0 : s0.pte = s.pte := by rw [← hs0]; rfl
  cases hvma : (mm.findVma la).1 with
  | none =>
    rw [hvma] at h
    cases h
    exact ⟨hgood0.1, hgood0.2, .refused fun d _ v _ => by rw [hpte0]⟩
  | some vma =>
    rw [hvma] at h
    dsimp only at h
    split at h
    · cases h
      exact ⟨hgood0.1, hgood0.2, .refused fun d _ v _ => by rw [hpte0]⟩
    rename_i hallows
    rw [Bool.not_eq_false] at hallows
    have hof := Vpage.of_mask la
    have hu' : (Vpage.of (la &&& 0xfffff000#32)).User := by rw [hof]; exact hu vma hvma
    obtain ⟨⟨o, s1⟩, hget, h⟩ := bind_eq_ok.mp h
    obtain ⟨r, rfl, hr, hs1, hgrown⟩ := hgood0.1.getPte hmm hu' hget
    have hk1 := hgood0.2.trans hgrown.keeps
    have hsame : ∀ d ∈ D, ∀ v : Vpage, v.User → s1.pte d v = s.pte d v := fun d hd v hv => by
      rw [hgrown.pte d hd v hv, hpte0]
    have hload : s1.load r = s.pte mm.pgdir (Vpage.of la) := by
      rw [load_of_ptep hr, hof, hsame _ hmm _ (hu vma hvma)]
    dsimp only at h
    rw [hload] at h
    split at h
    · next hzero =>
      obtain ⟨⟨o2, s2⟩, hpage, h⟩ := bind_eq_ok.mp h
      cases h
      obtain ⟨⟨o1, s1'⟩, halloc, hpage⟩ := bind_eq_ok.mp hpage
      obtain ⟨hs1', hk1', hdata⟩ := hs1.allocPage halloc
      cases o1 with
      | none =>
        cases hpage
        obtain ⟨hfull, hswap⟩ := allocPage_exhausted halloc
        obtain rfl := allocPage_none halloc
        refine ⟨hs1', hk1, .unserved ⟨⟨vma, hvma, hallows⟩, hzero⟩ ?_ ?_ ?_⟩
        · rw [hgrown.rest, ← hs0] at hswap
          exact hswap
        · have hstarved := (starved_iff hgood0.1.wf.guarded hmm hu' hget).mp hfull
          have hpdx : pdx (la &&& 0xfffff000#32) = pdx la := by
            rw [← Vpage.of_pdx, ← Vpage.of_pdx, hof]
          rw [Starved, hpdx, ← hs0] at hstarved
          exact hstarved
        · rw [hsame _ hmm _ (hu vma hvma), hzero]
      | some page =>
        obtain ⟨s2', hins, hpage⟩ := bind_eq_ok.mp hpage
        cases hpage
        have hinserted := pageInsert_spec hs1' hmm hu' vma.perm_mask (hdata page rfl) hins
        obtain ⟨hs2, hk2⟩ := hs1'.pageInsert hmm hu' vma.perm_mask (hdata page rfl) hins
        exact ⟨hs2, (hk1.trans hk1').trans hk2, .mapped hvma hallows (hof ▸ hinserted.entry)⟩
    · split at h
      · obtain ⟨⟨page, s2⟩, hswap, h⟩ := bind_eq_ok.mp h
        obtain ⟨hs2, hk2, hdata⟩ := hs1.swapIn hmm hu' hswap
        obtain ⟨s3, hins, h⟩ := bind_eq_ok.mp h
        have hinserted := pageInsert_spec hs2 hmm hu' vma.perm_mask hdata hins
        obtain ⟨hs3, hk3⟩ := hs2.pageInsert hmm hu' vma.perm_mask hdata hins
        split at h
        · cases h
          exact ⟨hs3, (hk1.trans hk2).trans hk3, .mapped hvma hallows (hof ▸ hinserted.entry)⟩
        · cases h
      · cases h
        exact ⟨hs1, hk1, .refused hsame⟩

theorem Good.handlePgfault (hs : s.Good D held c) (hu : (Vpage.of la).User)
    (h : s.handlePgfault c la store = .ok t) :
    t.Good D held c ∧ Keeps D s t ∧ ∃ mm, s.mm = some mm ∧ mm.pgdir = c ∧
      FaultOutcome D mm (if store then 2 else 0) la s t true := by
  unfold Vm.handlePgfault at h
  cases hmm : s.mm with
  | none =>
    rw [hmm] at h
    cases h
  | some mm =>
    rw [hmm] at h
    dsimp only at h
    split at h
    · cases h
    · rename_i hpgdir
      rw [not_not] at hpgdir
      obtain ⟨⟨ok, s1⟩, hfault, h⟩ := bind_eq_ok.mp h
      obtain ⟨hs1, hk1, hout⟩ := hs.doPgfault (hpgdir ▸ hs.mem) (fun _ _ => hu) hfault
      split at h
      · next hok =>
        cases h
        subst hok
        exact ⟨hs1, hk1, mm, rfl, hpgdir, hout⟩
      · cases h

theorem Good.refilled (hs : s.Good D held c) {v : Vpage} (h : Refilled D c v s t) :
    t.Good D held c :=
  ⟨h.wf hs.wf, h.refs hs.refs, hs.mem, h.curPgdir.trans hs.cur, h.inv⟩

/-- The miss handler on a page that is present: it always returns. -/
theorem Good.tlbMissHandler_present (hs : s.Good D held c) (hu : (Vpage.of la).User)
    (hmiss : ¬Marked (s.pte c (Vpage.of la)) ∨ Marked (s.pte c (Vpage.of la).sibling))
    (hp : s.pte c (Vpage.of la) &&& pteP ≠ 0) (store : Bool) :
    ∃ t, s.tlbMissHandler la store = .ok t ∧ Refilled D c (Vpage.of la) s t := by
  unfold Vm.tlbMissHandler
  rw [hs.cur]
  dsimp only [bind, Except.bind]
  rw [getPte_find hs.wf.toTables hs.mem hu]
  dsimp only
  rcases filter_ptep pteP c (Vpage.of la) (s := s) with ⟨r, hr, -, hf⟩ | ⟨hnp, -⟩
  · rw [hf]
    exact refill_spec hs.wf.toTables hs.mem hs.inv hu hr hmiss
  · exact absurd hnp hp

section Miss

variable (hs : s.Good D held c) (hu : (Vpage.of la).User) (hmiss : ¬Marked (s.pte c (Vpage.of la)))
  (h : s.tlbMissHandler la store = .ok t)

include hs hu hmiss h

/-- The miss handler on a page without a mark: a page fault if the page is not present,
and the refill. -/
theorem Good.tlbMissHandler_cases :
    ∃ s1, (s.pte c (Vpage.of la) &&& pteP ≠ 0 ∧ s1 = s ∨
        s.pte c (Vpage.of la) &&& pteP = 0 ∧ s.handlePgfault c la store = .ok s1) ∧
      s1.Good D held c ∧ Refilled D c (Vpage.of la) s1 t := by
  by_cases hp : s.pte c (Vpage.of la) &&& pteP ≠ 0
  · obtain ⟨t', ht', hfill⟩ := hs.tlbMissHandler_present hu (.inl hmiss) hp store
    rw [ht'] at h
    cases h
    exact ⟨s, .inl ⟨hp, rfl⟩, hs, hfill⟩
  · unfold Vm.tlbMissHandler at h
    rw [hs.cur] at h
    dsimp only at h
    rw [getPte_find hs.wf.toTables hs.mem hu] at h
    rcases filter_ptep pteP c (Vpage.of la) (s := s) with ⟨r, hr, hpr, hf⟩ | ⟨-, hf⟩
    · exact absurd hpr hp
    dsimp only [ok_bind] at h
    rw [hf] at h
    obtain ⟨s1, hfault, h⟩ := bind_eq_ok.mp h
    obtain ⟨hs1, hk1, -⟩ := hs.handlePgfault hu hfault
    rw [getPte_find hs1.wf.toTables hs.mem hu] at h
    cases hr : s1.ptep c (Vpage.of la) with
    | none =>
      rw [hr] at h
      cases h
    | some r =>
      rw [hr] at h
      have hmiss1 : ¬Marked (s1.pte c (Vpage.of la)) := by
        intro hm
        rw [hk1.marked c hs.mem _ hu hm] at hm
        exact hmiss hm
      obtain ⟨t', ht', hfill⟩ := refill_spec hs1.wf.toTables hs.mem hs1.inv hu hr (.inl hmiss1)
      obtain rfl : t' = t := Except.ok.inj (ht'.symm.trans h)
      exact ⟨s1, .inr ⟨not_not.mp hp, hfault⟩, hs1, hfill⟩

theorem Good.tlbMissHandler : t.Good D held c ∧ Marked (t.pte c (Vpage.of la)) := by
  obtain ⟨s1, -, hs1, hfill⟩ := hs.tlbMissHandler_cases hu hmiss h
  exact ⟨hs1.refilled hfill, hfill.marked⟩

end Miss

end Vm

end UcoreMips.Kernel
