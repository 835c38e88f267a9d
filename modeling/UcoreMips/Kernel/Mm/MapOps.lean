import UcoreMips.Kernel.Mm.Ranges
import UcoreMips.Kernel.Mm.TlbManager

/-!
# UcoreMips.Kernel.Mm.MapOps

**What mapping and unmapping a page does to memory**, where the TLB has no part in it: the
directory is not the current one, or the page is not in the TLB (`Vm.Inert`). Then
`page_remove` and `page_insert` change one entry, one or two reference counts, and the state
of a frame whose last reference goes (`pageRemove_eq`, `pageInsert_eq`).
-/

namespace UcoreMips.Kernel

open Emulator (Word)
open Function (update update_self update_idem)

namespace Vm

variable {D : Set Ppn} {s t : Vm} {d g f page : Ppn} {la w : Word} {r : PteRef} {v : Vpage}

/-- `tlb_invalidate` has nothing to do for the page. -/
def Inert (s : Vm) (d : Ppn) (v : Vpage) : Prop := s.curPgdir ≠ some d ∨ ¬Marked (s.pte d v)

theorem tlbInvalidate_inert (ht : s.Tables D) (hd : d ∈ D) (hu : (Vpage.of la).User)
    (h : s.Inert d (Vpage.of la)) : s.tlbInvalidate d la = .ok s := by
  unfold tlbInvalidate
  by_cases hcur : some d ≠ s.curPgdir
  · rw [if_pos hcur]
    rfl
  · rw [if_neg hcur, getPte_find ht hd hu]
    cases hr : s.ptep d (Vpage.of la) with
    | none => rfl
    | some r =>
      have hun := h.resolve_left fun hne => hcur fun heq => hne heq.symm
      dsimp only [bind, Except.bind]
      rw [load_of_ptep hr, if_pos (not_not.mp hun)]
      rfl

/-! ### References -/

/-- A reference is given back; the last one frees the frame. -/
def dropRef (s : Vm) (g : Ppn) : Vm :=
  if s.ref g - 1 = 0 then (s.pageRefDec g).freePage g else s.pageRefDec g

theorem dropRef_mem (s : Vm) (g : Ppn) : (s.dropRef g).mem = s.mem := by
  unfold dropRef
  split <;> rfl

theorem dropRef_ref (s : Vm) (g : Ppn) : (s.dropRef g).ref = update s.ref g (s.ref g - 1) := by
  unfold dropRef
  split <;> rfl

theorem dropRef_free (s : Vm) (g : Ppn) : (s.dropRef g).free =
    if s.ref g - 1 = 0 then update s.free g true else s.free := by
  unfold dropRef
  split <;> rfl

/-- At most the frame itself becomes free. -/
theorem dropRef_free_true {s : Vm} {g : Ppn} (h : (s.dropRef g).free f = true) :
    s.free f = true ∨ f = g := by
  rw [dropRef_free] at h
  split at h
  · rw [Function.update_apply] at h
    split at h
    · rename_i hfg
      exact .inr hfg
    · exact .inl h
  · exact .inl h

/-- What is not part of memory, of the reference counts and of the free list. -/
theorem dropRef_rest (s : Vm) (g : Ppn) : s.dropRef g =
    { s with ref := (s.dropRef g).ref, free := (s.dropRef g).free } := by
  unfold dropRef
  split <;> rfl

theorem pte_of_rest (hmem : t.mem = s.mem) (hcur : t.curPgdir = s.curPgdir) :
    t.Inert d v ↔ s.Inert d v := by
  rw [Inert, Inert, hcur, pte_of_mem hmem]

/-! ### Unmapping -/

theorem pageRemovePte_absent (hr : s.ptep d (Vpage.of la) = some r)
    (hnone : frameOf (s.pte d (Vpage.of la)) = none) : s.pageRemovePte d la r = .ok s := by
  unfold pageRemovePte
  rw [load_of_ptep hr, if_pos (frameOf_eq_none.mp hnone)]
  rfl

theorem pageRemovePte_present (ht : s.Tables D) (hd : d ∈ D) (hu : (Vpage.of la).User)
    (hin : s.Inert d (Vpage.of la)) (hr : s.ptep d (Vpage.of la) = some r)
    (hg : frameOf (s.pte d (Vpage.of la)) = some g) (hlt : g.toNat < npage) :
    s.pageRemovePte d la r = .ok ((s.dropRef g).store r 0) := by
  obtain ⟨hp, hppn⟩ := frameOf_eq_some.mp hg
  have hpage : pte2page (s.pte d (Vpage.of la)) = .ok g := by
    rw [pte2page, if_neg hp, hppn, if_pos hlt]
  have hdrop : (if (s.pageRefDec g).ref g = 0 then (s.pageRefDec g).freePage g
      else s.pageRefDec g) = s.dropRef g := by
    rw [dropRef, show (s.pageRefDec g).ref g = s.ref g - 1 from update_self ..]
  have htable : ∀ d' ∈ D, ∀ x, (s.dropRef g).table d' x = s.table d' x := fun d' _ x => by
    rw [table, table, dropRef_mem]
  have hcur : (s.dropRef g).curPgdir = s.curPgdir := by rw [dropRef_rest]
  unfold pageRemovePte
  rw [load_of_ptep hr, if_neg hp, hpage]
  dsimp only [bind, Except.bind]
  rw [hdrop, tlbInvalidate_inert (ht.of_table htable) hd hu
    ((pte_of_rest (dropRef_mem s g) hcur).mpr hin)]
  rfl

/-- `page_remove`. -/
theorem pageRemove_eq (ht : s.Tables D) (hd : d ∈ D) (hu : (Vpage.of la).User)
    (hin : s.Inert d (Vpage.of la))
    (hlt : ∀ g, frameOf (s.pte d (Vpage.of la)) = some g → g.toNat < npage) :
    frameOf (s.pte d (Vpage.of la)) = none ∧ s.pageRemove d la = .ok s ∨
      ∃ g r, frameOf (s.pte d (Vpage.of la)) = some g ∧ s.ptep d (Vpage.of la) = some r ∧
        s.pageRemove d la = .ok ((s.dropRef g).store r 0) := by
  unfold pageRemove
  rw [getPte_find ht hd hu]
  cases hr : s.ptep d (Vpage.of la) with
  | none =>
    rw [pte_of_ptep_none hr]
    exact .inl ⟨frameOf_zero, rfl⟩
  | some r =>
    cases hg : frameOf (s.pte d (Vpage.of la)) with
    | none => exact .inl ⟨rfl, pageRemovePte_absent hr hg⟩
    | some g => exact .inr ⟨g, r, rfl, rfl, pageRemovePte_present ht hd hu hin hr hg (hlt g hg)⟩

/-! ### Mapping -/

/-- The end of `page_insert`: the entry `r` gets the value `w`, which maps `page`. -/
def mapEntry (s : Vm) (r : PteRef) (page : Ppn) (w : Word) : Vm :=
  match frameOf (s.load r) with
  | none => (s.pageRefInc page).store r w
  | some g => if g = page then s.store r w else ((s.pageRefInc page).dropRef g).store r w

theorem store_store (s : Vm) (r : PteRef) (w w' : Word) :
    (s.store r w).store r w' = s.store r w' := by
  simp only [store, update_self, update_idem]

theorem mapEntry_mem (s : Vm) (r : PteRef) (page : Ppn) (w : Word) :
    (s.mapEntry r page w).mem = (s.store r w).mem := by
  unfold mapEntry
  split
  · rfl
  · split
    · rfl
    · simp only [store, dropRef_mem]
      rfl

theorem mapEntry_free {r : PteRef} (hf : (s.mapEntry r page w).free f = true) :
    s.free f = true ∨ frameOf (s.load r) = some f := by
  unfold mapEntry at hf
  split at hf
  · exact .inl hf
  · rename_i g hg
    split at hf
    · exact .inl hf
    · exact (dropRef_free_true (s := s.pageRefInc page) hf).imp_right fun hfg : f = g => hfg ▸ hg

theorem mapEntry_pte (ht : s.Tables D) (hd : d ∈ D) (hv : v.User) (hr : s.ptep d v = some r)
    {d' : Ppn} (hd' : d' ∈ D) {v' : Vpage} (hv' : v'.User) :
    (s.mapEntry r page w).pte d' v' = if d' = d ∧ v' = v then w else s.pte d' v' := by
  rw [pte_of_mem (mapEntry_mem s r page w), pte_store ht hd hv hr hd' hv']

/-- `page_insert` after `get_pte`. -/
theorem pageInsert_eq {perm : Word} (hget : s.getPte d la true = .ok (some r, t))
    (ht : t.Tables D) (hd : d ∈ D) (hu : (Vpage.of la).User) (hin : t.Inert d (Vpage.of la))
    (hr : t.ptep d (Vpage.of la) = some r)
    (hlt : ∀ g, frameOf (t.pte d (Vpage.of la)) = some g → g.toNat < npage) :
    s.pageInsert d page la perm = .ok (t.mapEntry r page (page2pa page ||| pteP ||| perm)) := by
  have hload : t.load r = t.pte d (Vpage.of la) := load_of_ptep hr
  have hinv : ∀ u : Vm, u.mem = t.mem → u.curPgdir = t.curPgdir →
      u.tlbInvalidate d la = .ok u := fun u hmem hcur =>
    tlbInvalidate_inert (ht.of_table fun d' _ x => by rw [table, table, hmem]) hd hu
      ((pte_of_rest hmem hcur).mpr hin)
  unfold pageInsert mapEntry
  rw [hget]
  dsimp only [bind, Except.bind]
  rw [show (t.pageRefInc page).load r = t.load r from rfl, hload]
  cases hg : frameOf (t.pte d (Vpage.of la)) with
  | none =>
    rw [if_pos (frameOf_eq_none.mp hg)]
    dsimp only [pure, Except.pure]
    rw [hinv (t.pageRefInc page) rfl rfl]
  | some g =>
    obtain ⟨hp, hppn⟩ := frameOf_eq_some.mp hg
    have hpage : pte2page (t.pte d (Vpage.of la)) = .ok g := by
      rw [pte2page, if_neg hp, hppn, if_pos (hlt g hg)]
    rw [if_neg hp, hpage]
    dsimp only
    by_cases hgp : g = page
    · have hback : (t.pageRefInc page).pageRefDec page = t := by
        have href : update (update t.ref page (t.ref page + 1)) page
            (update t.ref page (t.ref page + 1) page - 1) = t.ref := by
          rw [update_idem, update_self, add_sub_cancel_right, Function.update_eq_self]
        simp only [pageRefInc, pageRefDec, setPageRef, href]
      rw [if_pos hgp, if_pos hgp]
      dsimp only [pure, Except.pure]
      rw [hback, hinv t rfl rfl]
    · have hrem : (t.pageRefInc page).pageRemovePte d la r =
          .ok (((t.pageRefInc page).dropRef g).store r 0) :=
        pageRemovePte_present (s := t.pageRefInc page) (ht.of_table fun _ _ _ => rfl) hd hu hin hr
          hg (hlt g hg)
      rw [if_neg hgp, if_neg hgp, hrem]
      dsimp only
      -- the entry is 0 now, and not in the TLB
      have hmem : ((t.pageRefInc page).dropRef g).mem = t.mem := dropRef_mem ..
      have hu' : ((t.pageRefInc page).dropRef g).Tables D :=
        ht.of_table fun d' _ x => by rw [table, table, hmem]
      have hr' : ((t.pageRefInc page).dropRef g).ptep d (Vpage.of la) = some r := by
        rw [ptep_of_mem hmem, hr]
      have hzero : (((t.pageRefInc page).dropRef g).store r 0).pte d (Vpage.of la) = 0 := by
        rw [pte_store hu' hd hu hr' hd hu, if_pos ⟨rfl, rfl⟩]
      have hin' : (((t.pageRefInc page).dropRef g).store r 0).Inert d (Vpage.of la) := by
        rw [Inert, hzero]
        exact .inr not_marked_zero
      rw [tlbInvalidate_inert (hu'.of_table fun d' hd' x => table_store hu' hd hu hr' hd' x) hd hu
        hin']
      dsimp only
      rw [store_store]
      rfl

/-- With a free frame for a page table, `get_pte` returns. -/
theorem getPte_returns (hg : s.Guarded D) (hd : d ∈ D) (hu : (Vpage.of la).User)
    (hfree : s.free f = true) (hlt : f.toNat < npage) :
    ∃ o t, s.getPte d la true = .ok (o, t) := by
  obtain ⟨g, u, ha⟩ := allocPage_of_free hfree hlt
  cases hf : s.table d (pdx la) with
  | some g => exact ⟨_, _, getPte_have hg.toTables hd hu hf true⟩
  | none => exact ⟨_, _, (getPte_new hg hd hf ha).1⟩

end Vm

end UcoreMips.Kernel
