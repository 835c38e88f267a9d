import UcoreMips.Kernel.Mm.TlbManager

/-!
# UcoreMips.Kernel.Mm.AddressSpace

**Operations on address spaces** keep memory, reference counts and TLB in order.

`Good` is the invariant of the running kernel. `page_insert`, `page_remove` and the miss
handler with its page faults are followed through it: each changes the mapping of one
page (`Remap`), invalidates the TLB entry of that page before it does, and leaves every
other mark where it was (`Keeps`).
-/

namespace UcoreMips.Kernel

open Emulator (Word)
open Function (update update_of_ne update_self)

namespace Vm

/-! ### Mapping and unmapping -/

section Map

variable {D : Set Ppn} {s t : Vm} {c d page : Ppn} {la w perm : Word} {held : Ppn → Nat} {v : Vpage}
  {r : PteRef}

/-- A mark that is there after the step was there before it, on the same entry; and the
step kept the current directory. -/
structure Keeps (D : Set Ppn) (s t : Vm) : Prop where
  marked : ∀ d ∈ D, ∀ v : Vpage, v.User → Marked (t.pte d v) → t.pte d v = s.pte d v
  curPgdir : t.curPgdir = s.curPgdir

theorem Quiet.keeps (h : Quiet D s t) : Keeps D s t :=
  ⟨fun _ hd _ hv hm => h.marked hd hv hm, h.curPgdir⟩

theorem Keeps.trans {u : Vm} (h : Keeps D s t) (h' : Keeps D t u) : Keeps D s u where
  marked d hd v hv hm := by
    have e := h'.marked d hd v hv hm
    rw [e] at hm ⊢
    exact h.marked d hd v hv hm
  curPgdir := h'.curPgdir.trans h.curPgdir

theorem keeps_store (ht : s.Tables D) (hd : d ∈ D)
    (hv : v.User) (hr : s.ptep d v = some r) (hw : ¬Marked w) : Keeps D s (s.store r w) where
  marked d' hd' v' hv' hm := by
    rw [pte_store ht hd hv hr hd' hv'] at hm ⊢
    split at hm
    · exact absurd hm hw
    · rename_i hne
      rw [if_neg hne]
  curPgdir := rfl

/-- A store of an entry that is not marked, over one that is not marked or in another
directory. -/
theorem tlbInv_store_unmarked (ht : s.Tables D)
    (hc : c ∈ D) (hd : d ∈ D) (hv : v.User) (hr : s.ptep d v = some r) (hw : ¬Marked w)
    (hold : d = c → ¬Marked (s.pte d v)) (hinv : TlbInv (s.pte c) s.mmu s.algo) :
    TlbInv ((s.store r w).pte c) (s.store r w).mmu (s.store r w).algo := by
  by_cases hdc : d = c
  · subst hdc
    exact tlbInv_store ht hd hv hr ⟨hinv.held.update (hold rfl) hw, hinv.stack, hinv.idle⟩
  · refine TlbInv.congr hinv fun u hu => ?_
    rw [pte_store ht hd hv hr hc hu, if_neg fun h => hdc h.1.symm]

/-- The page tables of the directories `D` are in order, the reference counts are those of
the mappings and of the references `held` elsewhere, and the TLB agrees with the current
directory `c`. -/
structure Good (D : Set Ppn) (held : Ppn → Nat) (c : Ppn) (s : Vm) : Prop where
  wf : s.Wf D
  refs : s.Refs D held
  mem : c ∈ D
  cur : s.curPgdir = some c
  inv : TlbInv (s.pte c) s.mmu s.algo

/-- What `page_remove_pte` guarantees. -/
structure Removed (D : Set Ppn) (held : Ppn → Nat) (c d : Ppn) (v : Vpage) (s t : Vm) : Prop
    extends Keeps D s t where
  wf : t.Wf D
  refs : t.Refs D held
  inv : TlbInv (t.pte c) t.mmu t.algo
  table : ∀ d' ∈ D, ∀ x, t.table d' x = s.table d' x
  gone : frameOf (t.pte d v) = none
  claimed : ∀ f, s.free f = false → frameOf (s.pte d v) ≠ some f → t.free f = false

theorem pageRemovePte_spec (hs : s.Good D held c) (hd : d ∈ D) (hu : (Vpage.of la).User)
    (hr : s.ptep d (Vpage.of la) = some r) :
    ∃ t, s.pageRemovePte d la r = .ok t ∧ Removed D held c d (Vpage.of la) s t := by
  obtain ⟨hwf, hrefs, hc, hcur, hinv⟩ := hs
  unfold pageRemovePte
  rw [load_of_ptep hr]
  by_cases hp : s.pte d (Vpage.of la) &&& pteP = 0
  · rw [if_pos hp]
    exact ⟨s, rfl, (Quiet.refl D s).keeps, hwf, hrefs, hinv, fun _ _ _ => rfl,
      frameOf_eq_none.mpr hp, fun _ h _ => h⟩
  rw [if_neg hp]
  obtain ⟨g, hg⟩ : ∃ g, ppn (s.pte d (Vpage.of la)) = g := ⟨_, rfl⟩
  have hframe : frameOf (s.pte d (Vpage.of la)) = some g := frameOf_eq_some.mpr ⟨hp, hg⟩
  have hpage : pte2page (s.pte d (Vpage.of la)) = .ok g := by
    rw [pte2page, if_neg hp, hg, if_pos (hwf.mappedLt hd hu hframe)]
  rw [hpage]
  dsimp only [bind, Except.bind]
  -- the state in which the TLB is invalidated has the same memory
  obtain ⟨s2, hs2⟩ : ∃ s2, (if (s.pageRefDec g).ref g = 0 then (s.pageRefDec g).freePage g
      else s.pageRefDec g) = s2 := ⟨_, rfl⟩
  rw [hs2]
  have hsame : s2.mem = s.mem ∧ s2.curPgdir = s.curPgdir ∧ s2.mmu = s.mmu ∧ s2.algo = s.algo ∧
      s2.ref = update s.ref g (s.ref g - 1) ∧
      s2.free = if s.ref g - 1 = 0 then update s.free g true else s.free := by
    have hdec : (s.pageRefDec g).ref g = s.ref g - 1 := update_self ..
    rw [hdec] at hs2
    subst hs2
    split <;> exact ⟨rfl, rfl, rfl, rfl, rfl, rfl⟩
  obtain ⟨hmem, hcur2, hmmu2, halgo2, href2, hfree2⟩ := hsame
  have hpte2 : s2.pte = s.pte := pte_of_mem hmem
  have htable2 : s2.table = s.table := by
    funext d' x
    rw [table, table, hmem]
  have ht2 : s2.Tables D := hwf.toTables.of_table fun d' _ x => by rw [htable2]
  have hr2 : s2.ptep d (Vpage.of la) = some r := by rw [ptep_of_mem hmem, hr]
  obtain ⟨s3, h3, hq, hinv3, hun⟩ := tlbInvalidate_spec ht2 hc hd (hcur2.trans hcur) hu
    (by rw [hpte2, hmmu2, halgo2]; exact hinv)
  rw [h3]
  dsimp only
  have ht3 := hq.tables ht2
  have hr3 : s3.ptep d (Vpage.of la) = some r := (hq.ptep hd _).trans hr2
  have hremap : Remap D s (s3.store r 0) d (Vpage.of la) none := by
    refine ⟨fun d' hd' x => ?_, fun d' hd' v' hv' => ?_⟩
    · rw [table_store ht3 hd hu hr3 hd', hq.table d' hd', htable2]
    · rw [pte_store ht3 hd hu hr3 hd' hv']
      split
      · exact frameOf_zero
      · rw [hq.maps d' hd' v' hv', hpte2]
  have href : (s3.store r 0).ref = update s.ref g (s.ref g - 1) := hq.ref.trans href2
  have hfree : (s3.store r 0).free =
      if s.ref g - 1 = 0 then update s.free g true else s.free := hq.free.trans hfree2
  obtain ⟨hwf', hrefs'⟩ := hremap.unmap hwf hrefs hd hu hframe href hfree
  have hkeeps2 : Keeps D s s2 := by
    refine ⟨fun d' _ v' _ _ => ?_, hcur2⟩
    rw [hpte2]
  refine ⟨_, rfl, {
    toKeeps := (hkeeps2.trans hq.keeps).trans (keeps_store ht3 hd hu hr3 not_marked_zero)
    wf := hwf', refs := hrefs', table := hremap.table
    inv := tlbInv_store_unmarked ht3 hc hd hu hr3 not_marked_zero hun hinv3
    gone := ?_, claimed := ?_ }⟩
  · rw [hremap.maps d hd _ hu, if_pos ⟨rfl, rfl⟩]
  · intro f hf hne
    have hfg : f ≠ g := fun h => hne (h ▸ hframe)
    rw [hfree]
    split
    · rw [update_of_ne hfg, hf]
    · exact hf

/-- Well-formedness does not look at reference counts. -/
theorem Wf.of_mem (hwf : s.Wf D) (hmem : t.mem = s.mem) (hfree : t.free = s.free) : t.Wf D := by
  have hpte : t.pte = s.pte := pte_of_mem hmem
  have htable : ∀ d ∈ D, ∀ x, t.table d x = s.table d x := fun d _ x => by rw [table, table, hmem]
  exact {
    toTables := hwf.toTables.of_table htable
    structural := fun hf => hfree ▸ hwf.structural ((structural_congr htable).mp hf)
    mappedLt := fun hd hv hf => hwf.mappedLt hd hv (hpte ▸ hf)
    mappedNot := fun hd hv hf hs =>
      hwf.mappedNot hd hv (hpte ▸ hf) ((structural_congr htable).mp hs)
    mappedFree := fun hd hv hf => hfree ▸ hwf.mappedFree hd hv (hpte ▸ hf) }

/-- The frame is one a page may be mapped to: a frame of memory that is allocated and holds
no directory or page table. -/
structure DataFrame (D : Set Ppn) (s : Vm) (page : Ppn) : Prop where
  lt : page.toNat < npage
  free : s.free page = false
  data : ¬Structural D s page

/-- Taking a reference before the mapping is made. -/
theorem refs_inc (page : Ppn) (hrefs : s.Refs D held) :
    (s.pageRefInc page).Refs D fun f => held f + if f = page then 1 else 0 := by
  intro f hf
  have hold : s.ref f = (mappings D s f).ncard + held f := hrefs f hf
  show update s.ref page (s.ref page + 1) f = (mappings D s f).ncard + _
  dsimp only
  by_cases hfp : f = page
  · subst hfp
    rw [update_self, hold, if_pos rfl]
    push_cast
    omega
  · rw [update_of_ne hfp, hold, if_neg hfp, Nat.add_zero]

/-- What `page_insert` guarantees. -/
structure Inserted (D : Set Ppn) (held : Ppn → Nat) (c d : Ppn) (v : Vpage) (w : Word)
    (s t : Vm) : Prop extends Keeps D s t where
  wf : t.Wf D
  refs : t.Refs D held
  inv : TlbInv (t.pte c) t.mmu t.algo
  entry : t.pte d v = w
  ptep : (t.ptep d v).isSome

/-- The end of `page_insert`: the page had no mapping, or one to the same frame. -/
theorem insert_finish (hwf : s.Wf D) (hc : c ∈ D)
    (hd : d ∈ D) (hcur : s.curPgdir = some c) (hinv : TlbInv (s.pte c) s.mmu s.algo)
    (hu : (Vpage.of la).User) (hr : s.ptep d (Vpage.of la) = some r) (hpage : DataFrame D s page)
    (hw : frameOf w = some page) (hnew : ¬Marked w)
    (hold : frameOf (s.pte d (Vpage.of la)) = none ∧
        s.Refs D (fun f => held f + if f = page then 1 else 0) ∨
      frameOf (s.pte d (Vpage.of la)) = some page ∧ s.Refs D held) :
    ∃ t, s.tlbInvalidate d la = .ok t ∧ Inserted D held c d (Vpage.of la) w s (t.store r w) := by
  obtain ⟨t, ht, hq, hinv', hun⟩ := tlbInvalidate_spec hwf.toTables hc hd hcur hu hinv
  have htt := hq.tables hwf.toTables
  have hrt : t.ptep d (Vpage.of la) = some r := (hq.ptep hd _).trans hr
  have hwr : (t.store r w).Wf D ∧ (t.store r w).Refs D held := by
    rcases hold with ⟨hnone, hrefs⟩ | ⟨hsome, hrefs⟩
    · have hremap : Remap D t (t.store r w) d (Vpage.of la) (some page) := by
        refine ⟨fun d' hd' x => table_store htt hd hu hrt hd' x, fun d' hd' v' hv' => ?_⟩
        rw [pte_store htt hd hu hrt hd' hv']
        split
        · exact hw
        · rfl
      exact hremap.map (hq.wf hwf) (hq.refs hrefs) hd hu ((hq.maps d hd _ hu).trans hnone)
        (mt hq.structural.mp hpage.data) hpage.lt (hq.free ▸ hpage.free) rfl rfl
    · have hsame := sameFrames_store (w := w) htt hd hu hrt
        (hw.trans ((hq.maps d hd _ hu).trans hsome).symm)
      exact ⟨hsame.wf (hq.wf hwf), hsame.refs (hq.refs hrefs)⟩
  refine ⟨t, ht, {
    toKeeps := hq.keeps.trans (keeps_store htt hd hu hrt hnew)
    wf := hwr.1, refs := hwr.2
    inv := tlbInv_store_unmarked htt hc hd hu hrt hnew hun hinv'
    entry := ?_, ptep := ?_ }⟩
  · rw [pte_store htt hd hu hrt hd hu, if_pos ⟨rfl, rfl⟩]
  · rw [ptep_store htt hd hu hrt hd, hrt]
    rfl

/-- `page_insert`, when it returns: with no frame left for a page table it does not. -/
theorem pageInsert_spec (hs : s.Good D held c) (hd : d ∈ D) (hu : (Vpage.of la).User)
    (hperm : perm &&& ~~~0x7#32 = 0) (hpage : DataFrame D s page)
    (h : s.pageInsert d page la perm = .ok t) :
    Inserted D held c d (Vpage.of la) (page2pa page ||| pteP ||| perm) s t := by
  obtain ⟨hwf, hrefs, hc, hcur, hinv⟩ := hs
  obtain ⟨hw, hnew⟩ := newEntry page hperm
  unfold pageInsert at h
  cases hget : s.getPte d la true with
  | error e =>
    rw [hget] at h
    cases h
  | ok p =>
    obtain ⟨o, s1⟩ := p
    obtain ⟨r, rfl, hr1, hgrown⟩ := getPte_create hwf hd hu hget
    rw [hget] at h
    dsimp only [bind, Except.bind] at h
    have hpage1 : DataFrame D s1 page :=
      ⟨hpage.lt, (hgrown.claimed page hpage.free hpage.data).1,
        (hgrown.claimed page hpage.free hpage.data).2⟩
    have hinv1 : TlbInv (s1.pte c) s1.mmu s1.algo := by
      rw [hgrown.rest]
      exact hinv.congr fun u hu' => hgrown.pte c hc u hu'
    have hkeeps1 : Keeps D s s1 := by
      refine ⟨fun d' hd' v' hv' _ => hgrown.pte d' hd' v' hv', ?_⟩
      rw [hgrown.rest]
    have hcur1 : s1.curPgdir = some c := hkeeps1.curPgdir.trans hcur
    have hrefs1 := hgrown.refs held hrefs
    have hinc := refs_inc page hrefs1
    have hwf2 : (s1.pageRefInc page).Wf D := hgrown.wf.of_mem rfl rfl
    have hr2 : (s1.pageRefInc page).ptep d (Vpage.of la) = some r := hr1
    have hkeeps2 : Keeps D s (s1.pageRefInc page) := ⟨hkeeps1.marked, hkeeps1.curPgdir⟩
    rw [show (s1.pageRefInc page).load r = s1.load r from rfl, load_of_ptep hr1] at h
    by_cases hp : s1.pte d (Vpage.of la) &&& pteP = 0
    · -- no page was mapped there
      rw [if_pos hp] at h
      obtain ⟨s4, h4, hins⟩ := insert_finish hwf2 hc hd hcur1 hinv1 hu hr2
        ⟨hpage1.lt, hpage1.free, hpage1.data⟩ hw hnew (.inl ⟨frameOf_eq_none.mpr hp, hinc⟩)
      dsimp only [pure, Except.pure] at h
      rw [h4] at h
      cases h
      exact { hins with toKeeps := hkeeps2.trans hins.toKeeps }
    · rw [if_neg hp] at h
      obtain ⟨g, hg⟩ : ∃ g, ppn (s1.pte d (Vpage.of la)) = g := ⟨_, rfl⟩
      have hframe : frameOf (s1.pte d (Vpage.of la)) = some g := frameOf_eq_some.mpr ⟨hp, hg⟩
      have hp2p : pte2page (s1.pte d (Vpage.of la)) = .ok g := by
        rw [pte2page, if_neg hp, hg, if_pos (hgrown.wf.mappedLt hd hu hframe)]
      rw [hp2p] at h
      dsimp only at h
      by_cases hgp : g = page
      · -- the same page again: the reference is given back
        subst hgp
        rw [if_pos rfl] at h
        have hback : (s1.pageRefInc g).pageRefDec g = s1 := by
          have href : update (update s1.ref g (s1.ref g + 1)) g
              (update s1.ref g (s1.ref g + 1) g - 1) = s1.ref := by
            rw [Function.update_idem, update_self, add_sub_cancel_right, Function.update_eq_self]
          simp only [pageRefInc, pageRefDec, setPageRef, href]
        rw [hback] at h
        obtain ⟨s4, h4, hins⟩ := insert_finish hgrown.wf hc hd hcur1 hinv1 hu hr1 hpage1 hw hnew
          (.inr ⟨hframe, hrefs1⟩)
        dsimp only [pure, Except.pure] at h
        rw [h4] at h
        cases h
        exact { hins with toKeeps := hkeeps1.trans hins.toKeeps }
      · -- another page is unmapped first
        rw [if_neg hgp] at h
        obtain ⟨s3, h3, hrem⟩ := pageRemovePte_spec ⟨hwf2, hinc, hc, hcur1, hinv1⟩ hd hu hr2
        rw [h3] at h
        dsimp only at h
        have hr3 : s3.ptep d (Vpage.of la) = some r := by
          rw [ptep, hrem.table d hd]
          exact hr1
        have hpage3 : DataFrame D s3 page := by
          refine ⟨hpage1.lt, hrem.claimed page hpage1.free ?_, ?_⟩
          · show frameOf (s1.pte d (Vpage.of la)) ≠ some page
            rw [hframe]
            exact fun h => hgp (Option.some.inj h)
          · rw [structural_congr hrem.table]
            exact hpage1.data
        obtain ⟨s4, h4, hins⟩ := insert_finish hrem.wf hc hd (hrem.curPgdir.trans hcur1) hrem.inv
          hu hr3 hpage3 hw hnew (.inl ⟨hrem.gone, hrem.refs⟩)
        rw [h4] at h
        cases h
        exact { hins with toKeeps := (hkeeps2.trans hrem.toKeeps).trans hins.toKeeps }

end Map

/-! ### The invariant of the running kernel -/

section Good

variable {D : Set Ppn} {s t : Vm} {c d : Ppn} {la : Word} {held : Ppn → Nat}

theorem Good.pageInsert (hs : s.Good D held c) (hd : d ∈ D) (hu : (Vpage.of la).User)
    (hperm : perm &&& ~~~0x7#32 = 0) (hpage : DataFrame D s page)
    (h : s.pageInsert d page la perm = .ok t) : t.Good D held c ∧ Keeps D s t := by
  have hins := pageInsert_spec hs hd hu hperm hpage h
  exact ⟨⟨hins.wf, hins.refs, hs.mem, hins.curPgdir.trans hs.cur, hins.inv⟩, hins.toKeeps⟩

/-- `page_remove` always returns. -/
theorem Good.pageRemove (hs : s.Good D held c) (hd : d ∈ D) (hu : (Vpage.of la).User) :
    ∃ t, s.pageRemove d la = .ok t ∧ t.Good D held c ∧ Keeps D s t := by
  unfold Vm.pageRemove
  rw [getPte_find hs.wf.toTables hd hu]
  cases hr : s.ptep d (Vpage.of la) with
  | none => exact ⟨s, rfl, hs, (Quiet.refl D s).keeps⟩
  | some r =>
    obtain ⟨t, ht, hrem⟩ := pageRemovePte_spec hs hd hu hr
    exact ⟨t, ht, ⟨hrem.wf, hrem.refs, hs.mem, hrem.curPgdir.trans hs.cur, hrem.inv⟩, hrem.toKeeps⟩

/-- The loop of `tlb_init` touches the TLB and its CP0 registers, and leaves the key
`ENTRYHI_INVALID` in every slot it has gone over. -/
theorem tlbInit_loop (l : List (Fin 16)) (s : Vm) :
    ∃ cp0 mmu, l.foldl (fun s i => s.tlbWrite i entryHiInvalid entryLoInvalid entryLoInvalid) s =
        { s with cp0 := cp0, mmu := mmu } ∧
      ∀ i, i ∈ l ∨ s.mmu.tlbKey i = entryHiInvalid → mmu.tlbKey i = entryHiInvalid := by
  induction l generalizing s with
  | nil => exact ⟨s.cp0, s.mmu, rfl, fun i hi => hi.resolve_left List.not_mem_nil⟩
  | cons j l ih =>
    obtain ⟨cp0, mmu, heq, hkey⟩ := ih (s.tlbWrite j entryHiInvalid entryLoInvalid entryLoInvalid)
    refine ⟨cp0, mmu, heq, fun i hi => hkey i ?_⟩
    by_cases hij : i = j
    · exact .inr (hij ▸ update_self ..)
    · rcases hi with hi | hi
      · exact .inl ((List.mem_cons.mp hi).resolve_left hij)
      · exact .inr ((update_of_ne hij ..).trans hi)

/-- `load_pgdir` empties the TLB. -/
theorem loadPgdir_eq (s : Vm) (d : Ppn) :
    ∃ cp0 mmu, s.loadPgdir d = { s with
        curPgdir := some d, cp0 := cp0, mmu := mmu
        algo := { s.algo with empty := fun i => i, n := 16 } } ∧
      ∀ i, mmu.tlbKey i = entryHiInvalid := by
  obtain ⟨cp0, mmu, heq, hkey⟩ := tlbInit_loop (List.finRange 16) { s with curPgdir := some d }
  refine ⟨cp0, mmu, ?_, fun i => hkey i (.inl (List.mem_finRange i))⟩
  unfold Vm.loadPgdir tlbInit
  rw [heq]
  rfl

theorem loadPgdir_pte (s : Vm) (d : Ppn) : (s.loadPgdir d).pte = s.pte := by
  obtain ⟨cp0, mmu, heq, -⟩ := loadPgdir_eq s d
  rw [heq]
  rfl

/-- That is right for a directory without marks. -/
theorem Good.loadPgdir (hwf : s.Wf D) (hrefs : s.Refs D held) (hd : d ∈ D)
    (hun : ∀ v : Vpage, v.User → ¬Marked (s.pte d v)) : (s.loadPgdir d).Good D held d := by
  obtain ⟨cp0, mmu, heq, hkey⟩ := loadPgdir_eq s d
  rw [heq]
  have hidle : ∀ i, i ∉ usedSlots { s.algo with empty := fun i => i, n := 16 } :=
    fun i hi => hi i i.isLt rfl
  exact {
    wf := hwf.of_mem rfl rfl
    refs := hrefs
    mem := hd
    cur := rfl
    inv := {
      held := ⟨fun i hi => absurd hi (hidle i), fun v hv hm => absurd hm (hun v hv)⟩
      stack := fun _ _ _ _ h => h
      idle := fun i _ => hkey i } }

end Good

end Vm

end UcoreMips.Kernel
