import UcoreMips.Kernel.Mm.AddressSpace
import UcoreMips.Kernel.Mm.PageTable

/-!
# UcoreMips.Kernel.Mm.FrameCounts

**Reference counts are exact.** Over any set `D` of page directories, whose user parts are
empty at first, `page_insert`, `page_remove`, `pgdir_alloc_page`, `unmap_range` and `copy_range`
keep the reference count of every frame at the number of entries that map it, and a frame goes
back to the free list in the step that takes its last mapping (`frame_counts_exact`).

`unmap_range` and `copy_range` may free a frame and allocate it again on their way, so the steps
are the turns of their loops.
-/

namespace UcoreMips.Kernel

open UcoreMips.Lib
open Emulator (Word)
open Function (update update_of_ne update_self update_apply)

namespace Vm

variable {D : Set Ppn} {s t u : Vm} {d g page dst : Ppn} {la w perm stop start : Word} {v : Vpage}
  {r : PteRef} {o : Option PteRef} {R : Vm → Vm → Prop}
  {turn : Vm → Word → Except Stop (Option Word × Vm)} {b : Bool}

/-! ### Frames that become free -/

/-- The frames that became free are those that lost their last mapping. -/
def Freed (D : Set Ppn) (s t : Vm) : Prop :=
  ∀ f, s.free f = false ∧ t.free f = true ↔ (mappings D s f).Nonempty ∧ mappings D t f = ∅

/-- No frame lost a mapping, and none became free. -/
theorem freed_of_subset (hmap : ∀ f, mappings D s f ⊆ mappings D t f)
    (hfree : ∀ f, t.free f = true → s.free f = true) : Freed D s t := by
  intro f
  constructor
  · rintro ⟨hs, ht⟩
    rw [hfree f ht] at hs
    cases hs
  · rintro ⟨⟨k, hk⟩, hempty⟩
    have hk' := hmap f hk
    rw [hempty] at hk'
    exact hk'.elim

/-- The mapping of one page removed, with the reference given back. -/
theorem Remap.freed {held : Ppn → Nat} (h : Remap D s t d v none) (hwf : s.Wf D)
    (hr : s.Refs D held) (hheld : held g = 0) (hd : d ∈ D) (hv : v.User) (hg : frameOf (s.pte d v) = some g)
    (hfree : t.free = if s.ref g - 1 = 0 then update s.free g true else s.free) :
    Freed D s t := by
  have hmem : (d, v) ∈ mappings D s g := ⟨hd, hv, hg⟩
  have hcount : (mappings D t g).ncard + 1 = (mappings D s g).ncard := by
    rw [h.mappings_none, Set.ncard_sdiff_singleton_add_one hmem (Set.toFinite _)]
  have href := hr g (hwf.mappedNot hd hv hg)
  have hlast : s.ref g - 1 = 0 ↔ mappings D t g = ∅ := by
    rw [← Set.ncard_eq_zero (Set.toFinite _)]
    omega
  intro f
  by_cases hfg : f = g
  · subst hfg
    rw [hfree, ← hlast]
    by_cases hzero : s.ref f - 1 = 0
    · rw [if_pos hzero, update_self]
      exact ⟨fun _ => ⟨⟨_, hmem⟩, hzero⟩, fun _ => ⟨hwf.mappedFree hd hv hg, rfl⟩⟩
    · rw [if_neg hzero]
      constructor
      · rintro ⟨hs, ht⟩
        rw [hs] at ht
        cases ht
      · exact fun hf => absurd hf.2 hzero
  · have hsame : mappings D t f = mappings D s f := by
      have hnot : (d, v) ∉ mappings D s f := fun hf =>
        hfg (Option.some.inj (hf.2.2.symm.trans hg))
      rw [h.mappings_none, Set.sdiff_singleton_eq_self hnot]
    have hfree' : t.free f = s.free f := by
      rw [hfree]
      split
      · exact update_of_ne hfg _ _
      · rfl
    rw [hsame, hfree']
    constructor
    · rintro ⟨hs, ht⟩
      rw [hs] at ht
      cases ht
    · rintro ⟨hne, hempty⟩
      exact absurd hempty hne.ne_empty

/-! ### Unmapping and mapping -/

/-- Reference counts are those of the mappings. -/
structure Exact (D : Set Ppn) (s : Vm) : Prop extends Wf D s where
  refs : s.Refs D fun _ => 0

theorem remap_store (hwf : s.Tables D) (hd : d ∈ D) (hv : v.User) (hr : s.ptep d v = some r) :
    Remap D s (s.store r w) d v (frameOf w) := by
  refine ⟨fun d' hd' x => table_store hwf hd hv hr hd' x, fun d' hd' v' hv' => ?_⟩
  rw [pte_store hwf hd hv hr hd' hv']
  split
  · rfl
  · rfl

/-- The entry of a page cleared, and the reference given back. -/
theorem remap_drop (ht : s.Tables D) (hd : d ∈ D) (hv : v.User) (hr : s.ptep d v = some r) :
    Remap D s ((s.dropRef g).store r 0) d v none := by
  have hmem : ((s.dropRef g).store r 0).mem = (s.store r 0).mem := by
    simp only [store, dropRef_mem]
  have hstore := remap_store (w := 0) ht hd hv hr
  refine ⟨fun d' hd' x => ?_, fun d' hd' v' hv' => ?_⟩
  · rw [← hstore.table d' hd', table, table, hmem]
  · rw [pte_of_mem hmem, hstore.maps d' hd' v' hv', frameOf_zero]

/-- The end of `page_remove_pte`. -/
theorem Exact.unmapEntry (h : Exact D s) (hd : d ∈ D) (hv : v.User) (hr : s.ptep d v = some r)
    (hg : frameOf (s.pte d v) = some g) :
    Exact D ((s.dropRef g).store r 0) ∧ Freed D s ((s.dropRef g).store r 0) := by
  have hremap := remap_drop (g := g) h.toTables hd hv hr
  obtain ⟨hwf', hrefs'⟩ :=
    hremap.unmap h.toWf h.refs hd hv hg (dropRef_ref s g) (dropRef_free s g)
  exact ⟨⟨hwf', hrefs'⟩, hremap.freed h.toWf h.refs rfl hd hv hg (dropRef_free s g)⟩

/-- The end of `page_insert`. -/
theorem Exact.mapEntry (h : Exact D s) (hd : d ∈ D) (hv : v.User) (hr : s.ptep d v = some r)
    (hpage : DataFrame D s page) (hw : frameOf w = some page) :
    Exact D (s.mapEntry r page w) ∧ Freed D s (s.mapEntry r page w) := by
  have hinc := refs_inc page h.refs
  have hwf1 : (s.pageRefInc page).Wf D := h.toWf.of_mem rfl rfl
  unfold Vm.mapEntry
  rw [load_of_ptep hr]
  cases hg : frameOf (s.pte d v) with
  | none =>
    have hremap : Remap D (s.pageRefInc page) ((s.pageRefInc page).store r w) d v (some page) :=
      hw ▸ remap_store hwf1.toTables hd hv hr
    obtain ⟨hwf', hrefs'⟩ :=
      hremap.map hwf1 hinc hd hv hg hpage.data hpage.lt hpage.free rfl rfl
    refine ⟨⟨hwf', hrefs'⟩, freed_of_subset (fun f => ?_) fun f hf => hf⟩
    rw [hremap.mappings_some hd hv hg]
    split
    · exact Set.subset_insert _ _
    · exact subset_rfl
  | some g =>
    dsimp only
    by_cases hgp : g = page
    · rw [if_pos hgp]
      have hsame := sameFrames_store (w := w) h.toTables hd hv hr (by rw [hw, hg, hgp])
      exact ⟨⟨hsame.wf h.toWf, hsame.refs h.refs⟩,
        freed_of_subset (fun f => (hsame.mappings f).ge) fun f hf => hf⟩
    · rw [if_neg hgp, ← store_store _ r 0 w]
      obtain ⟨s1, hs1⟩ : ∃ s1, s1 = s.pageRefInc page := ⟨_, rfl⟩
      have hr1 : s1.ptep d v = some r := hs1 ▸ hr
      have hg1 : frameOf (s1.pte d v) = some g := hs1 ▸ hg
      have hpage1 : DataFrame D s1 page := hs1 ▸ ⟨hpage.lt, hpage.free, hpage.data⟩
      rw [← hs1] at hinc hwf1 ⊢
      -- the old mapping goes first
      have hdrop := remap_drop (g := g) hwf1.toTables hd hv hr1
      obtain ⟨hwf2, hrefs2⟩ := hdrop.unmap hwf1 hinc hd hv hg1 (dropRef_ref s1 g) (dropRef_free s1 g)
      have hfreed := hdrop.freed hwf1 hinc (by rw [if_neg hgp]) hd hv hg1 (dropRef_free s1 g)
      obtain ⟨s2, hs2⟩ : ∃ s2, s2 = (s1.dropRef g).store r 0 := ⟨_, rfl⟩
      rw [← hs2] at hdrop hwf2 hrefs2 hfreed ⊢
      have hr2 : s2.ptep d v = some r := by
        rw [ptep, hdrop.table d hd]
        exact hr1
      have hnone2 : frameOf (s2.pte d v) = none := by
        rw [hdrop.maps d hd v hv, if_pos ⟨rfl, rfl⟩]
      have hpage2 : DataFrame D s2 page := by
        refine ⟨hpage1.lt, ?_, (structural_congr hdrop.table).not.mpr hpage1.data⟩
        rw [← Bool.not_eq_true, hs2]
        intro hf
        rcases dropRef_free_true hf with hf | heq
        · rw [hpage1.free] at hf
          cases hf
        · exact hgp heq.symm
      have hremap : Remap D s2 (s2.store r w) d v (some page) :=
        hw ▸ remap_store hwf2.toTables hd hv hr2
      obtain ⟨hwf3, hrefs3⟩ :=
        hremap.map hwf2 hrefs2 hd hv hnone2 hpage2.data hpage2.lt hpage2.free rfl rfl
      refine ⟨⟨hwf3, hrefs3⟩, fun f => ?_⟩
      rw [hremap.mappings_some hd hv hnone2]
      by_cases hfp : f = page
      · subst hfp
        rw [if_pos rfl]
        constructor
        · rintro ⟨-, ht⟩
          rw [show (s2.store r w).free f = s2.free f from rfl, hpage2.free] at ht
          cases ht
        · rintro ⟨-, hempty⟩
          exact absurd hempty (Set.insert_nonempty _ _).ne_empty
      · rw [if_neg hfp]
        subst hs1
        exact hfreed f

/-! ### Taking frames -/

/-- The step took frames that were free, for page tables or for the caller, and changed no
entry. -/
structure Took (D : Set Ppn) (s t : Vm) : Prop extends Grown D s t where
  free : ∀ f, t.free f = true → s.free f = true

theorem Took.refl (hwf : s.Wf D) : Took D s s := ⟨Grown.refl hwf, fun _ hf => hf⟩

theorem Took.trans (h : Took D s t) (h' : Took D t u) : Took D s u where
  wf := h'.wf
  refs held hr := h'.refs held (h.refs held hr)
  pte d hd v hv := (h'.pte d hd v hv).trans (h.pte d hd v hv)
  rest := by
    rw [h'.rest, h.rest]
  claimed f hf hs :=
    h'.claimed f (h.claimed f hf hs).1 (h.claimed f hf hs).2
  free f hf := h.free f (h'.free f hf)

theorem Took.exact (h : Took D s t) (hs : Exact D s) : Exact D t := ⟨h.wf, h.refs _ hs.refs⟩

theorem Took.mappings (h : Took D s t) (f : Ppn) : mappings D t f = mappings D s f := by
  ext ⟨d, v⟩
  refine and_congr_right fun hd => and_congr_right fun hv => ?_
  rw [h.pte d hd v hv]

theorem Took.dataFrame (h : Took D s t) (hpage : DataFrame D s page) : DataFrame D t page :=
  ⟨hpage.lt, (h.claimed page hpage.free hpage.data).1, (h.claimed page hpage.free hpage.data).2⟩

/-- A step that ends by freeing frames. -/
theorem Took.freed (h : Took D s t) (hs : Exact D s) (hf : Freed D t u) : Freed D s u := by
  intro f
  rw [← h.mappings f, ← hf f]
  constructor
  · rintro ⟨hsf, huf⟩
    refine ⟨?_, huf⟩
    rw [← Bool.not_eq_true]
    intro htf
    rw [h.free f htf] at hsf
    cases hsf
  · rintro ⟨htf, huf⟩
    -- what becomes free was mapped
    obtain ⟨⟨k, hk⟩, -⟩ := (hf f).mp ⟨htf, huf⟩
    rw [h.mappings f] at hk
    exact ⟨hs.mappedFree hk.1 hk.2.1 hk.2.2, huf⟩

theorem free_of_update {free : Ppn → Bool} {f : Ppn}
    (h : update free page false f = true) : free f = true := by
  rw [update_apply] at h
  split at h
  · cases h
  · exact h

theorem getPte_took (hwf : s.Wf D) (hd : d ∈ D) (hu : (Vpage.of la).User)
    (h : s.getPte d la true = .ok (o, t)) :
    ∃ r, o = some r ∧ t.ptep d (Vpage.of la) = some r ∧ Took D s t := by
  obtain ⟨r, rfl, hr, hgrown⟩ := getPte_create hwf hd hu h
  refine ⟨r, rfl, hr, hgrown, fun f hf => ?_⟩
  obtain ⟨g, -, -, rfl | ⟨-, -, -, rfl⟩⟩ := getPte_cases hwf.guarded hd hu h
  · exact hf
  · exact free_of_update hf

/-- `alloc_page`: the frame is the caller's. -/
theorem allocPage_took (hwf : s.Wf D) (h : s.allocPage = .ok (some page, t)) :
    Took D s t ∧ DataFrame D t page ∧ s.free page = true := by
  obtain ⟨hfree, hlt, rfl⟩ := allocPage_some h
  have hdata : ¬Structural D s page := by
    intro hs
    rw [hwf.structural hs] at hfree
    cases hfree
  have hkeep : ∀ f, s.free f = false → update s.free page false f = false := by
    intro f hf
    rw [update_apply]
    split
    · rfl
    · exact hf
  refine ⟨⟨⟨?_, fun _ hr => hr, fun _ _ _ _ => rfl, rfl, ?_⟩, ?_⟩, ⟨hlt, ?_, hdata⟩, hfree⟩
  · exact { toTables := hwf.toTables.of_table fun _ _ _ => rfl
            structural := fun hf => hkeep _ (hwf.structural hf)
            mappedLt := hwf.mappedLt
            mappedNot := hwf.mappedNot
            mappedFree := fun hd hv hf => hkeep _ (hwf.mappedFree hd hv hf) }
  · exact fun f hf hs => ⟨hkeep f hf, hs⟩
  · exact fun f hf => free_of_update hf
  · exact update_self ..

/-- Filling a frame that holds no table. -/
def fill (s : Vm) (page : Ppn) (c : BitVec 10 → Word) : Vm :=
  { s with mem := update s.mem page c }

theorem fill_table (hdata : ¬Structural D s page) (c : BitVec 10 → Word) (hd : d ∈ D)
    (x : BitVec 10) : (s.fill page c).table d x = s.table d x := by
  have hne : d ≠ page := fun h => hdata (.inl (h ▸ hd))
  simp only [table, fill, update_of_ne hne]

theorem fill_pte (hdata : ¬Structural D s page) (c : BitVec 10 → Word) (hd : d ∈ D) (hv : v.User) :
    (s.fill page c).pte d v = s.pte d v := by
  simp only [pte, fill_table hdata c hd]
  cases ht : s.table d v.pdx with
  | none => rfl
  | some f =>
    have hne : f ≠ page := fun h => hdata (.inr ⟨d, hd, _, hv.pdx_lt, h ▸ ht⟩)
    simp only [fill, update_of_ne hne]

theorem fill_took (hwf : s.Wf D) (hdata : ¬Structural D s page) (c : BitVec 10 → Word) :
    Took D s (s.fill page c) := by
  have hsame : SameFrames D s (s.fill page c) :=
    ⟨fun d hd x => fill_table hdata c hd x,
      fun d hd v hv => by rw [fill_pte hdata c hd hv], rfl, rfl⟩
  exact { wf := hsame.wf hwf
          refs := fun _ hr => hsame.refs hr
          pte := fun d hd v hv => fill_pte hdata c hd hv
          rest := rfl
          claimed := fun f hf hs => ⟨hf, mt hsame.structural.mp hs⟩
          free := fun _ hf => hf }

/-! ### Steps -/

/-- The counts are exact, and no page is in the TLB. -/
structure Counted (D : Set Ppn) (s : Vm) : Prop extends Exact D s where
  unmarked : ∀ {d v}, d ∈ D → v.User → ¬Marked (s.pte d v)

theorem Took.counted (h : Took D s t) (hs : Counted D s) : Counted D t :=
  ⟨h.exact hs.toExact, fun hd hv => h.pte _ hd _ hv ▸ hs.unmarked hd hv⟩

section Counted

variable (h : Counted D s) (hd : d ∈ D) (hu : (Vpage.of la).User)

include h hd hu

theorem Counted.pageRemovePte (hr : s.ptep d (Vpage.of la) = some r) :
    ∃ t, s.pageRemovePte d la r = .ok t ∧ Counted D t ∧ Freed D s t := by
  cases hg : frameOf (s.pte d (Vpage.of la)) with
  | none =>
    exact ⟨s, pageRemovePte_absent hr hg, h, freed_of_subset (fun _ => subset_rfl) fun _ hf => hf⟩
  | some g =>
    have hin : s.Inert d (Vpage.of la) := .inr (h.unmarked hd hu)
    obtain ⟨hexact, hfreed⟩ := h.toExact.unmapEntry hd hu hr hg
    refine ⟨_, pageRemovePte_present h.toTables hd hu hin hr hg (h.mappedLt hd hu hg),
      ⟨hexact, fun {d' v'} hd' hv' => ?_⟩, hfreed⟩
    have hmem : ((s.dropRef g).store r 0).mem = (s.store r 0).mem := by
      simp only [store, dropRef_mem]
    rw [pte_of_mem hmem, pte_store h.toTables hd hu hr hd' hv']
    split
    · exact not_marked_zero
    · exact h.unmarked hd' hv'

theorem Counted.pageRemove :
    ∃ t, s.pageRemove d la = .ok t ∧ Counted D t ∧ Freed D s t := by
  unfold Vm.pageRemove
  rw [getPte_find h.toTables hd hu]
  cases hr : s.ptep d (Vpage.of la) with
  | none => exact ⟨s, rfl, h, freed_of_subset (fun _ => subset_rfl) fun _ hf => hf⟩
  | some r => exact h.pageRemovePte hd hu hr

/-- `page_insert`, after `get_pte` returned. -/
theorem Counted.pageInsert (hperm : perm &&& ~~~0x7#32 = 0) (hpage : DataFrame D s page)
    (hget : s.getPte d la true = .ok (o, t)) :
    ∃ t', s.pageInsert d page la perm = .ok t' ∧ Counted D t' ∧ Freed D s t' ∧
      frameOf (t'.pte d (Vpage.of la)) = some page := by
  obtain ⟨hw, hnew⟩ := newEntry page hperm
  obtain ⟨r, rfl, hr, htook⟩ := getPte_took h.toWf hd hu hget
  have ht := htook.counted h
  obtain ⟨hexact, hfreed⟩ := ht.toExact.mapEntry hd hu hr (htook.dataFrame hpage) hw
  refine ⟨_, pageInsert_eq hget ht.toTables hd hu (.inr (ht.unmarked hd hu)) hr
    fun g hg => ht.mappedLt hd hu hg, ⟨hexact, fun {d' v'} hd' hv' => ?_⟩,
    htook.freed h.toExact hfreed, ?_⟩
  · rw [mapEntry_pte ht.toTables hd hu hr hd' hv']
    split
    · exact hnew
    · exact ht.unmarked hd' hv'
  · rw [mapEntry_pte ht.toTables hd hu hr hd hu, if_pos ⟨rfl, rfl⟩, hw]

/-- Inserting a page where it is mapped already. -/
theorem Counted.pageInsert_again (hmap : frameOf (s.pte d (Vpage.of la)) = some page) :
    ∃ t, s.pageInsert d page la perm = .ok t ∧ t.ref = s.ref ∧ t.free = s.free := by
  cases hf : s.table d (pdx la) with
  | none =>
    rw [pte, Vpage.of_pdx, hf, frameOf_zero] at hmap
    cases hmap
  | some f =>
    have hr := ptep_of_table hf
    refine ⟨_, pageInsert_eq (getPte_have h.toTables hd hu hf true) h.toTables hd hu
      (.inr (h.unmarked hd hu)) hr fun g hg => h.mappedLt hd hu hg, ?_⟩
    unfold Vm.mapEntry
    rw [load_of_ptep hr, hmap]
    dsimp only
    rw [if_pos rfl]
    exact ⟨rfl, rfl⟩

theorem Counted.pageInsert_ok (hperm : perm &&& ~~~0x7#32 = 0) (hpage : DataFrame D s page)
    (heq : s.pageInsert d page la perm = .ok t) : Counted D t ∧ Freed D s t := by
  obtain ⟨⟨o, s1⟩, hget, -⟩ := bind_eq_ok.mp heq
  obtain ⟨t', ht', hcounted, hfreed, -⟩ := h.pageInsert hd hu hperm hpage hget
  cases heq.symm.trans ht'
  exact ⟨hcounted, hfreed⟩

theorem Counted.pgdirAllocPage {o : Option Ppn} (hperm : perm &&& ~~~0x7#32 = 0)
    (heq : s.pgdirAllocPage d la perm = .ok (o, t)) : Counted D t ∧ Freed D s t := by
  obtain ⟨⟨a, s1⟩, ha, heq⟩ := bind_eq_ok.mp heq
  cases a with
  | none =>
    cases heq
    rw [allocPage_none ha]
    exact ⟨h, freed_of_subset (fun _ => subset_rfl) fun _ hf => hf⟩
  | some page =>
    obtain ⟨s2, hins, heq⟩ := bind_eq_ok.mp heq
    cases heq
    obtain ⟨htook, hdata, -⟩ := allocPage_took h.toWf ha
    obtain ⟨hcounted, hfreed⟩ := (htook.counted h).pageInsert_ok hd hu hperm hdata hins
    exact ⟨hcounted, htook.freed h.toExact hfreed⟩

theorem Counted.unmapTurn :
    ∃ o t, Vm.unmapTurn d s la = .ok (some o, t) ∧ Counted D t ∧ Freed D s t := by
  unfold Vm.unmapTurn
  rw [getPte_find h.toTables hd hu]
  cases hr : s.ptep d (Vpage.of la) with
  | none => exact ⟨_, s, rfl, h, freed_of_subset (fun _ => subset_rfl) fun _ hf => hf⟩
  | some r =>
    dsimp only [ok_bind]
    split
    · obtain ⟨t, ht, hcounted, hfreed⟩ := h.pageRemovePte hd hu hr
      rw [ht]
      exact ⟨_, t, rfl, hcounted, hfreed⟩
    · exact ⟨_, s, rfl, h, freed_of_subset (fun _ => subset_rfl) fun _ hf => hf⟩

end Counted

/-- `copy_range` where a page is present: it is copied to a frame of its own. -/
theorem copyPage_ok {o : Option Word} (hwf : s.Wf D) (hd : dst ∈ D)
    (hu : (Vpage.of la).User) (heq : s.copyPage dst r la = .ok (o, t)) :
    ∃ s1 s2 page new, (∃ r', s.getPte dst la true = .ok (some r', s1)) ∧
      s1.allocPage = .ok (some new, s2) ∧
      (s2.fill new (s2.mem page)).pageInsert dst new la (s1.load r &&& pteUser) = .ok t := by
  obtain ⟨⟨r', s1⟩, hget, heq⟩ := bind_eq_ok.mp heq
  obtain ⟨r', rfl, -⟩ := getPte_took hwf hd hu hget
  obtain ⟨page, -, heq⟩ := bind_eq_ok.mp heq
  obtain ⟨⟨new, s2⟩, ha, heq⟩ := bind_eq_ok.mp heq
  cases new with
  | none => cases heq
  | some new =>
    obtain ⟨s3, hins, heq⟩ := bind_eq_ok.mp heq
    cases heq
    exact ⟨s1, s2, page, new, ⟨r', hget⟩, ha, hins⟩

theorem Counted.copyTurn {o : Option Word} {src : Ppn} (h : Counted D s) (hdst : dst ∈ D)
    (hsrc : src ∈ D) (hu : (Vpage.of la).User) (heq : Vm.copyTurn dst src s la = .ok (o, t)) :
    Counted D t ∧ Freed D s t := by
  unfold Vm.copyTurn at heq
  rw [getPte_find h.toTables hsrc hu] at heq
  cases hr : s.ptep src (Vpage.of la) with
  | none =>
    rw [hr] at heq
    cases heq
    exact ⟨h, freed_of_subset (fun _ => subset_rfl) fun _ hf => hf⟩
  | some r =>
    rw [hr] at heq
    dsimp only [ok_bind] at heq
    split at heq
    · cases heq
      exact ⟨h, freed_of_subset (fun _ => subset_rfl) fun _ hf => hf⟩
    · obtain ⟨s1, s2, page, new, ⟨r', hget⟩, ha, hins⟩ := copyPage_ok h.toWf hdst hu heq
      obtain ⟨-, -, -, htook1⟩ := getPte_took h.toWf hdst hu hget
      obtain ⟨htook2, hdata, -⟩ := allocPage_took htook1.wf ha
      have htook3 := fill_took htook2.wf hdata.data (s2.mem page)
      have htook := (htook1.trans htook2).trans htook3
      obtain ⟨hcounted, hfreed⟩ := (htook.counted h).pageInsert_ok hdst hu
        (by rw [BitVec.and_assoc]; exact BitVec.and_zero) (htook3.dataFrame hdata) hins
      exact ⟨hcounted, htook.freed h.toExact hfreed⟩

/-! ### Runs -/

/-- A step of the kernel: a call of `alloc_page`, `page_insert` of an allocated frame,
`page_remove` or `pgdir_alloc_page`, or a turn of `unmap_range` or `copy_range`, at a user
address in directories of `D`. -/
inductive FrameStep (D : Set Ppn) : Vm → Vm → Prop
  | allocPage {s t : Vm} {page : Ppn} (h : s.allocPage = .ok (some page, t)) : FrameStep D s t
  | pageInsert {s t : Vm} {d page : Ppn} {la perm : Word} (hd : d ∈ D) (hla : la < userTop)
      (hperm : perm &&& ~~~0x7#32 = 0) (hpage : DataFrame D s page)
      (h : s.pageInsert d page la perm = .ok t) : FrameStep D s t
  | pageRemove {s t : Vm} {d : Ppn} {la : Word} (hd : d ∈ D) (hla : la < userTop)
      (h : s.pageRemove d la = .ok t) : FrameStep D s t
  | pgdirAllocPage {s t : Vm} {d : Ppn} {la perm : Word} {o : Option Ppn} (hd : d ∈ D)
      (hla : la < userTop) (hperm : perm &&& ~~~0x7#32 = 0)
      (h : s.pgdirAllocPage d la perm = .ok (o, t)) : FrameStep D s t
  | unmapTurn {s t : Vm} {d : Ppn} {la : Word} {o : Option Word} (hd : d ∈ D)
      (hla : la < userTop) (h : unmapTurn d s la = .ok (o, t)) : FrameStep D s t
  | copyTurn {s t : Vm} {dst src : Ppn} {la : Word} {o : Option Word} (hdst : dst ∈ D)
      (hsrc : src ∈ D) (hla : la < userTop) (h : copyTurn dst src s la = .ok (o, t)) :
      FrameStep D s t

theorem Counted.step (h : Counted D s) (hst : FrameStep D s t) : Counted D t ∧ Freed D s t := by
  cases hst with
  | allocPage ha =>
    obtain ⟨htook, -⟩ := allocPage_took h.toWf ha
    exact ⟨htook.counted h, freed_of_subset (fun f => (htook.mappings f).ge) htook.free⟩
  | pageInsert hd hla hperm hpage heq =>
    exact h.pageInsert_ok hd ((Vpage.user_of _).mpr hla) hperm hpage heq
  | pageRemove hd hla heq =>
    obtain ⟨t', ht', hres⟩ := h.pageRemove hd ((Vpage.user_of _).mpr hla)
    cases heq.symm.trans ht'
    exact hres
  | pgdirAllocPage hd hla hperm heq =>
    exact h.pgdirAllocPage hd ((Vpage.user_of _).mpr hla) hperm heq
  | unmapTurn hd hla heq =>
    obtain ⟨o, t', ht', hres⟩ := h.unmapTurn hd ((Vpage.user_of _).mpr hla)
    cases heq.symm.trans ht'
    exact hres
  | copyTurn hdst hsrc hla heq =>
    exact h.copyTurn hdst hsrc ((Vpage.user_of _).mpr hla) heq

/-- A call: a step, or one of the functions that go over a range. -/
inductive FrameCall (D : Set Ppn) : Vm → Vm → Prop
  | step {s t : Vm} (h : FrameStep D s t) : FrameCall D s t
  | unmapRange {s t : Vm} {d : Ppn} {start stop : Word} {fuel : Nat} {b : Bool} (hd : d ∈ D)
      (h : s.unmapRange fuel d start stop = .ok (b, t)) : FrameCall D s t
  | copyRange {s t : Vm} {dst src : Ppn} {start stop : Word} {fuel : Nat} {b : Bool}
      (hdst : dst ∈ D) (hsrc : src ∈ D) (h : s.copyRange fuel dst src start stop = .ok (b, t)) :
      FrameCall D s t

/-- A loop over a range takes its turns at user addresses. -/
theorem rangeLoop_turns (hturn : ∀ {s la o t}, la < userTop → turn s la = .ok (o, t) → R s t)
    (hstop : stop ≤ userTop) (fuel : Nat) (hstart : start < userTop)
    (h : rangeLoop turn stop fuel s start = .ok (b, t)) : Relation.ReflTransGen R s t := by
  induction fuel generalizing s start with
  | zero => cases h
  | succ fuel ih =>
    obtain ⟨⟨o, s1⟩, h1, h⟩ := bind_eq_ok.mp h
    have hfirst := hturn hstart h1
    cases o with
    | none =>
      cases h
      exact .single hfirst
    | some next =>
      dsimp only at h
      split at h
      · rename_i hnext
        exact .head hfirst (ih (Nat.lt_of_lt_of_le hnext.2 hstop) h)
      · cases h
        exact .single hfirst

theorem overRange_turns
    (hturn : ∀ {s la o t}, la < userTop → turn s la = .ok (o, t) → R s t) {fuel : Nat}
    (h : overRange turn fuel s start stop = .ok (b, t)) : Relation.ReflTransGen R s t := by
  unfold overRange at h
  split at h
  · cases h
  · split at h
    · cases h
    · rename_i hacc
      simp only [userAccess, decide_eq_true_eq, not_not] at hacc
      exact rangeLoop_turns hturn hacc.2.2 fuel (Nat.lt_of_lt_of_le hacc.2.1 hacc.2.2) h

theorem FrameCall.steps (h : FrameCall D s t) : Relation.ReflTransGen (FrameStep D) s t := by
  cases h with
  | step h => exact .single h
  | unmapRange hd h => exact overRange_turns (fun hla heq => .unmapTurn hd hla heq) h
  | copyRange hdst hsrc h => exact overRange_turns (fun hla heq => .copyTurn hdst hsrc hla heq) h

/-- Before the first mapping: the user parts of the directories are empty, and no frame has a
reference. -/
structure Unmapped (D : Set Ppn) (s : Vm) : Prop where
  dirs : ∀ d ∈ D, EmptyDir d s
  ref : ∀ f ∉ D, s.ref f = 0

theorem Unmapped.counted (h : Unmapped D s) : Counted D s := by
  have htable : ∀ {d x f}, d ∈ D → x.toNat < 512 → s.table d x ≠ some f := by
    intro d x f hd hx heq
    rw [(h.dirs d hd).table hx] at heq
    cases heq
  have hpte : ∀ {d v}, d ∈ D → v.User → s.pte d v = 0 := fun hd hv => by
    rw [pte, (h.dirs _ hd).table hv.pdx_lt]
  have hmaps : ∀ {d v f}, d ∈ D → v.User → frameOf (s.pte d v) ≠ some f := by
    intro d v f hd hv hf
    rw [hpte hd hv, frameOf_zero] at hf
    cases hf
  have hempty : ∀ f, mappings D s f = ∅ := fun f =>
    Set.eq_empty_of_forall_notMem fun k hk => hmaps hk.1 hk.2.1 hk.2.2
  refine ⟨⟨⟨⟨fun hd hx hf => absurd hf (htable hd hx), fun hd hx hf => absurd hf (htable hd hx),
    fun hd _ hx _ hf _ => absurd hf (htable hd hx)⟩, ?_, fun hd hv hf => absurd hf (hmaps hd hv),
    fun hd hv hf => absurd hf (hmaps hd hv), fun hd hv hf => absurd hf (hmaps hd hv)⟩, ?_⟩, ?_⟩
  · rintro f (hf | ⟨d, hd, x, hx, hf⟩)
    · exact (h.dirs f hf).1
    · exact absurd hf (htable hd hx)
  · intro f hf
    rw [h.ref f fun hD => hf (.inl hD), hempty, Set.ncard_empty]
    rfl
  · intro d v hd hv
    rw [hpte hd hv]
    exact not_marked_zero

theorem Unmapped.run {s₀ : Vm} (h : Unmapped D s₀)
    (hs : Relation.ReflTransGen (FrameStep D) s₀ s) : Counted D s := by
  induction hs with
  | refl => exact h.counted
  | tail _ hst ih => exact (ih.step hst).1

/-- **Reference counts are exact.** In every state that steps lead to, over any set of
directories whose user parts were empty:
* a mapped frame has a reference for each entry that maps it, and is not free;
* the frames a step frees are those whose last mapping it took;
* the calls are made of such steps;
* inserting a page where it is mapped already changes no count. -/
theorem frame_counts_exact {s₀ : Vm} (h : Unmapped D s₀)
    (hs : Relation.ReflTransGen (FrameStep D) s₀ s) :
    (∀ f, (mappings D s f).Nonempty → s.ref f = (mappings D s f).ncard ∧ s.free f = false) ∧
    (∀ t, FrameStep D s t → ∀ f, s.free f = false ∧ t.free f = true ↔
      (mappings D s f).Nonempty ∧ mappings D t f = ∅) ∧
    (∀ t, FrameCall D s t → Relation.ReflTransGen (FrameStep D) s t) ∧
    ∀ d ∈ D, ∀ la < userTop, ∀ page perm, frameOf (s.pte d (Vpage.of la)) = some page →
      ∃ t, s.pageInsert d page la perm = .ok t ∧ t.ref = s.ref ∧ t.free = s.free := by
  have hc := h.run hs
  refine ⟨fun f hf => ?_, fun t hst => (hc.step hst).2, fun t hst => hst.steps,
    fun d hd la hla page perm hmap => hc.pageInsert_again hd ((Vpage.user_of la).mpr hla) hmap⟩
  obtain ⟨k, hd, hv, hk⟩ := hf
  refine ⟨?_, hc.mappedFree hd hv hk⟩
  rw [hc.refs f (hc.mappedNot hd hv hk)]
  simp

theorem cleared_unmapped : Unmapped {1, 2} cleared :=
  ⟨fun d hd => ⟨by rcases hd with rfl | rfl <;> decide, fun _ _ => rfl⟩, fun _ _ => rfl⟩

theorem cleared_dataFrame : DataFrame {1, 2} cleared 3 := by
  refine ⟨by decide, by decide, ?_⟩
  rintro (hs | ⟨d, -, x, -, hs⟩)
  · rcases hs with hs | hs
    · exact absurd hs (by decide)
    · exact absurd hs (by decide)
  · rw [show cleared.table d x = none from frameOf_zero] at hs
    cases hs

/-- A page mapped in one directory and taken away again. -/
theorem frame_counts_exact_cleared : ∃ s t, cleared.pageInsert 1 3 0x200000 pteU = .ok s ∧
    s.ref 3 = (mappings {1, 2} s 3).ncard ∧ s.pageRemove 1 0x200000 = .ok t ∧
    (mappings {1, 2} t 3 = ∅ → t.free 3 = true) := by
  have hstart := cleared_unmapped
  have hla : (0x200000 : Word) < userTop := by decide
  have hu := (Vpage.user_of _).mpr hla
  have hd : (1 : Ppn) ∈ ({1, 2} : Set Ppn) := Set.mem_insert _ _
  have hdata := cleared_dataFrame
  have hfree : cleared.free 16 = true := by decide
  have hperm : pteU &&& ~~~0x7#32 = 0 := by decide
  obtain ⟨o, u, hget⟩ := getPte_returns hstart.counted.toWf.guarded hd hu hfree (by decide)
  obtain ⟨s, hs, hcounted, -, hmap⟩ := hstart.counted.pageInsert hd hu hperm hdata hget
  have hrun : Relation.ReflTransGen (FrameStep {1, 2}) cleared s :=
    .single (.pageInsert hd hla hperm hdata hs)
  obtain ⟨t, ht, -⟩ := hcounted.pageRemove hd hu
  obtain ⟨hcount, hfreed, -⟩ := frame_counts_exact hstart hrun
  have hne : (mappings {1, 2} s 3).Nonempty := ⟨(1, Vpage.of 0x200000), hd, hu, hmap⟩
  have hstep : FrameStep {1, 2} s t := .pageRemove hd hla ht
  refine ⟨s, t, hs, (hcount 3 hne).1, ht, fun hempty => ?_⟩
  exact ((hfreed t hstep 3).mpr ⟨hne, hempty⟩).2

end Vm

end UcoreMips.Kernel
