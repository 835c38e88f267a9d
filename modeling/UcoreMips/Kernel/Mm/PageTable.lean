import UcoreMips.Kernel.Mm.MapOps
import UcoreMips.Lib.Result

/-!
# UcoreMips.Kernel.Mm.PageTable

**A page directory is a finite map.** From a directory whose user part is empty, any sequence
of `page_insert` and `page_remove` at user addresses makes a table in which `get_page` finds
what was inserted last (`page_table_is_map`). The frames that are inserted may be any frames of
memory, as long as none of them holds the directory or one of its page tables.
-/

namespace UcoreMips.Kernel

open UcoreMips.Lib BitVec
open Emulator (Word)

namespace Vpage

/-- Two addresses are on the same page when their page numbers agree. -/
theorem of_eq_iff {la la' : Word} : of la = of la' ↔ ppn la = ppn la' := by
  rw [of, of, mk.injEq, ← toNat_inj, ← toNat_inj, ← toNat_inj]
  simp only [ppn, extractLsb'_toNat, Nat.shiftRight_eq_div_pow]
  omega

end Vpage

namespace Vm

variable {s t : Vm} {d : Ppn} {la : Word}

/-- The flags of the entry for an address: its permissions, and what it says of the TLB. -/
def flags (s : Vm) (d : Ppn) (la : Word) : Word := s.pte d (Vpage.of la) &&& 0xfff#32

theorem newEntry_flags (page : Ppn) {perm : Word} (hperm : perm &&& ~~~0x7#32 = 0) :
    (page2pa page ||| pteP ||| perm) &&& 0xfff#32 = perm ||| pteP := by
  have hlow : perm &&& 0xfff#32 = perm := by
    have hall : perm &&& (0x7#32 ||| ~~~0x7#32) = perm := by
      rw [show 0x7#32 ||| ~~~0x7#32 = allOnes 32 by decide, and_allOnes]
    rw [BitVec.and_or_distrib_left, hperm, show (0 : Word) = 0#32 from rfl, BitVec.or_zero] at hall
    rw [← hall, BitVec.and_assoc]
    rfl
  have hpage : page2pa page &&& 0xfff#32 = 0#32 := by
    have hmask : ∀ i < 32, 12 ≤ i → (0xfff#32).getLsbD i = false := by decide
    apply eq_of_getLsbD_eq
    intro i hi
    rw [getLsbD_and, getLsbD_zero, Bool.and_eq_false_iff]
    by_cases h12 : i < 12
    · left
      simp [page2pa, h12]
    · exact .inr (hmask i hi (by omega))
  rw [BitVec.and_or_distrib_right, BitVec.and_or_distrib_right, hpage, hlow, BitVec.zero_or,
    BitVec.or_comm, show pteP &&& 0xfff#32 = pteP by decide]

/-- The directory and its page tables are in order, the entries map frames of memory, and none
of them is in the TLB. -/
structure Plain (d : Ppn) (s : Vm) : Prop extends Guarded {d} s where
  lt : ∀ {v f}, v.User → frameOf (s.pte d v) = some f → f.toNat < npage
  unmarked : ∀ {v : Vpage}, v.User → ¬Marked (s.pte d v)

/-- No page is mapped to the directory or to one of its page tables. -/
def Apart (d : Ppn) (s : Vm) : Prop :=
  ∀ v f, v.User → frameOf (s.pte d v) = some f → ¬Structural {d} s f

/-- The user part of the directory is empty, and its frame is in use. -/
def EmptyDir (d : Ppn) (s : Vm) : Prop :=
  s.free d = false ∧ ∀ x : BitVec 10, x.toNat < 512 → s.mem d x = 0

theorem EmptyDir.table (h : EmptyDir d s) {x : BitVec 10} (hx : x.toNat < 512) :
    s.table d x = none := by
  rw [Vm.table, h.2 x hx, frameOf_zero]

theorem EmptyDir.plain (h : EmptyDir d s) : Plain d s := by
  have htable : ∀ {d' x f}, d' ∈ ({d} : Set Ppn) → x.toNat < 512 → s.table d' x ≠ some f := by
    rintro d' x f rfl hx heq
    rw [h.table hx] at heq
    cases heq
  have hpte : ∀ {v : Vpage}, v.User → s.pte d v = 0 := fun hv => by
    rw [pte, h.table hv.pdx_lt]
  refine { tableLt := ?_, tableNotDir := ?_, tableInj := ?_, structural := ?_, lt := ?_,
           unmarked := ?_ }
  · exact fun hd hx hf => absurd hf (htable hd hx)
  · exact fun hd hx hf => absurd hf (htable hd hx)
  · exact fun hd _ hx _ hf _ => absurd hf (htable hd hx)
  · rintro f (rfl | ⟨d', hd', x, hx, hf⟩)
    · exact h.1
    · exact absurd hf (htable hd' hx)
  · intro v f hv hf
    rw [hpte hv, frameOf_zero] at hf
    cases hf
  · intro v hv
    rw [hpte hv]
    exact not_marked_zero

/-! ### Lookups -/

theorem Plain.getPage_eq (h : Plain d s) (hu : (Vpage.of la).User) :
    s.getPage d la = .ok (frameOf (s.pte d (Vpage.of la))) := by
  unfold getPage
  rw [getPte_find h.toTables (Set.mem_singleton d) hu]
  cases hr : s.ptep d (Vpage.of la) with
  | none =>
    rw [pte_of_ptep_none hr, frameOf_zero]
    rfl
  | some r =>
    dsimp only [ok_bind]
    rw [load_of_ptep hr]
    cases hf : frameOf (s.pte d (Vpage.of la)) with
    | none =>
      rw [if_pos (frameOf_eq_none.mp hf)]
      rfl
    | some f =>
      obtain ⟨hp, hppn⟩ := frameOf_eq_some.mp hf
      rw [if_neg hp, kaddr, hppn, if_pos (h.lt hu hf)]
      rfl

/-! ### Steps -/

/-- The step changed the entry of one page to `w`. -/
structure Updated (d : Ppn) (v : Vpage) (w : Word) (s t : Vm) : Prop where
  plain : Plain d t
  pte : ∀ v' : Vpage, v'.User → t.pte d v' = if v' = v then w else s.pte d v'

/-- A store to an entry, if the only frame that becomes free is the one the entry mapped. -/
theorem Plain.updated {v : Vpage} {r : PteRef} {w : Word} (h : Plain d s) (hv : v.User)
    (hr : s.ptep d v = some r) (hold : ∀ f, frameOf (s.pte d v) = some f → ¬Structural {d} s f)
    (hlt : ∀ f, frameOf w = some f → f.toNat < npage) (hun : ¬Marked w)
    (hmem : t.mem = (s.store r w).mem)
    (hfree : ∀ f, t.free f = true → s.free f = true ∨ frameOf (s.pte d v) = some f) :
    Updated d v w s t := by
  have hd := Set.mem_singleton d
  have htable : ∀ d' ∈ ({d} : Set Ppn), ∀ x, t.table d' x = s.table d' x := fun d' hd' x => by
    rw [← table_store (w := w) h.toTables hd hv hr hd', table, table, hmem]
  have hpte : ∀ v' : Vpage, v'.User → t.pte d v' = if v' = v then w else s.pte d v' := by
    intro v' hv'
    rw [pte_of_mem hmem, pte_store h.toTables hd hv hr hd hv']
    simp only [true_and]
  refine ⟨{ toTables := h.toTables.of_table htable, structural := ?_, lt := ?_, unmarked := ?_ },
    hpte⟩
  · intro f hf
    rw [structural_congr htable] at hf
    rw [← Bool.not_eq_true]
    intro hft
    rcases hfree f hft with hsf | hmap
    · rw [h.structural hf] at hsf
      cases hsf
    · exact hold f hmap hf
  · intro v' f hv' hf
    rw [hpte v' hv'] at hf
    split at hf
    · exact hlt f hf
    · exact h.lt hv' hf
  · intro v' hv'
    rw [hpte v' hv']
    split
    · exact hun
    · exact h.unmarked hv'

/-- `page_insert`. -/
theorem Plain.pageInsert {page : Ppn} {perm : Word} (h : Plain d s) (hap : Apart d s)
    (hu : (Vpage.of la).User) (hlt : page.toNat < npage) (hperm : perm &&& ~~~0x7#32 = 0)
    {o : Option PteRef} (hget : s.getPte d la true = .ok (o, t)) :
    ∃ t', s.pageInsert d page la perm = .ok t' ∧
      Updated d (Vpage.of la) (page2pa page ||| pteP ||| perm) s t' := by
  have hd := Set.mem_singleton d
  obtain ⟨hw, hnew⟩ := newEntry page hperm
  obtain ⟨f, rfl, htable, ht⟩ := getPte_cases h.toGuarded hd hu hget
  have hr := ptep_of_table htable
  -- a page table that had to be made holds no mapping
  have hgrown : Plain d t ∧ (∀ v : Vpage, v.User → t.pte d v = s.pte d v) ∧
      ∀ g, frameOf (t.pte d (Vpage.of la)) = some g → ¬Structural {d} t g := by
    rcases ht with rfl | ⟨hnone, hfree, hltf, rfl⟩
    · exact ⟨h, fun _ _ => rfl, fun g hg => hap _ g hu hg⟩
    · have hpte := fun v (hv : Vpage.User v) =>
        withTable_pte (x := pdx la) h.toGuarded hfree hd hnone hd hv
      have hx : (pdx la).toNat < 512 := Vpage.of_pdx la ▸ hu.pdx_lt
      refine ⟨{ toGuarded := withTable_guarded h.toGuarded hd hx hfree hltf hnone, lt := ?_,
                unmarked := ?_ }, hpte, fun g hg => ?_⟩
      · exact fun hv hg => h.lt hv (hpte _ hv ▸ hg)
      · exact fun hv => (hpte _ hv).symm ▸ h.unmarked hv
      · have hzero : s.pte d (Vpage.of la) = 0 := by
          rw [Vm.pte, Vpage.of_pdx, hnone]
        rw [hpte _ hu, hzero, frameOf_zero] at hg
        cases hg
  obtain ⟨hplain, hsame, hold⟩ := hgrown
  refine ⟨_, pageInsert_eq hget hplain.toTables hd hu (.inr (hplain.unmarked hu)) hr
    fun g hg => hplain.lt hu hg, ?_⟩
  have hup := hplain.updated (t := t.mapEntry ⟨f, ptx la⟩ page _) hu hr hold
    (fun g hg => Option.some.inj (hw.symm.trans hg) ▸ hlt) hnew (mapEntry_mem t _ page _)
    fun g hg => load_of_ptep hr ▸ mapEntry_free hg
  refine ⟨hup.plain, fun v hv => ?_⟩
  rw [hup.pte v hv, hsame v hv]

/-- `page_remove`. -/
theorem Plain.pageRemove (h : Plain d s) (hap : Apart d s) (hu : (Vpage.of la).User) :
    ∃ t, s.pageRemove d la = .ok t ∧ Plain d t ∧ frameOf (t.pte d (Vpage.of la)) = none ∧
      ∀ v : Vpage, v.User → v ≠ Vpage.of la → t.pte d v = s.pte d v := by
  have hd := Set.mem_singleton d
  rcases pageRemove_eq h.toTables hd hu (.inr (h.unmarked hu)) (fun g hg => h.lt hu hg) with
    ⟨hnone, heq⟩ | ⟨g, r, hg, hr, heq⟩
  · exact ⟨s, heq, h, hnone, fun _ _ _ => rfl⟩
  · have hmem : ((s.dropRef g).store r 0).mem = (s.store r 0).mem := by
      simp only [store, dropRef_mem]
    have hfree : ∀ f, ((s.dropRef g).store r 0).free f = true →
        s.free f = true ∨ frameOf (s.pte d (Vpage.of la)) = some f :=
      fun f hf => (dropRef_free_true hf).imp_right fun hfg : f = g => hfg ▸ hg
    have hup := h.updated (w := 0) hu hr (fun f hf => hap _ f hu hf)
      (fun f hf => by rw [frameOf_zero] at hf; cases hf) not_marked_zero hmem hfree
    refine ⟨_, heq, hup.plain, ?_, fun v hv hne => ?_⟩
    · rw [hup.pte _ hu, if_pos rfl, frameOf_zero]
    · rw [hup.pte v hv, if_neg hne]

/-! ### Directories built by insertions and removals -/

/-- The states in which a directory is, from an empty user part on, while no page is mapped
to the directory itself or its page tables. -/
inductive Built (d : Ppn) : Vm → Prop
  | empty {s : Vm} (h : EmptyDir d s) : Built d s
  | insert {s t : Vm} {page : Ppn} {la perm : Word} (h : Built d s) (hpage : page.toNat < npage)
      (hla : la < userTop) (hperm : perm &&& ~~~0x7#32 = 0)
      (ht : s.pageInsert d page la perm = .ok t) (hap : Apart d t) : Built d t
  | remove {s t : Vm} {la : Word} (h : Built d s) (hla : la < userTop)
      (ht : s.pageRemove d la = .ok t) (hap : Apart d t) : Built d t

theorem EmptyDir.apart (h : EmptyDir d s) : Apart d s := by
  intro v f hv hf
  rw [pte, h.table hv.pdx_lt, frameOf_zero] at hf
  cases hf

theorem Built.apart (h : Built d s) : Apart d s := by
  cases h with
  | empty h => exact h.apart
  | insert _ _ _ _ _ hap => exact hap
  | remove _ _ _ hap => exact hap

theorem Built.plain (h : Built d s) : Plain d s := by
  induction h with
  | empty h => exact h.plain
  | @insert s t page la perm h hpage hla hperm ht _ ih =>
    -- a run of `page_insert` that came to its end got its page table
    obtain ⟨⟨o, u⟩, hget, -⟩ := bind_eq_ok.mp ht
    obtain ⟨t', ht', hup⟩ := ih.pageInsert h.apart ((Vpage.user_of la).mpr hla) hpage hperm hget
    cases ht.symm.trans ht'
    exact hup.plain
  | @remove s t la h hla ht _ ih =>
    obtain ⟨t', ht', hplain, -⟩ := ih.pageRemove h.apart ((Vpage.user_of la).mpr hla)
    cases ht.symm.trans ht'
    exact hplain

/-- **The two-level table is a finite map.** In every state a directory gets to from an empty
user part, at every user address `la`:
* `page_insert`, which returns if there is a free frame for a page table, makes `get_page` find `page`
  with the flags `perm | PTE_P` at every address of the page, and changes neither elsewhere;
* `page_remove` returns, makes `get_page` find nothing on the page, and changes nothing
  elsewhere;
* `get_pte` without `create` leaves the state as it is. -/
theorem page_table_is_map (h : Built d s) (hla : la < userTop) :
    (∀ page perm, page.toNat < npage → perm &&& ~~~0x7#32 = 0 →
      ((∃ f, f.toNat < npage ∧ s.free f = true) → ∃ t, s.pageInsert d page la perm = .ok t) ∧
      ∀ t, s.pageInsert d page la perm = .ok t → ∀ la' < userTop,
        (ppn la' = ppn la → t.getPage d la' = .ok (some page) ∧ t.flags d la' = perm ||| pteP) ∧
        (ppn la' ≠ ppn la → t.getPage d la' = s.getPage d la' ∧ t.flags d la' = s.flags d la')) ∧
    (∃ t, s.pageRemove d la = .ok t ∧ ∀ la' < userTop,
      (ppn la' = ppn la → t.getPage d la' = .ok none) ∧
      (ppn la' ≠ ppn la → t.getPage d la' = s.getPage d la' ∧ t.flags d la' = s.flags d la')) ∧
    ∃ o, s.getPte d la false = .ok (o, s) := by
  have hu := (Vpage.user_of la).mpr hla
  refine ⟨fun page perm hpage hperm => ⟨?_, ?_⟩, ?_, ?_⟩
  · rintro ⟨f, hlt, hfree⟩
    obtain ⟨o, t, hget⟩ := getPte_returns h.plain.toGuarded (Set.mem_singleton d) hu hfree hlt
    obtain ⟨t', ht', -⟩ := h.plain.pageInsert h.apart hu hpage hperm hget
    exact ⟨t', ht'⟩
  · intro t ht la' hla'
    have hu' := (Vpage.user_of la').mpr hla'
    obtain ⟨⟨o, u⟩, hget, -⟩ := bind_eq_ok.mp ht
    obtain ⟨t', ht', hup⟩ := h.plain.pageInsert h.apart hu hpage hperm hget
    cases ht.symm.trans ht'
    have hpte := hup.pte _ hu'
    rw [hup.plain.getPage_eq hu', h.plain.getPage_eq hu', flags, flags, hpte]
    constructor
    · intro hsame
      rw [if_pos (Vpage.of_eq_iff.mpr hsame)]
      exact ⟨congrArg Except.ok (newEntry page hperm).1, newEntry_flags page hperm⟩
    · intro hne
      rw [if_neg (mt Vpage.of_eq_iff.mp hne)]
      exact ⟨rfl, rfl⟩
  · obtain ⟨t, ht, hplain, hnone, helse⟩ := h.plain.pageRemove h.apart hu
    refine ⟨t, ht, fun la' hla' => ?_⟩
    have hu' := (Vpage.user_of la').mpr hla'
    rw [hplain.getPage_eq hu', h.plain.getPage_eq hu', flags, flags]
    constructor
    · intro hsame
      rw [Vpage.of_eq_iff.mpr hsame, hnone]
    · intro hne
      rw [helse _ hu' (mt Vpage.of_eq_iff.mp hne)]
      exact ⟨rfl, rfl⟩
  · exact ⟨_, getPte_find h.plain.toTables (Set.mem_singleton d) hu⟩

/-- Memory of zeros, in which the frames from 16 on are free. -/
def cleared : Vm where
  mem _ _ := 0
  ref _ := 0
  free f := decide (16 ≤ f.toNat ∧ f.toNat < npage)
  curPgdir := none
  algo := ⟨fun _ => 0, 0, fun _ => 0, 14⟩
  cp0 := ⟨fun _ => 0⟩
  mmu :=
    { ram := fun _ => 0, rom := ⟨[], false, fun _ => 0, 0⟩, flash := ⟨[], false, fun _ => 0, 0⟩
      tlbKey := fun _ => 0, tlbData := fun _ _ => 0, cout := [] }
  swapInitOk := true
  mm := none

theorem page_table_is_map_cleared : ∃ t, cleared.pageInsert 1 3 0x200000 pteU = .ok t ∧
    t.getPage 1 0x200ffc = .ok (some 3) ∧ t.flags 1 0x200ffc = pteU ||| pteP ∧
    t.getPage 1 0x201000 = cleared.getPage 1 0x201000 := by
  have hbuilt : Built 1 cleared := .empty ⟨by decide, fun _ _ => rfl⟩
  have hla : (0x200000 : Word) < userTop := by decide
  obtain ⟨hret, hins⟩ := (page_table_is_map hbuilt hla).1 3 pteU (by decide) (by decide)
  obtain ⟨t, ht⟩ := hret ⟨16, by decide, by decide⟩
  obtain ⟨hpage, hflags⟩ := (hins t ht 0x200ffc (by decide)).1 (by decide)
  exact ⟨t, ht, hpage, hflags, ((hins t ht 0x201000 (by decide)).2 (by decide)).1⟩

end Vm

end UcoreMips.Kernel
