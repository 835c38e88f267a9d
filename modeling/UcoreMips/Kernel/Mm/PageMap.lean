import UcoreMips.Kernel.Mm.Paging

/-!
# UcoreMips.Kernel.Mm.PageMap

**The two-level tables as one map.** A page directory with its page tables stands for
a map from virtual pages to entries: `Vm.pte`, with 0 where there is no page table.
In a well-formed memory (`Vm.Wf`) the tables do not overlap, so a store to an entry is
an update of this map at one page (`pte_store`), and making a new page table leaves the
map as it is (`getPte_create`).

The reference count of a frame is the number of entries that map it (`Vm.Refs`). That
is why a frame which is given back is mapped nowhere, and why a page table never takes
a frame that is in use.
-/

namespace UcoreMips.Kernel

open UcoreMips.Lib Nat
open Emulator (Word)
open BitVec (eq_of_toNat_eq extractLsb'_toNat toNat_ofNat)
open Function (update update_of_ne update_self)

/-! ### Virtual pages -/

/-- A virtual page: the number of its pair, and which of the two it is. -/
structure Vpage where
  vpn2 : BitVec 19
  odd : BitVec 1
  deriving Repr, DecidableEq

/-- There are finitely many pages. -/
instance : Finite Vpage :=
  Finite.of_injective (fun v => (v.vpn2, v.odd)) fun v w h => by
    cases v
    cases w
    simp_all

namespace Vpage

/-- The page of an address. -/
def of (la : Word) : Vpage := ⟨la.extractLsb' 13 19, la.extractLsb' 12 1⟩

/-- The other page of the pair. -/
def sibling (v : Vpage) : Vpage := ⟨v.vpn2, ~~~v.odd⟩

/-- The page lies below `USERTOP`. -/
def User (v : Vpage) : Prop := v.vpn2.toNat < 2 ^ 18

/-- Where the entry of the page is: its index in the directory and in the table. -/
def pdx (v : Vpage) : BitVec 10 := BitVec.ofNat 10 (v.vpn2.toNat / 512)
def ptx (v : Vpage) : BitVec 10 := BitVec.ofNat 10 (2 * v.vpn2.toNat + v.odd.toNat)

/-- The key of the TLB entry for the pair. -/
def key (v : Vpage) : Word := v.vpn2.setWidth 32 <<< 13

theorem of_pdx (la : Word) : (of la).pdx = Kernel.pdx la := by
  apply eq_of_toNat_eq
  simp only [pdx, of, Kernel.pdx, toNat_ofNat, extractLsb'_toNat, shiftRight_eq_div_pow]
  omega

theorem of_ptx (la : Word) : (of la).ptx = Kernel.ptx la := by
  apply eq_of_toNat_eq
  simp only [ptx, of, Kernel.ptx, toNat_ofNat, extractLsb'_toNat, shiftRight_eq_div_pow]
  omega

variable {v w : Vpage}

/-- The two indices together determine the page. -/
theorem eq_of_indices (hpdx : v.pdx = w.pdx) (hptx : v.ptx = w.ptx) : v = w := by
  have hd := congrArg BitVec.toNat hpdx
  have ht := congrArg BitVec.toNat hptx
  simp only [pdx, ptx, toNat_ofNat] at hd ht
  have hv := v.odd.isLt
  have hw := w.odd.isLt
  have hv2 := v.vpn2.isLt
  have hw2 := w.vpn2.isLt
  have hvpn : v.vpn2 = w.vpn2 := eq_of_toNat_eq (by omega)
  have hodd : v.odd = w.odd := eq_of_toNat_eq (by omega)
  cases v
  cases w
  simp_all

theorem of_tlbPair (la : Word) : of (tlbPair la) = (of la).sibling := by
  have hmask : ∀ i < 32, (0x1000#32).getLsbD i = decide (i = 12) := by decide
  simp only [of, sibling, tlbPair, mk.injEq]
  constructor
  · ext i hi
    simp [hmask (13 + i) (by omega), show 13 + i ≠ 12 by omega]
  · ext i hi
    have h0 : i = 0 := by omega
    subst h0
    simp

theorem user_of (la : Word) : (of la).User ↔ la < userTop := by
  have hla := la.isLt
  simp only [User, of, userTop, BitVec.lt_def, extractLsb'_toNat, shiftRight_eq_div_pow]
  show la.toNat / 2 ^ 13 % 2 ^ 19 < 2 ^ 18 ↔ la.toNat < 0x80000000
  omega

theorem User.pdx_lt (h : v.User) : v.pdx.toNat < 512 := by
  unfold User at h
  simp only [pdx, toNat_ofNat]
  omega

@[simp] theorem sibling_key (v : Vpage) : v.sibling.key = v.key := rfl
@[simp] theorem sibling_sibling (v : Vpage) : v.sibling.sibling = v := by
  simp [sibling]

theorem sibling_user : v.sibling.User ↔ v.User := Iff.rfl

theorem sibling_ne (v : Vpage) : v.sibling ≠ v := by
  intro h
  have hodd := congrArg (fun v => v.odd.toNat) h
  have := v.odd.isLt
  simp only [sibling, BitVec.toNat_not] at hodd
  omega

/-- A pair has two pages. -/
theorem eq_or_eq_sibling (h : v.vpn2 = w.vpn2) : v = w ∨ v = w.sibling := by
  have hcases : ∀ a b : BitVec 1, a = b ∨ a = ~~~b := by decide
  obtain ⟨p, a⟩ := v
  obtain ⟨q, b⟩ := w
  obtain rfl : p = q := h
  rcases hcases a b with rfl | rfl
  · exact .inl rfl
  · exact .inr rfl

theorem key_toNat (v : Vpage) : v.key.toNat = 8192 * v.vpn2.toNat := by
  have := v.vpn2.isLt
  rw [key, BitVec.toNat_shiftLeft, BitVec.toNat_setWidth, shiftLeft_eq]
  omega

theorem key_inj : v.key = w.key ↔ v.vpn2 = w.vpn2 := by
  rw [← BitVec.toNat_inj, ← BitVec.toNat_inj, key_toNat, key_toNat]
  omega

theorem of_key (v : Vpage) : of v.key = ⟨v.vpn2, 0⟩ := by
  have hkey := v.key_toNat
  have hvpn : v.key.extractLsb' 13 19 = v.vpn2 := by
    apply eq_of_toNat_eq
    rw [extractLsb'_toNat, shiftRight_eq_div_pow, hkey]
    omega
  have hodd : v.key.extractLsb' 12 1 = 0 := by
    apply eq_of_toNat_eq
    rw [extractLsb'_toNat, shiftRight_eq_div_pow, hkey]
    show 8192 * v.vpn2.toNat / 2 ^ 12 % 2 ^ 1 = 0
    omega
  rw [of, hvpn, hodd]

theorem entryHi_eq (la : Word) : entryHi la = (of la).key := by
  have hsplice := toNat_splice (k := 13) (x := la) (y := 0#32)
    (show (0x1fff#32).toNat = _ by decide) (show 0xffffe000#32 = _ by decide)
  apply eq_of_toNat_eq
  rw [key_toNat, entryHi]
  simp only [BitVec.zero_and, BitVec.or_zero, toNat_ofNat, zero_mod, add_zero] at hsplice
  simp only [of, extractLsb'_toNat, shiftRight_eq_div_pow]
  omega

end Vpage

/-! ### The map of a directory -/

/-- The frame an entry of a directory or table points to, if it is present. -/
def frameOf (entry : Word) : Option Ppn := if entry &&& pteP = 0 then none else some (ppn entry)

@[simp] theorem frameOf_zero : frameOf 0 = none := by decide

variable {entry : Word} {f : Ppn}

theorem frameOf_eq_none : frameOf entry = none ↔ entry &&& pteP = 0 := by
  simp [frameOf]

theorem frameOf_eq_some : frameOf entry = some f ↔ entry &&& pteP ≠ 0 ∧ ppn entry = f := by
  simp [frameOf]

theorem ppn_page2pa (f : Ppn) : ppn (page2pa f) = f := by
  have hf := f.isLt
  apply eq_of_toNat_eq
  simp only [ppn, page2pa, extractLsb'_toNat, shiftRight_eq_div_pow,
    BitVec.toNat_shiftLeft, BitVec.toNat_setWidth, shiftLeft_eq]
  omega

/-- Flags below bit 12 do not change the frame number. -/
theorem ppn_or {x y : Word} (h : ppn y = 0) : ppn (x ||| y) = ppn x := by
  ext i hi
  have hbit := congrArg (fun v => v.getLsbD i) h
  simp [ppn, hi] at hbit ⊢
  simp [hbit]

theorem ppn_mask (x : Word) : ppn (x &&& 0xfffff000#32) = ppn x :=
  extract_and_ones (by decide)

namespace Vm

/-- The page table for an index of a directory. -/
def table (s : Vm) (pgdir : Ppn) (x : BitVec 10) : Option Ppn := frameOf (s.mem pgdir x)

/-- The entry of a page in a directory, 0 if it has no page table there. -/
def pte (s : Vm) (pgdir : Ppn) (v : Vpage) : Word :=
  match s.table pgdir v.pdx with
  | none => 0
  | some f => s.mem f v.ptx

/-- Where that entry is. -/
def ptep (s : Vm) (pgdir : Ppn) (v : Vpage) : Option PteRef :=
  (s.table pgdir v.pdx).map fun f => ⟨f, v.ptx⟩

variable {s : Vm} {d : Ppn} {v : Vpage} {r : PteRef}

theorem load_of_ptep (h : s.ptep d v = some r) : s.load r = s.pte d v := by
  obtain ⟨f, hf, rfl⟩ := Option.map_eq_some_iff.mp h
  simp only [pte, hf, load]

theorem pte_of_ptep_none (h : s.ptep d v = none) : s.pte d v = 0 := by
  rw [ptep, Option.map_eq_none_iff] at h
  simp only [pte, h]

/-- The frame holds a directory of `D` or a page table of its user part. -/
def Structural (D : Set Ppn) (s : Vm) (f : Ppn) : Prop :=
  f ∈ D ∨ ∃ d ∈ D, ∃ x : BitVec 10, x.toNat < 512 ∧ s.table d x = some f

/-- The pages that map a frame. -/
def mappings (D : Set Ppn) (s : Vm) (f : Ppn) : Set (Ppn × Vpage) :=
  {k | k.1 ∈ D ∧ k.2.User ∧ frameOf (s.pte k.1 k.2) = some f}

/-- The page tables of the directories `D` are frames of their own. -/
structure Tables (D : Set Ppn) (s : Vm) : Prop where
  tableLt : ∀ {d x f}, d ∈ D → x.toNat < 512 → s.table d x = some f → f.toNat < npage
  tableNotDir : ∀ {d x f}, d ∈ D → x.toNat < 512 → s.table d x = some f → f ∉ D
  tableInj : ∀ {d d' x x' f}, d ∈ D → d' ∈ D → x.toNat < 512 → x'.toNat < 512 →
    s.table d x = some f → s.table d' x' = some f → d = d' ∧ x = x'

/-- Memory is well-formed: moreover frames in use are not free, and mapped frames are
neither directories nor page tables. -/
structure Wf (D : Set Ppn) (s : Vm) : Prop extends Tables D s where
  structural : ∀ {f}, Structural D s f → s.free f = false
  mappedLt : ∀ {d v f}, d ∈ D → v.User → frameOf (s.pte d v) = some f → f.toNat < npage
  mappedNot : ∀ {d v f}, d ∈ D → v.User → frameOf (s.pte d v) = some f → ¬Structural D s f
  mappedFree : ∀ {d v f}, d ∈ D → v.User → frameOf (s.pte d v) = some f → s.free f = false

/-- The frames of the tables are not free, so that no other use is made of them. -/
structure Guarded (D : Set Ppn) (s : Vm) : Prop extends Tables D s where
  structural : ∀ {f}, Structural D s f → s.free f = false

variable {D : Set Ppn} {t : Vm}

theorem Wf.guarded (h : s.Wf D) : s.Guarded D := ⟨h.toTables, h.structural⟩

/-- Reference counts count the mappings, and the references `held` by the code under way. -/
def Refs (D : Set Ppn) (held : Ppn → Nat) (s : Vm) : Prop :=
  ∀ f, ¬Structural D s f → s.ref f = (mappings D s f).ncard + held f

theorem structural_congr (h : ∀ d ∈ D, ∀ x, t.table d x = s.table d x) :
    Structural D t f ↔ Structural D s f := by
  refine or_congr Iff.rfl (exists_congr fun d => and_congr_right fun hd => ?_)
  simp only [h d hd]

theorem Tables.of_table (ht : s.Tables D) (h : ∀ d ∈ D, ∀ x, t.table d x = s.table d x) :
    t.Tables D where
  tableLt hd hx hf := ht.tableLt hd hx (h _ hd _ ▸ hf)
  tableNotDir hd hx hf := ht.tableNotDir hd hx (h _ hd _ ▸ hf)
  tableInj hd hd' hx hx' hf hf' := ht.tableInj hd hd' hx hx' (h _ hd _ ▸ hf) (h _ hd' _ ▸ hf')

/-! ### Storing an entry -/

section Store

variable {D : Set Ppn} {s : Vm} {d : Ppn} {v : Vpage} {r : PteRef} {w : Word}

section TableStore

variable {d' : Ppn} (hwf : s.Tables D) (hd : d ∈ D) (hv : v.User) (hr : s.ptep d v = some r)
  (hd' : d' ∈ D)

include hwf hd hv hr hd'

theorem table_store (x : BitVec 10) : (s.store r w).table d' x = s.table d' x := by
  obtain ⟨f, hf, rfl⟩ := Option.map_eq_some_iff.mp hr
  have hne : d' ≠ f := fun h => hwf.tableNotDir hd hv.pdx_lt hf (h ▸ hd')
  simp only [table, store, update_of_ne hne]

/-- A store to an entry is an update of the map. -/
theorem pte_store {v' : Vpage} (hv' : v'.User) :
    (s.store r w).pte d' v' = if d' = d ∧ v' = v then w else s.pte d' v' := by
  have htable := table_store (w := w) hwf hd hv hr hd' v'.pdx
  obtain ⟨f, hf, rfl⟩ := Option.map_eq_some_iff.mp hr
  simp only [pte, htable]
  cases hf' : s.table d' v'.pdx with
  | none =>
    have hne : ¬(d' = d ∧ v' = v) := by
      rintro ⟨rfl, rfl⟩
      rw [hf] at hf'
      cases hf'
    rw [if_neg hne]
  | some f' =>
    dsimp only [store]
    by_cases hff : f' = f
    · subst hff
      obtain ⟨rfl, hx⟩ := hwf.tableInj hd' hd hv'.pdx_lt hv.pdx_lt hf' hf
      rw [update_self]
      by_cases hptx : v'.ptx = v.ptx
      · obtain rfl := Vpage.eq_of_indices hx hptx
        rw [update_self, if_pos ⟨rfl, rfl⟩]
      · have hne : ¬(d' = d' ∧ v' = v) := fun h => hptx (congrArg Vpage.ptx h.2)
        rw [update_of_ne hptx, if_neg hne]
    · have hne : ¬(d' = d ∧ v' = v) := by
        rintro ⟨rfl, rfl⟩
        rw [hf] at hf'
        exact hff (Option.some.inj hf').symm
      rw [update_of_ne hff, if_neg hne]

theorem ptep_store (v' : Vpage) : (s.store r w).ptep d' v' = s.ptep d' v' := by
  rw [ptep, ptep, table_store hwf hd hv hr hd']

end TableStore

end Store

/-! ### Steps that keep every mapping -/

/-- The step changed no page table, no mapping and no frame's state; entries may differ
in their other bits. -/
structure SameFrames (D : Set Ppn) (s t : Vm) : Prop where
  table : ∀ d ∈ D, ∀ x, t.table d x = s.table d x
  maps : ∀ d ∈ D, ∀ v : Vpage, v.User → frameOf (t.pte d v) = frameOf (s.pte d v)
  ref : t.ref = s.ref
  free : t.free = s.free

namespace SameFrames

variable {D : Set Ppn} {s t u : Vm}

theorem refl (D : Set Ppn) (s : Vm) : SameFrames D s s :=
  ⟨fun _ _ _ => rfl, fun _ _ _ _ => rfl, rfl, rfl⟩

section SameFrames

variable (h : SameFrames D s t)

include h

theorem trans (h' : SameFrames D t u) : SameFrames D s u where
  table d hd x := (h'.table d hd x).trans (h.table d hd x)
  maps d hd v hv := (h'.maps d hd v hv).trans (h.maps d hd v hv)
  ref := h'.ref.trans h.ref
  free := h'.free.trans h.free

theorem structural : Structural D t f ↔ Structural D s f :=
  structural_congr h.table

theorem ptep (hd : d ∈ D) (v : Vpage) : t.ptep d v = s.ptep d v := by
  rw [Vm.ptep, Vm.ptep, h.table d hd]

theorem tables (ht : s.Tables D) : t.Tables D :=
  ht.of_table h.table

theorem wf (hwf : s.Wf D) : t.Wf D where
  toTables := h.tables hwf.toTables
  structural hf := h.free ▸ hwf.structural (h.structural.mp hf)
  mappedLt hd hv hf := hwf.mappedLt hd hv (h.maps _ hd _ hv ▸ hf)
  mappedNot hd hv hf := fun hs =>
    hwf.mappedNot hd hv (h.maps _ hd _ hv ▸ hf) (h.structural.mp hs)
  mappedFree hd hv hf := h.free ▸ hwf.mappedFree hd hv (h.maps _ hd _ hv ▸ hf)

theorem mappings (f : Ppn) : mappings D t f = mappings D s f := by
  ext ⟨d, v⟩
  refine and_congr_right fun hd => and_congr_right fun hv => ?_
  rw [h.maps d hd v hv]

theorem refs {held : Ppn → Nat} (hr : s.Refs D held) : t.Refs D held := by
  intro f hf
  rw [h.ref, h.mappings f]
  exact hr f (mt h.structural.mpr hf)

end SameFrames

end SameFrames

/-- A store that leaves the present bit and the frame of an entry. -/
theorem sameFrames_store {w : Word} (hwf : s.Tables D) (hd : d ∈ D)
    (hv : v.User) (hr : s.ptep d v = some r) (hw : frameOf w = frameOf (s.pte d v)) :
    SameFrames D s (s.store r w) where
  table _ hd' x := table_store hwf hd hv hr hd' x
  maps d' hd' v' hv' := by
    rw [pte_store hwf hd hv hr hd' hv']
    split
    · rename_i h
      rw [hw, h.1, h.2]
    · rfl
  ref := rfl
  free := rfl

/-- Steps outside the tables. -/
theorem sameFrames_of_mem (hmem : t.mem = s.mem) (href : t.ref = s.ref) (hfree : t.free = s.free) :
    SameFrames D s t := by
  have htable : ∀ d x, t.table d x = s.table d x := fun d x => by rw [table, table, hmem]
  refine ⟨fun d _ x => htable d x, fun d _ v _ => ?_, href, hfree⟩
  simp only [pte, htable, hmem]

/-! ### Steps that change one mapping -/

/-- The step changed the mapping of one page, to the frame `o`. -/
structure Remap (D : Set Ppn) (s t : Vm) (d : Ppn) (v : Vpage) (o : Option Ppn) : Prop where
  table : ∀ d' ∈ D, ∀ x, t.table d' x = s.table d' x
  maps : ∀ d' ∈ D, ∀ v' : Vpage, v'.User →
    frameOf (t.pte d' v') = if d' = d ∧ v' = v then o else frameOf (s.pte d' v')

namespace Remap

variable {D : Set Ppn} {s t : Vm} {d g : Ppn} {v : Vpage} {held : Ppn → Nat}

/-- After a page lost its mapping. -/
theorem mappings_none (h : Remap D s t d v none) (f : Ppn) :
    mappings D t f = mappings D s f \ {(d, v)} := by
  ext ⟨d', v'⟩
  simp only [Vm.mappings, Set.mem_ofPred_eq, Set.mem_sdiff, Set.mem_singleton_iff, Prod.mk.injEq]
  constructor
  · rintro ⟨hd', hv', hf⟩
    rw [h.maps d' hd' v' hv'] at hf
    split at hf
    · cases hf
    · rename_i hne
      exact ⟨⟨hd', hv', hf⟩, hne⟩
  · rintro ⟨⟨hd', hv', hf⟩, hne⟩
    refine ⟨hd', hv', ?_⟩
    rw [h.maps d' hd' v' hv', if_neg hne, hf]

/-- After a page got a mapping. -/
theorem mappings_some (h : Remap D s t d v (some g)) (hd : d ∈ D) (hv : v.User)
    (hold : frameOf (s.pte d v) = none) (f : Ppn) :
    mappings D t f = if f = g then insert (d, v) (mappings D s f) else mappings D s f := by
  ext ⟨d', v'⟩
  have hiff : (d', v') ∈ mappings D t f ↔ (d', v') = (d, v) ∧ g = f ∨ (d', v') ∈ mappings D s f := by
    simp only [Vm.mappings, Set.mem_ofPred_eq, Prod.mk.injEq]
    constructor
    · rintro ⟨hd', hv', hf⟩
      rw [h.maps d' hd' v' hv'] at hf
      split at hf
      · rename_i heq
        exact .inl ⟨heq, Option.some.inj hf⟩
      · exact .inr ⟨hd', hv', hf⟩
    · rintro (⟨⟨rfl, rfl⟩, rfl⟩ | ⟨hd', hv', hf⟩)
      · exact ⟨hd, hv, by rw [h.maps _ hd _ hv, if_pos ⟨rfl, rfl⟩]⟩
      · refine ⟨hd', hv', ?_⟩
        rw [h.maps d' hd' v' hv']
        split
        · rename_i heq
          obtain ⟨rfl, rfl⟩ := heq
          rw [hold] at hf
          cases hf
        · exact hf
  rw [hiff]
  by_cases hfg : f = g
  · simp [hfg]
  · simp [hfg, Ne.symm hfg]

/-- Removing a mapping, with the reference given back and the frame freed with its last. -/
theorem unmap (h : Remap D s t d v none) (hwf : s.Wf D) (hr : s.Refs D held) (hd : d ∈ D)
    (hv : v.User) (hg : frameOf (s.pte d v) = some g) (href : t.ref = update s.ref g (s.ref g - 1))
    (hfree : t.free = if s.ref g - 1 = 0 then update s.free g true else s.free) :
    t.Wf D ∧ t.Refs D held := by
  have hmem : (d, v) ∈ mappings D s g := ⟨hd, hv, hg⟩
  have hnot : ∀ f ≠ g, (d, v) ∉ mappings D s f := by
    rintro f hne ⟨-, -, hf⟩
    exact hne (Option.some.inj (hf.symm.trans hg))
  have hgs := hwf.mappedNot hd hv hg
  have hcount : (mappings D t g).ncard + 1 = (mappings D s g).ncard := by
    rw [h.mappings_none, Set.ncard_sdiff_singleton_add_one hmem (Set.toFinite _)]
  have hrg := hr g hgs
  -- the frame is freed only with its last mapping
  have hlast : s.ref g - 1 = 0 → mappings D t g = ∅ := by
    intro hzero
    apply (Set.ncard_eq_zero (Set.toFinite _)).mp
    omega
  have hkeep : ∀ {f}, t.free f = true → s.free f = true ∨ f = g ∧ s.ref g - 1 = 0 := by
    intro f hf
    rw [hfree] at hf
    split at hf
    · rename_i hzero
      by_cases hfg : f = g
      · exact .inr ⟨hfg, hzero⟩
      · rw [update_of_ne hfg] at hf
        exact .inl hf
    · exact .inl hf
  -- what is mapped now was mapped before
  have hold : ∀ {d' v' f}, d' ∈ D → v'.User → frameOf (t.pte d' v') = some f →
      frameOf (s.pte d' v') = some f := by
    intro d' v' f hd' hv' hf
    rw [h.maps d' hd' v' hv'] at hf
    split at hf
    · cases hf
    · exact hf
  refine ⟨{ toTables := hwf.toTables.of_table h.table, structural := ?_, mappedLt := ?_
            mappedNot := ?_, mappedFree := ?_ }, ?_⟩
  · intro f hf
    rw [structural_congr h.table] at hf
    rw [← Bool.not_eq_true]
    intro hft
    rcases hkeep hft with hsf | ⟨rfl, -⟩
    · rw [hwf.structural hf] at hsf
      cases hsf
    · exact hgs hf
  · intro d' v' f hd' hv' hf
    exact hwf.mappedLt hd' hv' (hold hd' hv' hf)
  · intro d' v' f hd' hv' hf
    rw [structural_congr h.table]
    exact hwf.mappedNot hd' hv' (hold hd' hv' hf)
  · intro d' v' f hd' hv' hf
    rw [← Bool.not_eq_true]
    intro hft
    rcases hkeep hft with hsf | ⟨rfl, hzero⟩
    · rw [hwf.mappedFree hd' hv' (hold hd' hv' hf)] at hsf
      cases hsf
    · have hin : (d', v') ∈ mappings D t f := ⟨hd', hv', hf⟩
      rw [hlast hzero] at hin
      exact hin
  · intro f hf
    rw [structural_congr h.table] at hf
    rw [href]
    by_cases hfg : f = g
    · subst hfg
      rw [update_self]
      omega
    · rw [update_of_ne hfg, h.mappings_none, Set.sdiff_singleton_eq_self (hnot f hfg)]
      exact hr f hf

/-- Adding a mapping for a reference that is held. -/
theorem map (h : Remap D s t d v (some g)) (hwf : s.Wf D)
    (hr : s.Refs D (fun f => held f + if f = g then 1 else 0)) (hd : d ∈ D) (hv : v.User)
    (hold : frameOf (s.pte d v) = none) (hg : ¬Structural D s g) (hlt : g.toNat < npage)
    (hgfree : s.free g = false) (href : t.ref = s.ref) (hfree : t.free = s.free) :
    t.Wf D ∧ t.Refs D held := by
  have hcases : ∀ {d' v' f}, d' ∈ D → v'.User → frameOf (t.pte d' v') = some f →
      f = g ∨ frameOf (s.pte d' v') = some f := by
    intro d' v' f hd' hv' hf
    rw [h.maps d' hd' v' hv'] at hf
    split at hf
    · exact .inl (Option.some.inj hf).symm
    · exact .inr hf
  refine ⟨{ toTables := hwf.toTables.of_table h.table, structural := ?_, mappedLt := ?_
            mappedNot := ?_, mappedFree := ?_ }, ?_⟩
  · intro f hf
    rw [hfree]
    exact hwf.structural ((structural_congr h.table).mp hf)
  · intro d' v' f hd' hv' hf
    rcases hcases hd' hv' hf with rfl | hs
    · exact hlt
    · exact hwf.mappedLt hd' hv' hs
  · intro d' v' f hd' hv' hf
    rw [structural_congr h.table]
    rcases hcases hd' hv' hf with rfl | hs
    · exact hg
    · exact hwf.mappedNot hd' hv' hs
  · intro d' v' f hd' hv' hf
    rw [hfree]
    rcases hcases hd' hv' hf with rfl | hs
    · exact hgfree
    · exact hwf.mappedFree hd' hv' hs
  · intro f hf
    rw [structural_congr h.table] at hf
    have hrf := hr f hf
    rw [href, h.mappings_some hd hv hold, hrf]
    dsimp only
    by_cases hfg : f = g
    · subst hfg
      have hnot : (d, v) ∉ mappings D s f := by
        rintro ⟨-, -, hf'⟩
        rw [hold] at hf'
        cases hf'
      rw [if_pos rfl, if_pos rfl, Set.ncard_insert_of_notMem hnot (Set.toFinite _)]
      omega
    · simp [hfg]

end Remap

/-! ### `get_pte` -/

section GetPte

variable {D : Set Ppn} {s : Vm} {d f : Ppn} {la : Word}

theorem entryRef_of_table (hf : s.table d (pdx la) = some f) (hlt : f.toNat < npage) :
    s.entryRef d la = .ok ⟨f, ptx la⟩ := by
  obtain ⟨-, hppn⟩ := frameOf_eq_some.mp hf
  unfold entryRef kaddr
  rw [ppn_mask, hppn, if_pos hlt]
  rfl

theorem getPte_have (ht : s.Tables D) (hd : d ∈ D) (hu : (Vpage.of la).User)
    (hf : s.table d (pdx la) = some f) (create : Bool) :
    s.getPte d la create = .ok (some ⟨f, ptx la⟩, s) := by
  have hp : ¬(s.mem d (pdx la) &&& pteP = 0) := (frameOf_eq_some.mp hf).1
  have hlt := ht.tableLt hd (Vpage.of_pdx la ▸ hu.pdx_lt) hf
  unfold getPte
  rw [if_neg hp, entryRef_of_table hf hlt]
  rfl

theorem ptep_of_table (hf : s.table d (pdx la) = some f) :
    s.ptep d (Vpage.of la) = some ⟨f, ptx la⟩ := by
  rw [ptep, Vpage.of_pdx, Vpage.of_ptx, hf]
  rfl

/-- Looking an entry up. -/
theorem getPte_find (ht : s.Tables D) (hd : d ∈ D) (hu : (Vpage.of la).User) :
    s.getPte d la false = .ok (s.ptep d (Vpage.of la), s) := by
  cases hf : s.table d (pdx la) with
  | none =>
    unfold getPte ptep
    rw [Vpage.of_pdx, hf]
    simp [frameOf_eq_none.mp hf, pure, Except.pure]
  | some f => rw [getPte_have ht hd hu hf, ptep_of_table hf]

theorem allocPage_some {s : Vm} (h : s.allocPage = .ok (some f, t)) :
    s.free f = true ∧ f.toNat < npage ∧ t = { s with free := update s.free f false } := by
  unfold allocPage at h
  split at h
  · rename_i page hfind
    obtain ⟨rfl, rfl⟩ := h
    refine ⟨List.find?_some hfind, ?_, rfl⟩
    obtain ⟨i, hi, rfl⟩ := List.mem_map.mp (List.mem_of_find?_eq_some hfind)
    rw [List.mem_range] at hi
    exact (mod_le _ _).trans_lt hi
  · split at h <;> cases h

theorem allocPage_none (h : s.allocPage = .ok (none, t)) : t = s := by
  unfold allocPage at h
  split at h
  · cases h
  · split at h
    · cases h
    · cases h
      rfl

theorem allocPage_of_free (hf : s.free f = true) (hlt : f.toNat < npage) :
    ∃ g t, s.allocPage = .ok (some g, t) := by
  have hmem : f ∈ (List.range npage).map (BitVec.ofNat 20) :=
    List.mem_map.mpr ⟨f.toNat, List.mem_range.mpr hlt, BitVec.ofNat_toNat .. ▸ BitVec.setWidth_eq f⟩
  obtain ⟨g, hg⟩ := Option.isSome_iff_exists.mp (List.find?_isSome.mpr ⟨f, hmem, hf⟩)
  unfold allocPage
  rw [hg]
  exact ⟨g, _, rfl⟩

/-- A new page table: a frame that was free, cleared, under one index of the directory. -/
def withTable (s : Vm) (d : Ppn) (x : BitVec 10) (f : Ppn) : Vm :=
  { s with
    free := update s.free f false
    ref := update s.ref f 1
    mem := update (update s.mem d
      (update (s.mem d) x (page2pa f ||| pteP ||| pteW ||| pteU))) f fun _ => 0 }

theorem frameOf_newTable (f : Ppn) : frameOf (page2pa f ||| pteP ||| pteW ||| pteU) = some f := by
  refine frameOf_eq_some.mpr ⟨?_, ?_⟩
  · intro h
    have hbit := congrArg (fun w : Word => w.getLsbD 0) h
    simp [pteP, pteW, pteU] at hbit
  · rw [ppn_or (by decide), ppn_or (by decide), ppn_or (by decide), ppn_page2pa]

/-- What `get_pte` may do on the way: the map is the same, tables may have been added in
frames that were free, and nothing else of the state has changed. -/
structure Grown (D : Set Ppn) (s t : Vm) : Prop where
  wf : t.Wf D
  refs : ∀ held, s.Refs D held → t.Refs D held
  pte : ∀ d ∈ D, ∀ v : Vpage, v.User → t.pte d v = s.pte d v
  rest : t = { s with mem := t.mem, ref := t.ref, free := t.free }
  claimed : ∀ f, s.free f = false → ¬Structural D s f → t.free f = false ∧ ¬Structural D t f

theorem Grown.refl (hwf : s.Wf D) : Grown D s s :=
  ⟨hwf, fun _ h => h, fun _ _ _ _ => rfl, rfl, fun _ hf hs => ⟨hf, hs⟩⟩

section WithTable

variable {x : BitVec 10} {f g : Ppn}

theorem dir_ne_of_free (hwf : s.Guarded D) (hd : d ∈ D) (hf : s.free f = true) : d ≠ f := by
  rintro rfl
  rw [hwf.structural (.inl hd)] at hf
  cases hf

theorem withTable_table (hwf : s.Guarded D) (hf : s.free f = true) {d' : Ppn} (hd' : d' ∈ D)
    (x' : BitVec 10) :
    (s.withTable d x f).table d' x' = if d' = d ∧ x' = x then some f else s.table d' x' := by
  have hne := dir_ne_of_free hwf hd' hf
  unfold table withTable
  dsimp only
  rw [update_of_ne hne]
  by_cases hdd : d' = d
  · subst hdd
    rw [update_self]
    by_cases hx : x' = x
    · subst hx
      rw [update_self, if_pos ⟨rfl, rfl⟩, frameOf_newTable]
    · rw [update_of_ne hx, if_neg fun h => hx h.2]
  · rw [update_of_ne hdd, if_neg fun h => hdd h.1]

theorem withTable_structural (hwf : s.Guarded D) (hf : s.free f = true) (hd : d ∈ D)
    (hx : x.toNat < 512) (hnone : s.table d x = none) :
    Structural D (s.withTable d x f) g ↔ Structural D s g ∨ g = f := by
  constructor
  · rintro (hg | ⟨d', hd', x', hx', ht⟩)
    · exact .inl (.inl hg)
    · rw [withTable_table hwf hf hd'] at ht
      split at ht
      · exact .inr (Option.some.inj ht).symm
      · exact .inl (.inr ⟨d', hd', x', hx', ht⟩)
  · rintro ((hg | ⟨d', hd', x', hx', ht⟩) | rfl)
    · exact .inl hg
    · refine .inr ⟨d', hd', x', hx', ?_⟩
      rw [withTable_table hwf hf hd', if_neg, ht]
      rintro ⟨rfl, rfl⟩
      rw [hnone] at ht
      cases ht
    · refine .inr ⟨d, hd, x, hx, ?_⟩
      rw [withTable_table hwf hf hd, if_pos ⟨rfl, rfl⟩]

theorem withTable_pte (hwf : s.Guarded D) (hf : s.free f = true) (hd : d ∈ D)
    (hnone : s.table d x = none) {d' : Ppn} (hd' : d' ∈ D) (hv : v.User) :
    (s.withTable d x f).pte d' v = s.pte d' v := by
  simp only [pte, withTable_table hwf hf hd']
  by_cases hdx : d' = d ∧ v.pdx = x
  · obtain ⟨rfl, rfl⟩ := hdx
    simp [hnone, withTable]
  · rw [if_neg hdx]
    cases ht : s.table d' v.pdx with
    | none => rfl
    | some g =>
      have hgf : g ≠ f := by
        rintro rfl
        rw [hwf.structural (.inr ⟨d', hd', _, hv.pdx_lt, ht⟩)] at hf
        cases hf
      have hgd : g ≠ d := fun h => hwf.tableNotDir hd' hv.pdx_lt ht (h ▸ hd)
      simp only [withTable, update_of_ne hgf, update_of_ne hgd]

theorem withTable_free (hg : s.free g = false) : (s.withTable d x f).free g = false := by
  simp only [withTable, Function.update_apply]
  split
  · rfl
  · exact hg

theorem withTable_guarded (hwf : s.Guarded D) (hd : d ∈ D) (hx : x.toNat < 512)
    (hf : s.free f = true) (hlt : f.toNat < npage) (hnone : s.table d x = none) :
    (s.withTable d x f).Guarded D := by
  have hnots : ¬Structural D s f := by
    intro hs
    rw [hwf.structural hs] at hf
    cases hf
  have hold : ∀ {d' x' g}, d' ∈ D → (s.withTable d x f).table d' x' = some g →
      d' = d ∧ x' = x ∧ g = f ∨ s.table d' x' = some g := by
    intro d' x' g hd' ht
    rw [withTable_table hwf hf hd'] at ht
    split at ht
    · rename_i h
      exact .inl ⟨h.1, h.2, (Option.some.inj ht).symm⟩
    · exact .inr ht
  have hnew : ∀ {d' x'}, d' ∈ D → x'.toNat < 512 → s.table d' x' ≠ some f :=
    fun hd' hx' ht => hnots (.inr ⟨_, hd', _, hx', ht⟩)
  refine { tableLt := ?_, tableNotDir := ?_, tableInj := ?_, structural := ?_ }
  · intro d' x' g hd' hx' ht
    rcases hold hd' ht with ⟨-, -, rfl⟩ | ht
    · exact hlt
    · exact hwf.tableLt hd' hx' ht
  · intro d' x' g hd' hx' ht
    rcases hold hd' ht with ⟨-, -, rfl⟩ | ht
    · exact fun hg => hnots (.inl hg)
    · exact hwf.tableNotDir hd' hx' ht
  · intro d1 d2 x1 x2 g hd1 hd2 hx1 hx2 ht1 ht2
    rcases hold hd1 ht1 with ⟨hd1', hx1', hg1⟩ | ht1 <;>
      rcases hold hd2 ht2 with ⟨hd2', hx2', hg2⟩ | ht2
    · exact ⟨hd1'.trans hd2'.symm, hx1'.trans hx2'.symm⟩
    · exact absurd (hg1 ▸ ht2) (hnew hd2 hx2)
    · exact absurd (hg2 ▸ ht1) (hnew hd1 hx1)
    · exact hwf.tableInj hd1 hd2 hx1 hx2 ht1 ht2
  · intro g hg
    rcases (withTable_structural hwf hf hd hx hnone).mp hg with hs | rfl
    · exact withTable_free (hwf.structural hs)
    · simp [withTable]

theorem withTable_grown (hwf : s.Wf D) (hd : d ∈ D) (hx : x.toNat < 512) (hf : s.free f = true)
    (hlt : f.toNat < npage) (hnone : s.table d x = none) : Grown D s (s.withTable d x f) := by
  have hstruct := fun g => withTable_structural (g := g) hwf.guarded hf hd hx hnone
  have hpte := fun d' (hd' : d' ∈ D) v (hv : Vpage.User v) =>
    withTable_pte (x := x) hwf.guarded hf hd hnone hd' hv
  have hguard := withTable_guarded hwf.guarded hd hx hf hlt hnone
  refine ⟨{ toTables := hguard.toTables, structural := hguard.structural, mappedLt := ?_
            mappedNot := ?_, mappedFree := ?_ }, ?_, hpte, rfl, ?_⟩
  · intro d' v g hd' hv hg
    rw [hpte d' hd' v hv] at hg
    exact hwf.mappedLt hd' hv hg
  · intro d' v g hd' hv hg hs
    rw [hpte d' hd' v hv] at hg
    rcases (hstruct g).mp hs with hs | rfl
    · exact hwf.mappedNot hd' hv hg hs
    · rw [hwf.mappedFree hd' hv hg] at hf
      cases hf
  · intro d' v g hd' hv hg
    rw [hpte d' hd' v hv] at hg
    exact withTable_free (hwf.mappedFree hd' hv hg)
  · intro held hr g hg
    rw [hstruct g, not_or] at hg
    have hmap : mappings D (s.withTable d x f) g = mappings D s g := by
      ext ⟨d', v⟩
      refine and_congr_right fun hd' => and_congr_right fun hv => ?_
      rw [hpte d' hd' v hv]
    rw [hmap, ← hr g hg.1]
    exact update_of_ne hg.2 _ _
  · intro g hg hs
    refine ⟨withTable_free hg, fun h => ?_⟩
    rcases (hstruct g).mp h with h | rfl
    · exact hs h
    · rw [hf] at hg
      cases hg

end WithTable

/-- Where there is no page table, one is made in the frame that `alloc_page` returns. -/
theorem getPte_new (hg : s.Guarded D) (hd : d ∈ D) (hnone : s.table d (pdx la) = none)
    (ha : s.allocPage = .ok (some f, t)) :
    s.getPte d la true = .ok (some ⟨f, ptx la⟩, s.withTable d (pdx la) f) ∧
      (s.withTable d (pdx la) f).table d (pdx la) = some f := by
  obtain ⟨hfree, hlt, rfl⟩ := allocPage_some ha
  have htable : (s.withTable d (pdx la) f).table d (pdx la) = some f := by
    rw [withTable_table hg hfree hd, if_pos ⟨rfl, rfl⟩]
  have hkaddr : kaddr (page2pa f) = .ok f := by
    rw [kaddr, ppn_page2pa, if_pos hlt]
  refine ⟨?_, htable⟩
  unfold getPte
  rw [if_pos (frameOf_eq_none.mp hnone), if_neg (by decide), ha]
  dsimp only [bind, Except.bind]
  rw [hkaddr]
  dsimp only
  -- the state reached is `withTable`
  rw [show ∀ t : Vm, t = s.withTable d (pdx la) f → t.entryRef d la = .ok ⟨f, ptx la⟩ from
    fun t ht => ht ▸ entryRef_of_table htable hlt]
  · rfl
  · rfl

variable {o : Option PteRef}

/-- What `get_pte` does when it may make a page table. -/
theorem getPte_cases (hg : s.Guarded D) (hd : d ∈ D) (hu : (Vpage.of la).User)
    (h : s.getPte d la true = .ok (o, t)) :
    ∃ f, o = some ⟨f, ptx la⟩ ∧ t.table d (pdx la) = some f ∧
      (t = s ∨ s.table d (pdx la) = none ∧ s.free f = true ∧ f.toNat < npage ∧
        t = s.withTable d (pdx la) f) := by
  cases hf : s.table d (pdx la) with
  | some f =>
    rw [getPte_have hg.toTables hd hu hf] at h
    cases h
    exact ⟨f, rfl, hf, .inl rfl⟩
  | none =>
    cases ha : s.allocPage with
    | error e =>
      unfold getPte at h
      rw [if_pos (frameOf_eq_none.mp hf), if_neg (by decide), ha] at h
      cases h
    | ok p =>
      obtain ⟨page, s1⟩ := p
      cases page with
      | none =>
        unfold getPte at h
        rw [if_pos (frameOf_eq_none.mp hf), if_neg (by decide), ha] at h
        cases h
      | some f =>
        obtain ⟨heq, htable⟩ := getPte_new hg hd hf ha
        obtain ⟨hfree, hlt, -⟩ := allocPage_some ha
        rw [heq] at h
        cases h
        exact ⟨f, rfl, htable, .inr ⟨rfl, hfree, hlt, rfl⟩⟩

/-- Looking an entry up, with a page table made for it where there is none. -/
theorem getPte_create (hwf : s.Wf D) (hd : d ∈ D) (hu : (Vpage.of la).User)
    (h : s.getPte d la true = .ok (o, t)) :
    ∃ r, o = some r ∧ t.ptep d (Vpage.of la) = some r ∧ Grown D s t := by
  have hx : (pdx la).toNat < 512 := Vpage.of_pdx la ▸ hu.pdx_lt
  obtain ⟨f, rfl, htable, rfl | ⟨hnone, hfree, hlt, rfl⟩⟩ := getPte_cases hwf.guarded hd hu h
  · exact ⟨_, rfl, ptep_of_table htable, Grown.refl hwf⟩
  · exact ⟨_, rfl, ptep_of_table htable, withTable_grown hwf hd hx hfree hlt hnone⟩

end GetPte

end Vm

end UcoreMips.Kernel
