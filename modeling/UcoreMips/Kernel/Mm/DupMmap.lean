import UcoreMips.Kernel.Mm.FrameCounts
import UcoreMips.Kernel.Mm.VmaSet

/-!
# UcoreMips.Kernel.Mm.DupMmap

**`fork` copies the address space.** `dup_mmap` into an address space with no pages makes a
copy of every page that is present in a range of the old one: the frames are new, each mapped
once, with the bytes and the permissions of the old ones, and no other address space is
touched (`dup_mmap_copies`).

The pages are followed by their numbers, since `copy_range` goes over a range by addresses and
skips what a missing page table would hold. `Copied` says which pages have been copied so far.
-/

namespace UcoreMips.Kernel

open UcoreMips.Lib BitVec Set Vpage
open Emulator (Word)

/-! ### Pages by number -/

namespace Vpage

/-- The number of the page. -/
def num (v : Vpage) : Nat := 2 * v.vpn2.toNat + v.odd.toNat

theorem of_num (la : Word) : (of la).num = la.toNat / 4096 := by
  simp only [num, of, BitVec.extractLsb'_toNat, Nat.shiftRight_eq_div_pow]
  have := la.isLt
  omega

variable {v w : Vpage}

theorem num_inj (h : v.num = w.num) : v = w := by
  have hv := v.odd.isLt
  have hw := w.odd.isLt
  simp only [num] at h
  have hvpn : v.vpn2 = w.vpn2 := eq_of_toNat_eq (by omega)
  have hodd : v.odd = w.odd := eq_of_toNat_eq (by omega)
  cases v
  cases w
  simp_all

/-- A page table holds the entries of 1024 pages. -/
theorem pdx_eq_of_num (h : v.num / 1024 = w.num / 1024) : v.pdx = w.pdx := by
  simp only [num] at h
  simp only [pdx]
  rw [show v.vpn2.toNat / 512 = w.vpn2.toNat / 512 by omega]

end Vpage

/-- The pages of a range. -/
def Vma.pages (vma : Vma) : Set Vpage :=
  {v | vma.vmStart.toNat ≤ 4096 * v.num ∧ 4096 * v.num < vma.vmEnd.toNat}

/-- The range can be given to `copy_range`: whole pages of user space. -/
def Vma.UserRange (vma : Vma) : Prop :=
  vma.vmStart % pgSize = 0 ∧ vma.vmEnd % pgSize = 0 ∧ userAccess vma.vmStart vma.vmEnd = true

/-- The pages of an address space. -/
def Mm.pages (mm : Mm) : Set Vpage := {v | ∃ vma ∈ mm.mmapList, v ∈ vma.pages}

namespace Vma

variable {vma a b : Vma}

theorem UserRange.aligned (h : vma.UserRange) :
    vma.vmStart.toNat % 4096 = 0 ∧ vma.vmEnd.toNat % 4096 = 0 :=
  ⟨congrArg BitVec.toNat h.1, congrArg BitVec.toNat h.2.1⟩

theorem UserRange.bounds (h : vma.UserRange) :
    vma.vmStart.toNat < vma.vmEnd.toNat ∧ vma.vmEnd.toNat ≤ 0x80000000 := by
  have hacc := h.2.2
  simp only [userAccess, decide_eq_true_eq] at hacc
  exact hacc.2

theorem UserRange.lt (h : vma.UserRange) : vma.vmStart < vma.vmEnd := h.bounds.1

theorem pages_user (h : vma.UserRange) (hv : v ∈ vma.pages) : v.User := by
  have hle := h.bounds.2
  obtain ⟨-, hlt⟩ := hv
  unfold Vpage.num at hlt
  unfold Vpage.User
  omega

theorem Apart.disjoint (h : Apart a b) : Disjoint a.pages b.pages := by
  rw [disjoint_left]
  intro v ha hb
  obtain ⟨ha1, ha2⟩ := ha
  obtain ⟨hb1, hb2⟩ := hb
  rcases h with h | h
  · have : a.vmEnd.toNat ≤ b.vmStart.toNat := h
    omega
  · have : b.vmEnd.toNat ≤ a.vmStart.toNat := h
    omega

end Vma

variable {mm : Mm} {vma : Vma} {la : Word}

/-- `insert_vma_struct` keeps the list in order. -/
theorem Mm.insertVmaStruct_spec (hvma : vma.UserRange) (hok : ∀ a ∈ mm.mmapList, a.UserRange)
    (hsorted : mm.mmapList.Pairwise Vma.Before) (hapart : ∀ a ∈ mm.mmapList, vma.Apart a) :
    ∃ mm', mm.insertVmaStruct vma = .ok mm' ∧ mm'.pgdir = mm.pgdir ∧
      mm'.mmapList.Perm (vma :: mm.mmapList) ∧ mm'.mmapList.Pairwise Vma.Before := by
  have hordered : Vma.Ordered mm.mmapList := ⟨hsorted, fun a ha => (hok a ha).lt⟩
  obtain ⟨hbefore, hafter⟩ := hordered.around hvma.lt hapart
  have hsplit := List.takeWhile_append_dropWhile (l := mm.mmapList)
    (p := fun a => decide (a.vmStart ≤ vma.vmStart))
  refine ⟨_, Mm.insertVmaStruct_eq hordered hvma.lt hapart, rfl, ?_, ?_⟩
  · conv_rhs => rw [← hsplit]
    exact List.perm_middle
  · exact (Vma.Ordered.split (hsplit.symm ▸ hordered) hvma.lt hbefore hafter).sorted

theorem add_pgSize (hla : la < userTop) : (la + pgSize).toNat = la.toNat + 4096 := by
  have h : la.toNat < 0x80000000 := hla
  rw [toNat_add, show pgSize.toNat = 4096 from rfl]
  omega

/-- The address behind the page table of an address. -/
theorem roundDown_ptSize (hla : la < userTop) :
    (roundDown (la + ptSize) ptSize).toNat = (la.toNat / 4194304 + 1) * 4194304 := by
  have h : la.toNat < 0x80000000 := hla
  have hadd : (la + ptSize).toNat = la.toNat + 4194304 := by
    rw [toNat_add, show ptSize.toNat = 4194304 from rfl]
    omega
  rw [roundDown, toNat_sub, toNat_umod, hadd, show ptSize.toNat = 4194304 from rfl]
  omega

namespace Vm

variable {D : Set Ppn} {s t u : Vm} {d dst src page f : Ppn} {la : Word} {r : PteRef}
  {P : Set Vpage} {o : Option PteRef}

/-! ### Steps that leave every page alone -/

/-- The step took frames at most, and wrote to no frame that is mapped. -/
structure Aside (D : Set Ppn) (s t : Vm) : Prop extends Took D s t where
  mem : ∀ f, (mappings D s f).Nonempty → t.mem f = s.mem f

theorem getPte_aside (hwf : s.Wf D) (hd : d ∈ D) (hu : (Vpage.of la).User)
    (h : s.getPte d la true = .ok (o, t)) : Aside D s t := by
  obtain ⟨-, -, -, htook⟩ := getPte_took hwf hd hu h
  refine ⟨htook, fun f ⟨k, hk⟩ => ?_⟩
  obtain ⟨g, -, -, rfl | ⟨-, hfree, -, rfl⟩⟩ := getPte_cases hwf.guarded hd hu h
  · rfl
  · have hfg : f ≠ g := by
      rintro rfl
      rw [hwf.mappedFree hk.1 hk.2.1 hk.2.2] at hfree
      cases hfree
    have hfd : f ≠ d := fun heq => hwf.mappedNot hk.1 hk.2.1 hk.2.2 (.inl (heq ▸ hd))
    simp only [withTable, Function.update_of_ne hfg, Function.update_of_ne hfd]

theorem allocPage_aside (hwf : s.Wf D) (h : s.allocPage = .ok (some page, t)) : Aside D s t := by
  obtain ⟨htook, -⟩ := allocPage_took hwf h
  obtain ⟨-, -, rfl⟩ := allocPage_some h
  exact ⟨htook, fun _ _ => rfl⟩

theorem mappings_of_free (hwf : s.Wf D) (hf : s.free f = true) : mappings D s f = ∅ := by
  refine eq_empty_of_forall_notMem fun k hk => ?_
  rw [hwf.mappedFree hk.1 hk.2.1 hk.2.2] at hf
  cases hf

theorem fill_aside (hwf : s.Wf D) (hdata : ¬Structural D s page) (c : BitVec 10 → Word)
    (hmap : mappings D s page = ∅) : Aside D s (s.fill page c) := by
  refine ⟨fill_took hwf hdata c, fun f hf => ?_⟩
  have hne : f ≠ page := by
    rintro rfl
    exact hf.ne_empty hmap
  exact Function.update_of_ne hne _ _

/-- Making a page table in one directory does not move the entries of another. -/
theorem getPte_load (hwf : s.Wf D) (hdst : dst ∈ D) (hsrc : src ∈ D) (hne : src ≠ dst)
    (hu : (Vpage.of la).User) (h : s.getPte dst la true = .ok (o, t))
    (hr : s.ptep src (Vpage.of la) = some r) : t.load r = s.pte src (Vpage.of la) := by
  have hpte := (getPte_aside hwf hdst hu h).pte src hsrc _ hu
  obtain ⟨g, -, -, rfl | ⟨-, hfree, -, rfl⟩⟩ := getPte_cases hwf.guarded hdst hu h
  · exact load_of_ptep hr
  · rw [← hpte]
    refine load_of_ptep ?_
    rw [ptep, withTable_table hwf.guarded hfree hsrc, if_neg fun h => hne h.1]
    exact hr

/-! ### What has been copied -/

/-- The directory `dst` is a new one: it is not in use, and none of its pages is present. -/
structure Fresh (D : Set Ppn) (dst src : Ppn) (s : Vm) : Prop extends Exact D s where
  dstMem : dst ∈ D
  srcMem : src ∈ D
  ne : src ≠ dst
  cur : s.curPgdir ≠ some dst
  empty : ∀ v : Vpage, v.User → frameOf (s.pte dst v) = none

/-- The entry of a copy: the old permissions, and a new frame. -/
def copyEntry (s : Vm) (src : Ppn) (v : Vpage) (new : Ppn) : Word :=
  page2pa new ||| pteP ||| (s.pte src v &&& pteUser)

/-- From `s` to `t` the pages `P` were copied from `src` to `dst`. -/
structure Copied (D : Set Ppn) (dst src : Ppn) (P : Set Vpage) (s t : Vm) : Prop extends
    Exact D t where
  cur : t.curPgdir = s.curPgdir
  others : ∀ d ∈ D, d ≠ dst → ∀ v : Vpage, v.User → t.pte d v = s.pte d v
  free : ∀ f, t.free f = true → s.free f = true
  mem : ∀ f, (mappings D s f).Nonempty → t.mem f = s.mem f
  absent : ∀ v : Vpage, v.User → v ∉ P ∨ frameOf (s.pte src v) = none →
    frameOf (t.pte dst v) = none
  copy : ∀ v : Vpage, v.User → v ∈ P → ∀ f, frameOf (s.pte src v) = some f →
    ∃ new, t.pte dst v = s.copyEntry src v new ∧ s.free new = true ∧ t.mem new = s.mem f
  inj : ∀ v w : Vpage, v.User → w.User → ∀ new, frameOf (t.pte dst v) = some new →
    frameOf (t.pte dst w) = some new → v = w

theorem copyEntry_frame (s : Vm) (src : Ppn) (v : Vpage) (new : Ppn) :
    frameOf (s.copyEntry src v new) = some new :=
  (newEntry new (by rw [BitVec.and_assoc]; exact BitVec.and_zero)).1

namespace Copied

theorem start (h : Fresh D dst src s) : Copied D dst src ∅ s s where
  toExact := h.toExact
  cur := rfl
  others _ _ _ _ _ := rfl
  free _ hf := hf
  mem _ _ := rfl
  absent v hv _ := h.empty v hv
  copy _ _ hv := hv.elim
  inj v w hv _ new hnew _ := by
    rw [h.empty v hv] at hnew
    cases hnew

/-- Only the pages that are present count. -/
theorem congr {Q : Set Vpage} (h : Copied D dst src P s t)
    (heq : ∀ v : Vpage, v.User → frameOf (s.pte src v) ≠ none → (v ∈ P ↔ v ∈ Q)) :
    Copied D dst src Q s t := by
  refine { h with absent := fun v hv hor => ?_, copy := fun v hv hQ f hf => ?_ }
  · by_cases hnone : frameOf (s.pte src v) = none
    · exact h.absent v hv (.inr hnone)
    · exact h.absent v hv (.inl (mt (heq v hv hnone).mp (hor.resolve_right hnone)))
  · have hsome : frameOf (s.pte src v) ≠ none := by
      rw [hf]
      exact Option.some_ne_none f
    exact h.copy v hv ((heq v hv hsome).mpr hQ) f hf

section Copied

variable (h : Copied D dst src P s t) (hs : Fresh D dst src s)

include h hs

/-- What was mapped is still mapped, in the same place. -/
theorem mapped (hf : (mappings D s f).Nonempty) : (mappings D t f).Nonempty := by
  obtain ⟨⟨d, v⟩, hd, hv, hk⟩ := hf
  have hne : d ≠ dst := by
    rintro rfl
    rw [hs.empty v hv] at hk
    cases hk
  exact ⟨(d, v), hd, hv, by rw [h.others d hd hne v hv]; exact hk⟩

theorem aside (ha : Aside D t u) : Copied D dst src P s u where
  toExact := ha.exact h.toExact
  cur := by
    rw [ha.rest]
    exact h.cur
  others d hd hne v hv := (ha.pte d hd v hv).trans (h.others d hd hne v hv)
  free f hf := h.free f (ha.free f hf)
  mem f hf := (ha.mem f (h.mapped hs hf)).trans (h.mem f hf)
  absent v hv hor := by
    rw [ha.pte dst hs.dstMem v hv]
    exact h.absent v hv hor
  copy v hv hP f hf := by
    obtain ⟨new, hpte, hfree, hmem⟩ := h.copy v hv hP f hf
    refine ⟨new, (ha.pte dst hs.dstMem v hv).trans hpte, hfree, ?_⟩
    have hmapped : (mappings D t new).Nonempty :=
      ⟨(dst, v), hs.dstMem, hv, by rw [hpte]; exact copyEntry_frame s src v new⟩
    rw [ha.mem new hmapped, hmem]
  inj v w hv hw := by
    rw [ha.pte dst hs.dstMem v hv, ha.pte dst hs.dstMem w hw]
    exact h.inj v w hv hw

/-- A new frame with the bytes of the old one gets its mapping. -/
theorem mapNew {new : Ppn} (hv : v.User) (hP : v ∉ P) (hr : t.ptep dst v = some r)
    (hf : frameOf (s.pte src v) = some f) (hdata : DataFrame D t new)
    (hfree : s.free new = true) (hnew : mappings D t new = ∅) (hmem : t.mem new = s.mem f) :
    Copied D dst src (insert v P) s (t.mapEntry r new (s.copyEntry src v new)) := by
  have hw := copyEntry_frame s src v new
  have hnone := h.absent v hv (.inl hP)
  obtain ⟨hexact, -⟩ := h.toExact.mapEntry hs.dstMem hv hr hdata hw
  have hpte : ∀ d' ∈ D, ∀ v' : Vpage, v'.User →
      (t.mapEntry r new (s.copyEntry src v new)).pte d' v' =
        if d' = dst ∧ v' = v then s.copyEntry src v new else t.pte d' v' :=
    fun d' hd' v' hv' => mapEntry_pte h.toTables hs.dstMem hv hr hd' hv'
  have hstruct : Structural D t r.frame := by
    obtain ⟨g, hg, rfl⟩ := Option.map_eq_some_iff.mp hr
    exact .inr ⟨dst, hs.dstMem, v.pdx, hv.pdx_lt, hg⟩
  -- frames that hold no table are not written
  have hkeep : ∀ g, ¬Structural D t g →
      (t.mapEntry r new (s.copyEntry src v new)).mem g = t.mem g := by
    intro g hg
    have hne : g ≠ r.frame := fun heq => hg (heq ▸ hstruct)
    rw [mapEntry_mem]
    exact Function.update_of_ne hne _ _
  -- the new frame is mapped nowhere else
  have hother : ∀ w : Vpage, w.User → frameOf (t.pte dst w) ≠ some new := by
    intro w hw' heq
    have hin : (dst, w) ∈ mappings D t new := ⟨hs.dstMem, hw', heq⟩
    rw [hnew] at hin
    exact hin
  refine { toExact := hexact, cur := ?_, others := ?_, free := ?_, mem := ?_, absent := ?_,
           copy := ?_, inj := ?_ }
  · rw [← h.cur]
    unfold mapEntry
    rw [load_of_ptep hr, hnone]
    rfl
  · intro d hd hne w hw'
    rw [hpte d hd w hw', if_neg fun heq => hne heq.1]
    exact h.others d hd hne w hw'
  · intro g hg
    rcases mapEntry_free hg with hg | hg
    · exact h.free g hg
    · rw [load_of_ptep hr, hnone] at hg
      cases hg
  · intro g hg
    obtain ⟨k, hd, hv', hk⟩ := h.mapped hs hg
    rw [hkeep g (h.mappedNot hd hv' hk)]
    exact h.mem g hg
  · intro w hw' hor
    by_cases hwv : w = v
    · rw [hwv, hf] at hor
      rcases hor with hor | hor
      · exact absurd (mem_insert v P) hor
      · cases hor
    · rw [hpte dst hs.dstMem w hw', if_neg fun heq => hwv heq.2]
      exact h.absent w hw' (hor.imp_left (mt (mem_insert_of_mem v)))
  · intro w hw' hP' g hg
    by_cases hwv : w = v
    · subst hwv
      rw [hf] at hg
      cases hg
      refine ⟨new, ?_, hfree, ?_⟩
      · rw [hpte dst hs.dstMem w hw', if_pos ⟨rfl, rfl⟩]
      · rw [hkeep new hdata.data, hmem]
    · obtain ⟨old, hold, hofree, homem⟩ := h.copy w hw' (mem_of_mem_insert_of_ne hP' hwv) g hg
      have hmapped : frameOf (t.pte dst w) = some old := by
        rw [hold]
        exact copyEntry_frame s src w old
      refine ⟨old, ?_, hofree, ?_⟩
      · rw [hpte dst hs.dstMem w hw', if_neg fun heq => hwv heq.2, hold]
      · rw [hkeep old (h.mappedNot hs.dstMem hw' hmapped), homem]
  · intro x y hx hy n hxn hyn
    rw [hpte dst hs.dstMem x hx] at hxn
    rw [hpte dst hs.dstMem y hy] at hyn
    by_cases hxv : x = v <;> by_cases hyv : y = v
    · rw [hxv, hyv]
    · rw [if_pos ⟨rfl, hxv⟩, hw] at hxn
      rw [if_neg fun heq => hyv heq.2] at hyn
      cases hxn
      exact absurd hyn (hother y hy)
    · rw [if_pos ⟨rfl, hyv⟩, hw] at hyn
      rw [if_neg fun heq => hxv heq.2] at hxn
      cases hyn
      exact absurd hxn (hother x hx)
    · rw [if_neg fun heq => hxv heq.2] at hxn
      rw [if_neg fun heq => hyv heq.2] at hyn
      exact h.inj x y hx hy n hxn hyn

end Copied

end Copied

/-! ### The loops -/

/-- Copying came to a state in which no frame is left. -/
def NoFrames (D : Set Ppn) (dst src : Ppn) (s : Vm) : Prop :=
  ∃ P t, Copied D dst src P s t ∧ ∀ f, f.toNat < npage → t.free f = false

theorem Copied.noFrames (h : Copied D dst src P s t)
    (hno : ∀ f, f.toNat < npage → ¬t.free f = true) : NoFrames D dst src s :=
  ⟨P, t, h, fun f hf => Bool.not_eq_true _ ▸ hno f hf⟩

/-- The copy of one page. -/
theorem Copied.copyPage (h : Copied D dst src P s t) (hs : Fresh D dst src s)
    (hu : (Vpage.of la).User) (hP : Vpage.of la ∉ P) (hr : t.ptep src (Vpage.of la) = some r)
    (hf : frameOf (s.pte src (Vpage.of la)) = some f) :
    Ensures (fun _ => NoFrames D dst src s)
      (fun p => p.1 = some (la + pgSize) ∧ Copied D dst src (insert (Vpage.of la) P) s p.2)
      (t.copyPage dst r la) := by
  have hsrc := h.others src hs.srcMem hs.ne _ hu
  have hft : frameOf (t.pte src (Vpage.of la)) = some f := by rw [hsrc, hf]
  obtain ⟨hp, hppn⟩ := frameOf_eq_some.mp hft
  have hpage : pte2page (t.pte src (Vpage.of la)) = .ok f := by
    rw [pte2page, if_neg hp, hppn, if_pos (h.mappedLt hs.srcMem hu hft)]
  unfold Vm.copyPage
  cases hget : t.getPte dst la true with
  | error e =>
    refine h.noFrames fun g hg hfree => ?_
    obtain ⟨o, u, hret⟩ := getPte_returns h.toWf.guarded hs.dstMem hu hfree hg
    rw [hget] at hret
    cases hret
  | ok p =>
    obtain ⟨o, s1⟩ := p
    have haside1 := getPte_aside h.toWf hs.dstMem hu hget
    have h1 := h.aside hs haside1
    obtain ⟨g, rfl, htable, -⟩ := getPte_cases h.toWf.guarded hs.dstMem hu hget
    have hload := getPte_load h.toWf hs.dstMem hs.srcMem hs.ne hu hget hr
    dsimp only [bind, Except.bind]
    rw [hload, hpage]
    cases ha : s1.allocPage with
    | error e =>
      refine h1.noFrames fun x hx hfree => ?_
      obtain ⟨y, u, hret⟩ := allocPage_of_free hfree hx
      rw [ha] at hret
      cases hret
    | ok q =>
      obtain ⟨a, s2⟩ := q
      cases a with
      | none =>
        refine h1.noFrames fun x hx hfree => ?_
        obtain ⟨y, u, hret⟩ := allocPage_of_free hfree hx
        rw [ha] at hret
        cases hret
      | some new =>
        obtain ⟨htook2, hdata2, hfree1⟩ := allocPage_took h1.toWf ha
        have h2 := h1.aside hs (allocPage_aside h1.toWf ha)
        have hnew2 : mappings D s2 new = ∅ :=
          (htook2.mappings new).trans (mappings_of_free h1.toWf hfree1)
        have haside3 := fill_aside h2.toWf hdata2.data (s2.mem f) hnew2
        have h3 := h2.aside hs haside3
        -- the page table is there by now
        have htable3 : (s2.fill new (s2.mem f)).table dst (pdx la) = some g := by
          obtain ⟨-, -, rfl⟩ := allocPage_some ha
          rw [fill_table hdata2.data _ hs.dstMem]
          exact htable
        have hr3 := ptep_of_table htable3
        have hin : (s2.fill new (s2.mem f)).Inert dst (Vpage.of la) := .inl (h3.cur ▸ hs.cur)
        have hins : (s2.fill new (s2.mem f)).pageInsert dst new la
              (t.pte src (Vpage.of la) &&& pteUser) =
            .ok ((s2.fill new (s2.mem f)).mapEntry ⟨g, ptx la⟩ new
              (page2pa new ||| pteP ||| (t.pte src (Vpage.of la) &&& pteUser))) :=
          pageInsert_eq (getPte_have h3.toTables hs.dstMem hu htable3 true) h3.toTables hs.dstMem
            hu hin hr3 fun x hx => h3.mappedLt hs.dstMem hu hx
        have hmem : (s2.fill new (s2.mem f)).mem new = s.mem f := by
          rw [← h2.mem f ⟨(src, Vpage.of la), hs.srcMem, hu, hf⟩]
          exact Function.update_self ..
        have hdone := h3.mapNew hs hu hP hr3 hf (haside3.dataFrame hdata2)
          (h.free new (haside1.free new hfree1)) ((haside3.mappings new).trans hnew2) hmem
        unfold fill at hins
        dsimp only
        rw [hins, hsrc]
        exact ⟨rfl, hdone⟩

/-- A turn of `copy_range` at `la` goes on at `next`, and passes no page that is present. -/
structure TurnTo (src : Ppn) (s : Vm) (la next : Word) : Prop where
  aligned : next.toNat % 4096 = 0
  lt : la.toNat + 4096 ≤ next.toNat
  le : next.toNat ≤ 0x80000000
  skips : ∀ v : Vpage, v.User → frameOf (s.pte src v) ≠ none → la.toNat < 4096 * v.num →
    next.toNat ≤ 4096 * v.num

theorem turnTo_page (hla : la < userTop) (hal : la.toNat % 4096 = 0) :
    TurnTo src s la (la + pgSize) := by
  have h : la.toNat < 0x80000000 := hla
  refine ⟨?_, ?_, ?_, fun v _ _ hlt => ?_⟩ <;> rw [add_pgSize hla] <;> omega

theorem turnTo_table (hla : la < userTop) (hal : la.toNat % 4096 = 0)
    (hnone : ∀ v : Vpage, v.User → v.pdx = (Vpage.of la).pdx → frameOf (s.pte src v) = none) :
    TurnTo src s la (roundDown (la + ptSize) ptSize) := by
  have h : la.toNat < 0x80000000 := hla
  refine ⟨?_, ?_, ?_, fun v hv hsome hlt => ?_⟩ <;> rw [roundDown_ptSize hla]
  · omega
  · omega
  · omega
  · by_contra hlt'
    have hnum := of_num la
    exact hsome (hnone v hv (pdx_eq_of_num (by omega)))

theorem Copied.copyTurn (h : Copied D dst src P s t) (hs : Fresh D dst src s)
    (hla : la < userTop) (hal : la.toNat % 4096 = 0) (hP : Vpage.of la ∉ P) :
    Ensures (fun _ => NoFrames D dst src s)
      (fun p => ∃ next, p.1 = some next ∧ TurnTo src s la next ∧
        Copied D dst src (insert (Vpage.of la) P) s p.2)
      (Vm.copyTurn dst src t la) := by
  have hu := (user_of la).mpr hla
  -- a page that is not present need not be copied
  have hskip : frameOf (s.pte src (Vpage.of la)) = none →
      Copied D dst src (insert (Vpage.of la) P) s t := by
    intro hnone
    refine h.congr fun v _ hsome => ⟨mem_insert_of_mem _, fun hv => ?_⟩
    refine mem_of_mem_insert_of_ne hv ?_
    rintro rfl
    exact hsome hnone
  unfold Vm.copyTurn
  rw [getPte_find h.toTables hs.srcMem hu]
  cases hr : t.ptep src (Vpage.of la) with
  | none =>
    have hnone : ∀ v : Vpage, v.User → v.pdx = (Vpage.of la).pdx →
        frameOf (s.pte src v) = none := by
      intro v hv hpdx
      rw [ptep, Option.map_eq_none_iff, ← hpdx] at hr
      rw [← h.others src hs.srcMem hs.ne v hv, pte, hr]
      exact frameOf_zero
    exact ⟨_, rfl, turnTo_table hla hal hnone, hskip (hnone _ hu rfl)⟩
  | some r =>
    dsimp only [ok_bind]
    rw [load_of_ptep hr, h.others src hs.srcMem hs.ne _ hu]
    cases hf : frameOf (s.pte src (Vpage.of la)) with
    | none =>
      rw [if_pos (frameOf_eq_none.mp hf)]
      exact ⟨_, rfl, turnTo_page hla hal, hskip hf⟩
    | some f =>
      rw [if_neg (frameOf_eq_some.mp hf).1]
      refine (h.copyPage hs hu hP hr hf).mono (fun _ he => he) fun p hp => ?_
      exact ⟨_, hp.1, turnTo_page hla hal, hp.2⟩

/-- The loop of `copy_range` comes to its end, or to the last frame. -/
theorem Copied.rangeLoop {stop : Word} (hs : Fresh D dst src s) (hstop : stop ≤ userTop)
    (hstop' : stop.toNat % 4096 = 0) (fuel : Nat) (h : Copied D dst src P s t) (hla : la < stop)
    (hal : la.toNat % 4096 = 0) (hfuel : stop.toNat - la.toNat ≤ 4096 * fuel)
    (hP : ∀ v ∈ P, ¬(la.toNat ≤ 4096 * v.num ∧ 4096 * v.num < stop.toNat)) :
    Ensures (fun _ => NoFrames D dst src s)
      (fun p => p.1 = true ∧ Copied D dst src
        (P ∪ {v | la.toNat ≤ 4096 * v.num ∧ 4096 * v.num < stop.toNat}) s p.2)
      (Vm.rangeLoop (Vm.copyTurn dst src) stop fuel t la) := by
  induction fuel generalizing P t la with
  | zero =>
    have : la.toNat < stop.toNat := hla
    omega
  | succ fuel ih =>
    have hlt : la.toNat < stop.toNat := hla
    have hnum := of_num la
    have hfirst : Vpage.of la ∉ P := fun hv => hP _ hv (by omega)
    refine (h.copyTurn hs (Nat.lt_of_lt_of_le hla hstop) hal hfirst).bind ?_
    rintro ⟨o, u⟩ ⟨next, rfl, hnext, hcopied⟩
    have hadvance := hnext.lt
    dsimp only
    -- behind `la`, the pages that are present are those from `next` on
    have hpages : ∀ v : Vpage, v.User → frameOf (s.pte src v) ≠ none →
        (la.toNat ≤ 4096 * v.num ↔ v = Vpage.of la ∨ next.toNat ≤ 4096 * v.num) := by
      intro v hv hsome
      constructor
      · intro hle
        by_cases heq : la.toNat = 4096 * v.num
        · exact .inl (num_inj (by omega))
        · exact .inr (hnext.skips v hv hsome (by omega))
      · rintro (rfl | hle)
        · omega
        · omega
    by_cases hmore : next ≠ 0 ∧ next < stop
    · rw [if_pos hmore]
      have hltn : next.toNat < stop.toNat := hmore.2
      have hP' : ∀ v ∈ insert (Vpage.of la) P,
          ¬(next.toNat ≤ 4096 * v.num ∧ 4096 * v.num < stop.toNat) := by
        rintro v (rfl | hv)
        · omega
        · have := hP v hv
          omega
      refine (ih hcopied hmore.2 hnext.aligned (by omega) hP').mono (fun _ he => he) ?_
      rintro ⟨b, w⟩ ⟨hb, hw⟩
      refine ⟨hb, hw.congr fun v hv hsome => ?_⟩
      have := hpages v hv hsome
      simp only [mem_union, mem_insert_iff, mem_ofPred_eq, this]
      constructor
      · rintro ((rfl | hvP) | ⟨hle, hlt'⟩)
        · exact .inr ⟨.inl rfl, by omega⟩
        · exact .inl hvP
        · exact .inr ⟨.inr hle, hlt'⟩
      · rintro (hvP | ⟨rfl | hle, hlt'⟩)
        · exact .inl (.inr hvP)
        · exact .inl (.inl rfl)
        · exact .inr ⟨hle, hlt'⟩
    · rw [if_neg hmore]
      have hdone : stop.toNat ≤ next.toNat := by
        by_contra hlt'
        refine hmore ⟨?_, not_le.mp hlt'⟩
        rintro rfl
        exact absurd hadvance (by simp)
      refine ⟨rfl, hcopied.congr fun v hv hsome => ?_⟩
      have := hpages v hv hsome
      simp only [mem_union, mem_insert_iff, mem_ofPred_eq, this]
      constructor
      · rintro (rfl | hvP)
        · exact .inr ⟨.inl rfl, by omega⟩
        · exact .inl hvP
      · rintro (hvP | ⟨rfl | hle, hlt'⟩)
        · exact .inr hvP
        · exact .inl rfl
        · omega

variable {fuel : Nat}

theorem Copied.copyRange (h : Copied D dst src P s t) (hs : Fresh D dst src s)
    (hvma : vma.UserRange) (hfuel : 2 ^ 19 ≤ fuel) (hP : Disjoint P vma.pages) :
    Ensures (fun _ => NoFrames D dst src s)
      (fun p => p.1 = true ∧ Copied D dst src (P ∪ vma.pages) s p.2)
      (t.copyRange fuel dst src vma.vmStart vma.vmEnd) := by
  obtain ⟨hlt, hle⟩ := hvma.bounds
  obtain ⟨hal, hal'⟩ := hvma.aligned
  unfold Vm.copyRange overRange
  rw [if_neg (not_not.mpr ⟨hvma.1, hvma.2.1⟩), if_neg (not_not.mpr hvma.2.2)]
  exact Copied.rangeLoop hs hle hal' fuel h hlt hal (by omega)
    fun v hv hin => disjoint_left.mp hP hv hin

/-- The ranges one after the other, where `kmalloc` leaves the pages alone. -/
theorem Copied.dupVmas {kmalloc : Nat → Vm → Option Vm} (hfuel : 2 ^ 19 ≤ fuel)
    (hk : ∀ k t u, t.Wf D → kmalloc k t = some u → Aside D t u) (vmas : List Vma) {k : Nat}
    (hs : Fresh D mm.pgdir src s) (h : Copied D mm.pgdir src mm.pages s t)
    (hok : ∀ a ∈ vmas ++ mm.mmapList, a.UserRange)
    (hapart : (vmas ++ mm.mmapList).Pairwise Vma.Apart)
    (hsorted : mm.mmapList.Pairwise Vma.Before) :
    Ensures (fun _ => NoFrames D mm.pgdir src s)
      (fun p => (p.1 = false → ∃ k u, kmalloc k u = none) ∧
        (p.1 = true → p.2.1.pgdir = mm.pgdir ∧ p.2.1.mmapList.Perm (vmas ++ mm.mmapList) ∧
          p.2.1.mmapList.Pairwise Vma.Before ∧ Copied D mm.pgdir src p.2.1.pages s p.2.2))
      (Vm.dupVmas fuel src kmalloc k mm t vmas) := by
  induction vmas generalizing k mm t with
  | nil => exact ⟨fun hfalse => Bool.noConfusion hfalse, fun _ => ⟨rfl, List.Perm.refl _, hsorted, h⟩⟩
  | cons vma vmas ih =>
    unfold Vm.dupVmas
    cases hkm : kmalloc k t with
    | none => exact ⟨fun _ => ⟨k, t, hkm⟩, fun htrue => Bool.noConfusion htrue⟩
    | some u =>
      have hu := h.aside hs (hk k t u h.toWf hkm)
      obtain ⟨hall, -⟩ := List.pairwise_cons.mp hapart
      obtain ⟨mm', hins, hpgdir, hperm, hsorted'⟩ :=
        Mm.insertVmaStruct_spec (hok vma List.mem_cons_self)
          (fun a ha => hok a (List.mem_cons_of_mem _ (List.mem_append_right _ ha))) hsorted
          fun a ha => hall a (List.mem_append_right _ ha)
      have hdisj : Disjoint mm.pages vma.pages := by
        rw [disjoint_left]
        rintro v ⟨a, ha, hv⟩ hv'
        exact disjoint_left.mp (hall a (List.mem_append_right _ ha)).disjoint hv' hv
      have hpages : mm.pages ∪ vma.pages = mm'.pages := by
        ext v
        constructor
        · rintro (⟨a, ha, hv⟩ | hv)
          · exact ⟨a, hperm.mem_iff.mpr (List.mem_cons_of_mem _ ha), hv⟩
          · exact ⟨vma, hperm.mem_iff.mpr List.mem_cons_self, hv⟩
        · rintro ⟨a, ha, hv⟩
          rcases List.mem_cons.mp (hperm.mem_iff.mp ha) with rfl | ha
          · exact .inr hv
          · exact .inl ⟨a, ha, hv⟩
      -- the list of all ranges has been permuted
      have hmove : (vmas ++ mm'.mmapList).Perm (vma :: vmas ++ mm.mmapList) :=
        (hperm.append_left vmas).trans List.perm_middle
      have hcopy := hu.copyRange hs (hok vma List.mem_cons_self) hfuel hdisj
      rw [hpages] at hcopy
      rw [hins]
      rw [← hpgdir] at hcopy hs ⊢
      refine hcopy.bind ?_
      rintro ⟨b, w⟩ ⟨rfl, hw⟩
      refine (ih hs hw (fun a ha => hok a (hmove.mem_iff.mp ha))
        ((hmove.pairwise_iff fun h => h.symm).mpr hapart) hsorted').mono (fun _ he => he) ?_
      rintro p ⟨hp0, hp1⟩
      refine ⟨hp0, fun htrue => ?_⟩
      obtain ⟨h1, h2, h3, h4⟩ := hp1 htrue
      exact ⟨h1, h2.trans hmove, h3, h4⟩

/-! ### The copy of an address space -/

/-- From `s` to `t` the pages `P` of the directory `src` were duplicated in `dst`. -/
structure Duplicated (D : Set Ppn) (dst src : Ppn) (P : Set Vpage) (s t : Vm) : Prop where
  /-- The same pages are present, and nothing else is. -/
  present : ∀ v ∈ P, (frameOf (t.pte dst v)).isSome ↔ (frameOf (s.pte src v)).isSome
  outside : ∀ v : Vpage, v.User → v ∉ P → frameOf (t.pte dst v) = none
  /-- They have the same permissions and the same bytes. -/
  same : ∀ v ∈ P, ∀ f new, frameOf (s.pte src v) = some f → frameOf (t.pte dst v) = some new →
    t.pte dst v &&& pteUser = s.pte src v &&& pteUser ∧ t.mem new = s.mem f
  /-- Their frames were free, have one reference each, and are mapped nowhere else. -/
  frames : ∀ v : Vpage, v.User → ∀ new, frameOf (t.pte dst v) = some new →
    s.free new = true ∧ t.ref new = 1 ∧
      ∀ d ∈ D, ∀ w : Vpage, w.User → frameOf (t.pte d w) = some new → d = dst ∧ w = v
  /-- The other directories, their frames and the references to them are as before. -/
  others : ∀ d ∈ D, d ≠ dst → ∀ v : Vpage, v.User → t.pte d v = s.pte d v ∧
    ∀ f, frameOf (s.pte d v) = some f → t.mem f = s.mem f ∧ t.ref f = s.ref f ∧ t.free f = false

theorem copyEntry_perm (hp : s.pte src v &&& pteP ≠ 0) (new : Ppn) :
    s.copyEntry src v new &&& pteUser = s.pte src v &&& pteUser := by
  have hbit : s.pte src v &&& pteP = pteP := by
    rw [show pteP = BitVec.twoPow 32 0 by decide, BitVec.and_twoPow] at hp ⊢
    split
    · rfl
    · rename_i hbit
      rw [if_neg hbit] at hp
      exact absurd rfl hp
  have hflags := newEntry_flags new
    (show (s.pte src v &&& pteUser) &&& ~~~0x7#32 = 0 by rw [BitVec.and_assoc]; exact BitVec.and_zero)
  calc s.copyEntry src v new &&& pteUser = (s.copyEntry src v new &&& 0xfff#32) &&& pteUser := by
        rw [BitVec.and_assoc]
        rfl
    _ = ((s.pte src v &&& pteUser) ||| (s.pte src v &&& pteP)) &&& pteUser := by
        rw [copyEntry, hflags, hbit]
    _ = s.pte src v &&& pteUser := by
        rw [← BitVec.and_or_distrib_left, BitVec.and_assoc]
        rfl

theorem Copied.duplicated (h : Copied D dst src P s t) (hs : Fresh D dst src s)
    (hP : ∀ v ∈ P, v.User) : Duplicated D dst src P s t := by
  -- what `dst` maps was free
  have hwas : ∀ v : Vpage, v.User → ∀ new, frameOf (t.pte dst v) = some new →
      s.free new = true := by
    intro v hv new hnew
    by_cases hvP : v ∈ P
    · cases hf : frameOf (s.pte src v) with
      | none =>
        rw [h.absent v hv (.inr hf)] at hnew
        cases hnew
      | some f =>
        obtain ⟨new', hpte, hfree, -⟩ := h.copy v hv hvP f hf
        rw [hpte, copyEntry_frame] at hnew
        cases hnew
        exact hfree
    · rw [h.absent v hv (.inl hvP)] at hnew
      cases hnew
  refine { present := ?_, outside := ?_, same := ?_, frames := ?_, others := ?_ }
  · intro v hvP
    cases hf : frameOf (s.pte src v) with
    | none => rw [h.absent v (hP v hvP) (.inr hf)]
    | some f =>
      obtain ⟨new, hpte, -⟩ := h.copy v (hP v hvP) hvP f hf
      rw [hpte, copyEntry_frame]
      exact ⟨fun _ => rfl, fun _ => rfl⟩
  · exact fun v hv hvP => h.absent v hv (.inl hvP)
  · intro v hvP f new hf hnew
    obtain ⟨new', hpte, -, hmem⟩ := h.copy v (hP v hvP) hvP f hf
    rw [hpte, copyEntry_frame] at hnew
    cases hnew
    rw [hpte]
    exact ⟨copyEntry_perm (frameOf_eq_some.mp hf).1 _, hmem⟩
  · intro v hv new hnew
    have hfree := hwas v hv new hnew
    have honly : ∀ d ∈ D, ∀ w : Vpage, w.User → frameOf (t.pte d w) = some new →
        d = dst ∧ w = v := by
      intro d hd w hw heq
      by_cases hdd : d = dst
      · subst hdd
        exact ⟨rfl, h.inj w v hw hv new heq hnew⟩
      · rw [h.others d hd hdd w hw] at heq
        rw [hs.mappedFree hd hw heq] at hfree
        cases hfree
    refine ⟨hfree, ?_, honly⟩
    have hset : mappings D t new = {(dst, v)} := by
      ext ⟨d, w⟩
      constructor
      · rintro ⟨hd, hw, heq⟩
        obtain ⟨rfl, rfl⟩ := honly d hd w hw heq
        rfl
      · rintro ⟨rfl, rfl⟩
        exact ⟨hs.dstMem, hv, hnew⟩
    rw [h.refs new (h.mappedNot hs.dstMem hv hnew), hset, ncard_singleton]
    rfl
  · intro d hd hdd v hv
    have hpte := h.others d hd hdd v hv
    refine ⟨hpte, fun f hf => ?_⟩
    have hft : frameOf (t.pte d v) = some f := by rw [hpte, hf]
    have hset : mappings D t f = mappings D s f := by
      ext ⟨d', w⟩
      refine and_congr_right fun hd' => and_congr_right fun hw => ?_
      by_cases hdd' : d' = dst
      · subst hdd'
        rw [hs.empty w hw]
        constructor
        · intro heq
          have hfree := hwas w hw f heq
          rw [hs.mappedFree hd hv hf] at hfree
          cases hfree
        · intro heq
          cases heq
      · rw [h.others d' hd' hdd' w hw]
    refine ⟨h.mem f ⟨(d, v), hd, hv, hf⟩, ?_, h.mappedFree hd hv hft⟩
    rw [h.refs f (h.mappedNot hd hv hft), hset, hs.refs f (hs.mappedNot hd hv hf)]

/-- **`fork` copies the address space.** For an address space whose ranges are whole pages of
user space that do not overlap, `dup_mmap` into a new one comes to an end:
* it stops only where no frame is left, and fails only where `kmalloc` does;
* else the new address space has the same ranges, in order, and a copy of their pages. -/
theorem dup_mmap_copies {dst src : Mm} {kmalloc : Nat → Vm → Option Vm} {fuel : Nat}
    (hs : Fresh D dst.pgdir src.pgdir s) (hnew : dst.mmapList = [])
    (hok : ∀ a ∈ src.mmapList, a.UserRange) (hapart : src.mmapList.Pairwise Vma.Apart)
    (hk : ∀ k t u, t.Wf D → kmalloc k t = some u → Aside D t u) (hfuel : 2 ^ 19 ≤ fuel) :
    (∀ e, s.dupMmap fuel dst src kmalloc = .error e → NoFrames D dst.pgdir src.pgdir s) ∧
    (∀ dst' t, s.dupMmap fuel dst src kmalloc = .ok (false, dst', t) → ∃ k u, kmalloc k u = none) ∧
    ∀ dst' t, s.dupMmap fuel dst src kmalloc = .ok (true, dst', t) →
      dst'.pgdir = dst.pgdir ∧ dst'.mmapList.Perm src.mmapList ∧
      dst'.mmapList.Pairwise Vma.Before ∧
      (src.mmapList.Pairwise Vma.Before → dst'.mmapList = src.mmapList) ∧
      Duplicated D dst.pgdir src.pgdir src.pages s t := by
  have hstart : Copied D dst.pgdir src.pgdir dst.pages s s := by
    have hno : dst.pages = ∅ := by
      refine eq_empty_of_forall_notMem ?_
      rintro v ⟨a, ha, -⟩
      rw [hnew] at ha
      cases ha
    rw [hno]
    exact Copied.start hs
  have hrev : (src.mmapList.reverse ++ dst.mmapList).Perm src.mmapList := by
    rw [hnew, List.append_nil]
    exact List.reverse_perm _
  have hspec := Copied.dupVmas (k := 0) hfuel hk src.mmapList.reverse hs hstart
    (fun a ha => hok a (hrev.mem_iff.mp ha)) ((hrev.pairwise_iff fun h => h.symm).mpr hapart)
    (by rw [hnew]; exact List.Pairwise.nil)
  refine ⟨fun e he => hspec.of_error he, fun dst' t ht => (hspec.of_ok ht).1 rfl,
    fun dst' t ht => ?_⟩
  obtain ⟨hpgdir, hperm, hsorted, hcopied⟩ := (hspec.of_ok ht).2 rfl
  have hperm' : dst'.mmapList.Perm src.mmapList := hperm.trans hrev
  have hpages : dst'.pages = src.pages := by
    ext v
    exact exists_congr fun a => and_congr_left fun _ => hperm'.mem_iff
  rw [hpages] at hcopied
  refine ⟨hpgdir, hperm', hsorted, fun hsrc => ?_, hcopied.duplicated hs ?_⟩
  · refine hperm'.eq_of_pairwise (fun a b ha hb hab hba => ?_) hsorted hsrc
    have hlt := (hok b hb).bounds.1
    have hlt' := (hok a (hperm'.mem_iff.mp ha)).bounds.1
    have hab' : a.vmEnd.toNat ≤ b.vmStart.toNat := hab
    have hba' : b.vmEnd.toNat ≤ a.vmStart.toNat := hba
    omega
  · rintro v ⟨a, ha, hv⟩
    exact Vma.pages_user (hok a ha) hv

/-- A process with one page, in frame 3, mapped by the page table in frame 16. -/
def parent : Vm := (cleared.withTable 1 0 16).mapEntry ⟨16, 512⟩ 3 (page2pa 3 ||| pteP ||| pteU)

def parentMm : Mm := ⟨[⟨0x200000, 0x202000, vmRead⟩], none, 1, false⟩
def childMm : Mm := ⟨[], none, 2, false⟩

theorem parent_fresh : Fresh {1, 2} 2 1 parent := by
  have hcounted := cleared_unmapped.counted
  have h1 : (1 : Ppn) ∈ ({1, 2} : Set Ppn) := mem_insert _ _
  have h2 : (2 : Ppn) ∈ ({1, 2} : Set Ppn) := mem_insert_of_mem _ rfl
  have hwf := hcounted.toWf
  have hfree : cleared.free 16 = true := by decide
  have hgrown := withTable_grown hwf h1 (by decide) hfree (by decide)
    (show cleared.table 1 0 = none from frameOf_zero)
  have hu : (Vpage.of 0x200000).User := (user_of _).mpr (by decide)
  have hr : (cleared.withTable 1 0 16).ptep 1 (Vpage.of 0x200000) = some ⟨16, 512⟩ := by
    refine ptep_of_table ?_
    rw [withTable_table hwf.guarded hfree h1, if_pos ⟨rfl, by decide⟩]
  have hdata := cleared_dataFrame
  obtain ⟨hkept, hout⟩ := hgrown.claimed 3 hdata.free hdata.data
  have hexact : Exact {1, 2} (cleared.withTable 1 0 16) :=
    ⟨hgrown.wf, hgrown.refs _ hcounted.refs⟩
  have hw := (newEntry 3 (show pteU &&& ~~~0x7#32 = 0 by decide)).1
  refine ⟨(hexact.mapEntry h1 hu hr ⟨hdata.lt, hkept, hout⟩ hw).1, h2, h1, by decide,
    by decide +kernel, fun v hv => ?_⟩
  have hne : ¬(2 : Ppn) = 1 := by decide
  rw [parent, mapEntry_pte hexact.toTables h1 hu hr h2 hv, if_neg fun heq => hne heq.1,
    hgrown.pte 2 h2 v hv, pte, (cleared_unmapped.dirs 2 h2).table hv.pdx_lt]
  exact frameOf_zero

theorem dup_mmap_copies_parent : ∃ dst t,
    parent.dupMmap (2 ^ 19) childMm parentMm (fun _ s => some s) = .ok (true, dst, t) ∧
    dst.mmapList = parentMm.mmapList ∧ Duplicated {1, 2} 2 1 parentMm.pages parent t := by
  have hok : ∀ a ∈ parentMm.mmapList, a.UserRange := by
    intro a ha
    obtain rfl := List.mem_singleton.mp ha
    exact ⟨by decide, by decide, by decide⟩
  have hk : ∀ (k : Nat) (t u : Vm), t.Wf {1, 2} → (fun _ s => some s : Nat → Vm → Option Vm) k t =
      some u → Aside {1, 2} t u := by
    intro k t u hwf hu
    cases hu
    exact ⟨Took.refl hwf, fun _ _ => rfl⟩
  have hfresh : Fresh {1, 2} childMm.pgdir parentMm.pgdir parent := parent_fresh
  obtain ⟨-, -, hdone⟩ :=
    dup_mmap_copies hfresh rfl hok (List.pairwise_singleton _ _) hk (Nat.le_refl (2 ^ 19))
  have hrun : (parent.dupMmap (2 ^ 19) childMm parentMm fun _ s => some s).toOption.map
      (fun p => p.1) = some true := by decide +kernel
  cases hres : parent.dupMmap (2 ^ 19) childMm parentMm fun _ s => some s with
  | error e =>
    rw [hres] at hrun
    cases hrun
  | ok p =>
    obtain ⟨b, dst, t⟩ := p
    rw [hres] at hrun
    obtain rfl : b = true := Option.some.inj hrun
    obtain ⟨-, -, -, hlist, hdup⟩ := hdone dst t hres
    exact ⟨dst, t, rfl, hlist (List.pairwise_singleton _ _), hdup⟩

end Vm

end UcoreMips.Kernel
