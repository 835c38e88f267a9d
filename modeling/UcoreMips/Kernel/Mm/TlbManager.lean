import UcoreMips.Kernel.Mm.TlbCache

/-!
# UcoreMips.Kernel.Mm.TlbManager

**The functions of `tlb.c` keep the invariant.** Each is run on a state in which the
TLB and the kernel's records agree. The result is described by what it does to the map
of entries (`Quiet`: no mapping changes, marks are cleared at most), and the invariant
is carried along by the steps of `Held`.

Refilling a page needs one thing of its caller: the page is not in the TLB, unless its
sibling is. Otherwise the page gets a second slot, and the first one is forgotten.
-/

namespace UcoreMips.Kernel

open UcoreMips.Lib Vpage
open Emulator (Word Mmu)
open BitVec (getLsbD_or and_twoPow getLsbD_and)
open Function (update update_of_ne update_self update_apply)

/-! ### The bits of an entry -/

theorem marked_iff (w : Word) : Marked w ↔ w.getLsbD 7 = true := by
  have h7 : tlbP = BitVec.twoPow 32 7 := by decide
  rw [Marked, h7]
  exact and_twoPow_ne_zero (by decide) w

/-- Whether a page is present and which frame it maps do not depend on the bits the TLB
code keeps in the entry, nor does the TLB entry made from it. -/
theorem entry_congr {w w' : Word} (h : AgreeOutside 7 5 w' w) :
    frameOf w' = frameOf w ∧ entryLo w' = entryLo w := by
  have hppn : ppn w' = ppn w := by
    ext i hi
    have := h (12 + i) (by omega)
    simpa [ppn] using this
  have hp : w' &&& pteP = w &&& pteP := by
    have h0 : pteP = BitVec.twoPow 32 0 := by decide
    rw [h0, and_twoPow, and_twoPow, h 0 (by omega)]
  have hw : w' >>> 1 &&& 1#32 = w >>> 1 &&& 1#32 := by
    have h1 : (1#32 : Word) = BitVec.twoPow 32 0 := by decide
    have hbit : ∀ x : Word, (x >>> 1).getLsbD 0 = x.getLsbD 1 := fun x => by simp
    rw [h1, and_twoPow, and_twoPow, hbit, hbit, h 1 (by omega)]
  simp only [frameOf, entryLo, hppn, hp, hw, and_self]

/-- The half-entry made from an entry: its frame, `D` from `PTE_W`, and `V`. -/
theorem entryLo_frame (w : Word) : (entryLo w).extractLsb' 6 20 = ppn w := by
  have hlow : ∀ i < 20, (0x10#32 : Word).getLsbD (6 + i) = false ∧
      (0x3#32 : Word).getLsbD (6 + i) = false ∧ (1#32 : Word).getLsbD (4 + i) = false := by decide
  ext i hi
  obtain ⟨h10, h3, h1⟩ := hlow i hi
  have hd : ((w >>> 1 &&& 1#32) <<< 2).getLsbD (6 + i) = false := by
    rw [BitVec.getLsbD_shiftLeft, getLsbD_and, show 6 + i - 2 = 4 + i by omega, h1]
    simp
  rw [BitVec.getElem_extractLsb', entryLo, getLsbD_or, getLsbD_or,
    getLsbD_or, h10, h3, hd, BitVec.getLsbD_shiftLeft]
  simp [ppn, hi, show 6 + i < 32 by omega, show i < 32 by omega]

theorem entryLo_dirty (w : Word) : (entryLo w).getLsbD 2 = w.getLsbD 1 := by
  simp [entryLo]

theorem entryLo_valid (w : Word) : (entryLo w).getLsbD 1 = true := by
  simp [entryLo]

theorem unmark_agree (w : Word) : AgreeOutside 7 5 (w &&& ~~~tlbP) w := by
  have hmask : ∀ i < 32, i < 7 ∨ 7 + 5 ≤ i → (~~~tlbP).getLsbD i = true := by decide
  intro i hi
  by_cases hn : i < 32
  · rw [getLsbD_and, hmask i hn hi, Bool.and_true]
  · rw [BitVec.getLsbD_of_ge _ _ (by omega), BitVec.getLsbD_of_ge _ _ (by omega)]

theorem not_marked_unmark (w : Word) : ¬Marked (w &&& ~~~tlbP) := by
  rw [marked_iff, getLsbD_and]
  have hmask : (~~~tlbP).getLsbD 7 = false := by decide
  rw [hmask, Bool.and_false]
  decide

/-- The entry as the miss handler leaves it: marked, with the number of its slot. -/
def mark (w : Word) (idx : Fin 16) : Word :=
  (w &&& 0xfffff0ff#32) ||| BitVec.ofNat 32 idx <<< 8 ||| tlbP

theorem mark_agree (w : Word) (idx : Fin 16) : AgreeOutside 7 5 (mark w idx) w := by
  unfold mark
  rw [BitVec.or_assoc]
  refine agreeOutside_mask_or (by decide) ?_
  revert idx
  decide

theorem marked_mark (w : Word) (idx : Fin 16) : Marked (mark w idx) := by
  rw [marked_iff, mark, getLsbD_or]
  have : tlbP.getLsbD 7 = true := by decide
  rw [this, Bool.or_true]

theorem tlbIdx_mark (w : Word) (idx : Fin 16) : tlbIdx (mark w idx) = idx := by
  have hfield : (mark w idx).extractLsb' 8 4 =
      (BitVec.ofNat 32 idx <<< 8 ||| tlbP).extractLsb' 8 4 := by
    rw [mark, BitVec.or_assoc]
    exact extract_mask_or (by decide)
  have hidx : ∀ idx : Fin 16,
      ((BitVec.ofNat 32 idx <<< 8 ||| tlbP).extractLsb' 8 4).toFin = idx := by decide
  rw [tlbIdx, hfield, hidx]

/-- A new entry maps its page and is not marked. -/
theorem newEntry (page : Ppn) {perm : Word} (hperm : perm &&& ~~~0x7#32 = 0) :
    frameOf (page2pa page ||| pteP ||| perm) = some page ∧
      ¬Marked (page2pa page ||| pteP ||| perm) := by
  have hbits : ∀ i, 3 ≤ i → perm.getLsbD i = false := by
    intro i hi
    by_cases hn : i < 32
    · have hbit := congrArg (fun w : Word => w.getLsbD i) hperm
      have hmask : ∀ i < 32, 3 ≤ i → (~~~0x7#32).getLsbD i = true := by decide
      simp only [getLsbD_and, hmask i hn hi, Bool.and_true] at hbit
      rw [hbit]
      exact BitVec.getLsbD_zero
    · exact BitVec.getLsbD_of_ge _ _ (by omega)
  have hpage : ∀ i < 12, (page2pa page).getLsbD i = false := by
    intro i hi
    simp [page2pa, hi]
  have hpermPpn : ppn perm = 0 := by
    ext i hi
    simpa [ppn] using hbits (12 + i) (by omega)
  constructor
  · refine frameOf_eq_some.mpr ⟨?_, ?_⟩
    · have h0 : pteP = BitVec.twoPow 32 0 := by decide
      rw [h0, and_twoPow_ne_zero (by decide)]
      simp
    · rw [ppn_or hpermPpn, ppn_or (by decide), ppn_page2pa]
  · rw [marked_iff, getLsbD_or, getLsbD_or, hbits 7 (by omega), hpage 7 (by omega)]
    decide

namespace Vm

/-! ### Steps that only unmark -/

/-- The step kept every mapping and the current directory, and cleared marks at most. -/
structure Quiet (D : Set Ppn) (s t : Vm) : Prop extends SameFrames D s t where
  entry : ∀ d ∈ D, ∀ v : Vpage, v.User →
    t.pte d v = s.pte d v ∨ t.pte d v = s.pte d v &&& ~~~tlbP
  curPgdir : t.curPgdir = s.curPgdir

theorem Quiet.refl (D : Set Ppn) (s : Vm) : Quiet D s s :=
  ⟨SameFrames.refl D s, fun _ _ _ _ => .inl rfl, rfl⟩

variable {D : Set Ppn} {s t : Vm} {d : Ppn} {v : Vpage}

theorem Quiet.trans {u : Vm} (h : Quiet D s t) (h' : Quiet D t u) : Quiet D s u where
  toSameFrames := h.toSameFrames.trans h'.toSameFrames
  entry d hd v hv := by
    rcases h.entry d hd v hv with e | e <;> rcases h'.entry d hd v hv with e' | e' <;>
      rw [e', e]
    · exact .inl rfl
    · exact .inr rfl
    · exact .inr rfl
    · rw [BitVec.and_assoc, BitVec.and_self]
      exact .inr rfl
  curPgdir := h'.curPgdir.trans h.curPgdir

/-- An entry that is still marked has not changed. -/
theorem Quiet.marked (h : Quiet D s t) (hd : d ∈ D)
    (hv : v.User) (hm : Marked (t.pte d v)) : t.pte d v = s.pte d v := by
  rcases h.entry d hd v hv with e | e
  · exact e
  · rw [e] at hm
    exact absurd hm (not_marked_unmark _)

section Clear

variable {D : Set Ppn} {s : Vm} {d : Ppn} {v : Vpage} {r : PteRef}

/-- `*ptep &= ~TLB_P`. -/
theorem clearTlbP_pte (ht : s.Tables D) (hd : d ∈ D) (hv : v.User) (hr : s.ptep d v = some r)
    {d' : Ppn} (hd' : d' ∈ D) {v' : Vpage} (hv' : v'.User) :
    (s.clearTlbP r).pte d' v' =
      if d' = d ∧ v' = v then s.pte d v &&& ~~~tlbP else s.pte d' v' := by
  rw [clearTlbP, pte_store ht hd hv hr hd' hv', load_of_ptep hr]

theorem clearTlbP_quiet (ht : s.Tables D) (hd : d ∈ D) (hv : v.User) (hr : s.ptep d v = some r) :
    Quiet D s (s.clearTlbP r) where
  toSameFrames := sameFrames_store ht hd hv hr (by
    rw [load_of_ptep hr]
    exact (entry_congr (unmark_agree _)).1)
  entry d' hd' v' hv' := by
    rw [clearTlbP_pte ht hd hv hr hd' hv']
    split
    · rename_i h
      rw [h.1, h.2]
      exact .inr rfl
    · exact .inl rfl
  curPgdir := rfl

/-- `forget`: the entry is not marked afterwards. -/
theorem forget_spec (la : Word) (ht : s.Tables D) (hd : d ∈ D) (hu : (Vpage.of la).User) :
    ∃ t, s.forget d la = .ok t ∧ Quiet D s t ∧ t.algo = s.algo ∧ t.mmu = s.mmu ∧
      ¬Marked (t.pte d (Vpage.of la)) ∧
      ∀ v : Vpage, v.User → v ≠ Vpage.of la → t.pte d v = s.pte d v := by
  unfold forget
  rw [getPte_find ht hd hu]
  cases hr : s.ptep d (Vpage.of la) with
  | none =>
    refine ⟨s, rfl, Quiet.refl D s, rfl, rfl, ?_, fun _ _ _ => rfl⟩
    rw [pte_of_ptep_none hr]
    exact not_marked_zero
  | some r =>
    refine ⟨s.clearTlbP r, rfl, clearTlbP_quiet ht hd hu hr, rfl, rfl, ?_, ?_⟩
    · rw [clearTlbP_pte ht hd hu hr hd hu, if_pos ⟨rfl, rfl⟩]
      exact not_marked_unmark _
    · intro v hv hne
      rw [clearTlbP_pte ht hd hu hr hd hv, if_neg fun h => hne h.2]

end Clear

/-! ### The functions of `tlb.c` -/

section Tlb

variable {D : Set Ppn} {s : Vm} {c : Ppn} {la : Word} {a : TlbAlgo} {idx : Fin 16} {r : PteRef}

theorem pte_of_mem (hmem : t.mem = s.mem) : t.pte = s.pte := by
  funext d v
  simp only [pte, table, hmem]

theorem ptep_of_mem (hmem : t.mem = s.mem) : t.ptep = s.ptep := by
  funext d v
  simp only [ptep, table, hmem]

/-- A step outside memory. -/
theorem quiet_of_mem (hmem : t.mem = s.mem) (href : t.ref = s.ref)
    (hfree : t.free = s.free) (hcur : t.curPgdir = s.curPgdir) : Quiet D s t :=
  ⟨sameFrames_of_mem hmem href hfree, fun _ _ _ _ => .inl (by rw [pte_of_mem hmem]), hcur⟩

theorem tlbWritePair_spec (s : Vm) (idx : Fin 16) (hi la lo lo2 : Word) :
    (s.tlbWritePair idx hi la lo lo2).mmu = writePair s.mmu idx hi (Vpage.of la).odd lo lo2 ∧
      (s.tlbWritePair idx hi la lo lo2).algo = s.algo ∧
      (s.tlbWritePair idx hi la lo lo2).pte = s.pte ∧
      (s.tlbWritePair idx hi la lo lo2).ptep = s.ptep ∧
      Quiet D s (s.tlbWritePair idx hi la lo lo2) := by
  have hmem : (s.tlbWritePair idx hi la lo lo2).mem = s.mem ∧
      (s.tlbWritePair idx hi la lo lo2).ref = s.ref ∧
      (s.tlbWritePair idx hi la lo lo2).free = s.free ∧
      (s.tlbWritePair idx hi la lo lo2).curPgdir = s.curPgdir := by
    unfold tlbWritePair
    split <;> exact ⟨rfl, rfl, rfl, rfl⟩
  obtain ⟨h1, h2, h3, h4⟩ := hmem
  refine ⟨?_, ?_, pte_of_mem h1, ptep_of_mem h1, quiet_of_mem h1 h2 h3 h4⟩
  · unfold tlbWritePair writePair
    show (if (Vpage.of la).odd = 0 then _ else _ : Vm).mmu = _
    split <;> rfl
  · unfold tlbWritePair
    split <;> rfl

/-- There is room on the stack while a slot is in use. -/
theorem n_lt_of_used (hstack : StackInj a) (hidx : idx ∈ usedSlots a) : a.n.val < 16 := by
  by_contra hn
  have hall : ∀ j : Fin 16, j.val < a.n.val := fun j => by omega
  have hinj : Function.Injective a.empty := fun j k h => hstack j k (hall j) (hall k) h
  obtain ⟨j, hj⟩ := (Finite.injective_iff_surjective.mp hinj) idx
  exact hidx j (hall j) hj

/-- `tlb_del_callback` on a slot in use: it becomes idle. -/
theorem tlbDelCallback_spec (hstack : StackInj s.algo) (hidx : idx ∈ usedSlots s.algo) :
    ∃ a, s.tlbDelCallback idx = .ok { s with algo := a } ∧ a.hi = s.algo.hi ∧
      usedSlots a = usedSlots s.algo \ {idx} ∧ StackInj a := by
  have hn := n_lt_of_used hstack hidx
  refine ⟨⟨update s.algo.empty ⟨s.algo.n.val, hn⟩ idx, ⟨s.algo.n.val + 1, by omega⟩,
    s.algo.hi, s.algo.ptr⟩, by rw [tlbDelCallback, dif_pos hn], rfl, ?_, ?_⟩
  · ext i
    simp only [usedSlots, Set.mem_ofPred_eq, Set.mem_sdiff, Set.mem_singleton_iff]
    constructor
    · intro hi
      constructor
      · intro j hj hji
        have hne : j ≠ ⟨s.algo.n.val, hn⟩ := fun heq => by simp [heq] at hj
        apply hi j (by omega)
        rw [update_of_ne hne, hji]
      · rintro rfl
        exact hi ⟨s.algo.n.val, hn⟩ (Nat.lt_succ_self _) (update_self ..)
    · rintro ⟨hi, hne⟩ j hj
      by_cases hjn : j = ⟨s.algo.n.val, hn⟩
      · rw [hjn, update_self]
        exact fun heq => hne heq.symm
      · rw [update_of_ne hjn]
        apply hi j
        have : j.val ≠ s.algo.n.val := fun heq => hjn (Fin.ext heq)
        omega
  · intro j k hj hk heq
    have hlt : ∀ {j : Fin 16}, j ≠ ⟨s.algo.n.val, hn⟩ → j.val < s.algo.n.val + 1 →
        j.val < s.algo.n.val := by
      intro j hne hj
      have : j.val ≠ s.algo.n.val := fun h => hne (Fin.ext h)
      omega
    dsimp only at hj hk heq
    by_cases hjn : j = ⟨s.algo.n.val, hn⟩ <;> by_cases hkn : k = ⟨s.algo.n.val, hn⟩
    · rw [hjn, hkn]
    · rw [hjn, update_self, update_of_ne hkn] at heq
      exact absurd heq.symm (hidx k (hlt hkn hk))
    · rw [hkn, update_self, update_of_ne hjn] at heq
      exact absurd heq (hidx j (hlt hjn hj))
    · rw [update_of_ne hjn, update_of_ne hkn] at heq
      exact hstack j k (hlt hjn hj) (hlt hkn hk) heq

/-- The test `ptep != NULL && (*ptep & mask)`, where the mask is not zero. -/
theorem filter_ptep (mask : Word) (d : Ppn) (v : Vpage) :
    (∃ r, s.ptep d v = some r ∧ s.pte d v &&& mask ≠ 0 ∧
      (s.ptep d v).filter (fun r => s.load r &&& mask ≠ 0) = some r) ∨
    (s.pte d v &&& mask = 0 ∧ (s.ptep d v).filter (fun r => s.load r &&& mask ≠ 0) = none) := by
  cases hr : s.ptep d v with
  | none =>
    refine .inr ⟨?_, rfl⟩
    rw [pte_of_ptep_none hr]
    exact BitVec.zero_and
  | some r =>
    by_cases hm : s.pte d v &&& mask = 0
    · exact .inr ⟨hm, by simp [Option.filter, load_of_ptep hr, hm]⟩
    · refine .inl ⟨r, rfl, hm, ?_⟩
      rw [Option.filter, load_of_ptep hr, if_pos (decide_eq_true hm)]

/-- A store to an entry of the current directory, seen by the invariant. -/
theorem tlbInv_store {w : Word} (ht : s.Tables D) (hc : c ∈ D) (hv : v.User)
    (hr : s.ptep c v = some r) (h : TlbInv (update (s.pte c) v w) s.mmu s.algo) :
    TlbInv ((s.store r w).pte c) (s.store r w).mmu (s.store r w).algo := by
  refine TlbInv.congr h fun u hu => ?_
  rw [pte_store ht hc hv hr hc hu, update_apply]
  simp only [true_and]

/-- Writing a slot in use leaves the idle ones. -/
theorem idle_writePair {m : Mmu} (h : ∀ i, i ∉ usedSlots a → m.tlbKey i = entryHiInvalid)
    (hidx : idx ∈ usedSlots a) (hi : Word) (odd : BitVec 1) (lo lo2 : Word) :
    ∀ i, i ∉ usedSlots a → (writePair m idx hi odd lo lo2).tlbKey i = entryHiInvalid := by
  intro i hi'
  have hne : i ≠ idx := fun heq => hi' (heq ▸ hidx)
  rw [writePair_key, update_of_ne hne]
  exact h i hi'

/-- `tlb_invalidate`: afterwards the entry of the page is not marked, if the directory is
the current one. -/
theorem tlbInvalidate_spec (ht : s.Tables D) (hc : c ∈ D) (hd : d ∈ D) (hcur : s.curPgdir = some c)
    (hu : (Vpage.of la).User) (hinv : TlbInv (s.pte c) s.mmu s.algo) :
    ∃ t, s.tlbInvalidate d la = .ok t ∧ Quiet D s t ∧ TlbInv (t.pte c) t.mmu t.algo ∧
      (d = c → ¬Marked (t.pte d (Vpage.of la))) := by
  unfold tlbInvalidate
  by_cases hdc : d = c
  swap
  · rw [if_pos (by rw [hcur]; exact fun h => hdc (Option.some.inj h))]
    exact ⟨s, rfl, Quiet.refl D s, hinv, fun h => absurd h hdc⟩
  subst hdc
  rw [if_neg (by rw [hcur]; exact fun h => h rfl), getPte_find ht hd hu]
  cases hr : s.ptep d (Vpage.of la) with
  | none =>
    refine ⟨s, rfl, Quiet.refl D s, hinv, fun _ => ?_⟩
    rw [pte_of_ptep_none hr]
    exact not_marked_zero
  | some r =>
    dsimp only [bind, Except.bind]
    have hload := load_of_ptep hr
    rw [hload]
    by_cases hm : s.pte d (Vpage.of la) &&& tlbP = 0
    · rw [if_pos hm]
      exact ⟨s, rfl, Quiet.refl D s, hinv, fun _ h => h hm⟩
    rw [if_neg hm]
    have hmarked : Marked (s.pte d (Vpage.of la)) := hm
    obtain ⟨hused, hkey⟩ := hinv.held.page _ hu hmarked
    rw [getPte_find ht hd (by rw [of_tlbPair]; exact hu), of_tlbPair]
    dsimp only
    generalize hidx : tlbIdx (s.pte d (Vpage.of la)) = idx at *
    rcases filter_ptep tlbP d (Vpage.of la).sibling (s := s) with ⟨r2, hr2, hm2, hf⟩ | ⟨hm2, hf⟩
    · -- the sibling stays in the slot
      rw [hf]
      dsimp only
      rw [load_of_ptep hr2, entryHi_eq]
      obtain ⟨hmmu, halgo, hpte, hptep, hquiet⟩ := tlbWritePair_spec (D := D) s idx
        (Vpage.of la).key la entryLoInvalid (entryLo (s.pte d (Vpage.of la).sibling))
      generalize s.tlbWritePair idx (Vpage.of la).key la entryLoInvalid
        (entryLo (s.pte d (Vpage.of la).sibling)) = s1 at *
      have hr1 : s1.ptep d (Vpage.of la) = some r := by rw [hptep, hr]
      have ht1 := hquiet.tables ht
      have hidx2 : tlbIdx (s.pte d (Vpage.of la).sibling) = idx :=
        hinv.held.idx_eq hused hm2 hkey
      have hhalf := hinv.held.half (w := s.pte d (Vpage.of la) &&& ~~~tlbP) hu hm2 hidx2
        (.inr ⟨not_marked_unmark _, rfl⟩)
      refine ⟨s1.clearTlbP r, rfl, hquiet.trans (clearTlbP_quiet ht1 hd hu hr1), ?_, ?_⟩
      · apply tlbInv_store ht1 hd hu hr1
        rw [load_of_ptep hr1, hpte, hmmu, halgo]
        exact ⟨hhalf, hinv.stack, idle_writePair hinv.idle hused _ _ _ _⟩
      · intro _
        rw [clearTlbP_pte ht1 hd hu hr1 hd hu, if_pos ⟨rfl, rfl⟩]
        exact not_marked_unmark _
    · -- the slot becomes idle
      rw [hf]
      obtain ⟨a, hdel, hahi, hused', hstack'⟩ := tlbDelCallback_spec hinv.stack hused
      rw [hdel]
      dsimp only
      obtain ⟨hmmu, halgo, hpte, hptep, hquiet⟩ := tlbWritePair_spec (D := D) { s with algo := a }
        idx entryHiInvalid la entryLoInvalid entryLoInvalid
      have hquiet0 : Quiet D s { s with algo := a } := quiet_of_mem rfl rfl rfl rfl
      generalize { s with algo := a }.tlbWritePair idx entryHiInvalid la entryLoInvalid
        entryLoInvalid = s1 at *
      have hpte1 : s1.pte = s.pte := hpte
      have hr1 : s1.ptep d (Vpage.of la) = some r := by rw [hptep, ← hr]; rfl
      have hquiet1 := hquiet0.trans hquiet
      have ht1 := hquiet1.tables ht
      refine ⟨s1.clearTlbP r, rfl, hquiet1.trans (clearTlbP_quiet ht1 hd hu hr1), ?_, ?_⟩
      · apply tlbInv_store ht1 hd hu hr1
        rw [load_of_ptep hr1, hpte1, hmmu, halgo]
        refine ⟨?_, hstack', ?_⟩
        · rw [hahi, hused']
          refine hinv.held.dropPair hused hkey ?_ ?_ ?_ ?_
          · intro u _ hne
            exact update_of_ne (fun h => hne (congrArg Vpage.vpn2 h)) ..
          · rw [update_self]
            exact not_marked_unmark _
          · rw [update_of_ne (sibling_ne _)]
            exact fun h => h hm2
          · intro j hj
            rw [writePair_key, update_of_ne hj]
            exact ⟨rfl, fun b => writePair_data _ _ _ _ _ _ hj b⟩
        · intro i hi
          rw [hused', Set.mem_sdiff, not_and_or, not_not, Set.mem_singleton_iff] at hi
          rw [writePair_key, update_apply]
          split
          · rfl
          · rename_i hne
            exact hinv.idle i (hi.resolve_right hne)
      · intro _
        rw [clearTlbP_pte ht1 hd hu hr1 hd hu, if_pos ⟨rfl, rfl⟩]
        exact not_marked_unmark _

/-- What `tlb_get_empty` leaves: a slot that is neither idle nor holds a pair. -/
structure Claimed (c : Ppn) (s t : Vm) (idx : Fin 16) (hi : Word) : Prop where
  mmu : t.mmu = s.mmu
  used : idx ∈ usedSlots t.algo
  key : t.algo.hi idx = hi
  held : Held (t.pte c) t.mmu t.algo.hi (usedSlots t.algo \ {idx})
  stack : StackInj t.algo
  idle : ∀ i, i ∉ usedSlots t.algo → t.mmu.tlbKey i = entryHiInvalid

/-- Taking a slot from the stack. -/
theorem claim_idle (hinv : TlbInv (s.pte c) s.mmu s.algo) (hi : Word) (hn : 0 < s.algo.n.val) :
    ∃ idx t, s.tlbGetEmpty c hi = .ok (idx, t) ∧ Quiet D s t ∧ Claimed c s t idx hi := by
  have htop : s.algo.n.val - 1 < 16 := by omega
  obtain ⟨idx, hidx⟩ : ∃ idx, s.algo.empty ⟨s.algo.n.val - 1, htop⟩ = idx := ⟨_, rfl⟩
  refine ⟨idx, { s with algo := ⟨s.algo.empty, ⟨s.algo.n.val - 1, by omega⟩,
    update s.algo.hi idx hi, s.algo.ptr⟩ }, ?_, ?_, ?_⟩
  · rw [tlbGetEmpty, dif_pos hn]
    rw [hidx]
    rfl
  · exact quiet_of_mem rfl rfl rfl rfl
  -- the slot was idle before, and is the only one to change sides
  have hnot : idx ∉ usedSlots s.algo := fun h => h ⟨s.algo.n.val - 1, htop⟩ (by dsimp only; omega) hidx
  have hsub : ∀ i, i ∈ usedSlots s.algo ∨ i = idx ↔
      ∀ j : Fin 16, j.val < s.algo.n.val - 1 → s.algo.empty j ≠ i := by
    intro i
    constructor
    · rintro (hi' | rfl) j hj heq
      · exact hi' j (by omega) heq
      · have hj' := hinv.stack j ⟨s.algo.n.val - 1, htop⟩ (by omega) (by dsimp only; omega)
          (heq.trans hidx.symm)
        rw [hj'] at hj
        exact absurd hj (by dsimp only; omega)
    · intro h
      by_cases hii : i = idx
      · exact .inr hii
      · refine .inl fun j hj heq => ?_
        by_cases hjn : j.val < s.algo.n.val - 1
        · exact h j hjn heq
        · have hjtop : j = ⟨s.algo.n.val - 1, htop⟩ := Fin.ext (by dsimp only; omega)
          rw [hjtop, hidx] at heq
          exact hii heq.symm
  have hne : ∀ i ∈ usedSlots s.algo, i ≠ idx := fun i hi' heq => hnot (heq ▸ hi')
  refine ⟨rfl, (hsub idx).mp (.inr rfl), update_self .., ?_, ?_, ?_⟩
  · have hused : {i : Fin 16 | ∀ j : Fin 16, j.val < s.algo.n.val - 1 → s.algo.empty j ≠ i} \ {idx} =
        usedSlots s.algo := by
      ext i
      rw [Set.mem_sdiff, Set.mem_singleton_iff, Set.mem_ofPred_eq, ← hsub]
      constructor
      · rintro ⟨hi' | hi', hii⟩
        · exact hi'
        · exact absurd hi' hii
      · exact fun hi' => ⟨.inl hi', hne i hi'⟩
    show Held (s.pte c) s.mmu _ ({i : Fin 16 | ∀ j : Fin 16, j.val < s.algo.n.val - 1 →
      s.algo.empty j ≠ i} \ {idx})
    rw [hused]
    exact hinv.held.congr (fun _ _ => rfl) fun i hi' => update_of_ne (hne i hi') ..
  · intro j k hj hk heq
    exact hinv.stack j k (by dsimp only at hj; omega) (by dsimp only at hk; omega) heq
  · intro i hi'
    exact hinv.idle i fun h => hi' ((hsub i).mp (.inl h))

/-- Taking the next slot in turn: both of its pages are forgotten. -/
theorem claim_turn (ht : s.Tables D) (hc : c ∈ D) (hinv : TlbInv (s.pte c) s.mmu s.algo)
    (hi : Word) (hn : ¬0 < s.algo.n.val) :
    ∃ idx t, s.tlbGetEmpty c hi = .ok (idx, t) ∧ Quiet D s t ∧ Claimed c s t idx hi := by
  have hall : ∀ i, i ∈ usedSlots s.algo := fun i j hj => absurd (Nat.zero_lt_of_lt hj) hn
  obtain ⟨v, hvu, -, hvkey, hvhi, -⟩ := hinv.held.slot _ (hall s.algo.ptr)
  have hof : Vpage.of (s.algo.hi s.algo.ptr) = ⟨v.vpn2, 0⟩ := by rw [hvhi, of_key]
  generalize hv0 : (⟨v.vpn2, 0⟩ : Vpage) = v0 at hof
  have hu0 : v0.User := hv0 ▸ hvu
  have hkey0 : s.mmu.tlbKey s.algo.ptr = v0.key := by
    rw [hvkey, ← hv0]
    exact key_inj.mpr rfl
  let s0 := { s with algo := { s.algo with ptr := s.algo.ptr + 1 } }
  have hq0 : Quiet D s s0 := quiet_of_mem rfl rfl rfl rfl
  obtain ⟨s1, h1, hq1, halgo1, hmmu1, hm1, hpte1⟩ := forget_spec (s.algo.hi s.algo.ptr)
    (hq0.tables ht) hc (hof ▸ hu0)
  obtain ⟨s2, h2, hq2, halgo2, hmmu2, hm2, hpte2⟩ :=
    forget_spec (tlbPair (s.algo.hi s.algo.ptr)) (hq1.tables (hq0.tables ht)) hc
      (by rw [of_tlbPair, hof]; exact hu0)
  rw [hof] at hm1 hpte1
  rw [of_tlbPair, hof] at hm2 hpte2
  let t := { s2 with algo :=
    { s2.algo with hi := update s2.algo.hi s.algo.ptr hi } }
  have hqt : Quiet D s2 t := quiet_of_mem rfl rfl rfl rfl
  have halgo := halgo2.trans halgo1
  have hn2 : s2.algo.n = s.algo.n := by rw [halgo]
  have hhi : s2.algo.hi = s.algo.hi := by rw [halgo]
  have hmmu : t.mmu = s.mmu := hmmu2.trans hmmu1
  have hnone : ∀ j : Fin 16, ¬j.val < t.algo.n.val := by
    intro j hj
    exact hn (by rw [← hn2]; exact Nat.zero_lt_of_lt hj)
  have husedt : ∀ i, i ∈ usedSlots t.algo := fun i j hj => absurd hj (hnone j)
  refine ⟨s.algo.ptr, t, ?_, ((hq0.trans hq1).trans hq2).trans hqt, hmmu, husedt _,
    update_self .., ?_, fun j _ hj => absurd hj (hnone j),
    fun i hi' => absurd (husedt i) hi'⟩
  · rw [tlbGetEmpty, dif_neg hn]
    dsimp only [bind, Except.bind]
    rw [show Vm.forget _ c (s.algo.hi s.algo.ptr) = .ok s1 from h1]
    dsimp only
    rw [h2]
    rfl
  · have hdrop : Held (s2.pte c) s.mmu s.algo.hi (usedSlots s.algo \ {s.algo.ptr}) := by
      refine hinv.held.dropPair (hall _) hkey0 ?_ ?_ hm2 fun _ _ => ⟨rfl, fun _ => rfl⟩
      · intro u huu hne
        rw [hpte2 u huu fun h => hne (h ▸ rfl), hpte1 u huu fun h => hne (h ▸ rfl)]
        rfl
      · rw [hpte2 v0 hu0 fun h => v0.sibling_ne h.symm]
        exact hm1
    have hsame : usedSlots t.algo = usedSlots s.algo := by
      ext i
      exact iff_of_true (husedt i) (hall i)
    rw [hmmu, hsame]
    refine hdrop.congr (fun _ _ => rfl) fun i hi' => ?_
    rw [← hhi]
    exact update_of_ne hi'.2 ..

/-- `tlb_get_empty`. -/
theorem tlbGetEmpty_spec (ht : s.Tables D) (hc : c ∈ D) (hinv : TlbInv (s.pte c) s.mmu s.algo)
    (hi : Word) :
    ∃ idx t, s.tlbGetEmpty c hi = .ok (idx, t) ∧ Quiet D s t ∧ Claimed c s t idx hi := by
  by_cases hn : 0 < s.algo.n.val
  · exact claim_idle hinv hi hn
  · exact claim_turn ht hc hinv hi hn

/-- What the refill of a page does: its entry is marked, others are unmarked at most. -/
structure Refilled (D : Set Ppn) (c : Ppn) (v : Vpage) (s t : Vm) : Prop
    extends SameFrames D s t where
  inv : TlbInv (t.pte c) t.mmu t.algo
  marked : Marked (t.pte c v)
  same : AgreeOutside 7 5 (t.pte c v) (s.pte c v)
  entry : ∀ d ∈ D, ∀ u : Vpage, u.User → ¬(d = c ∧ u = v) →
    t.pte d u = s.pte d u ∨ t.pte d u = s.pte d u &&& ~~~tlbP
  curPgdir : t.curPgdir = s.curPgdir

/-- The last statement of the handler, after quiet steps. -/
theorem refilled_store {s1 : Vm} (ht : s.Tables D)
    (hq : Quiet D s s1) (hc : c ∈ D) (hv : v.User) (hr : s.ptep c v = some r)
    (hinv : TlbInv (update (s1.pte c) v (mark (s1.pte c v) idx)) s1.mmu s1.algo) :
    Refilled D c v s (s1.store r (mark (s1.load r) idx)) := by
  have ht1 := hq.tables ht
  have hr1 : s1.ptep c v = some r := (hq.ptep hc v).trans hr
  rw [load_of_ptep hr1]
  have hagree := mark_agree (s1.pte c v) idx
  refine {
    toSameFrames := hq.toSameFrames.trans (sameFrames_store ht1 hc hv hr1 (entry_congr hagree).1)
    inv := tlbInv_store ht1 hc hv hr1 hinv
    marked := ?_, same := ?_, entry := ?_
    curPgdir := hq.curPgdir }
  · rw [pte_store ht1 hc hv hr1 hc hv, if_pos ⟨rfl, rfl⟩]
    exact marked_mark _ _
  · rw [pte_store ht1 hc hv hr1 hc hv, if_pos ⟨rfl, rfl⟩]
    intro i hi
    rw [hagree i hi]
    rcases hq.entry c hc v hv with e | e
    · rw [e]
    · rw [e, unmark_agree _ i hi]
  · intro d hd u hu hne
    rw [pte_store ht1 hc hv hr1 hd hu, if_neg hne]
    exact hq.entry d hd u hu

/-- The second half of `tlb_miss_handler`, on a page that is not in the TLB unless its
sibling is. -/
theorem refill_spec (ht : s.Tables D) (hc : c ∈ D) (hinv : TlbInv (s.pte c) s.mmu s.algo)
    (hu : (Vpage.of la).User) (hr : s.ptep c (Vpage.of la) = some r)
    (hmiss : ¬Marked (s.pte c (Vpage.of la)) ∨ Marked (s.pte c (Vpage.of la).sibling)) :
    ∃ t, s.refill c la r = .ok t ∧ Refilled D c (Vpage.of la) s t := by
  unfold refill
  rw [getPte_find ht hc (by rw [of_tlbPair]; exact hu), of_tlbPair]
  dsimp only [bind, Except.bind]
  rw [load_of_ptep hr, entryHi_eq]
  rcases filter_ptep tlbP c (Vpage.of la).sibling (s := s) with ⟨r2, hr2, hm2, hf⟩ | ⟨hm2, hf⟩
  · -- the page joins its sibling
    rw [hf]
    dsimp only [pure, Except.pure]
    rw [load_of_ptep hr2]
    obtain ⟨hused, -⟩ := hinv.held.page _ (sibling_user.mpr hu) hm2
    generalize hidx : tlbIdx (s.pte c (Vpage.of la).sibling) = idx at *
    obtain ⟨hmmu, halgo, hpte, -, hq⟩ := tlbWritePair_spec (D := D) s idx (Vpage.of la).key la
      (entryLo (s.pte c (Vpage.of la))) (entryLo (s.pte c (Vpage.of la).sibling))
    refine ⟨_, rfl, refilled_store ht hq hc hu hr ?_⟩
    rw [hmmu, halgo, hpte]
    refine ⟨hinv.held.half hu hm2 hidx (.inl ⟨marked_mark _ _, tlbIdx_mark _ _, ?_⟩),
      hinv.stack, idle_writePair hinv.idle hused _ _ _ _⟩
    rw [(entry_congr (mark_agree _ _)).2]
  · -- the pair gets a slot of its own
    rw [hf]
    have hv : ¬Marked (s.pte c (Vpage.of la)) := hmiss.resolve_right fun h => h hm2
    obtain ⟨idx, s1, hget, hq1, hcl⟩ := tlbGetEmpty_spec ht hc hinv (Vpage.of la).key
    rw [hget]
    have hun : ∀ u : Vpage, u.User → ¬Marked (s.pte c u) → ¬Marked (s1.pte c u) := by
      intro u huu hnot hm
      rw [hq1.marked hc huu hm] at hm
      exact hnot hm
    have hlo : entryLo (s.pte c (Vpage.of la)) = entryLo (mark (s1.pte c (Vpage.of la)) idx) := by
      rw [(entry_congr (mark_agree _ _)).2]
      rcases hq1.entry c hc _ hu with e | e
      · rw [e]
      · rw [e, (entry_congr (unmark_agree _)).2]
    obtain ⟨hmmu, halgo, hpte, -, hq⟩ := tlbWritePair_spec (D := D) s1 idx (Vpage.of la).key la
      (entryLo (s.pte c (Vpage.of la))) entryLoInvalid
    refine ⟨_, rfl, refilled_store ht (hq1.trans hq) hc hu hr ?_⟩
    rw [hmmu, halgo, hpte, hlo]
    refine ⟨?_, hcl.stack, idle_writePair hcl.idle hcl.used _ _ _ _⟩
    have hfill := hcl.held.fill (w := mark (s1.pte c (Vpage.of la)) idx) hu (hun _ hu hv)
      (hun _ hu fun h => h hm2) (fun h => h.2 rfl) (marked_mark _ _) (tlbIdx_mark _ _)
    rw [Set.insert_sdiff_singleton, Set.insert_eq_self.mpr hcl.used, ← hcl.key,
      Function.update_eq_self, hcl.key] at hfill
    exact hfill

end Tlb

end Vm

end UcoreMips.Kernel
