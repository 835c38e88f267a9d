import UcoreMips.Kernel.Mm.PageFault

/-!
# UcoreMips.Kernel.Mm.TlbCoherence

**The TLB holds no stale translation**, as long as directories are loaded clean.

`load_pgdir` empties the TLB and the stack of idle slots, but it leaves `TLB_P` and the
slot number in the entries of the directory it loads. From then on those marks speak of
slots that hold other pages: the next miss on a sibling is written to the slot such a mark
names while the stack still offers it, and `tlb_algo_hi` falls behind. When the slots are
taken in turn, `tlb_get_empty` then clears the mark of a page that sits in another slot;
`tlb_invalidate` finds nothing to do for it, and the page stays in the TLB after it has
been unmapped. `stale_translation` is such a run.
-/

namespace UcoreMips.Kernel

open UcoreMips.Lib
open Emulator (Word)

namespace VmOp

/-- What callers see to: directories are known ones, addresses are user addresses, a page
to insert is allocated and holds data, and a permission has permission bits only. -/
def Legal (D : Set Ppn) (s : Vm) : VmOp → Prop
  | loadPgdir pgdir => pgdir ∈ D
  | tlbMiss la _ => la < userTop
  | pageInsert pgdir page la perm =>
    pgdir ∈ D ∧ la < userTop ∧ s.DataFrame D page ∧ perm &&& ~~~0x7#32 = 0
  | pageRemove pgdir la => pgdir ∈ D ∧ la < userTop

/-- A miss is on a page that is present in the current directory. -/
def Present (s : Vm) : VmOp → Prop
  | tlbMiss la _ => ∀ c, s.curPgdir = some c → s.pte c (Vpage.of la) &&& pteP ≠ 0
  | _ => True

/-- A miss is one the machine raises. -/
def Raised (s : Vm) : VmOp → Prop
  | tlbMiss la store =>
    s.mmu.translationFault la store = some (if store then .tlbs else .tlbl)
  | _ => True

/-- No directory is loaded that has marks in it, and no miss is on a marked page unless its
sibling is marked as well. -/
def Clean (s : Vm) : VmOp → Prop
  | loadPgdir pgdir => ∀ v : Vpage, v.User → ¬Marked (s.pte pgdir v)
  | tlbMiss la _ => ∀ c, s.curPgdir = some c →
    ¬Marked (s.pte c (Vpage.of la)) ∨ Marked (s.pte c (Vpage.of la).sibling)
  | _ => True

end VmOp

namespace Vm

/-- Every valid half-entry under a key other than `ENTRYHI_INVALID` has the frame and the
write permission of an entry that is present in the current directory. -/
def Coherent (s : Vm) : Prop :=
  ∀ (i : Fin 16) (odd : BitVec 1), s.mmu.tlbKey i ≠ entryHiInvalid →
    (s.mmu.tlbData odd i).getLsbD 1 = true →
    ∃ c pte, s.curPgdir = some c ∧ s.pte c ⟨(s.mmu.tlbKey i).extractLsb' 13 19, odd⟩ = pte ∧
      pte &&& pteP ≠ 0 ∧ (s.mmu.tlbData odd i).extractLsb' 6 20 = ppn pte ∧
      ((s.mmu.tlbData odd i).getLsbD 2 = true ↔ pte &&& pteW ≠ 0)

/-! ### A kernel to start from -/

/-- A kernel with one directory, in frame 1, whose first 64 pages are mapped to the frames
from 100 on by the page table in frame 2. No directory has been loaded yet. -/
def boot : Vm where
  mem f x :=
    if f = 1 ∧ x = 0 then page2pa 2 ||| 0x7#32
    else if f = 2 ∧ x.toNat < 64 then page2pa (BitVec.ofNat 20 (100 + x.toNat)) ||| 0x7#32
    else 0
  ref f := if 100 ≤ f.toNat ∧ f.toNat < 164 then 1 else 0
  free f := decide (1000 ≤ f.toNat ∧ f.toNat < npage)
  curPgdir := none
  algo := ⟨fun _ => 0, 0, fun _ => 0, 14⟩
  cp0 := ⟨fun _ => 0⟩
  mmu :=
    { ram := fun _ => 0, rom := ⟨[], false, fun _ => 0, 0⟩, flash := ⟨[], false, fun _ => 0, 0⟩
      tlbKey := fun _ => 0, tlbData := fun _ _ => 0, cout := [] }
  swapInitOk := true
  mm := none

variable {f : Ppn} {v : Vpage}

theorem boot_table {x : BitVec 10} (h : boot.table 1 x = some f) : x = 0 ∧ f = 2 := by
  unfold table boot at h
  dsimp only at h
  by_cases hx : x = 0
  · rw [if_pos ⟨rfl, hx⟩] at h
    exact ⟨hx, (Option.some.inj h).symm⟩
  · rw [if_neg fun h => hx h.2, if_neg fun h => absurd h.1 (by decide)] at h
    cases h

theorem boot_structural (h : Structural {1} boot f) : f = 1 ∨ f = 2 := by
  rcases h with h | ⟨d, rfl, x, -, hx⟩
  · exact .inl h
  · exact .inr (boot_table hx).2

theorem boot_pte (v : Vpage) :
    boot.pte 1 v =
      if v.pdx = 0 ∧ v.ptx.toNat < 64 then
        page2pa (BitVec.ofNat 20 (100 + v.ptx.toNat)) ||| pteP ||| 0x6#32
      else 0 := by
  by_cases hx : v.pdx = 0
  · have ht : boot.table 1 v.pdx = some 2 := by
      rw [hx]
      rfl
    have hmem : boot.pte 1 v = boot.mem 2 v.ptx := by simp only [pte, ht]
    rw [hmem, BitVec.or_assoc]
    unfold boot
    dsimp only
    rw [if_neg fun h => absurd h.1 (by decide)]
    by_cases hlt : v.ptx.toNat < 64
    · rw [if_pos ⟨rfl, hlt⟩, if_pos ⟨hx, hlt⟩]
      rfl
    · rw [if_neg fun h => hlt h.2, if_neg fun h => hlt h.2]
  · have ht : boot.table 1 v.pdx = none :=
      Option.eq_none_iff_forall_ne_some.mpr fun f hf => hx (boot_table hf).1
    rw [if_neg fun h => hx h.1]
    simp only [pte, ht]

theorem boot_frame : frameOf (boot.pte 1 v) = some f ↔
      v.pdx = 0 ∧ v.ptx.toNat < 64 ∧ f.toNat = 100 + v.ptx.toNat := by
  rw [boot_pte]
  split
  · rename_i h
    rw [(newEntry _ (by decide)).1, Option.some.injEq, ← BitVec.toNat_inj, BitVec.toNat_ofNat,
      Nat.mod_eq_of_lt (by omega)]
    exact ⟨fun hf => ⟨h.1, h.2, hf.symm⟩, fun hf => hf.2.2.symm⟩
  · rename_i h
    exact ⟨fun hf => (by cases hf), fun hf => absurd ⟨hf.1, hf.2.1⟩ h⟩

theorem boot_unmarked (v : Vpage) : ¬Marked (boot.pte 1 v) := by
  rw [boot_pte]
  split
  · exact (newEntry _ (by decide)).2
  · exact not_marked_zero

theorem boot_wf : boot.Wf {1} where
  tableLt := by
    rintro d x f rfl - h
    obtain ⟨-, rfl⟩ := boot_table h
    decide
  tableNotDir := by
    rintro d x f rfl - h
    obtain ⟨-, rfl⟩ := boot_table h
    exact fun h => absurd h (by decide)
  tableInj := by
    rintro d d' x x' f rfl rfl - - h h'
    exact ⟨rfl, (boot_table h).1.trans (boot_table h').1.symm⟩
  structural := by
    intro f h
    rcases boot_structural h with rfl | rfl <;> rfl
  mappedLt := by
    rintro d v f rfl - h
    obtain ⟨-, hlt, hf⟩ := boot_frame.mp h
    unfold npage
    omega
  mappedNot := by
    rintro d v f rfl - h hs
    obtain ⟨-, -, hf⟩ := boot_frame.mp h
    rcases boot_structural hs with rfl | rfl
    · exact absurd hf (by rw [show (1 : Ppn).toNat = 1 from rfl]; omega)
    · exact absurd hf (by rw [show (2 : Ppn).toNat = 2 from rfl]; omega)
  mappedFree := by
    rintro d v f rfl - h
    obtain ⟨-, hlt, hf⟩ := boot_frame.mp h
    exact decide_eq_false (by omega)

/-- The page that maps the frame. -/
def bootPage (f : Ppn) : Vpage :=
  ⟨BitVec.ofNat 19 ((f.toNat - 100) / 2), BitVec.ofNat 1 ((f.toNat - 100) % 2)⟩

theorem boot_refs : boot.Refs {1} fun _ => 0 := by
  intro f _
  have hmap : mappings {1} boot f =
      if 100 ≤ f.toNat ∧ f.toNat < 164 then {(1, bootPage f)} else ∅ := by
    ext ⟨d, v⟩
    have hiff : (d, v) ∈ mappings {1} boot f ↔
        d = 1 ∧ v.User ∧ v.pdx = 0 ∧ v.ptx.toNat < 64 ∧ f.toNat = 100 + v.ptx.toNat := by
      refine and_congr_right fun hd => and_congr_right fun _ => ?_
      cases (hd : d = 1)
      exact boot_frame
    rw [hiff]
    split
    · rename_i hf
      have hidx : (bootPage f).User ∧ (bootPage f).pdx = 0 ∧
          (bootPage f).ptx.toNat = f.toNat - 100 := by
        simp only [bootPage, Vpage.User, Vpage.pdx, Vpage.ptx, BitVec.toNat_ofNat]
        refine ⟨by omega, ?_, by omega⟩
        rw [show (f.toNat - 100) / 2 % 2 ^ 19 / 512 = 0 by omega]
        rfl
      constructor
      · rintro ⟨rfl, -, hx, -, hfv⟩
        rw [Set.mem_singleton_iff, Prod.mk.injEq]
        refine ⟨rfl, Vpage.eq_of_indices (hx.trans hidx.2.1.symm) ?_⟩
        rw [← BitVec.toNat_inj, hidx.2.2]
        omega
      · intro h
        obtain ⟨rfl, rfl⟩ := h
        exact ⟨rfl, hidx.1, hidx.2.1, by omega, by omega⟩
    · constructor
      · rintro ⟨-, -, -, hlt, hfv⟩
        omega
      · exact fun h => h.elim
  rw [hmap]
  show (if 100 ≤ f.toNat ∧ f.toNat < 164 then (1 : Int) else 0) = _
  split
  · rw [Set.ncard_singleton]
    rfl
  · rw [Set.ncard_empty]
    rfl

/-! ### Clean runs -/

/-- The invariant of clean runs: pages that are marked are present. -/
structure Tidy (D : Set Ppn) (held : Ppn → Nat) (c : Ppn) (s : Vm) : Prop
    extends Good D held c s where
  present : ∀ v : Vpage, v.User → Marked (s.pte c v) → s.pte c v &&& pteP ≠ 0

section Clean

variable {D : Set Ppn} {held : Ppn → Nat} {s t : Vm} {c p : Ppn} {op : VmOp}

theorem Tidy.coherent (hs : s.Tidy D held c) : s.Coherent := by
  intro i odd hkey hvalid
  obtain ⟨v, hv, rfl, hvkey, hm, hdata⟩ := hs.inv.valid hkey hvalid
  have hpage : (⟨(s.mmu.tlbKey i).extractLsb' 13 19, v.odd⟩ : Vpage) = v := by
    have hvpn2 : (s.mmu.tlbKey i).extractLsb' 13 19 = v.vpn2 := by
      rw [hvkey]
      exact congrArg Vpage.vpn2 v.of_key
    rw [hvpn2]
  have hw : pteW = BitVec.twoPow 32 1 := by decide
  refine ⟨c, _, hs.cur, rfl, ?_⟩
  rw [hpage, hdata, entryLo_frame, entryLo_dirty, hw, and_twoPow_ne_zero (by decide)]
  exact ⟨hs.present v hv hm, rfl, Iff.rfl⟩

/-- Operations that make no mark keep the invariant. -/
theorem Tidy.keeps (hs : s.Tidy D held c) (ht : t.Good D held c) (hk : Keeps D s t) :
    t.Tidy D held c where
  toGood := ht
  present v hv hm := by
    have e := hk.marked c hs.mem v hv hm
    rw [e] at hm ⊢
    exact hs.present v hv hm

theorem Tidy.refilled (hs : s.Tidy D held c) (hp : s.pte c v &&& pteP ≠ 0)
    (h : Refilled D c v s t) : t.Tidy D held c where
  toGood := hs.toGood.refilled h
  present u hu hm := by
    by_cases huv : u = v
    · subst huv
      rw [Ne, ← frameOf_eq_none, (entry_congr h.same).1, frameOf_eq_none]
      exact hp
    · rcases h.entry c hs.mem u hu fun hcu => huv hcu.2 with e | e
      · rw [e] at hm ⊢
        exact hs.present u hu hm
      · rw [e] at hm
        exact absurd hm (not_marked_unmark _)

theorem Tidy.loadPgdir (hwf : s.Wf D) (hrefs : s.Refs D held) (hp : p ∈ D)
    (hun : ∀ v : Vpage, v.User → ¬Marked (s.pte p v)) : (s.loadPgdir p).Tidy D held p := by
  have hgood := Good.loadPgdir hwf hrefs hp hun
  refine ⟨hgood, fun v hv hm => absurd hm ?_⟩
  rw [loadPgdir_pte]
  exact hun v hv

/-- One operation. -/
theorem Tidy.step (hs : s.Tidy D held c) (hl : op.Legal D s) (hp : op.Present s)
    (hc : op.Clean s) (h : s.step op = .ok t) : ∃ c', t.Tidy D held c' := by
  cases op with
  | loadPgdir pgdir =>
    cases h
    exact ⟨pgdir, Tidy.loadPgdir hs.wf hs.refs hl hc⟩
  | tlbMiss la store =>
    have hu := (Vpage.user_of la).mpr hl
    obtain ⟨t', ht', hfill⟩ := hs.tlbMissHandler_present hu (hc c hs.cur) (hp c hs.cur) store
    cases ht'.symm.trans h
    exact ⟨c, hs.refilled (hp c hs.cur) hfill⟩
  | pageInsert pgdir page la perm =>
    obtain ⟨hd, hla, hpage, hperm⟩ := hl
    obtain ⟨ht, hk⟩ := hs.pageInsert hd ((Vpage.user_of la).mpr hla) hperm hpage h
    exact ⟨c, hs.keeps ht hk⟩
  | pageRemove pgdir la =>
    obtain ⟨hd, hla⟩ := hl
    obtain ⟨t', ht', hgood, hk⟩ := hs.pageRemove hd ((Vpage.user_of la).mpr hla)
    cases ht'.symm.trans h
    exact ⟨c, hs.keeps hgood hk⟩

/-- **The TLB stays coherent** along every run of clean operations, over any directories. -/
theorem coherent_of_clean (s0 : Vm) (hwf : s0.Wf D) (hrefs : s0.Refs D held)
    (hun : ∀ d ∈ D, ∀ v : Vpage, v.User → ¬Marked (s0.pte d v)) (hp : p ∈ D)
    (hrun : Relation.ReflTransGen
      (fun t u => ∃ op : VmOp, op.Legal D t ∧ op.Present t ∧ op.Clean t ∧ t.step op = .ok u)
      (s0.loadPgdir p) s) : s.Coherent := by
  have htidy : ∃ c, s.Tidy D held c := by
    induction hrun with
    | refl => exact ⟨p, Tidy.loadPgdir hwf hrefs hp (hun p hp)⟩
    | tail _ hstep ih =>
      obtain ⟨c, hs⟩ := ih
      obtain ⟨op, hl, hpr, hc, h⟩ := hstep
      exact hs.step hl hpr hc h
  obtain ⟨c, hs⟩ := htidy
  exact hs.coherent

end Clean

/-- A miss, and the removal of its page. -/
theorem coherent_of_clean_remove :
    ∃ s t, (boot.loadPgdir 1).step (.tlbMiss 0x2000 true) = .ok s ∧
      s.step (.pageRemove 1 0x2000) = .ok t ∧ t.Coherent := by
  have hun : ∀ v : Vpage, ¬Marked ((boot.loadPgdir 1).pte 1 v) := by
    rw [loadPgdir_pte]
    exact boot_unmarked
  have hs := Tidy.loadPgdir boot_wf boot_refs rfl fun v _ => boot_unmarked v
  have hp : (boot.loadPgdir 1).pte 1 (Vpage.of 0x2000) &&& pteP ≠ 0 := by decide +kernel
  obtain ⟨s, hstep, hfill⟩ := hs.tlbMissHandler_present ((Vpage.user_of 0x2000).mpr (by decide))
    (.inl (hun _)) hp true
  obtain ⟨t, hstep', -⟩ := (hs.refilled hp hfill).pageRemove (Set.mem_singleton 1)
    ((Vpage.user_of 0x2000).mpr (by decide))
  have hclean : ∀ d ∈ ({1} : Set Ppn), ∀ v : Vpage, v.User → ¬Marked (boot.pte d v) := by
    rintro d rfl v -
    exact boot_unmarked v
  have hpresent : (VmOp.tlbMiss 0x2000 true).Present (boot.loadPgdir 1) := by
    intro c hc
    cases hs.cur.symm.trans hc
    exact hp
  have hmiss : (VmOp.tlbMiss 0x2000 true).Clean (boot.loadPgdir 1) := by
    intro c hc
    cases hs.cur.symm.trans hc
    exact .inl (hun _)
  have huser : (0x2000#32 : Word) < userTop := by decide
  exact ⟨s, t, hstep, hstep', coherent_of_clean boot boot_wf boot_refs hclean rfl
    (.tail (.single ⟨.tlbMiss 0x2000 true, huser, hpresent, hmiss, hstep⟩)
      ⟨.pageRemove 1 0x2000, ⟨rfl, huser⟩, trivial, trivial, hstep'⟩)⟩

/-! ### A stale translation -/

/-- Whether the operation is one of the process in frame 1, and a miss is raised by the
machine on a page that is present. -/
def admits (s : Vm) : VmOp → Bool
  | .loadPgdir pgdir => pgdir = 1
  | .tlbMiss la store =>
    la < userTop ∧ s.curPgdir = some 1 ∧ s.pte 1 (Vpage.of la) &&& pteP ≠ 0 ∧
      s.mmu.translationFault la store = some (if store then .tlbs else .tlbl)
  | .pageInsert .. => false
  | .pageRemove pgdir la => pgdir = 1 ∧ la < userTop

variable {s : Vm}

theorem admits_spec (h : s.admits op = true) : op.Legal {1} s ∧ op.Present s ∧ op.Raised s := by
  cases op with
  | loadPgdir pgdir =>
    have hd : pgdir = 1 := of_decide_eq_true h
    exact ⟨hd, trivial, trivial⟩
  | tlbMiss la store =>
    obtain ⟨hla, hcur, hp, hfault⟩ := of_decide_eq_true h
    refine ⟨hla, fun c hc => ?_, hfault⟩
    cases hcur.symm.trans hc
    exact hp
  | pageInsert => cases h
  | pageRemove pgdir la =>
    have hl : pgdir = 1 ∧ la < userTop := of_decide_eq_true h
    exact ⟨hl, trivial, trivial⟩

/-- Run operations, each of which must be admitted. -/
def replay (s : Vm) : List VmOp → Option Vm
  | [] => some s
  | op :: ops =>
    if s.admits op then
      match s.step op with
      | .ok t => t.replay ops
      | .error _ => none
    else none

theorem replay_run {t : Vm} {ops : List VmOp} (h : s.replay ops = some t) : Relation.ReflTransGen
      (fun t u => ∃ op : VmOp, op.Legal {1} t ∧ op.Present t ∧ op.Raised t ∧ t.step op = .ok u)
      s t := by
  induction ops generalizing s with
  | nil =>
    cases h
    exact .refl
  | cons op ops ih =>
    unfold replay at h
    split at h
    · rename_i hadmit
      obtain ⟨hl, hp, hr⟩ := admits_spec hadmit
      cases hstep : s.step op with
      | error e =>
        rw [hstep] at h
        cases h
      | ok u =>
        rw [hstep] at h
        exact .head ⟨op, hl, hp, hr, hstep⟩ (ih h)
    · cases h

/-- A load that misses, from the page with the given number. -/
def miss (i : Nat) : VmOp := .tlbMiss (BitVec.ofNat 32 (4096 * i)) false

/-- Page 0 is in slot 15 when the directory is loaded again. Pages 1 and 0 then go to that
slot, by their old marks, before and after page 2 gets it from the stack, and
`tlb_algo_hi` keeps the key of page 2. The other fifteen slots are filled; page 2 gets slot
14 in turn, and page 34 the slot 15, which clears the mark of page 2. -/
def staleRun : List VmOp :=
  [miss 0, .loadPgdir 1, miss 1, miss 2, miss 0] ++ (List.range 15).map (fun k => miss (4 + 2 * k))
    ++ [miss 2, miss 34, .pageRemove 1 0x2000]

/-- After a run of genuine misses in one address space, loaded twice, page 2 has been
removed from the directory and is still in the TLB. -/
theorem stale_translation :
    boot.Wf {1} ∧ boot.Refs {1} (fun _ => 0) ∧ (∀ v : Vpage, ¬Marked (boot.pte 1 v)) ∧
      ∃ s, Relation.ReflTransGen
          (fun t u => ∃ op : VmOp, op.Legal {1} t ∧ op.Present t ∧ op.Raised t ∧ t.step op = .ok u)
          (boot.loadPgdir 1) s ∧ ¬s.Coherent := by
  refine ⟨boot_wf, boot_refs, boot_unmarked, ?_⟩
  have hrun : ((boot.loadPgdir 1).replay staleRun).any (fun s =>
      s.curPgdir = some 1 ∧ s.mmu.tlbKey 14 = 0x2000 ∧ (s.mmu.tlbData 0 14).getLsbD 1 = true ∧
        s.pte 1 ⟨(0x2000 : Word).extractLsb' 13 19, 0⟩ = 0) = true := by decide +kernel
  obtain ⟨s, hs, hstale⟩ := Option.any_eq_true _ _ |>.mp hrun
  obtain ⟨hcur, hkey, hvalid, hpte⟩ := of_decide_eq_true hstale
  refine ⟨s, replay_run hs, fun hcoh => ?_⟩
  obtain ⟨c, pte, hc, hentry, hp, -⟩ := hcoh 14 0 (by rw [hkey]; decide) hvalid
  cases hcur.symm.trans hc
  rw [hkey, hpte] at hentry
  subst hentry
  exact hp rfl

end Vm

end UcoreMips.Kernel
