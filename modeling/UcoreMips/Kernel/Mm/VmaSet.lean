import UcoreMips.Kernel.Mm.Ranges
import UcoreMips.Lib.Result

/-!
# UcoreMips.Kernel.Mm.VmaSet

**The ranges of an address space** (`kern/mm/vmm.c`): `mm_create`, `insert_vma_struct`, `find_vma` and
`mm_map`.

The list is in order, with ranges that are apart and not empty (`Vma.Ordered`). A range that is apart
from the others keeps it so, and then no assertion of `check_vma_overlap` fails. The cached range is
one of the list, and an address is in one range at most, so `find_vma` answers as if there were no
cache.

`mm_map` looks for an overlap at the start of the new range only, and computes its end modulo 2³²
(`Misjudged`).
-/

namespace UcoreMips.Kernel

open UcoreMips.Lib
open Emulator (Word)
open List BitVec

/-! ### Lists of ranges -/

namespace Vma

/-- The ranges do not overlap. -/
def Apart (a b : Vma) : Prop := a.vmEnd ≤ b.vmStart ∨ b.vmEnd ≤ a.vmStart

/-- The ranges do not overlap, and are in order. -/
def Before (a b : Vma) : Prop := a.vmEnd ≤ b.vmStart

/-- The range has an address. -/
def Nonempty (vma : Vma) : Prop := vma.vmStart < vma.vmEnd

/-- The address is in the range. -/
def Contains (vma : Vma) (addr : Word) : Prop := vma.vmStart ≤ addr ∧ addr < vma.vmEnd

instance (vma : Vma) : Decidable vma.Nonempty := inferInstanceAs (Decidable (_ < _))

instance (vma : Vma) (addr : Word) : Decidable (vma.Contains addr) :=
  inferInstanceAs (Decidable (_ ∧ _))

/-- The ranges are in order, apart from each other and not empty. -/
structure Ordered (vmas : List Vma) : Prop where
  sorted : vmas.Pairwise Before
  nonempty : ∀ a ∈ vmas, a.Nonempty

variable {vma a b : Vma} {vmas before after : List Vma} {addr : Word}

theorem Apart.symm (h : Apart a b) : Apart b a := Or.symm h

theorem Before.not_contains (h : a.Before b) (ha : a.Contains addr) : ¬b.Contains addr := by
  intro hb
  have h1 : a.vmEnd.toNat ≤ b.vmStart.toNat := h
  have h2 : addr.toNat < a.vmEnd.toNat := ha.2
  have h3 : b.vmStart.toNat ≤ addr.toNat := hb.1
  omega

theorem Before.start_lt (ha : a.Nonempty) (h : a.Before b) : a.vmStart < b.vmStart :=
  Std.lt_of_lt_of_le (show a.vmStart < a.vmEnd from ha) h

/-- What `insert_vma_struct` leaves before an address starts there at the latest. -/
theorem start_of_mem_takeWhile (ha : a ∈ vmas.takeWhile (·.vmStart ≤ addr)) : a.vmStart ≤ addr := by
  have hdec := mem_takeWhile_imp ha
  exact of_decide_eq_true hdec

namespace Ordered

theorem nil : Ordered [] := ⟨List.Pairwise.nil, fun _ h => nomatch h⟩

theorem cons_iff : Ordered (a :: vmas) ↔ (∀ b ∈ vmas, a.Before b) ∧ a.Nonempty ∧ Ordered vmas := by
  constructor
  · intro h
    obtain ⟨hbefore, hsorted⟩ := pairwise_cons.mp h.sorted
    obtain ⟨ha, hne⟩ := forall_mem_cons.mp h.nonempty
    exact ⟨hbefore, ha, hsorted, hne⟩
  · intro ⟨hbefore, ha, h⟩
    exact ⟨pairwise_cons.mpr ⟨hbefore, h.sorted⟩, forall_mem_cons.mpr ⟨ha, h.nonempty⟩⟩

/-- No address is in two ranges. -/
theorem unique (h : Ordered vmas) (ha : a ∈ vmas) (hb : b ∈ vmas) (hca : a.Contains addr)
    (hcb : b.Contains addr) : a = b := by
  induction vmas with
  | nil => cases ha
  | cons c vmas ih =>
    obtain ⟨hbefore, -, hrest⟩ := cons_iff.mp h
    rcases mem_cons.mp ha with heq | ha <;> rcases mem_cons.mp hb with heq' | hb
    · exact heq.trans heq'.symm
    · exact absurd hcb ((hbefore b hb).not_contains (heq ▸ hca))
    · exact absurd hca ((hbefore a ha).not_contains (heq' ▸ hcb))
    · exact ih hrest ha hb

/-- What `insert_vma_struct` puts behind an address starts behind it. -/
theorem start_of_mem_dropWhile (h : Ordered vmas)
    (ha : a ∈ vmas.dropWhile (·.vmStart ≤ addr)) : addr < a.vmStart := by
  induction vmas with
  | nil => cases ha
  | cons b vmas ih =>
    obtain ⟨hbefore, hb, hrest⟩ := cons_iff.mp h
    rw [dropWhile_cons] at ha
    split at ha
    · exact ih hrest ha
    · next hno =>
      have hlt : addr < b.vmStart := BitVec.not_le.mp fun hle => hno (decide_eq_true hle)
      rcases mem_cons.mp ha with rfl | ha
      · exact hlt
      · exact BitVec.lt_trans hlt (Before.start_lt hb (hbefore a ha))

/-- A range that is apart from all others lies between those that start before it and those that
start behind it. -/
theorem around (h : Ordered vmas) (hvma : vma.Nonempty) (hapart : ∀ a ∈ vmas, vma.Apart a) :
    (∀ a ∈ vmas.takeWhile (·.vmStart ≤ vma.vmStart), a.Before vma) ∧
      ∀ a ∈ vmas.dropWhile (·.vmStart ≤ vma.vmStart), vma.Before a := by
  constructor
  · intro a ha
    have hle := start_of_mem_takeWhile ha
    rcases hapart a ((takeWhile_sublist _).subset ha) with hbehind | hbefore
    · exact absurd (Std.lt_of_lt_of_le hvma (BitVec.le_trans hbehind hle)) (BitVec.lt_irrefl _)
    · exact hbefore
  · intro a ha
    have hlt := h.start_of_mem_dropWhile ha
    have hmem := (dropWhile_sublist _).subset ha
    rcases hapart a hmem with hbehind | hbefore
    · exact hbehind
    · have hne : a.vmStart < a.vmEnd := h.nonempty a hmem
      exact absurd (Std.lt_of_lt_of_le (BitVec.lt_trans hlt hne) hbefore) (BitVec.lt_irrefl _)

theorem split (h : Ordered (before ++ after)) (hvma : vma.Nonempty)
    (hbefore : ∀ a ∈ before, a.Before vma) (hafter : ∀ a ∈ after, vma.Before a) :
    Ordered (before ++ vma :: after) := by
  obtain ⟨hsb, hsa, hcross⟩ := pairwise_append.mp h.sorted
  constructor
  · refine pairwise_append.mpr ⟨hsb, pairwise_cons.mpr ⟨hafter, hsa⟩, ?_⟩
    intro a ha
    exact forall_mem_cons.mpr ⟨hbefore a ha, hcross a ha⟩
  · intro a ha
    rcases mem_append.mp ha with ha | ha
    · exact h.nonempty a (mem_append_left after ha)
    · rcases mem_cons.mp ha with rfl | ha
      · exact hvma
      · exact h.nonempty a (mem_append_right before ha)

end Ordered

end Vma

/-! ### Inserting and finding -/

namespace Mm

variable {mm : Mm} {vma : Vma} {addr : Word}

/-- `insert_vma_struct`, for a range that is apart from the others: no assertion fails. -/
theorem insertVmaStruct_eq (h : Vma.Ordered mm.mmapList) (hvma : vma.Nonempty)
    (hapart : ∀ a ∈ mm.mmapList, vma.Apart a) : mm.insertVmaStruct vma =
      .ok { mm with mmapList := mm.mmapList.takeWhile (·.vmStart ≤ vma.vmStart) ++
        vma :: mm.mmapList.dropWhile (·.vmStart ≤ vma.vmStart) } := by
  obtain ⟨hbefore, hafter⟩ := h.around hvma hapart
  have hprev : ¬(mm.mmapList.takeWhile (·.vmStart ≤ vma.vmStart)).getLast?.any
      (fun prev => ¬checkVmaOverlap prev vma) = true := by
    intro hany
    obtain ⟨prev, hlast, hno⟩ := (Option.any_eq_true _ _).mp hany
    have hmem := mem_of_getLast? hlast
    have hne := h.nonempty prev ((takeWhile_sublist _).subset hmem)
    exact of_decide_eq_true hno (decide_eq_true ⟨hne, hbefore prev hmem, hvma⟩)
  have hnext : ¬(mm.mmapList.dropWhile (·.vmStart ≤ vma.vmStart)).head?.any
      (fun next => ¬checkVmaOverlap vma next) = true := by
    intro hany
    obtain ⟨next, hhead, hno⟩ := (Option.any_eq_true _ _).mp hany
    have hmem := mem_of_head? hhead
    have hne := h.nonempty next ((dropWhile_sublist _).subset hmem)
    exact of_decide_eq_true hno (decide_eq_true ⟨hvma, hafter next hmem, hne⟩)
  have hlt : vma.vmStart < vma.vmEnd := hvma
  rw [insertVmaStruct, if_neg (not_not.mpr hlt), if_neg hprev, if_neg hnext]

theorem findVma_list (mm : Mm) (addr : Word) : (mm.findVma addr).2.mmapList = mm.mmapList := by
  rw [findVma]
  split <;> rfl

/-- `find_vma` finds a range with the address if there is one, and caches it. -/
theorem findVma_spec (hcache : ∀ vma, mm.mmapCache = some vma → vma ∈ mm.mmapList) (addr : Word) :
    match mm.findVma addr with
    | (some vma, mm') => vma ∈ mm.mmapList ∧ vma.Contains addr ∧ mm'.mmapCache = some vma
    | (none, mm') => (∀ a ∈ mm.mmapList, ¬a.Contains addr) ∧ mm' = mm := by
  rw [findVma]
  cases hfound : (mm.mmapCache.filter fun vma => decide (vma.vmStart ≤ addr ∧ addr < vma.vmEnd)).or
      (mm.mmapList.find? fun vma => decide (vma.vmStart ≤ addr ∧ addr < vma.vmEnd)) with
  | none =>
    obtain ⟨-, hlist⟩ := Option.or_eq_none_iff.mp hfound
    refine ⟨fun a ha hcontains => ?_, rfl⟩
    exact List.find?_eq_none.mp hlist a ha (decide_eq_true hcontains)
  | some vma =>
    rcases Option.or_eq_some_iff.mp hfound with hfilter | ⟨-, hfind⟩
    · obtain ⟨hcached, hholds⟩ := Option.filter_eq_some_iff.mp hfilter
      exact ⟨hcache vma hcached, of_decide_eq_true hholds, rfl⟩
    · have hholds := List.find?_some hfind
      exact ⟨mem_of_find?_eq_some hfind, of_decide_eq_true hholds, rfl⟩

end Mm

/-- `struct mm_struct` with `map_count`, which counts structures in memory and cannot overflow. -/
structure MmStruct extends Mm where
  mapCount : Nat
  deriving Repr

namespace MmStruct

/-- `mm_create`, where `kmalloc` succeeds. `pgdir` is set before it is read. -/
def mmCreate (swapInitOk : Bool) : MmStruct where
  mmapList := []
  mmapCache := none
  pgdir := 0
  smPriv := swapInitOk
  mapCount := 0

/-- `find_vma`. -/
def findVma (m : MmStruct) (addr : Word) : Option Vma × MmStruct :=
  ((m.toMm.findVma addr).1, { m with toMm := (m.toMm.findVma addr).2 })

/-- `insert_vma_struct`. -/
def insertVmaStruct (m : MmStruct) (vma : Vma) : Except Stop MmStruct := do
  let mm ← m.toMm.insertVmaStruct vma
  return { toMm := mm, mapCount := m.mapCount + 1 }

/-- The list is in order, it is counted, and the cached range is one of the list. -/
structure VmaSet (m : MmStruct) : Prop where
  ordered : Vma.Ordered m.mmapList
  count : m.mapCount = m.mmapList.length
  cache : ∀ vma, m.mmapCache = some vma → vma ∈ m.mmapList

variable {m m' : MmStruct} {vma : Vma} {addr : Word}

/-- The range has been added to the list in its place. -/
def Added (vma : Vma) (vmas vmas' : List Vma) : Prop :=
  ∃ before after, vmas = before ++ after ∧ vmas' = before ++ vma :: after ∧
    (∀ a ∈ before, a.Before vma) ∧ ∀ a ∈ after, vma.Before a

theorem VmaSet.create (swapInitOk : Bool) : (mmCreate swapInitOk).VmaSet :=
  ⟨Vma.Ordered.nil, rfl, fun _ h => nomatch h⟩

/-- What `insert_vma_struct` does with a range that is apart from the others. -/
theorem VmaSet.insert (h : m.VmaSet) (hvma : vma.Nonempty) (hapart : ∀ a ∈ m.mmapList, vma.Apart a) :
    ∃ m', m.insertVmaStruct vma = .ok m' ∧ m'.VmaSet ∧ Added vma m.mmapList m'.mmapList := by
  obtain ⟨hbefore, hafter⟩ := h.ordered.around hvma hapart
  have hsplit := takeWhile_append_dropWhile (l := m.mmapList)
    (p := fun a => decide (a.vmStart ≤ vma.vmStart))
  have hret : m.insertVmaStruct vma = _ :=
    congrArg (· >>= _) (Mm.insertVmaStruct_eq h.ordered hvma hapart)
  refine ⟨_, hret, ⟨?_, ?_, ?_⟩, _, _, hsplit.symm, rfl, hbefore, hafter⟩
  · exact Vma.Ordered.split (hsplit.symm ▸ h.ordered) hvma hbefore hafter
  · have hlength := congrArg List.length hsplit
    rw [length_append] at hlength
    show m.mapCount + 1 = _
    rw [h.count, length_append, length_cons, ← hlength]
    omega
  · intro a ha
    have hmem : a ∈ m.mmapList := h.cache a ha
    rw [← hsplit] at hmem
    rcases mem_append.mp hmem with hin | hin
    · exact mem_append_left _ hin
    · exact mem_append_right _ (mem_cons_of_mem vma hin)

theorem findVma_list (m : MmStruct) (addr : Word) : (m.findVma addr).2.mmapList = m.mmapList :=
  m.toMm.findVma_list addr

/-- The answer of `find_vma`. -/
theorem VmaSet.find (h : m.VmaSet) (addr : Word) :
    match (m.findVma addr).1 with
    | some vma => vma ∈ m.mmapList ∧ vma.Contains addr
    | none => ∀ a ∈ m.mmapList, ¬a.Contains addr := by
  have hspec := m.toMm.findVma_spec h.cache addr
  simp only [findVma]
  split at hspec
  · next vma mm' heq =>
    rw [heq]
    exact ⟨hspec.1, hspec.2.1⟩
  · next mm' heq =>
    rw [heq]
    exact hspec.1

/-- `find_vma` keeps the cached range one of the list. -/
theorem VmaSet.findVma (h : m.VmaSet) (addr : Word) : (m.findVma addr).2.VmaSet := by
  have hlist := m.findVma_list addr
  refine ⟨hlist ▸ h.ordered, hlist ▸ h.count, fun vma hvma => hlist.symm ▸ ?_⟩
  have hspec := m.toMm.findVma_spec h.cache addr
  split at hspec
  · next found mm' heq =>
    have hcached : (m.toMm.findVma addr).2.mmapCache = some vma := hvma
    rw [heq] at hcached
    exact Option.some.inj (hspec.2.2.symm.trans hcached) ▸ hspec.1
  · next mm' heq =>
    have hcached : (m.toMm.findVma addr).2.mmapCache = some vma := hvma
    rw [heq, hspec.2] at hcached
    exact h.cache vma hcached

/-! ### Any interleaving -/

/-- The states from `mm_create` on, by calls of `insert_vma_struct` with ranges that are not empty and
apart from those in the list, and of `find_vma`. -/
inductive Reachable : MmStruct → Prop
  | create (swapInitOk : Bool) : Reachable (mmCreate swapInitOk)
  | insert {m m' : MmStruct} {vma : Vma} : Reachable m → vma.Nonempty →
      (∀ a ∈ m.mmapList, vma.Apart a) → m.insertVmaStruct vma = .ok m' → Reachable m'
  | find {m : MmStruct} (addr : Word) : Reachable m → Reachable (m.findVma addr).2

theorem Reachable.vmaSet (h : Reachable m) : m.VmaSet := by
  induction h with
  | create swapInitOk => exact VmaSet.create swapInitOk
  | insert hm hvma hapart hret ih =>
    obtain ⟨m₁, hret₁, hset, -⟩ := ih.insert hvma hapart
    obtain rfl := Except.ok.inj (hret₁.symm.trans hret)
    exact hset
  | find addr hm ih => exact ih.findVma addr

/-- **The set of ranges and its cache.** In every state reached the list is sorted, with ranges that
are apart and not empty, and counted; the cached range is one of it. No assertion fails when the next
range is inserted, and `find_vma` finds the one range with the address, or none if there is none. -/
theorem vma_set_and_lookup (h : Reachable m) :
    m.mmapList.Pairwise (fun a b => a.vmStart < b.vmStart ∧ a.Apart b) ∧
    (∀ a ∈ m.mmapList, a.Nonempty) ∧ m.mapCount = m.mmapList.length ∧
    (m.mmapCache = none ∨ ∃ vma ∈ m.mmapList, m.mmapCache = some vma) ∧
    (∀ vma : Vma, vma.Nonempty → (∀ a ∈ m.mmapList, vma.Apart a) →
      ∃ m', m.insertVmaStruct vma = .ok m' ∧ Added vma m.mmapList m'.mmapList) ∧
    ∀ addr, (m.findVma addr).2.mmapList = m.mmapList ∧
      match (m.findVma addr).1 with
      | some vma => vma ∈ m.mmapList ∧ vma.Contains addr ∧ ∀ a ∈ m.mmapList, a.Contains addr → a = vma
      | none => ∀ a ∈ m.mmapList, ¬a.Contains addr := by
  have hset := h.vmaSet
  refine ⟨?_, hset.ordered.nonempty, hset.count, ?_, ?_, ?_⟩
  · refine hset.ordered.sorted.imp_of_mem fun {a b} ha _ hbefore => ⟨?_, .inl hbefore⟩
    exact Vma.Before.start_lt (hset.ordered.nonempty a ha) hbefore
  · cases hcache : m.mmapCache with
    | none => exact .inl rfl
    | some vma => exact .inr ⟨vma, hset.cache vma hcache, rfl⟩
  · intro vma hvma hapart
    obtain ⟨m', hret, -, hadded⟩ := hset.insert hvma hapart
    exact ⟨m', hret, hadded⟩
  · intro addr
    refine ⟨m.findVma_list addr, ?_⟩
    have hfind := hset.find addr
    split at hfind
    · exact ⟨hfind.1, hfind.2, fun a ha hcontains =>
        hset.ordered.unique ha hfind.1 hcontains hfind.2⟩
    · exact hfind

/-- The ranges of two pages, the higher one first, and a look at the lower one. -/
def twoRanges : Except Stop MmStruct := do
  let m ← (mmCreate true).insertVmaStruct ⟨0x2000, 0x3000, vmRead⟩
  let m ← m.insertVmaStruct ⟨0x1000, 0x2000, vmWrite⟩
  return (m.findVma 0x1fff).2

theorem vma_set_and_lookup_two : ∃ m, twoRanges = .ok m ∧ m.mapCount = m.mmapList.length := by
  have h₁ : Reachable ⟨⟨[⟨0x2000, 0x3000, vmRead⟩], none, 0, true⟩, 1⟩ :=
    .insert (.create true) (show Vma.Nonempty ⟨0x2000, 0x3000, vmRead⟩ by decide)
      (fun _ h => nomatch h) rfl
  have h₂ : Reachable
      ⟨⟨[⟨0x1000, 0x2000, vmWrite⟩, ⟨0x2000, 0x3000, vmRead⟩], none, 0, true⟩, 2⟩ := by
    refine .insert h₁ (show Vma.Nonempty ⟨0x1000, 0x2000, vmWrite⟩ by decide) ?_ rfl
    exact forall_mem_singleton.mpr (.inl (show (0x2000 : Word) ≤ 0x2000 by decide))
  exact ⟨_, rfl, (vma_set_and_lookup (.find 0x1fff h₂)).2.2.1⟩

/-! ### `mm_map` -/

/-- `ROUNDUP`. -/
def roundUp (a n : Word) : Word := roundDown (a + n - 1) n

/-- `mm_map`: its result, what it stores through `vma_store`, and the `mm`. `kmalloc` says whether the
call in `vma_create` succeeds. -/
def mmMap (m : MmStruct) (addr len vmFlags : Word) (kmalloc : Bool) :
    Except Stop (Int × Option Vma × MmStruct) :=
  let start := roundDown addr pgSize
  let stop := roundUp (addr + len) pgSize
  if ¬userAccess start stop then .ok (-eInval, none, m)
  else
    let (found, m) := m.findVma start
    if found.any (·.vmStart < stop) then .ok (-eInval, none, m)
    else if ¬kmalloc then .ok (-eNoMem, none, m)
    else do
      let vma : Vma := ⟨start, stop, vmFlags⟩
      let m ← m.insertVmaStruct vma
      return (0, some vma, m)

/-- `addr` rounded down to a page. -/
def pageStart (addr : Word) : Nat := addr.toNat / 4096 * 4096

/-- `addr + len` rounded up to a page, with no wraparound. -/
def pageEnd (addr len : Word) : Nat := (addr.toNat + len.toNat + 4095) / 4096 * 4096

/-- The range can be mapped: it is in user space, and overlaps no other. -/
def Mappable (m : MmStruct) (addr len : Word) : Prop :=
  userBase.toNat ≤ pageStart addr ∧ pageStart addr < pageEnd addr len ∧
    pageEnd addr len ≤ userTop.toNat ∧
    ∀ a ∈ m.mmapList, pageEnd addr len ≤ a.vmStart.toNat ∨ a.vmEnd.toNat ≤ pageStart addr

/-- `mm_map` fails no assertion; it succeeds exactly if the range can be mapped and the structure be
allocated, and then it has added the range; otherwise it returns a negative code and leaves the list
alone. -/
def MapsRange (m : MmStruct) (addr len vmFlags : Word) (kmalloc : Bool) : Prop :=
  ∃ ret store m', m.mmMap addr len vmFlags kmalloc = .ok (ret, store, m') ∧
    (ret = 0 ↔ m.Mappable addr len ∧ kmalloc = true) ∧
    (ret = 0 → ∃ vma : Vma, store = some vma ∧ vma.vmStart.toNat = pageStart addr ∧
      vma.vmEnd.toNat = pageEnd addr len ∧ vma.vmFlags = vmFlags ∧ Added vma m.mmapList m'.mmapList) ∧
    (ret ≠ 0 → ret < 0 ∧ m'.mmapList = m.mmapList)

/-- What `mm_map` takes for a range it can map: it starts in user space, in no range of the list, and
either `addr + len` wraps around to the page of `addr`, or a range of the list starts inside. -/
def Misjudged (m : MmStruct) (addr len : Word) : Prop :=
  userBase.toNat ≤ pageStart addr ∧ pageStart addr < userTop.toNat ∧
    (∀ a ∈ m.mmapList, ¬(a.vmStart.toNat ≤ pageStart addr ∧ pageStart addr < a.vmEnd.toNat)) ∧
    (2 ^ 32 + pageStart addr < addr.toNat + len.toNat ∨
      pageEnd addr len ≤ userTop.toNat ∧
        ∃ a ∈ m.mmapList, pageStart addr < a.vmStart.toNat ∧ a.vmStart.toNat < pageEnd addr len)

theorem roundDown_pgSize (addr : Word) : (roundDown addr pgSize).toNat = pageStart addr := by
  have hlt := addr.isLt
  rw [roundDown, toNat_sub, toNat_umod, show pgSize.toNat = 4096 from rfl, pageStart]
  omega

theorem roundUp_pgSize (addr len : Word) : (roundUp (addr + len) pgSize).toNat =
    ((addr.toNat + len.toNat) % 2 ^ 32 + 4095) % 2 ^ 32 / 4096 * 4096 := by
  rw [roundUp, roundDown_pgSize, pageStart, toNat_sub, toNat_add, toNat_add,
    show pgSize.toNat = 4096 from rfl, show (1 : Word).toNat = 1 from rfl]
  omega

/-- `mm_map` takes the range for one of user space if it is, or if the end wraps around to the page of
`addr`. -/
theorem userAccess_iff (addr len : Word) :
    userAccess (roundDown addr pgSize) (roundUp (addr + len) pgSize) = true ↔
      userBase.toNat ≤ pageStart addr ∧ pageStart addr < userTop.toNat ∧
      (pageStart addr < pageEnd addr len ∧ pageEnd addr len ≤ userTop.toNat ∨
        2 ^ 32 + pageStart addr < addr.toNat + len.toNat) := by
  have haddr := addr.isLt
  have hlen := len.isLt
  have hdown := roundDown_pgSize addr
  have hup := roundUp_pgSize addr len
  simp only [userAccess, decide_eq_true_eq, le_def, lt_def, hdown, hup, pageStart, pageEnd]
  rw [show userBase.toNat = 2097152 from rfl, show userTop.toNat = 2147483648 from rfl]
  omega

/-- Where the range is in user space, its end is computed as it should be. -/
theorem roundUp_eq_pageEnd {addr len : Word} (h : pageEnd addr len ≤ userTop.toNat) :
    (roundUp (addr + len) pgSize).toNat = pageEnd addr len := by
  rw [roundUp_pgSize]
  unfold pageEnd at *
  omega

section Map

variable {len vmFlags : Word} {kmalloc : Bool}

theorem contains_start (a : Vma) (addr : Word) : a.Contains (roundDown addr pgSize) ↔
    a.vmStart.toNat ≤ pageStart addr ∧ pageStart addr < a.vmEnd.toNat := by
  rw [Vma.Contains, le_def, lt_def, roundDown_pgSize]

/-- A refusal is right where the range cannot be mapped, or the structure not be allocated. -/
theorem mapsRange_of_refused {ret : Int} {store : Option Vma}
    (hmap : m.mmMap addr len vmFlags kmalloc = .ok (ret, store, m')) (hret : ret < 0)
    (hlist : m'.mmapList = m.mmapList) (hno : ¬(m.Mappable addr len ∧ kmalloc = true)) :
    m.MapsRange addr len vmFlags kmalloc :=
  ⟨ret, store, m', hmap, iff_of_false (by omega) hno, fun h0 => absurd h0 (by omega),
    fun _ => ⟨hret, hlist⟩⟩

/-- A range that starts in another one is refused. -/
theorem mmMap_found (vmFlags : Word) (kmalloc : Bool) (h : m.VmaSet) {a : Vma} (ha : a ∈ m.mmapList)
    (hcontains : a.Contains (roundDown addr pgSize))
    (hacc : userAccess (roundDown addr pgSize) (roundUp (addr + len) pgSize) = true) :
    ∃ m', m.mmMap addr len vmFlags kmalloc = .ok (-eInval, none, m') ∧ m'.mmapList = m.mmapList := by
  have hfind := h.find (roundDown addr pgSize)
  cases hfound : (m.findVma (roundDown addr pgSize)).1 with
  | none =>
    rw [hfound] at hfind
    exact absurd hcontains (hfind a ha)
  | some vma =>
    rw [hfound] at hfind
    have hlt : vma.vmStart < roundUp (addr + len) pgSize :=
      Std.lt_of_le_of_lt hfind.2.1 (of_decide_eq_true hacc).2.1
    refine ⟨(m.findVma (roundDown addr pgSize)).2, ?_, m.findVma_list _⟩
    rw [mmMap]
    simp [hacc, hfound, hlt]

/-- A range that starts in no other one is inserted. -/
theorem mmMap_free (vmFlags : Word) (kmalloc : Bool) (h : m.VmaSet)
    (hfree : ∀ a ∈ m.mmapList, ¬a.Contains (roundDown addr pgSize))
    (hacc : userAccess (roundDown addr pgSize) (roundUp (addr + len) pgSize) = true) :
    m.mmMap addr len vmFlags kmalloc = if ¬kmalloc then .ok (-eNoMem, none, m) else do
      let m ← m.insertVmaStruct ⟨roundDown addr pgSize, roundUp (addr + len) pgSize, vmFlags⟩
      return (0, some ⟨roundDown addr pgSize, roundUp (addr + len) pgSize, vmFlags⟩, m) := by
  have hfind : m.findVma (roundDown addr pgSize) = (none, m) := by
    have hspec := m.toMm.findVma_spec h.cache (roundDown addr pgSize)
    split at hspec
    · exact absurd hspec.2.1 (hfree _ hspec.1)
    · next mm' heq =>
      rw [findVma, heq, hspec.2]
  rw [mmMap]
  simp [hacc, hfind]

section Misjudged

variable (h : m.VmaSet) (hfree : ∀ a ∈ m.mmapList, ¬a.Contains (roundDown addr pgSize))
  (hacc : userAccess (roundDown addr pgSize) (roundUp (addr + len) pgSize) = true)

include h hfree hacc

/-- Of the ranges that are inserted, those that cannot be mapped are the misjudged ones. -/
theorem misjudged_iff : m.Misjudged addr len ↔ ¬m.Mappable addr len := by
  obtain ⟨hbase, htop, hcase⟩ := (userAccess_iff addr len).mp hacc
  simp only [contains_start] at hfree
  constructor
  · rintro ⟨-, -, -, hwrap | ⟨-, a, ha, hstart, hend⟩⟩ ⟨-, -, hle, hapart⟩
    · have htop : userTop.toNat = 2147483648 := rfl
      unfold pageEnd at hle
      omega
    · have hne : a.vmStart.toNat < a.vmEnd.toNat := h.ordered.nonempty a ha
      rcases hapart a ha with hbehind | hbefore <;> omega
  · intro hno
    refine ⟨hbase, htop, hfree, ?_⟩
    rcases hcase with ⟨hlt, hle⟩ | hwrap
    · right
      by_contra hnone
      refine hno ⟨hbase, hlt, hle, fun a ha => ?_⟩
      have hout := hfree a ha
      have hstart : ¬(pageStart addr < a.vmStart.toNat ∧ a.vmStart.toNat < pageEnd addr len) :=
        fun hin => hnone ⟨hle, a, ha, hin⟩
      omega
    · exact .inl hwrap

/-- A range that can be mapped is inserted in its place. -/
theorem mapsRange_of_mappable (hmap : m.Mappable addr len) : m.MapsRange addr len vmFlags true := by
  obtain ⟨vma, hvma⟩ : ∃ vma : Vma,
      ⟨roundDown addr pgSize, roundUp (addr + len) pgSize, vmFlags⟩ = vma := ⟨_, rfl⟩
  have hstart : vma.vmStart.toNat = pageStart addr := hvma ▸ roundDown_pgSize addr
  have hend : vma.vmEnd.toNat = pageEnd addr len := hvma ▸ roundUp_eq_pageEnd hmap.2.2.1
  have hne : vma.Nonempty := by
    rw [Vma.Nonempty, lt_def, hstart, hend]
    exact hmap.2.1
  have hapart : ∀ a ∈ m.mmapList, vma.Apart a := by
    intro a ha
    rw [Vma.Apart, le_def, le_def, hstart, hend]
    exact hmap.2.2.2 a ha
  obtain ⟨m', hret, -, hadded⟩ := h.insert hne hapart
  refine ⟨0, some vma, m', ?_, iff_of_true rfl ⟨hmap, rfl⟩, fun _ => ?_, fun h0 => absurd rfl h0⟩
  · rw [mmMap_free vmFlags true h hfree hacc, hvma, hret]
    rfl
  · exact ⟨vma, rfl, hstart, hend, hvma ▸ rfl, hadded⟩

end Misjudged

/-- **`mm_map` checks its range** for every address space and all arguments, except where the structure
can be allocated and the range is one it misjudges. -/
theorem mm_map_validates_iff (h : m.VmaSet) (addr len vmFlags : Word) (kmalloc : Bool) :
    m.MapsRange addr len vmFlags kmalloc ↔ ¬(kmalloc = true ∧ m.Misjudged addr len) := by
  by_cases hacc : userAccess (roundDown addr pgSize) (roundUp (addr + len) pgSize) = true
  · by_cases hfree : ∀ a ∈ m.mmapList, ¬a.Contains (roundDown addr pgSize)
    · have hmm := mmMap_free vmFlags kmalloc h hfree hacc
      cases kmalloc with
      | false =>
        exact iff_of_true (mapsRange_of_refused hmm (by decide) rfl fun hno => nomatch hno.2)
          fun hno => nomatch hno.1
      | true =>
        rw [misjudged_iff h hfree hacc]
        constructor
        · rintro ⟨ret, store, m', hret, hiff, -⟩ ⟨-, hno⟩
          rw [hmm] at hret
          obtain ⟨m₁, -, hpure⟩ := bind_eq_ok.mp hret
          have h0 : ret = 0 := (congrArg Prod.fst (Except.ok.inj hpure)).symm
          exact hno (hiff.mp h0).1
        · intro hno
          exact mapsRange_of_mappable h hfree hacc (not_not.mp fun hmap => hno ⟨rfl, hmap⟩)
    · obtain ⟨a, ha, hcontains⟩ : ∃ a ∈ m.mmapList, a.Contains (roundDown addr pgSize) := by
        simpa using hfree
      obtain ⟨m', hmm, hlist⟩ := mmMap_found vmFlags kmalloc h ha hcontains hacc
      have hin := (contains_start a addr).mp hcontains
      refine iff_of_true (mapsRange_of_refused hmm (by decide) hlist ?_) fun hno => hno.2.2.2.1 a ha hin
      rintro ⟨⟨-, hlt, -, hapart⟩, -⟩
      have := hapart a ha
      omega
  · have hmm : m.mmMap addr len vmFlags kmalloc = .ok (-eInval, none, m) := by
      rw [mmMap]
      simp [hacc]
    rw [userAccess_iff] at hacc
    refine iff_of_true (mapsRange_of_refused hmm (by decide) rfl fun hno => ?_) fun hno => ?_
    · obtain ⟨⟨hbase, hlt, hle, -⟩, -⟩ := hno
      exact hacc ⟨hbase, hlt.trans_le hle, .inl ⟨hlt, hle⟩⟩
    · obtain ⟨-, hbase, htop, -, hwrap | ⟨hle, a, -, hstart, hend⟩⟩ := hno
      · exact hacc ⟨hbase, htop, .inr hwrap⟩
      · exact hacc ⟨hbase, htop, .inl ⟨by omega, hle⟩⟩

end Map

/-- A page of a program, in an empty address space. -/
theorem mm_map_validates_iff_page : (mmCreate true).MapsRange 0x800123 0x10 vmRead true := by
  refine (mm_map_validates_iff (VmaSet.create true) 0x800123 0x10 vmRead true).mpr ?_
  rintro ⟨-, -, -, -, hwrap | ⟨-, a, ha, -⟩⟩
  · exact absurd hwrap (by decide)
  · cases ha

/-- `addr + len` wraps around to the page of `addr`, and one page is mapped; a range that begins below
another and ends in it makes an assertion fail. -/
theorem mm_map_misjudges :
    (∃ store m', (mmCreate true).mmMap 0x800800 0xffffffff vmRead true = .ok (0, store, m')) ∧
    ¬(mmCreate true).MapsRange 0x800800 0xffffffff vmRead true ∧
    ∃ m, (mmCreate true).insertVmaStruct ⟨0x801000, 0x802000, vmRead⟩ = .ok m ∧ m.VmaSet ∧
      m.mmMap 0x800000 0x2000 vmRead true = .error .assertion := by
  have hwrap : ∃ store m', (mmCreate true).mmMap 0x800800 0xffffffff vmRead true = .ok (0, store, m') :=
    ⟨_, _, rfl⟩
  refine ⟨hwrap, ?_, ?_⟩
  · rintro ⟨ret, store, m', hret, hiff, -⟩
    obtain ⟨store', m₁, hzero⟩ := hwrap
    have h0 : ret = 0 := congrArg Prod.fst (Except.ok.inj (hret.symm.trans hzero))
    exact absurd (hiff.mp h0).1.2.2.1 (by decide)
  · obtain ⟨m, hm, hset, -⟩ := (VmaSet.create true).insert
      (show Vma.Nonempty ⟨0x801000, 0x802000, vmRead⟩ by decide) fun _ h => nomatch h
    obtain rfl := Except.ok.inj hm
    exact ⟨_, rfl, hset, rfl⟩

end MmStruct

end UcoreMips.Kernel
