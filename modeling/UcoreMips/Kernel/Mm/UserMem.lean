import UcoreMips.Kernel.Mm.VmaSet
import UcoreMips.Lib.Buffer

/-!
# UcoreMips.Kernel.Mm.UserMem

**Access of the kernel to the memory of a process** (`kern/mm/vmm.c`): `user_mem_check`,
`copy_from_user` and `copy_to_user`.

`user_mem_check` goes from range to range and makes one check for each of them. For ranges in order
that is a check of each byte (`userMemCheck_spec`), so what may be accessed as a whole may be accessed
piece by piece (`UserSpace.Accessible.sub`).

The memory of a process is seen through its page tables: a page that is not there yet is made by the
page fault of the `memcpy`, which is not part of these functions.
-/

namespace UcoreMips.Kernel

open UcoreMips.Lib BitVec Nat
open Emulator (Word)

/-! ### `memlayout.h` and `vmm.h` -/

def kernBase : Word := 0x80000000
def kernTop : Word := 0x80800000

def vmStack : Word := 0x8

/-- `KERN_ACCESS`. -/
def kernAccess (start stop : Word) : Bool := kernBase ≤ start ∧ start < stop ∧ stop ≤ kernTop

/-! ### `user_mem_check` -/

namespace Mm

theorem lt_vmEnd_of_findVma {mm mm' : Mm} {addr : Word} {vma : Vma}
    (h : mm.findVma addr = (some vma, mm')) : vma.vmStart ≤ addr ∧ addr < vma.vmEnd := by
  unfold findVma at h
  dsimp only at h
  split at h
  · next found hfound =>
    obtain rfl := Option.some.inj (Prod.mk.inj h).1
    rcases Option.or_eq_some_iff.mp hfound with hfilter | ⟨-, hfind⟩
    · exact of_decide_eq_true (Option.filter_eq_some_iff.mp hfilter).2
    · have hholds := List.find?_some hfind
      exact of_decide_eq_true hholds
  · cases h

/-- The loop of `user_mem_check`. -/
def checkFrom (mm : Mm) (start stop : Word) (write : Bool) : Bool × Mm :=
  if start < stop then
    match _hfound : mm.findVma start with
    | (none, mm) => (false, mm)
    | (some vma, mm) =>
      if start < vma.vmStart then (false, mm)
      else if vma.vmFlags &&& (if write then vmWrite else vmRead) = 0 then (false, mm)
      else if write ∧ vma.vmFlags &&& vmStack ≠ 0 ∧ start < vma.vmStart + pgSize then (false, mm)
      else mm.checkFrom vma.vmEnd stop write
  else (true, mm)
termination_by stop.toNat - start.toNat
decreasing_by
  have hend : start.toNat < vma.vmEnd.toNat := (lt_vmEnd_of_findVma _hfound).2
  have hlt : start.toNat < stop.toNat := ‹start < stop›
  omega

end Mm

/-- `user_mem_check`. -/
def userMemCheck (mm : Option Mm) (addr len : Word) (write : Bool) : Bool × Option Mm :=
  match mm with
  | some mm =>
    if userAccess addr (addr + len) then
      let (ret, mm) := mm.checkFrom addr (addr + len) write
      (ret, some mm)
    else (false, some mm)
  | none => (kernAccess addr (addr + len), none)

/-! ### Which bytes may be accessed -/

/-- The byte is in the range, and the range allows the access: in a stack, the lowest page is not
written. -/
structure Vma.Grants (vma : Vma) (addr : Word) (write : Bool) : Prop where
  contains : vma.Contains addr
  flags : vma.vmFlags &&& (if write then vmWrite else vmRead) ≠ 0
  stack : write = true → vma.vmFlags &&& vmStack ≠ 0 → vma.vmStart.toNat + 4096 ≤ addr.toNat

namespace Mm

def Grants (mm : Mm) (addr : Word) (write : Bool) : Prop :=
  ∃ vma ∈ mm.mmapList, vma.Grants addr write

/-- The ranges are in order, and the cached range is one of them. -/
structure InOrder (mm : Mm) : Prop where
  ordered : Vma.Ordered mm.mmapList
  cache : ∀ vma, mm.mmapCache = some vma → vma ∈ mm.mmapList

variable {mm mm' : Mm} {start stop addr : Word} {vma : Vma} {write : Bool}

theorem InOrder.of_find (h : mm.InOrder) (hfind : mm.findVma addr = (some vma, mm')) :
    vma ∈ mm.mmapList ∧ vma.Contains addr ∧ mm'.mmapList = mm.mmapList ∧ mm'.InOrder := by
  have hspec := mm.findVma_spec h.cache addr
  have hlist := mm.findVma_list addr
  rw [hfind] at hspec hlist
  obtain ⟨hmem, hcontains, hcache⟩ := hspec
  have hmm' : mm'.mmapList = mm.mmapList := hlist
  refine ⟨hmem, hcontains, hmm', hmm' ▸ h.ordered, fun vma' hvma' => hmm' ▸ ?_⟩
  obtain rfl := Option.some.inj (hcache.symm.trans hvma')
  exact hmem

/-- The range that is found decides for the address. -/
theorem InOrder.grants_iff (h : mm.InOrder) (hmem : vma ∈ mm.mmapList) (hcontains : vma.Contains addr) :
    mm.Grants addr write ↔ vma.Grants addr write := by
  constructor
  · rintro ⟨other, hother, hgrants⟩
    obtain rfl := h.ordered.unique hother hmem hgrants.contains hcontains
    exact hgrants
  · intro hgrants
    exact ⟨vma, hmem, hgrants⟩

theorem add_pgSize_le_iff {base : Word} (hbase : base < userTop) :
    base + pgSize ≤ addr ↔ base.toNat + 4096 ≤ addr.toNat := by
  have hlt : base.toNat < 0x80000000 := hbase
  have hadd : (base + pgSize).toNat = base.toNat + 4096 := by
    rw [toNat_add, show pgSize.toNat = 4096 from rfl, mod_eq_of_lt (by omega)]
  rw [le_def, hadd]

/-- One turn of the loop stands for the bytes up to the end of the range. -/
theorem checkFrom_spec (h : mm.InOrder) (hstop : stop ≤ userTop) :
    ((mm.checkFrom start stop write).1 = true ↔ ∀ a, start ≤ a → a < stop → mm.Grants a write) ∧
      (mm.checkFrom start stop write).2.mmapList = mm.mmapList ∧
      (mm.checkFrom start stop write).2.InOrder := by
  fun_induction Mm.checkFrom mm start stop write with
  | case1 mm start hlt mm' hfind =>
    have hspec := mm.findVma_spec h.cache start
    rw [hfind] at hspec
    obtain ⟨hno, rfl⟩ := hspec
    refine ⟨⟨fun hfalse => (Bool.false_ne_true hfalse).elim, fun hall => ?_⟩, rfl, h⟩
    obtain ⟨vma, hmem, hgrants⟩ := hall start (BitVec.le_refl start) hlt
    exact (hno vma hmem hgrants.contains).elim
  | case2 mm start hlt vma mm' hfind hbelow =>
    obtain ⟨-, hcontains, hlist, hinorder⟩ := h.of_find hfind
    exact (BitVec.not_lt.mpr hcontains.1 hbelow).elim
  | case3 mm start hlt vma mm' hfind hbelow hflags =>
    obtain ⟨hmem, hcontains, hlist, hinorder⟩ := h.of_find hfind
    refine ⟨⟨fun hfalse => (Bool.false_ne_true hfalse).elim, fun hall => ?_⟩, hlist, hinorder⟩
    have hgrants := (h.grants_iff hmem hcontains).mp (hall start (BitVec.le_refl start) hlt)
    exact (hgrants.flags hflags).elim
  | case4 mm start hlt vma mm' hfind hbelow hflags hstack =>
    obtain ⟨hmem, hcontains, hlist, hinorder⟩ := h.of_find hfind
    obtain ⟨hwrite, hvmstack, hguard⟩ := hstack
    refine ⟨⟨fun hfalse => (Bool.false_ne_true hfalse).elim, fun hall => ?_⟩, hlist, hinorder⟩
    have hgrants := (h.grants_iff hmem hcontains).mp (hall start (BitVec.le_refl start) hlt)
    have htop : vma.vmStart < userTop :=
      Std.lt_of_le_of_lt hcontains.1 (Std.lt_of_lt_of_le hlt hstop)
    exact (BitVec.not_lt.mpr ((add_pgSize_le_iff htop).mpr (hgrants.stack hwrite hvmstack)) hguard).elim
  | case5 mm start hlt vma mm' hfind hbelow hflags hstack ih =>
    obtain ⟨hmem, hcontains, hlist, hinorder⟩ := h.of_find hfind
    obtain ⟨hiff, hlist', hinorder'⟩ := ih hinorder
    refine ⟨hiff.trans ⟨fun hall a hle ha => ?_, fun hall a hle ha => ?_⟩, hlist'.trans hlist, hinorder'⟩
    · by_cases hin : a < vma.vmEnd
      · refine ⟨vma, hmem, ⟨BitVec.le_trans hcontains.1 hle, hin⟩, hflags, fun hwrite hvmstack => ?_⟩
        have htop : vma.vmStart < userTop :=
          Std.lt_of_le_of_lt hcontains.1 (Std.lt_of_lt_of_le hlt hstop)
        have hguard := BitVec.not_lt.mp fun hguard => hstack ⟨hwrite, hvmstack, hguard⟩
        exact (add_pgSize_le_iff htop).mp (BitVec.le_trans hguard hle)
      · obtain ⟨other, hother, hgrants⟩ := hall a (BitVec.not_lt.mp hin) ha
        exact ⟨other, hlist ▸ hother, hgrants⟩
    · obtain ⟨other, hother, hgrants⟩ := hall a (BitVec.le_trans (BitVec.le_of_lt hcontains.2) hle) ha
      exact ⟨other, hlist.symm ▸ hother, hgrants⟩
  | case6 mm start hno =>
    exact ⟨⟨fun _ a hle ha => (hno (Std.lt_of_le_of_lt hle ha)).elim, fun _ => rfl⟩, rfl, h⟩

end Mm

/-! ### The memory of a process -/

/-- What the kernel sees of the memory of the current process: the ranges, if it has some, and the
bytes at the addresses. -/
structure UserSpace where
  mm : Option Mm
  mem : Word → BitVec 8

namespace UserSpace

/-- The bytes at an address. -/
def bytes (u : UserSpace) (addr : Word) (len : Nat) : List (BitVec 8) :=
  span (fun i => u.mem (addr + BitVec.ofNat 32 i)) 0 len

/-- `memcpy` to an address. -/
def put (u : UserSpace) (addr : Word) (data : List (BitVec 8)) : UserSpace :=
  { u with mem := fun a => data.getD (a - addr).toNat (u.mem a) }

/-- `copy_from_user`: what is copied. -/
def copyFromUser (u : UserSpace) (src : Word) (len : Nat) (writable : Bool) :
    Option (List (BitVec 8)) × UserSpace :=
  let (ret, mm) := userMemCheck u.mm src (BitVec.ofNat 32 len) writable
  let u := { u with mm := mm }
  if ret then (some (u.bytes src len), u) else (none, u)

/-- `copy_to_user`. -/
def copyToUser (u : UserSpace) (dst : Word) (data : List (BitVec 8)) : Bool × UserSpace :=
  let (ret, mm) := userMemCheck u.mm dst (BitVec.ofNat 32 data.length) true
  let u := { u with mm := mm }
  if ret then (true, u.put dst data) else (false, u)

/-- The memory is that of a process with its ranges in order, or of the kernel. -/
def InOrder (u : UserSpace) : Prop := ∀ mm, u.mm = some mm → mm.InOrder

/-- A valid buffer: some bytes of the user part of the memory, each of which may be accessed. A kernel
thread accesses the memory of the kernel. -/
def Accessible (u : UserSpace) (addr : Word) (len : Nat) (write : Bool) : Prop :=
  match u.mm with
  | some mm => 0 < len ∧ userBase ≤ addr ∧ addr.toNat + len ≤ userTop.toNat ∧
      ∀ i < len, mm.Grants (addr + BitVec.ofNat 32 i) write
  | none => 0 < len ∧ kernBase ≤ addr ∧ addr.toNat + len ≤ kernTop.toNat

variable {u v w : UserSpace} {addr : Word} {len : Nat} {write : Bool} {data : List (BitVec 8)}

theorem Accessible.pos (h : u.Accessible addr len write) : 0 < len := by
  unfold Accessible at h
  split at h
  · exact h.1
  · exact h.1

theorem Accessible.bound (h : u.Accessible addr len write) : addr.toNat + len ≤ 0x80800000 := by
  unfold Accessible at h
  split at h
  · exact h.2.2.1.trans (by decide)
  · exact h.2.2

/-- A part of a valid buffer is valid. -/
theorem Accessible.sub {m n : Nat} (h : u.Accessible addr len write) (hn : 0 < n) (hle : m + n ≤ len) :
    u.Accessible (addr + BitVec.ofNat 32 m) n write := by
  have hbound := h.bound
  have hadd : (addr + BitVec.ofNat 32 m).toNat = addr.toNat + m := by
    rw [toNat_add, toNat_ofNat, mod_eq_of_lt (by omega), mod_eq_of_lt (by omega)]
  have hup : addr ≤ addr + BitVec.ofNat 32 m := by
    rw [le_def, hadd]
    omega
  unfold Accessible at h ⊢
  cases hmm : u.mm with
  | none =>
    simp only [hmm] at h ⊢
    obtain ⟨-, hbase, htop⟩ := h
    exact ⟨hn, BitVec.le_trans hbase hup, by omega⟩
  | some mm =>
    simp only [hmm] at h ⊢
    obtain ⟨-, hbase, htop, hall⟩ := h
    refine ⟨hn, BitVec.le_trans hbase hup, by omega, fun i hi => ?_⟩
    have hgrants := hall (m + i) (by omega)
    rwa [BitVec.ofNat_add, ← BitVec.add_assoc] at hgrants

/-- The ranges are the same, whichever is cached. -/
structure Kept (u v : UserSpace) : Prop where
  ranges : v.mm.map (·.mmapList) = u.mm.map (·.mmapList)
  inOrder : v.InOrder

theorem Kept.trans (h : Kept u v) (h' : Kept v w) : Kept u w := ⟨h'.ranges.trans h.ranges, h'.inOrder⟩

theorem Kept.accessible (h : Kept u v) (ha : u.Accessible addr len write) : v.Accessible addr len write := by
  have hranges := h.ranges
  unfold Accessible at ha ⊢
  cases hu : u.mm with
  | none =>
    cases hv : v.mm with
    | none => simpa only [hu] using ha
    | some mm => simp [hu, hv] at hranges
  | some mm =>
    cases hv : v.mm with
    | none => simp [hu, hv] at hranges
    | some mm' =>
      have hlist : mm'.mmapList = mm.mmapList := by simpa [hu, hv] using hranges
      simpa only [hu, Mm.Grants, hlist] using ha

/-- No wraparound escapes the comparison of the ends. -/
theorem range_iff {base top : Word} (hlen : len < 2 ^ 32) :
    (base ≤ addr ∧ addr < addr + BitVec.ofNat 32 len ∧ addr + BitVec.ofNat 32 len ≤ top) ↔
      0 < len ∧ base ≤ addr ∧ addr.toNat + len ≤ top.toNat := by
  have htop := top.isLt
  simp only [le_def, lt_def, toNat_add, toNat_ofNat, mod_eq_of_lt hlen]
  by_cases hwrap : addr.toNat + len < 2 ^ 32
  · omega
  · omega

/-- The bytes of a range, by address and by number. -/
theorem forall_range_iff {p : Word → Prop} (hend : addr.toNat + len < 2 ^ 32) :
    (∀ a, addr ≤ a → a < addr + BitVec.ofNat 32 len → p a) ↔ ∀ i < len, p (addr + BitVec.ofNat 32 i) := by
  have htoNat : ∀ i ≤ len, (addr + BitVec.ofNat 32 i).toNat = addr.toNat + i := fun i hi => by
    rw [toNat_add, toNat_ofNat, mod_eq_of_lt (by omega), mod_eq_of_lt (by omega)]
  constructor
  · intro h i hi
    refine h _ ?_ ?_
    · rw [le_def, htoNat i hi.le]
      omega
    · rw [lt_def, htoNat i hi.le, htoNat len le_rfl]
      omega
  · intro h a hle hlt
    rw [le_def] at hle
    rw [lt_def, htoNat len le_rfl] at hlt
    have ha : a = addr + BitVec.ofNat 32 (a.toNat - addr.toNat) := by
      apply eq_of_toNat_eq
      rw [htoNat _ (by omega)]
      omega
    rw [ha]
    exact h _ (by omega)

/-- `user_mem_check` is a check of each byte. -/
theorem userMemCheck_spec (h : u.InOrder) (hlen : len < 2 ^ 32) :
    ((userMemCheck u.mm addr (BitVec.ofNat 32 len) write).1 = true ↔ u.Accessible addr len write) ∧
      Kept u { u with mm := (userMemCheck u.mm addr (BitVec.ofNat 32 len) write).2 } := by
  obtain ⟨mm, mem⟩ := u
  cases mm with
  | none =>
    refine ⟨?_, rfl, fun mm hmm => nomatch hmm⟩
    simp only [userMemCheck, kernAccess, Accessible, decide_eq_true_eq]
    exact range_iff hlen
  | some mm =>
    have hmm : mm.InOrder := h mm rfl
    simp only [userMemCheck, Accessible]
    by_cases haccess : userAccess addr (addr + BitVec.ofNat 32 len) = true
    · have hrange := of_decide_eq_true haccess
      obtain ⟨hpos, hbase, htop⟩ := (range_iff hlen).mp hrange
      have htop' : addr.toNat + len ≤ 0x80000000 := htop
      obtain ⟨hiff, hlist, hinorder⟩ := @Mm.checkFrom_spec mm addr _ write hmm hrange.2.2
      rw [if_pos haccess]
      refine ⟨?_, congrArg some hlist, fun mm' hmm' => Option.some.inj hmm' ▸ hinorder⟩
      rw [hiff, forall_range_iff (by omega)]
      exact ⟨fun hall => ⟨hpos, hbase, htop, hall⟩, fun hall => hall.2.2.2⟩
    · rw [if_neg haccess]
      refine ⟨⟨fun hfalse => (Bool.false_ne_true hfalse).elim, fun hall => ?_⟩, rfl, h⟩
      exact (haccess (decide_eq_true ((range_iff hlen).mpr ⟨hall.1, hall.2.1, hall.2.2.1⟩))).elim

/-- **`user_mem_check` is exact.** For ranges in order it comes to its end, and returns true if and only
if there is a byte to access, all of them are in the user part of the memory, and each is in a range
that allows the access. -/
theorem user_mem_check_exact (mm : Mm) (addr len : Word) (write : Bool) (h : mm.InOrder) :
    (userMemCheck (some mm) addr len write).1 = true ↔
      0 < len.toNat ∧ userBase ≤ addr ∧ addr.toNat + len.toNat ≤ userTop.toNat ∧
        ∀ a : Word, addr.toNat ≤ a.toNat → a.toNat < addr.toNat + len.toNat →
          ∃ vma ∈ mm.mmapList, vma.Grants a write := by
  have horder : UserSpace.InOrder ⟨some mm, fun _ => 0⟩ := fun mm' hmm' => Option.some.inj hmm' ▸ h
  have hspec : _ ↔ Accessible ⟨some mm, fun _ => 0⟩ addr len.toNat write :=
    (userMemCheck_spec horder len.isLt).1
  rw [ofNat_toNat, setWidth_eq] at hspec
  refine hspec.trans (and_congr_right fun _ => and_congr_right fun _ => and_congr_right fun htop => ?_)
  have htop' : addr.toNat + len.toNat ≤ 0x80000000 := htop
  refine (forall_range_iff (p := (mm.Grants · write)) (by omega)).symm.trans ?_
  simp only [le_def, lt_def, toNat_add, ofNat_toNat, setWidth_eq,
    mod_eq_of_lt (show addr.toNat + len.toNat < 2 ^ 32 by omega)]
  rfl

theorem user_mem_check_exact_page : ∃ mm : Mm, mm.InOrder ∧
    (userMemCheck (some mm) 0x200800 0x800 false).1 = true := by
  have horder : Mm.InOrder ⟨[⟨0x200000, 0x201000, vmRead⟩], none, 0, false⟩ :=
    ⟨⟨by simp, by decide⟩, nofun⟩
  refine ⟨_, horder, (user_mem_check_exact _ _ _ _ horder).mpr ⟨by decide, by decide, by decide, ?_⟩⟩
  intro a hle hlt
  refine ⟨_, List.mem_singleton_self _, ⟨⟨?_, ?_⟩, by decide, nofun⟩⟩
  · exact le_trans (by decide) hle
  · exact hlt

/-! ### Copies -/

theorem copyToUser_eq {dst : Word} (h : u.InOrder) (ha : u.Accessible dst data.length true) :
    ∃ v, u.copyToUser dst data = (true, v) ∧ v.mem = (u.put dst data).mem ∧ Kept u v := by
  have hlen : data.length < 2 ^ 32 := by
    have hbound := ha.bound
    omega
  obtain ⟨hiff, hkept⟩ := @userMemCheck_spec u dst data.length true h hlen
  refine ⟨_, if_pos (hiff.mpr ha), rfl, hkept.ranges, hkept.inOrder⟩

theorem copyFromUser_eq {src : Word} (h : u.InOrder) (ha : u.Accessible src len write) :
    ∃ v, u.copyFromUser src len write = (some (u.bytes src len), v) ∧ v.mem = u.mem ∧ Kept u v := by
  have hlen : len < 2 ^ 32 := by
    have hbound := ha.bound
    omega
  obtain ⟨hiff, hkept⟩ := @userMemCheck_spec u src len write h hlen
  exact ⟨_, if_pos (hiff.mpr ha), rfl, hkept⟩

theorem length_bytes : (u.bytes addr len).length = len := length_span

theorem bytes_add (u : UserSpace) (addr : Word) (m n : Nat) :
    u.bytes addr (m + n) = u.bytes addr m ++ u.bytes (addr + BitVec.ofNat 32 m) n := by
  rw [bytes, span_add, bytes, bytes, zero_add]
  congr 1
  simp only [span, zero_add, BitVec.ofNat_add, BitVec.add_assoc]

/-- What has been copied to an address is there. -/
theorem bytes_put (hlen : data.length ≤ 2 ^ 32) : (u.put addr data).bytes addr data.length = data := by
  refine List.ext_getElem? fun i => ?_
  by_cases hi : i < data.length
  · have hsub : (addr + BitVec.ofNat 32 i - addr).toNat = i := by
      rw [BitVec.add_comm, BitVec.add_sub_cancel, BitVec.toNat_ofNat, mod_eq_of_lt (by omega)]
    rw [bytes, getElem?_span hi, zero_add]
    simp only [put, hsub, List.getD_eq_getElem?_getD, List.getElem?_eq_getElem hi, Option.getD_some]
  · rw [List.getElem?_eq_none (by rw [length_bytes]; omega), List.getElem?_eq_none (by omega)]

/-- Two copies that follow each other are one. -/
theorem put_put {more : List (BitVec 8)} (hlen : data.length + more.length < 2 ^ 32) :
    (u.put addr data).put (addr + BitVec.ofNat 32 data.length) more = u.put addr (data ++ more) := by
  unfold put
  congr 1
  funext a
  obtain ⟨d, hd⟩ : ∃ d, a - addr = d := ⟨_, rfl⟩
  have hdlt := d.isLt
  have hsub : a - (addr + BitVec.ofNat 32 data.length) = d - BitVec.ofNat 32 data.length := by
    bv_omega
  have hdata : (BitVec.ofNat 32 data.length).toNat = data.length := by
    rw [toNat_ofNat, mod_eq_of_lt (by omega)]
  simp only [hsub, hd, List.getD_eq_getElem?_getD]
  by_cases hlt : d.toNat < data.length
  · have hout : more.length ≤ (d - BitVec.ofNat 32 data.length).toNat := by
      rw [toNat_sub, hdata, mod_eq_of_lt (by omega)]
      omega
    rw [List.getElem?_eq_none hout, Option.getD_none, List.getElem?_append_left hlt]
  · have hin : (d - BitVec.ofNat 32 data.length).toNat = d.toNat - data.length := by
      rw [toNat_sub_of_le (by rw [le_def, hdata]; omega), hdata]
    rw [hin, List.getElem?_eq_none (l := data) (by omega), Option.getD_none,
      List.getElem?_append_right (by omega)]

end UserSpace

end UcoreMips.Kernel
