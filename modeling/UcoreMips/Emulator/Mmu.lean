import UcoreMips.Emulator.Cp0

/-!
# UcoreMips.Emulator.Mmu

The **memory management unit** (`src/mmu.h`): physical devices, the sixteen-entry
TLB, address translation and the six access functions.

* The MMU only holds a reference to the coprocessor, so every function that may
  raise an exception takes the coprocessor and returns it (`Access`), together
  with the value of the `exception` flag.
* The ROM and the flash disk are `std::istream`s over images in memory. A read
  past the end of an image sets `failbit`, which `seekg` never clears, and stores
  nothing: the local `val` keeps whatever it held. `Istream.garbage` stands for
  these indeterminate bytes.
* The four byte reads of a word stand in one C++ expression, whose operands may
  be evaluated in any order; the model takes them from left to right.
-/

namespace UcoreMips.Emulator

/-! ### Devices -/

/-- An input stream over an image held in memory. -/
structure Istream where
  image : List Byte
  failbit : Bool
  /-- What an uninitialised byte is found to hold, at the first, second, … read
  that stores nothing. -/
  garbage : Nat → Byte
  /-- The number of reads so far that stored nothing. -/
  misses : Nat

/-- `seekg(off)`, then `read(&val, 1)` into an uninitialised `val`. -/
def Istream.readAt (s : Istream) (off : Nat) : Byte × Istream :=
  if s.failbit then (s.garbage s.misses, { s with misses := s.misses + 1 })
  else
    match s.image[off]? with
    | some b => (b, s)
    | none => (s.garbage s.misses, { s with failbit := true, misses := s.misses + 1 })

theorem Istream.readAt_image (s : Istream) (off : Nat) : (s.readAt off).2.image = s.image := by
  unfold Istream.readAt
  split
  · rfl
  · split <;> rfl

/-- `k_TLB_ENTRIES`. -/
abbrev tlbEntries : Nat := 16

/-- `class MMU`, with the bytes sent to the serial port so far. -/
structure Mmu where
  ram : Word → Byte
  rom : Istream
  flash : Istream
  /-- TLB key: VPN2 (19 bits), zero (5 bits), ASID (8 bits). -/
  tlbKey : Fin tlbEntries → Word
  /-- TLB data, even and odd page: PFN (26 bits), C (3 bits), D, V, G. -/
  tlbData : BitVec 1 → Fin tlbEntries → Word
  cout : List Byte

/-! ### Memory layout -/

def kseg0Base : Word := 0x80000000
def kseg0Size : Word := 0x20000000
def kseg1Base : Word := 0xa0000000
def kseg1Size : Word := 0x20000000

def ramBase : Word := 0
def ramSize : Word := 0x800000
def romBase : Word := 0x1fc00000
def romSize : Word := 0x1000
def flashBase : Word := 0x1e000000
def flashSize : Word := 0x800000
def serialPort : Word := 0x1fd003f8
def serialStatus : Word := 0x1fd003fc

namespace Mmu

/-- `MMU::read_physical`. -/
def readPhysical (m : Mmu) (addr : Word) : Byte × Mmu :=
  if ramBase ≤ addr ∧ addr < ramBase + ramSize then (m.ram (addr - ramBase), m)
  else if romBase ≤ addr ∧ addr < romBase + romSize then
    let r := m.rom.readAt (addr - romBase).toNat
    (r.1, { m with rom := r.2 })
  else if flashBase ≤ addr ∧ addr < flashBase + flashSize then
    let r := m.flash.readAt (addr - flashBase).toNat
    (r.1, { m with flash := r.2 })
  -- reading `SERIAL_PORT` is not implemented and falls through
  else if addr = serialStatus then (0x01, m)
  else (0x00, m)

/-- `MMU::write_physical`. -/
def writePhysical (m : Mmu) (addr : Word) (data : Byte) : Mmu :=
  let m :=
    if ramBase ≤ addr ∧ addr < ramBase + ramSize then
      { m with ram := Function.update m.ram (addr - ramBase) data }
    else m
  if addr = serialPort then { m with cout := m.cout ++ [data] } else m

end Mmu

/-! ### Address translation -/

/-- What an access function hands back: its value, the `exception` flag, and the
two objects it may have changed. -/
structure Access (α : Type) where
  val : α
  exception : Bool
  cp0 : Cp0
  mmu : Mmu

/-- The CP0 updates of an address error: code and `BadVAddr`. -/
def Cp0.addressError (c : Cp0) (exc : ExcCode) (va : Word) : Cp0 :=
  (c.setExceptionCode exc).set badVAddr va

/-- The CP0 updates of a TLB exception, the same in its three places: code,
`BadVAddr`, `BadVPN2` in `Context` and `VPN2` in `EntryHi`. -/
def Cp0.tlbException (c : Cp0) (exc : ExcCode) (va : Word) : Cp0 :=
  let c := c.setExceptionCode exc
  let c := c.set badVAddr va
  let c := c.set context (c.registers context &&& 0xff80000f#32)
  let c := c.set context (c.registers context ||| va >>> 13 <<< 4)
  let c := c.set entryHi (c.registers entryHi &&& 0x00001fff#32)
  c.set entryHi (c.registers entryHi ||| (va &&& 0xffffe000#32))

namespace Mmu

/-- The loop over the TLB: the first entry whose key has the page-pair number. -/
def tlbLookup (m : Mmu) (vpn2 : Word) : Option (Fin tlbEntries) :=
  (List.finRange tlbEntries).find? fun i => m.tlbKey i >>> 13 == vpn2

/-- `MMU::addr_translate`. -/
def addrTranslate (m : Mmu) (c : Cp0) (va : Word) (write : Bool) : Access Word :=
  -- kseg0, unmapped
  if kseg0Base ≤ va ∧ va < kseg0Base + kseg0Size then
    { val := va &&& 0x1fffffff#32, exception := false, cp0 := c, mmu := m }
  -- kseg1, unmapped
  else if kseg1Base ≤ va ∧ va < kseg1Base + kseg1Size then
    { val := va &&& 0x1fffffff#32, exception := false, cp0 := c, mmu := m }
  -- kuseg or kseg2, mapped
  else
    match m.tlbLookup (va >>> 13) with
    | some i =>
      let entryLo := m.tlbData (va.extractLsb' 12 1) i
      -- V bit
      if entryLo.getLsbD 1 = false then
        { val := 0, exception := true, mmu := m,
          cp0 := c.tlbException (if write then .tlbs else .tlbl) va }
      -- D bit
      else if entryLo.getLsbD 2 = false ∧ write = true then
        { val := 0, exception := true, cp0 := c.tlbException .mod va, mmu := m }
      else
        { val := (entryLo <<< 6 &&& 0xfffff000#32) ||| (va &&& 0x00000fff#32),
          exception := false, cp0 := c, mmu := m }
    -- TLB refill
    | none =>
      { val := 0, exception := true, mmu := m,
        cp0 := c.tlbException (if write then .tlbs else .tlbl) va }

/-- `tlb_key_[i] = hi`, `tlb_data_[0][i] = lo0`, `tlb_data_[1][i] = lo1`. -/
def writeTlb (m : Mmu) (i : Fin tlbEntries) (hi lo0 lo1 : Word) : Mmu :=
  { m with
    tlbKey := Function.update m.tlbKey i hi,
    tlbData := fun odd => Function.update (m.tlbData odd) i (if odd = 0 then lo0 else lo1) }

/-! ### The access functions -/

/-- `MMU::read_byte`. -/
def readByte (m : Mmu) (c : Cp0) (va : Word) : Access Byte :=
  let t := m.addrTranslate c va false
  if t.exception then { t with val := 0x00 }
  else
    let r := t.mmu.readPhysical t.val
    { t with val := r.1, mmu := r.2 }

/-- `MMU::read_half_word`. -/
def readHalfWord (m : Mmu) (c : Cp0) (va : Word) : Access Half :=
  if va &&& 0x01#32 ≠ 0 then
    { val := 0x00, exception := true, cp0 := c.addressError .adel va, mmu := m }
  else
    let t := m.addrTranslate c va false
    if t.exception then { t with val := 0x00 }
    else
      let r0 := t.mmu.readPhysical (t.val + 0)
      let r1 := r0.2.readPhysical (t.val + 1)
      { t with val := r0.1.setWidth 16 ||| r1.1.setWidth 16 <<< 8, mmu := r1.2 }

/-- `MMU::read_word`. -/
def readWord (m : Mmu) (c : Cp0) (va : Word) : Access Word :=
  if va &&& 0x03#32 ≠ 0 then
    { val := 0x00, exception := true, cp0 := c.addressError .adel va, mmu := m }
  else
    let t := m.addrTranslate c va false
    if t.exception then { t with val := 0x00 }
    else
      let r0 := t.mmu.readPhysical (t.val + 0)
      let r1 := r0.2.readPhysical (t.val + 1)
      let r2 := r1.2.readPhysical (t.val + 2)
      let r3 := r2.2.readPhysical (t.val + 3)
      { t with
        val := r0.1.setWidth 32 ||| r1.1.setWidth 32 <<< 8 ||| r2.1.setWidth 32 <<< 16
          ||| r3.1.setWidth 32 <<< 24,
        mmu := r3.2 }

/-- `MMU::write_byte`. -/
def writeByte (m : Mmu) (c : Cp0) (va : Word) (data : Byte) : Access Unit :=
  let t := m.addrTranslate c va true
  if t.exception then { t with val := () }
  else { t with val := (), mmu := t.mmu.writePhysical t.val data }

/-- `MMU::write_half_word`. -/
def writeHalfWord (m : Mmu) (c : Cp0) (va : Word) (data : Half) : Access Unit :=
  if va &&& 0x01#32 ≠ 0 then
    { val := (), exception := true, cp0 := c.addressError .ades va, mmu := m }
  else
    let t := m.addrTranslate c va true
    if t.exception then { t with val := () }
    else
      let m := t.mmu.writePhysical (t.val + 0) (data.setWidth 8)
      let m := m.writePhysical (t.val + 1) ((data >>> 8).setWidth 8)
      { t with val := (), mmu := m }

/-- `MMU::write_word`. -/
def writeWord (m : Mmu) (c : Cp0) (va : Word) (data : Word) : Access Unit :=
  if va &&& 0x03#32 ≠ 0 then
    { val := (), exception := true, cp0 := c.addressError .ades va, mmu := m }
  else
    let t := m.addrTranslate c va true
    if t.exception then { t with val := () }
    else
      let m := t.mmu.writePhysical (t.val + 0) (data.setWidth 8)
      let m := m.writePhysical (t.val + 1) ((data >>> 8).setWidth 8)
      let m := m.writePhysical (t.val + 2) ((data >>> 16).setWidth 8)
      let m := m.writePhysical (t.val + 3) ((data >>> 24).setWidth 8)
      { t with val := (), mmu := m }

/-! ### Reading leaves the machine alone

A read can only change the state of the two streams; the images, the RAM, the TLB
and what was sent to the serial port stay as they are. -/

/-- The two MMU states differ at most in the error state of the streams. -/
structure Unread (m m' : Mmu) : Prop where
  ram : m'.ram = m.ram
  tlbKey : m'.tlbKey = m.tlbKey
  tlbData : m'.tlbData = m.tlbData
  cout : m'.cout = m.cout
  romImage : m'.rom.image = m.rom.image
  flashImage : m'.flash.image = m.flash.image

theorem Unread.refl (m : Mmu) : m.Unread m := ⟨rfl, rfl, rfl, rfl, rfl, rfl⟩

theorem Unread.trans {m m' m'' : Mmu} (h : m.Unread m') (h' : m'.Unread m'') : m.Unread m'' :=
  ⟨h'.ram.trans h.ram, h'.tlbKey.trans h.tlbKey, h'.tlbData.trans h.tlbData,
    h'.cout.trans h.cout, h'.romImage.trans h.romImage, h'.flashImage.trans h.flashImage⟩

theorem readPhysical_unread (m : Mmu) (addr : Word) : m.Unread (m.readPhysical addr).2 := by
  unfold readPhysical
  split_ifs
  · exact Unread.refl m
  · exact ⟨rfl, rfl, rfl, rfl, m.rom.readAt_image _, rfl⟩
  · exact ⟨rfl, rfl, rfl, rfl, rfl, m.flash.readAt_image _⟩
  · exact Unread.refl m
  · exact Unread.refl m

/-! ### Which accesses fault -/

/-- The exception translating `va` raises, if any: a miss in the TLB or an invalid
entry, or a store to a page whose entry is not dirty. -/
def translationFault (m : Mmu) (va : Word) (write : Bool) : Option ExcCode :=
  if kseg0Base ≤ va ∧ va < kseg1Base + kseg1Size then none
  else
    match m.tlbLookup (va >>> 13) with
    | none => some (if write then .tlbs else .tlbl)
    | some i =>
      let entryLo := m.tlbData (va.extractLsb' 12 1) i
      if entryLo.getLsbD 1 = false then some (if write then .tlbs else .tlbl)
      else if entryLo.getLsbD 2 = false ∧ write = true then some .mod
      else none

/-- The unmapped segments are adjacent: together they are one range. -/
theorem unmapped_iff (va : Word) :
    (kseg0Base ≤ va ∧ va < kseg0Base + kseg0Size) ∨ (kseg1Base ≤ va ∧ va < kseg1Base + kseg1Size) ↔
      kseg0Base ≤ va ∧ va < kseg1Base + kseg1Size := by
  unfold kseg0Base kseg0Size kseg1Base kseg1Size
  bv_omega

/-- Translation never changes the MMU. -/
@[simp] theorem addrTranslate_mmu (m : Mmu) (c : Cp0) (va : Word) (write : Bool) :
    (m.addrTranslate c va write).mmu = m := by
  unfold addrTranslate
  split
  · rfl
  split
  · rfl
  split
  · dsimp only
    split
    · rfl
    · split <;> rfl
  · rfl

/-- Translation raises exactly the fault `translationFault` names, and records it
in CP0; without one CP0 stays as it is. -/
theorem addrTranslate_fault (m : Mmu) (c : Cp0) (va : Word) (write : Bool) :
    (m.addrTranslate c va write).exception = (m.translationFault va write).isSome ∧
      (m.addrTranslate c va write).cp0 =
        match m.translationFault va write with
        | some exc => c.tlbException exc va
        | none => c := by
  unfold addrTranslate translationFault
  by_cases h0 : kseg0Base ≤ va ∧ va < kseg0Base + kseg0Size
  · rw [if_pos h0, if_pos ((unmapped_iff va).mp (.inl h0))]
    exact ⟨rfl, rfl⟩
  by_cases h1 : kseg1Base ≤ va ∧ va < kseg1Base + kseg1Size
  · rw [if_neg h0, if_pos h1, if_pos ((unmapped_iff va).mp (.inr h1))]
    exact ⟨rfl, rfl⟩
  rw [if_neg h0, if_neg h1, if_neg (fun h => ((unmapped_iff va).mpr h).elim h0 h1)]
  cases m.tlbLookup (va >>> 13) with
  | none => exact ⟨rfl, rfl⟩
  | some i =>
    dsimp only
    split_ifs <;> exact ⟨rfl, rfl⟩

/-- A read of a word leaves the machine alone, whether it faults or not. -/
theorem readWord_unread (m : Mmu) (c : Cp0) (va : Word) : m.Unread (m.readWord c va).mmu := by
  unfold readWord
  split
  · exact Unread.refl m
  · dsimp only
    rw [addrTranslate_mmu]
    split
    · exact Unread.refl m
    · exact (((m.readPhysical_unread _).trans (readPhysical_unread _ _)).trans
        (readPhysical_unread _ _)).trans (readPhysical_unread _ _)

end Mmu

end UcoreMips.Emulator
