import UcoreMips.Emulator.PreciseExceptions
import UcoreMips.Lib.Bytes

/-!
# UcoreMips.Emulator.MemoryModel

**What a store does to later loads.** Two virtual addresses that translate to the
same physical address in RAM name the same memory, whatever TLB entries and
segments they go through: a load through one sees the last store through the other,
byte by byte in little-endian order, and a store disturbs nothing else.

Translation works on whole pages and keeps the offset (`TranslatesTo.page`), and in
RAM an access of `n` aligned bytes is `n` array accesses (`readBytes_*`,
`write*_ram`). The main theorem follows by comparing bytes.
-/

namespace UcoreMips.Emulator

open UcoreMips.Lib BitVec

namespace Mmu

/-! ### Translation keeps pages together -/

/-- `va` translates to `pa`, without an exception. -/
def TranslatesTo (m : Mmu) (c : Cp0) (va : Word) (write : Bool) (pa : Word) : Prop :=
  (m.addrTranslate c va write).exception = false ∧ (m.addrTranslate c va write).val = pa

/-- The physical address of `va`, if its translation does not fault. -/
def translated (m : Mmu) (va : Word) : Word :=
  if kseg0Base ≤ va ∧ va < kseg1Base + kseg1Size then va &&& 0x1fffffff#32
  else
    match m.tlbLookup (va >>> 13) with
    | some i =>
      (m.tlbData (va.extractLsb' 12 1) i <<< 6 &&& 0xfffff000#32) ||| (va &&& 0x00000fff#32)
    | none => 0

variable {va : Word} {m : Mmu} {write : Bool}

/-- A mapped address without a fault has an entry that is valid, and dirty for a write. -/
theorem exists_lookup (h : m.translationFault va write = none)
    (hmapped : ¬(kseg0Base ≤ va ∧ va < kseg1Base + kseg1Size)) : ∃ i, m.tlbLookup (va >>> 13) = some i ∧
      (m.tlbData (va.extractLsb' 12 1) i).getLsbD 1 ≠ false ∧
      ¬((m.tlbData (va.extractLsb' 12 1) i).getLsbD 2 = false ∧ write = true) := by
  rw [translationFault, if_neg hmapped] at h
  cases hlookup : m.tlbLookup (va >>> 13) with
  | none => simp [hlookup] at h
  | some i =>
    simp only [hlookup] at h
    by_cases hv : (m.tlbData (va.extractLsb' 12 1) i).getLsbD 1 = false
    · rw [if_pos hv] at h
      cases h
    rw [if_neg hv] at h
    refine ⟨i, rfl, hv, fun hd => ?_⟩
    rw [if_pos hd] at h
    cases h

theorem addrTranslate_val (c : Cp0) (h : m.translationFault va write = none) :
    (m.addrTranslate c va write).val = m.translated va := by
  unfold addrTranslate translated
  by_cases h0 : kseg0Base ≤ va ∧ va < kseg0Base + kseg0Size
  · rw [if_pos h0, if_pos ((unmapped_iff va).mp (.inl h0))]
  by_cases h1 : kseg1Base ≤ va ∧ va < kseg1Base + kseg1Size
  · rw [if_neg h0, if_pos h1, if_pos ((unmapped_iff va).mp (.inr h1))]
  have hmapped : ¬(kseg0Base ≤ va ∧ va < kseg1Base + kseg1Size) :=
    fun h => ((unmapped_iff va).mpr h).elim h0 h1
  obtain ⟨i, hlookup, hv, hd⟩ := exists_lookup h hmapped
  rw [if_neg h0, if_neg h1, if_neg hmapped]
  simp only [hlookup, if_neg hv, if_neg hd]

variable {pa : Word} {c : Cp0} {i k : Nat}

theorem translatesTo_iff :
    m.TranslatesTo c va write pa ↔ m.translationFault va write = none ∧ m.translated va = pa := by
  unfold TranslatesTo
  rw [(m.addrTranslate_fault c va write).1, Option.isSome_eq_false_iff, Option.isNone_iff_eq_none]
  refine and_congr_right fun h => ?_
  rw [addrTranslate_val c h]

theorem translationFault_read_of_write (h : m.translationFault va true = none) :
    m.translationFault va false = none := by
  unfold translationFault
  split
  · rfl
  · next hmapped =>
    obtain ⟨i, hlookup, hv, -⟩ := exists_lookup h hmapped
    simp [hlookup, hv]

/-- Whoever may write an address may read it, at the same physical address. -/
theorem TranslatesTo.read_of_write (h : m.TranslatesTo c va true pa) :
    m.TranslatesTo c va false pa := by
  rw [translatesTo_iff] at h ⊢
  exact ⟨translationFault_read_of_write h.1, h.2⟩

/-- Translation works on whole pages: at another address of the same page there is
a fault just when there was one here, and the same page of physical memory. -/
theorem translated_page {va' : Word} (hpage : va'.toNat / 4096 = va.toNat / 4096)
    (h : m.translationFault va write = none) :
    m.translationFault va' write = none ∧
      (m.translated va').toNat = 4096 * ((m.translated va).toNat / 4096) + va'.toNat % 4096 := by
  have hun : (kseg0Base ≤ va' ∧ va' < kseg1Base + kseg1Size) ↔
      (kseg0Base ≤ va ∧ va < kseg1Base + kseg1Size) := by
    unfold kseg0Base kseg1Base kseg1Size
    bv_omega
  have hvpn2 : va' >>> 13 = va >>> 13 := by
    rw [ushiftRight_eq_iff]
    omega
  have hodd : va'.extractLsb' 12 1 = va.extractLsb' 12 1 := by
    rw [← toNat_inj]
    simp only [BitVec.extractLsb'_toNat, Nat.shiftRight_eq_div_pow]
    omega
  refine ⟨?_, ?_⟩
  · unfold translationFault at *
    simpa only [hun, hvpn2, hodd] using h
  · unfold translated
    simp only [hun, hvpn2, hodd]
    split
    · rw [toNat_and_low (k := 29) (by decide), toNat_and_low (k := 29) (by decide)]
      omega
    · next hmapped =>
      obtain ⟨i, hlookup, -⟩ := exists_lookup h hmapped
      simp only [hlookup]
      rw [toNat_splice (k := 12) (by decide) (by decide),
        toNat_splice (k := 12) (by decide) (by decide)]
      omega

/-- Translation keeps the offset in the page. -/
theorem TranslatesTo.offset (h : m.TranslatesTo c va write pa) :
    pa.toNat % 4096 = va.toNat % 4096 := by
  obtain ⟨hfault, rfl⟩ := translatesTo_iff.mp h
  have := (translated_page rfl hfault).2
  omega

/-- The bytes of an aligned word are translated together. -/
theorem TranslatesTo.add (h : m.TranslatesTo c va write pa) (hi : va.toNat % 4 + i < 4) :
    m.TranslatesTo c (va + BitVec.ofNat 32 i) write (pa + BitVec.ofNat 32 i) := by
  have hoff := h.offset
  obtain ⟨hfault, rfl⟩ := translatesTo_iff.mp h
  have hva : (va + BitVec.ofNat 32 i).toNat = va.toNat + i := by bv_omega
  have hpage := translated_page (show (va + BitVec.ofNat 32 i).toNat / 4096 = _ by omega) hfault
  refine translatesTo_iff.mpr ⟨hpage.1, eq_of_toNat_eq ?_⟩
  rw [hpage.2, hva, toNat_add, toNat_ofNat]
  omega

/-! ### Accesses in RAM -/

/-- The physical address lies in RAM. -/
def InRam (pa : Word) : Prop := ramBase ≤ pa ∧ pa < ramBase + ramSize

instance (pa : Word) : Decidable (InRam pa) := inferInstanceAs (Decidable (_ ∧ _))

theorem inRam_iff (pa : Word) : InRam pa ↔ pa.toNat < 0x800000 := by
  unfold InRam ramBase ramSize
  bv_omega

/-- RAM ends at a multiple of four, so a word that begins in it lies in it. -/
theorem InRam.add (h : InRam pa) (hi : pa.toNat % 4 + i < 4) : InRam (pa + BitVec.ofNat 32 i) := by
  rw [inRam_iff] at *
  rw [toNat_add, toNat_ofNat]
  omega

theorem readPhysical_ram (h : InRam pa) : m.readPhysical pa = (m.ram pa, m) := by
  unfold InRam at h
  rw [readPhysical, if_pos h, ramBase, show pa - 0 = pa from BitVec.sub_zero pa]

theorem writePhysical_ram (h : InRam pa) (b : Byte) :
    m.writePhysical pa b = { m with ram := Function.update m.ram pa b } := by
  have hport : pa ≠ serialPort := by
    rintro rfl
    revert h
    decide
  unfold InRam at h
  unfold writePhysical
  rw [if_neg hport, if_pos h, ramBase, show pa - 0 = pa from BitVec.sub_zero pa]

/-- Outside RAM a physical read does not depend on what RAM holds. -/
theorem readPhysical_outside (h : ¬InRam pa) (ram : Word → Byte) :
    ({ m with ram := ram }.readPhysical pa).1 = (m.readPhysical pa).1 := by
  unfold InRam at h
  unfold readPhysical
  rw [if_neg h, if_neg h]
  split
  · rfl
  · split
    · rfl
    · split <;> rfl

theorem aligned_iff {low : Word} (hlow : low.toNat = 2 ^ k - 1) :
    va &&& low = 0 ↔ va.toNat % 2 ^ k = 0 := by
  rw [← toNat_inj, toNat_and_low hlow]
  rfl

theorem TranslatesTo.cp0_eq (h : m.TranslatesTo c va write pa) : (m.addrTranslate c va write).cp0 = c := by
  have hcp0 := (m.addrTranslate_fault c va write).2
  rwa [(translatesTo_iff.mp h).1] at hcp0

section Reads

variable (h : m.TranslatesTo c va false pa) (hram : InRam pa)

include h hram

theorem readByte_ram :
    m.readByte c va = { val := m.ram pa, exception := false, cp0 := c, mmu := m } := by
  unfold readByte
  simp only [h.1, h.2, h.cp0_eq, addrTranslate_mmu, readPhysical_ram hram, Bool.false_eq_true,
    if_false]

theorem readHalfWord_ram (halign : va.toNat % 2 = 0) :
    ∃ v, m.readHalfWord c va = { val := v, exception := false, cp0 := c, mmu := m } ∧
      ∀ i < 2, byteAt v i = m.ram (pa + BitVec.ofNat 32 i) := by
  have hoff := h.offset
  have hram0 : InRam (pa + 0) := hram.add (i := 0) (by omega)
  have hram1 : InRam (pa + 1) := hram.add (i := 1) (by omega)
  have halign' : ¬(va &&& 0x01#32 ≠ 0) := not_not.mpr ((aligned_iff (k := 1) rfl).mpr halign)
  refine ⟨_, ?_, fun i hi => byteAt_join_two (b := fun i => m.ram (pa + BitVec.ofNat 32 i)) hi⟩
  unfold readHalfWord
  rw [if_neg halign']
  simp only [h.1, h.2, h.cp0_eq, addrTranslate_mmu, readPhysical_ram hram0, readPhysical_ram hram1,
    Bool.false_eq_true, if_false]
  rfl

theorem readWord_ram (halign : va.toNat % 4 = 0) :
    ∃ v, m.readWord c va = { val := v, exception := false, cp0 := c, mmu := m } ∧
      ∀ i < 4, byteAt v i = m.ram (pa + BitVec.ofNat 32 i) := by
  have hoff := h.offset
  have hram0 : InRam (pa + 0) := hram.add (i := 0) (by omega)
  have hram1 : InRam (pa + 1) := hram.add (i := 1) (by omega)
  have hram2 : InRam (pa + 2) := hram.add (i := 2) (by omega)
  have hram3 : InRam (pa + 3) := hram.add (i := 3) (by omega)
  have halign' : ¬(va &&& 0x03#32 ≠ 0) := not_not.mpr ((aligned_iff (k := 2) rfl).mpr halign)
  refine ⟨_, ?_, fun i hi => byteAt_join_four (b := fun i => m.ram (pa + BitVec.ofNat 32 i)) hi⟩
  unfold readWord
  rw [if_neg halign']
  simp only [h.1, h.2, h.cp0_eq, addrTranslate_mmu, readPhysical_ram hram0, readPhysical_ram hram1,
    readPhysical_ram hram2, readPhysical_ram hram3, Bool.false_eq_true, if_false]
  rfl

end Reads

/-- `writePhysical` at byte `i` of a store whose first `i` bytes are written. -/
theorem writePhysical_storeBytes (m : Mmu) (ram : Word → Byte) (v : BitVec k)
    (hram : InRam (pa + BitVec.ofNat 32 i)) (hi : i < 2 ^ 32) :
    { m with ram := storeBytes ram pa i v }.writePhysical (pa + BitVec.ofNat 32 i) (byteAt v i) =
      { m with ram := storeBytes ram pa (i + 1) v } := by
  rw [writePhysical_ram hram, storeBytes_succ _ _ _ hi]

/-- What a store of the first `n` bytes of `v` at a physical address in RAM returns. -/
def stored (m : Mmu) (c : Cp0) (pa : Word) (n : Nat) {k : Nat} (v : BitVec k) : Access Unit :=
  { val := (), exception := false, cp0 := c, mmu := { m with ram := storeBytes m.ram pa n v } }

theorem writeByte_ram (b : Byte) (h : m.TranslatesTo c va true pa) (hram : InRam pa) :
    m.writeByte c va b = m.stored c pa 1 b := by
  have hbyte : storeBytes m.ram pa 1 b = Function.update m.ram pa b := by
    rw [storeBytes_succ _ _ _ (by omega), storeBytes_zero,
      show pa + BitVec.ofNat 32 0 = pa from BitVec.add_zero pa,
      show byteAt b 0 = b from BitVec.extractLsb'_eq_self]
  unfold writeByte stored
  simp only [h.1, h.2, h.cp0_eq, addrTranslate_mmu, Bool.false_eq_true, if_false,
    writePhysical_ram hram, hbyte]

theorem writeHalfWord_ram (v : Half) (h : m.TranslatesTo c va true pa) (hram : InRam pa)
    (halign : va.toNat % 2 = 0) :
    m.writeHalfWord c va v = m.stored c pa 2 v := by
  have hoff := h.offset
  have halign' : ¬(va &&& 0x01#32 ≠ 0) := not_not.mpr ((aligned_iff (k := 1) rfl).mpr halign)
  have hbyte := fun i (hi : i < 2) =>
    writePhysical_storeBytes m m.ram v (hram.add (i := i) (by omega)) (by omega)
  have hbyte0 := hbyte 0 (by omega)
  unfold writeHalfWord stored
  rw [if_neg halign']
  simp only [h.1, h.2, h.cp0_eq, addrTranslate_mmu, Bool.false_eq_true, if_false]
  rw [← hbyte 1 (by omega), ← hbyte0]
  rfl

theorem writeWord_ram (v : Word) (h : m.TranslatesTo c va true pa) (hram : InRam pa)
    (halign : va.toNat % 4 = 0) :
    m.writeWord c va v = m.stored c pa 4 v := by
  have hoff := h.offset
  have halign' : ¬(va &&& 0x03#32 ≠ 0) := not_not.mpr ((aligned_iff (k := 2) rfl).mpr halign)
  have hbyte := fun i (hi : i < 4) =>
    writePhysical_storeBytes m m.ram v (hram.add (i := i) (by omega)) (by omega)
  have hbyte0 := hbyte 0 (by omega)
  unfold writeWord stored
  rw [if_neg halign']
  simp only [h.1, h.2, h.cp0_eq, addrTranslate_mmu, Bool.false_eq_true, if_false]
  rw [← hbyte 3 (by omega), ← hbyte 2 (by omega), ← hbyte 1 (by omega), ← hbyte0]
  rfl

/-! ### Loads after a store -/

theorem translatesTo_ram {ram : Word → Byte} :
    { m with ram := ram }.TranslatesTo c va write pa ↔ m.TranslatesTo c va write pa := by
  rw [translatesTo_iff, translatesTo_iff]
  exact Iff.rfl

/-- What the memory shows after the access `r` has stored the `n` bytes of `v` at the
physical address `pa`; the state before it was `m` and `c`. -/
structure Stored (m : Mmu) (c : Cp0) (pa : Word) (n : Nat) {k : Nat} (v : BitVec k)
    (r : Access Unit) : Prop where
  exception : r.exception = false
  cp0 : r.cp0 = c
  tlbKey : r.mmu.tlbKey = m.tlbKey
  tlbData : r.mmu.tlbData = m.tlbData
  /-- Through every address of `pa`, the bytes are those of `v`, in little-endian order. -/
  byte : ∀ c' va', r.mmu.TranslatesTo c' va' false pa → ∀ i < n,
    r.mmu.readByte c' (va' + BitVec.ofNat 32 i) =
      { val := byteAt v i, exception := false, cp0 := c', mmu := r.mmu }
  half : ∀ c' va', r.mmu.TranslatesTo c' va' false pa → ∀ i, 2 * i + 2 ≤ n →
    r.mmu.readHalfWord c' (va' + BitVec.ofNat 32 (2 * i)) =
      { val := v.extractLsb' (16 * i) 16, exception := false, cp0 := c', mmu := r.mmu }
  word : ∀ c' va', r.mmu.TranslatesTo c' va' false pa → n = 4 →
    r.mmu.readWord c' va' =
      { val := v.extractLsb' 0 32, exception := false, cp0 := c', mmu := r.mmu }
  /-- Of the aligned word around `pa`, exactly the stored bytes change. -/
  enclosing : ∀ c' va', r.mmu.TranslatesTo c' va' false (pa &&& ~~~0x03#32) → ∀ i < 4,
    byteAt (r.mmu.readWord c' va').val i =
      if pa.toNat % 4 ≤ i ∧ i < pa.toNat % 4 + n then byteAt v (i - pa.toNat % 4)
      else byteAt (m.readWord c' va').val i
  /-- Any other physical byte, of any device, reads as before. -/
  frame : ∀ a, n ≤ (a - pa).toNat → (r.mmu.readPhysical a).1 = (m.readPhysical a).1

/-- The aligned word that holds a physical address. -/
theorem toNat_wordBase (pa : Word) : (pa &&& ~~~0x03#32).toNat = 4 * (pa.toNat / 4) := by
  have h := toNat_splice (k := 2) (x := pa) (y := 0#32) (show (0x03#32).toNat = _ by decide) rfl
  simpa using h

/-- The offset in a store at `pa` of byte `i` of the word around it. -/
theorem wordBase_sub (pa : Word) (hi : i < 4) :
    ((pa &&& ~~~0x03#32) + BitVec.ofNat 32 i - pa).toNat =
      if pa.toNat % 4 ≤ i then i - pa.toNat % 4 else 2 ^ 32 + i - pa.toNat % 4 := by
  have hbase := toNat_wordBase pa
  generalize pa &&& ~~~0x03#32 = base at *
  split <;> bv_omega

/-- An aligned store in RAM. -/
theorem stored_spec {n : Nat} {v : BitVec k} (hram : InRam pa) (hn : n = 1 ∨ n = 2 ∨ n = 4)
    (halign : pa.toNat % n = 0) :
    Stored m c pa n v (m.stored c pa n v) where
  exception := rfl
  cp0 := rfl
  tlbKey := rfl
  tlbData := rfl
  byte := by
    intro c' va' hva i hi
    have hoff := hva.offset
    have hpa : pa.toNat % 4 + i < 4 := by rcases hn with rfl | rfl | rfl <;> omega
    rw [readByte_ram (hva.add (by omega)) (hram.add hpa)]
    simp only [stored, storeBytes_add hi (show i < 2 ^ 32 by omega)]
  half := by
    intro c' va' hva i hi
    have hoff := hva.offset
    have hpa : pa.toNat % 4 + 2 * i + 1 < 4 ∧ pa.toNat % 2 = 0 := by
      rcases hn with rfl | rfl | rfl <;> omega
    have heven : (va' + BitVec.ofNat 32 (2 * i)).toNat % 2 = 0 := by
      rw [toNat_add, toNat_ofNat]
      omega
    obtain ⟨x, hx, hbytes⟩ :=
      readHalfWord_ram (hva.add (by omega)) (hram.add (by omega)) heven
    have hval : x = v.extractLsb' (16 * i) 16 := by
      apply eq_of_bytes (n := 2) (by omega)
      intro j hj
      rw [hbytes j hj, show 16 * i = 8 * (2 * i) by omega, byteAt_extract _ (by omega),
        BitVec.add_assoc, ← BitVec.ofNat_add]
      exact storeBytes_add (by omega) (by omega)
    rw [hx, hval]
  word := by
    intro c' va' hva hfour
    subst hfour
    have hoff := hva.offset
    obtain ⟨x, hx, hbytes⟩ := readWord_ram hva hram (by omega)
    have hval : x = v.extractLsb' 0 32 := by
      apply eq_of_bytes (n := 4) (by omega)
      intro j hj
      rw [hbytes j hj, byteAt_extract 0 (by omega), Nat.zero_add]
      exact storeBytes_add (by omega) (by omega)
    rw [hx, hval]
  enclosing := by
    intro c' va' hva i hi
    have hbase := toNat_wordBase pa
    have hoff := hva.offset
    have hram' : InRam (pa &&& ~~~0x03#32) := by
      rw [inRam_iff] at *
      omega
    obtain ⟨x, hx, hbytes⟩ := readWord_ram hva hram' (by omega)
    obtain ⟨y, hy, hbytes'⟩ := readWord_ram (translatesTo_ram.mp hva) hram' (by omega)
    rw [hx, hy]
    rw [hbytes i hi, hbytes' i hi]
    have hsub := wordBase_sub pa hi
    -- the byte is before the store, in it or behind it
    by_cases hlo : pa.toNat % 4 ≤ i
    · rw [if_pos hlo] at hsub
      by_cases hhi : i < pa.toNat % 4 + n
      · rw [if_pos ⟨hlo, hhi⟩, ← hsub]
        exact if_pos (by omega)
      · rw [if_neg (fun h => hhi h.2)]
        exact storeBytes_outside (by omega)
    · rw [if_neg hlo] at hsub
      rw [if_neg (fun h => hlo h.1)]
      exact storeBytes_outside (by rcases hn with rfl | rfl | rfl <;> omega)
  frame := by
    intro a ha
    by_cases hin : InRam a
    · rw [readPhysical_ram hin, readPhysical_ram hin]
      exact storeBytes_outside ha
    · exact readPhysical_outside hin _

theorem Stored.of_writeByte (b : Byte) (h : m.TranslatesTo c va true pa) (hram : InRam pa) :
    Stored m c pa 1 b (m.writeByte c va b) := by
  rw [writeByte_ram b h hram]
  exact stored_spec hram (.inl rfl) (Nat.mod_one _)

theorem Stored.of_writeHalfWord {v : Half} (hw : (m.writeHalfWord c va v).exception = false)
    (h : m.TranslatesTo c va true pa) (hram : InRam pa) :
    Stored m c pa 2 v (m.writeHalfWord c va v) := by
  have hfault := accessFault_eq_none.mp ((m.writeHalfWord_obeys c va v).exception_eq_false.mp hw)
  have halign := (aligned_iff (k := 1) rfl).mp hfault.1
  have hoff := h.offset
  rw [writeHalfWord_ram v h hram halign]
  exact stored_spec hram (.inr (.inl rfl)) (by omega)

theorem Stored.of_writeWord {v : Word} (hw : (m.writeWord c va v).exception = false)
    (h : m.TranslatesTo c va true pa) (hram : InRam pa) : Stored m c pa 4 v (m.writeWord c va v) := by
  have hfault := accessFault_eq_none.mp ((m.writeWord_obeys c va v).exception_eq_false.mp hw)
  have halign := (aligned_iff (k := 2) rfl).mp hfault.1
  have hoff := h.offset
  rw [writeWord_ram v h hram halign]
  exact stored_spec hram (.inr (.inr rfl)) (by omega)

theorem readable_of_writable {α β : Type} {align : Word} {r : Access α} {w : Access β}
    (hr : r.Obeys m c (m.accessFault va align false)) (hw : w.Obeys m c (m.accessFault va align true))
    (h : w.exception = false) :
    r.exception = false := by
  have hfault := accessFault_eq_none.mp (hw.exception_eq_false.mp h)
  exact hr.exception_eq_false.mpr
    (accessFault_eq_none.mpr ⟨hfault.1, translationFault_read_of_write hfault.2⟩)

/-- **The memory model.** A store through one virtual address is seen by the loads
through every address of the same physical bytes, and changes nothing else; and what
can be stored to can be loaded from, at the same physical address. -/
theorem store_load (m : Mmu) (c : Cp0) (va pa : Word) :
    (∀ b, (m.writeByte c va b).exception = false → m.TranslatesTo c va true pa → InRam pa →
      Stored m c pa 1 b (m.writeByte c va b)) ∧
    (∀ v, (m.writeHalfWord c va v).exception = false → m.TranslatesTo c va true pa → InRam pa →
      Stored m c pa 2 v (m.writeHalfWord c va v)) ∧
    (∀ v, (m.writeWord c va v).exception = false → m.TranslatesTo c va true pa → InRam pa →
      Stored m c pa 4 v (m.writeWord c va v)) ∧
    (m.TranslatesTo c va true pa → m.TranslatesTo c va false pa) ∧
    (∀ b, (m.writeByte c va b).exception = false → (m.readByte c va).exception = false) ∧
    (∀ v, (m.writeHalfWord c va v).exception = false → (m.readHalfWord c va).exception = false) ∧
    (∀ v, (m.writeWord c va v).exception = false → (m.readWord c va).exception = false) :=
  ⟨fun b _ h hram => Stored.of_writeByte b h hram,
    fun _ hw h hram => Stored.of_writeHalfWord hw h hram,
    fun _ hw h hram => Stored.of_writeWord hw h hram,
    TranslatesTo.read_of_write,
    fun b => readable_of_writable (m.readByte_obeys c va) (m.writeByte_obeys c va b),
    fun v => readable_of_writable (m.readHalfWord_obeys c va) (m.writeHalfWord_obeys c va v),
    fun v => readable_of_writable (m.readWord_obeys c va) (m.writeWord_obeys c va v)⟩

/-- A word stored through kseg0 is loaded through kseg1. -/
theorem store_load_kseg :
    (((Cpu.powerOn []).mmu.writeWord (Cpu.powerOn []).cp0 0x80000010#32 0x12345678#32).mmu.readWord
      (Cpu.powerOn []).cp0 0xa0000010#32).val = 0x12345678#32 :=
  have h := (store_load (Cpu.powerOn []).mmu (Cpu.powerOn []).cp0 0x80000010#32 0x10#32).2.2.1
    0x12345678#32 rfl ⟨rfl, rfl⟩ (by decide)
  congrArg Access.val (h.word (Cpu.powerOn []).cp0 0xa0000010#32 ⟨rfl, rfl⟩ rfl)

end Mmu

end UcoreMips.Emulator
