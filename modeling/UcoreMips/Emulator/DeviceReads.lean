import UcoreMips.Emulator.Mmu

/-!
# UcoreMips.Emulator.DeviceReads

**Reading the ROM and the flash disk.** `main` copies both images into string streams, and every
physical read in one of the two windows seeks and reads one byte.

A read behind the end of a short image sets `failbit` and leaves the local byte as it was; `seekg`
does not clear `failbit`, so the stream is lost for all later reads. As long as no read is behind
the end of its image the reads have no effect on one another (`Mmu.reads_pure_iff`).
-/

namespace UcoreMips.Emulator

/-- The devices that are streams. -/
inductive Device
  | rom
  | flash
  deriving Repr, DecidableEq

namespace Device

def base : Device → Word
  | rom => romBase
  | flash => flashBase

def size : Device → Word
  | rom => romSize
  | flash => flashSize

/-- The addresses of the device. -/
def Window (d : Device) (addr : Word) : Prop := d.base ≤ addr ∧ addr < d.base + d.size

instance (d : Device) (addr : Word) : Decidable (d.Window addr) :=
  inferInstanceAs (Decidable (_ ∧ _))

/-- The place in the image. -/
def offset (d : Device) (addr : Word) : Nat := (addr - d.base).toNat

end Device

namespace Mmu

def stream (m : Mmu) : Device → Istream
  | .rom => m.rom
  | .flash => m.flash

def setStream (m : Mmu) : Device → Istream → Mmu
  | .rom, s => { m with rom := s }
  | .flash, s => { m with flash := s }

@[simp] theorem stream_setStream_self (m : Mmu) (d : Device) (s : Istream) :
    (m.setStream d s).stream d = s := by
  cases d <;> rfl

variable {d : Device} {addr : Word}

theorem stream_setStream_of_ne (m : Mmu) {e : Device} (h : e ≠ d) (s : Istream) :
    (m.setStream d s).stream e = m.stream e := by
  cases d <;> cases e <;> first | rfl | exact absurd rfl h

/-- The windows are apart from the RAM and from one another. -/
theorem readPhysical_window (m : Mmu) (h : d.Window addr) : m.readPhysical addr =
      (((m.stream d).readAt (d.offset addr)).1,
        m.setStream d ((m.stream d).readAt (d.offset addr)).2) := by
  obtain ⟨hlo, hhi⟩ := h
  have hram : ¬(ramBase ≤ addr ∧ addr < ramBase + ramSize) := by
    rintro ⟨-, hram⟩
    cases d <;>
      · simp only [Device.base, BitVec.le_def, BitVec.lt_def, romBase, flashBase, ramBase, ramSize]
          at hlo hram
        simp at hlo hram
        omega
  unfold readPhysical
  rw [if_neg hram]
  cases d with
  | rom =>
    rw [if_pos ⟨hlo, hhi⟩]
    rfl
  | flash =>
    have hrom : ¬(romBase ≤ addr ∧ addr < romBase + romSize) := by
      rintro ⟨hrom, -⟩
      simp only [Device.base, Device.size, BitVec.le_def, BitVec.lt_def, romBase, flashBase,
        flashSize] at hhi hrom
      simp at hhi hrom
      omega
    rw [if_neg hrom, if_pos ⟨hlo, hhi⟩]
    rfl

/-- A read elsewhere leaves the stream alone. -/
theorem readPhysical_elsewhere (m : Mmu) (h : ¬d.Window addr) :
    (m.readPhysical addr).2.stream d = m.stream d := by
  by_cases he : ∃ e : Device, e.Window addr
  · obtain ⟨e, he⟩ := he
    have hne : d ≠ e := fun heq => h (heq ▸ he)
    rw [readPhysical_window m he, stream_setStream_of_ne m hne]
  · have hrom : ¬(romBase ≤ addr ∧ addr < romBase + romSize) := fun hr => he ⟨.rom, hr⟩
    have hflash : ¬(flashBase ≤ addr ∧ addr < flashBase + flashSize) := fun hf => he ⟨.flash, hf⟩
    unfold readPhysical
    split
    · rfl
    · split <;> rfl

/-! ### Sequences of reads -/

/-- The reads of a list of addresses, one after the other. -/
def readAll (m : Mmu) : List Word → List Byte × Mmu
  | [] => ([], m)
  | addr :: addrs =>
    let r := m.readPhysical addr
    let rs := r.2.readAll addrs
    (r.1 :: rs.1, rs.2)

variable {image : Device → List Byte} {m : Mmu} {addr : Word} {addrs : List Word} {g : Byte}

/-- The streams hold the images, and no read has failed. What the local byte holds before a read is
not determined. -/
def Loaded (image : Device → List Byte) (m : Mmu) : Prop :=
  ∀ d, (m.stream d).image = image d ∧ (m.stream d).failbit = false

/-- An address of a device behind the end of its image. -/
def PastEnd (image : Device → List Byte) (addr : Word) : Prop :=
  ∃ d : Device, d.Window addr ∧ (image d).length ≤ d.offset addr

/-- Each read in a window returns the byte of the image, and `v` behind the end of it. -/
def Faithful (image : Device → List Byte) (v : Byte) (addrs : List Word) (m : Mmu) : Prop :=
  ∀ (i : Nat) (addr : Word) (d : Device), addrs[i]? = some addr → d.Window addr →
    (m.readAll addrs).1[i]? = some ((image d).getD (d.offset addr) v)

theorem Loaded.readAt (h : Loaded image m) (hd : d.Window addr) (hin : ¬PastEnd image addr) (v : Byte) :
    (m.stream d).readAt (d.offset addr) = ((image d).getD (d.offset addr) v, m.stream d) := by
  have hlt : d.offset addr < (image d).length := by
    by_contra hle
    exact hin ⟨d, hd, Nat.le_of_not_lt hle⟩
  obtain ⟨himage, hfail⟩ := h d
  simp [Istream.readAt, hfail, himage, hlt]

/-- A read that is not behind the end of an image leaves the streams as they were. -/
theorem Loaded.read (h : Loaded image m) (hin : ¬PastEnd image addr) :
    Loaded image (m.readPhysical addr).2 := by
  intro d
  by_cases hd : d.Window addr
  · rw [readPhysical_window m hd, h.readAt hd hin 0]
    simpa using h d
  · rw [readPhysical_elsewhere m hd]
    exact h d

/-- As long as no read is behind the end of an image, the reads return the images. -/
theorem Loaded.faithful (h : Loaded image m) (hin : ∀ addr ∈ addrs, ¬PastEnd image addr)
    (v : Byte) : Faithful image v addrs m := by
  induction addrs generalizing m with
  | nil =>
    intro i addr d hi
    simp at hi
  | cons first addrs ih =>
    intro i addr d hi hd
    cases i with
    | zero =>
      obtain rfl : first = addr := by simpa using hi
      simp [readAll, readPhysical_window m hd, h.readAt hd (hin first (by simp)) v]
    | succ i =>
      have hrest := ih (h.read (hin first (by simp))) fun a ha => hin a (by simp [ha])
      simpa [readAll] using hrest i addr d (by simpa using hi) hd

/-- What the local byte holds is always the same. -/
def Uniform (g : Byte) (m : Mmu) : Prop := ∀ d k, (m.stream d).garbage k = g

theorem Uniform.read (h : Uniform g m) (addr : Word) : Uniform g (m.readPhysical addr).2 := by
  intro d k
  by_cases hd : d.Window addr
  · have hsame : ((m.stream d).readAt (d.offset addr)).2.garbage = (m.stream d).garbage := by
      unfold Istream.readAt
      split
      · rfl
      · split <;> rfl
    rw [readPhysical_window m hd, stream_setStream_self, hsame]
    exact h d k
  · rw [readPhysical_elsewhere m hd]
    exact h d k

/-- A read keeps the images. -/
theorem image_read (m : Mmu) (addr : Word) (d : Device) :
    ((m.readPhysical addr).2.stream d).image = (m.stream d).image := by
  by_cases hd : d.Window addr
  · rw [readPhysical_window m hd, stream_setStream_self, Istream.readAt_image]
  · rw [readPhysical_elsewhere m hd]

/-- A read behind the end of an image returns what the local byte holds. -/
theorem Uniform.past_end (h : Uniform g m) (himage : ∀ d, (m.stream d).image = image d) {i : Nat}
    (hi : addrs[i]? = some addr) (hd : d.Window addr) (hpast : (image d).length ≤ d.offset addr) :
    (m.readAll addrs).1[i]? = some g := by
  induction addrs generalizing m i with
  | nil => simp at hi
  | cons first addrs ih =>
    cases i with
    | zero =>
      obtain rfl : first = addr := by simpa using hi
      have hnone : (image d)[d.offset first]? = none := List.getElem?_eq_none hpast
      have hread : ((m.stream d).readAt (d.offset first)).1 = g := by
        unfold Istream.readAt
        split
        · exact h d _
        · rw [himage d, hnone]
          exact h d _
      simp [readAll, readPhysical_window m hd, hread]
    | succ i =>
      have hrest := ih (h.read first) (fun e => (image_read m first e).trans (himage e))
        (by simpa using hi)
      simpa [readAll] using hrest

/-- **Reads of the ROM and the flash return the images as long as none is behind the end of its
image.** For all images and all sequences of addresses: whatever uninitialised bytes hold, each read
in a window returns the byte of the image at that offset, and one value behind its end, if and only
if no address of the sequence is behind the end of the image of its device. -/
theorem reads_pure_iff (image : Device → List Byte) (addrs : List Word) :
    (∃ v, ∀ m, Loaded image m → Faithful image v addrs m) ↔
      ∀ addr ∈ addrs, ¬PastEnd image addr := by
  constructor
  · rintro ⟨v, hall⟩ addr hmem ⟨d, hd, hpast⟩
    -- the local byte may hold another value than `v`
    let m : Mmu := ⟨fun _ => 0, ⟨image .rom, false, fun _ => v + 1, 0⟩,
      ⟨image .flash, false, fun _ => v + 1, 0⟩, fun _ => 0, fun _ _ => 0, []⟩
    have hload : Loaded image m := fun e => by cases e <;> exact ⟨rfl, rfl⟩
    have huniform : Uniform (v + 1) m := fun e k => by cases e <;> rfl
    obtain ⟨i, hi⟩ := List.getElem?_of_mem hmem
    have hread := hall m hload i addr d hi hd
    rw [huniform.past_end (fun e => (hload e).1) hi hd hpast, List.getD_eq_default _ _ hpast] at hread
    have hne : v + 1 ≠ v := by bv_omega
    exact hne (Option.some.inj hread)
  · intro hin
    exact ⟨0, fun m h => h.faithful hin 0⟩

/-- The images of a ROM with one byte and an empty disk. -/
def oneByte : Device → List Byte
  | .rom => [0xab]
  | .flash => []

/-- The ROM has one byte. After a read of the second one the first one cannot be read any more,
also when uninitialised bytes are always 0. -/
theorem short_rom_is_lost :
    let m : Mmu := ⟨fun _ => 0, ⟨oneByte .rom, false, fun _ => 0, 0⟩,
      ⟨oneByte .flash, false, fun _ => 0, 0⟩, fun _ => 0, fun _ _ => 0, []⟩
    Loaded oneByte m ∧ (m.readAll [0x1fc00000]).1 = [0xab] ∧
      (m.readAll [0x1fc00001, 0x1fc00000]).1 = [0, 0] ∧
      ∀ v, ¬Faithful oneByte v [0x1fc00001, 0x1fc00000] m := by
  intro m
  have hreads : (m.readAll [0x1fc00001, 0x1fc00000]).1 = [0, 0] := by decide
  refine ⟨fun d => by cases d <;> exact ⟨rfl, rfl⟩, by decide, hreads, fun v hv => ?_⟩
  have hread := hv 1 0x1fc00000 .rom rfl (by decide)
  cases hread

end Mmu

end UcoreMips.Emulator
