import UcoreMips.Kernel.Fs.BlockMap

/-!
# UcoreMips.Kernel.Fs.Mount

**Mounting a volume** (`kern/fs/sfs/sfs_fs.c`): the superblock and the freemap are read from the
device.

On a device with a superblock and a freemap that counts its bits, `sfs_do_mount` makes the bitmap
with these bits (`doMount_spec`).
-/

namespace UcoreMips.Kernel

open UcoreMips.Lib
open Emulator (Word)

/-- `struct device`, with what it holds and which transfers to come succeed. -/
structure Device where
  blocksize : Nat
  blocks : Nat
  disk : Ino → Block
  io : Nat → Bool

/-- `SFS_MAGIC`. -/
def sfsMagic : Word := 0x2f8dbe2a

/-- `SFS_BLKBITS`. -/
abbrev blkBits : Nat := blkSize * 8

/-- `SFS_BLKN_SUPER` and `SFS_BLKN_FREEMAP`. -/
def blknSuper : Ino := 0
def blknFreemap : Ino := 2

/-- `sfs_freemap_bits` and `sfs_freemap_blocks`. -/
def freemapBits (blocks : Nat) : Nat := (blocks + blkBits - 1) % 2 ^ 32 / blkBits * blkBits
def freemapBlocks (blocks : Nat) : Nat := (blocks + blkBits - 1) % 2 ^ 32 / blkBits

namespace Device

/-- `sfs_init_read`. -/
def initRead (dev : Device) (blkno : Ino) : Except Err Block × Device :=
  let dev' := { dev with io := fun k => dev.io (k + 1) }
  if dev.io 0 then (.ok (dev.disk blkno), dev') else (.error .io, dev')

/-- The loop of `sfs_init_freemap`, for the words from `data` on. -/
def readFreemap :
    (nblks : Nat) → Device → (map : Nat → Word) → (blkno : Ino) → (data : Nat) →
      Except Err (Nat → Word) × Device
  | 0, dev, map, _, _ => (.ok map, dev)
  | nblks + 1, dev, map, blkno, data =>
    match dev.initRead blkno with
    | (.error e, dev) => (.error e, dev)
    | (.ok block, dev) =>
      let map := fun w => if data ≤ w ∧ w < data + blkNentry then block.word (w - data) else map w
      readFreemap nblks dev map (blkno + 1) (data + blkNentry)

/-- `sfs_init_freemap`. -/
def initFreemap (dev : Device) (freemap : Bitmap) (blkno : Ino) (nblks : Nat) :
    Except Stop (Except Err Bitmap × Device) :=
  if ¬4 * freemap.nwords = nblks * blkSize then .error .assertion
  else
    let (ret, dev) := readFreemap nblks dev freemap.map blkno 0
    .ok (ret.map fun map => { freemap with map := map }, dev)

/-- The count of the bits in `sfs_do_mount`. -/
def countBits (freemap : Bitmap) (nbits : Nat) : Except Stop Nat :=
  (List.range nbits).foldlM (fun unused i => do
    return if ← freemap.test i then unused + 1 else unused) 0

/-- `sfs_do_mount`. `memory` says which allocations succeed: of the file system, the buffer, the
hash lists, the bitmap and its words. -/
def doMount (dev : Device) (memory : Fin 5 → Bool) : Except Stop (Except Err Sfs) :=
  if dev.blocksize ≠ blkSize then .ok (.error .naDev)
  else if ¬(memory 0 ∧ memory 1) then .ok (.error .noMem)
  else
    match dev.initRead blknSuper with
    | (.error e, _) => .ok (.error e)
    | (.ok super, dev) =>
      let blocks := (super.word 1).toNat
      if super.word 0 ≠ sfsMagic then .ok (.error .inval)
      else if dev.blocks < blocks then .ok (.error .inval)
      else if ¬memory 2 then .ok (.error .noMem)
      else do
        let freemap ← Bitmap.create (freemapBits blocks)
        if ¬(memory 3 ∧ memory 4) then return .error .noMem
        else
          match ← dev.initFreemap freemap blknFreemap (freemapBlocks blocks) with
          | (.error e, _) => return .error e
          | (.ok freemap, dev) =>
            let unused ← countBits freemap (freemapBits blocks)
            if unused ≠ (super.word 2).toNat then throw .assertion
            else return .ok ⟨blocks, unused, freemap, dev.disk, dev.io⟩

/-! ### Reading the freemap -/

variable {dev : Device}

theorem initRead_of (hio : dev.io 0 = true) (blkno : Ino) :
    dev.initRead blkno = (.ok (dev.disk blkno), { dev with io := fun k => dev.io (k + 1) }) := by
  simp [initRead, hio]

/-- The words that are read are those of the blocks, one after the other. -/
theorem readFreemap_of {n : Nat} (hio : ∀ k, dev.io k = true) (map : Nat → Word) (blkno : Ino)
    (data : Nat) :
    ∃ map' dev', readFreemap n dev map blkno data = (.ok map', dev') ∧ dev'.disk = dev.disk ∧
      (∀ k, dev'.io k = true) ∧
      (∀ w, data ≤ w → w < data + blkNentry * n →
        map' w = (dev.disk (blkno + BitVec.ofNat 32 ((w - data) / blkNentry))).word
          ((w - data) % blkNentry)) ∧
      ∀ w, w < data → map' w = map w := by
  induction n generalizing dev map blkno data with
  | zero => exact ⟨map, dev, rfl, rfl, hio, fun w hle hlt => by omega, fun w _ => rfl⟩
  | succ n ih =>
    unfold readFreemap
    rw [initRead_of (hio 0)]
    have hnext : ∀ k, ({ dev with io := fun k => dev.io (k + 1) } : Device).io k = true :=
      fun k => hio (k + 1)
    obtain ⟨map', dev', hrun, hdisk, hio', hread, hold⟩ := ih hnext
      (fun w => if data ≤ w ∧ w < data + blkNentry then (dev.disk blkno).word (w - data) else map w)
      (blkno + 1) (data + blkNentry)
    refine ⟨map', dev', hrun, hdisk, hio', fun w hle hlt => ?_, fun w hlt => ?_⟩
    · by_cases hfirst : w < data + blkNentry
      · have hdiv : (w - data) / blkNentry = 0 := Nat.div_eq_of_lt (by omega)
        have hmod : (w - data) % blkNentry = w - data := Nat.mod_eq_of_lt (by omega)
        rw [hold w hfirst, if_pos ⟨hle, hfirst⟩, hdiv, hmod]
        simp
      · have hdiv : (w - data) / blkNentry = (w - (data + blkNentry)) / blkNentry + 1 := by
          show (w - data) / 1024 = (w - (data + 1024)) / 1024 + 1
          have : ¬w < data + 1024 := hfirst
          omega
        have hmod : (w - data) % blkNentry = (w - (data + blkNentry)) % blkNentry := by
          show (w - data) % 1024 = (w - (data + 1024)) % 1024
          have : ¬w < data + 1024 := hfirst
          omega
        have hlt' : w < data + blkNentry + blkNentry * n := by
          rw [Nat.mul_succ] at hlt
          omega
        rw [hread w (by omega) hlt', hdiv, hmod]
        have hblk : blkno + 1 + BitVec.ofNat 32 ((w - (data + blkNentry)) / blkNentry) =
            blkno + BitVec.ofNat 32 ((w - (data + blkNentry)) / blkNentry + 1) := by
          rw [BitVec.add_assoc, BitVec.ofNat_add, BitVec.add_comm 1]
          rfl
        rw [hblk]
    · rw [hold w (by omega), if_neg (by omega)]

theorem countBits_eq (freemap : Bitmap) :
    countBits freemap freemap.nbits = .ok freemap.bits.card := by
  have hcount : ∀ n ≤ freemap.nbits, countBits freemap n =
      .ok ((Finset.range n).filter fun i => freemap.bit i).card := by
    intro n hn
    induction n with
    | zero => rfl
    | succ n ih =>
      unfold countBits at ih ⊢
      rw [List.range_succ, List.foldlM_append, ih (by omega)]
      simp only [ok_bind, List.foldlM_cons, List.foldlM_nil,
        Bitmap.test_eq (show n < freemap.nbits by omega), pure_eq_ok]
      rw [Finset.range_add_one, Finset.filter_insert]
      split
      · rw [Finset.card_insert_of_notMem (by simp)]
      · rfl
  exact hcount freemap.nbits le_rfl

/-- Bit `j` of the freemap on the device. -/
def bit (dev : Device) (j : Nat) : Bool :=
  ((dev.disk (blknFreemap + BitVec.ofNat 32 (j / blkBits))).word (j % blkBits / 32)).getLsbD (j % 32)

/-- On a device with a superblock and a freemap, `sfs_do_mount` makes the bitmap with the bits of
the freemap. -/
theorem doMount_spec {memory : Fin 5 → Bool} (hmem : ∀ i, memory i = true)
    (hio : ∀ k, dev.io k = true) (hsize : dev.blocksize = blkSize) {blocks : Nat}
    (hpos : 0 < blocks) (hlt : blocks < 2 ^ 31) (hdev : blocks ≤ dev.blocks)
    (hmagic : (dev.disk blknSuper).word 0 = sfsMagic)
    (hblocks : ((dev.disk blknSuper).word 1).toNat = blocks)
    (hunused : ((dev.disk blknSuper).word 2).toNat =
      ((Finset.range (freemapBits blocks)).filter fun j => dev.bit j).card) :
    ∃ sfs, dev.doMount memory = .ok (.ok sfs) ∧ sfs.blocks = blocks ∧ sfs.disk = dev.disk ∧
      sfs.Reliable ∧ sfs.freemap.nbits = freemapBits blocks ∧
      32 * sfs.freemap.nwords = freemapBits blocks ∧
      (∀ j < freemapBits blocks, sfs.freemap.bit j = dev.bit j) ∧
      sfs.unusedBlocks = sfs.freemap.bits.card := by
  -- the number of bits is a positive multiple of those in a block
  have hbits : freemapBits blocks = freemapBlocks blocks * 32768 := rfl
  have hnblks : freemapBlocks blocks = (blocks + 32767) / 32768 := by
    show (blocks + 32768 - 1) % 2 ^ 32 / 32768 = _
    omega
  have hcreate := Bitmap.create_of_dvd (n := freemapBits blocks) (by omega) (by omega) (by omega)
  have hnext : ∀ k, ({ dev with io := fun k => dev.io (k + 1) } : Device).io k = true :=
    fun k => hio (k + 1)
  obtain ⟨map, dev', hread, hdisk, hio', hwords, -⟩ :=
    readFreemap_of (n := freemapBlocks blocks) hnext (fun _ => 0xffffffff#32) blknFreemap 0
  let freemap : Bitmap := ⟨freemapBits blocks, freemapBits blocks / 32, map⟩
  have hbit : ∀ j < freemapBits blocks, freemap.bit j = dev.bit j := by
    intro j hj
    show (map (j / 32)).getLsbD (j % 32) = _
    rw [hwords (j / 32) (Nat.zero_le _) (by show j / 32 < 0 + 1024 * _; omega), bit]
    have hdiv : (j / 32 - 0) / blkNentry = j / blkBits := by
      show (j / 32 - 0) / 1024 = j / 32768
      omega
    have hmod : (j / 32 - 0) % blkNentry = j % blkBits / 32 := by
      show (j / 32 - 0) % 1024 = j % 32768 / 32
      omega
    rw [hdiv, hmod]
  have hcard : freemap.bits.card = ((dev.disk blknSuper).word 2).toNat := by
    rw [hunused]
    congr 1
    exact Finset.filter_congr fun j hj => by rw [hbit j (Finset.mem_range.mp hj)]
  refine ⟨⟨blocks, freemap.bits.card, freemap, dev'.disk, dev'.io⟩, ?_, rfl, hdisk, hio', rfl, ?_,
    hbit, rfl⟩
  · have hlen : 4 * (freemapBits blocks / 32) = freemapBlocks blocks * blkSize := by
      show 4 * (freemapBits blocks / 32) = freemapBlocks blocks * 4096
      omega
    rw [doMount, if_neg (not_not.mpr hsize), if_neg (not_not.mpr ⟨hmem 0, hmem 1⟩),
      initRead_of (hio 0)]
    dsimp only
    rw [hblocks, if_neg (not_not.mpr hmagic), if_neg (Nat.not_lt.mpr hdev),
      if_neg (not_not.mpr (hmem 2)), hcreate]
    simp only [bind, Except.bind]
    rw [if_neg (not_not.mpr ⟨hmem 3, hmem 4⟩), initFreemap, if_neg (not_not.mpr hlen), hread]
    dsimp only [Except.map]
    rw [show countBits ⟨freemapBits blocks, freemapBits blocks / 32, map⟩ (freemapBits blocks) =
      .ok freemap.bits.card from countBits_eq freemap]
    dsimp only
    rw [if_neg (not_not.mpr hcard)]
    rfl
  · show 32 * (freemapBits blocks / 32) = freemapBits blocks
    omega

end Device

end UcoreMips.Kernel
