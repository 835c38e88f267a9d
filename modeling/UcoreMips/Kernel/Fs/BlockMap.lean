import UcoreMips.Kernel.Fs.Sfs
import UcoreMips.Lib.Result

/-!
# UcoreMips.Kernel.Fs.BlockMap

What the operations on blocks and block maps do to a volume whose freemap is right
(`Sfs.Sound`).

* A block is in use, or it is free (`Sfs.free`). `sfs_block_alloc` takes a free one and clears
  it (`Allotted`), `sfs_block_free` gives one back (`Returned`).
* What fails leaves the volume as it was, up to blocks that were free (`Abandoned`); with a
  device that does not fail (`Reliable`) it leaves the freemap as it was.
* Looking up a block of a file, with or without making it, has one of the outcomes `Got`, and
  giving one back has one of the outcomes `Dropped`.
-/

namespace UcoreMips.Kernel

open UcoreMips.Lib Finset

variable {s t u v : Sfs} {b : Ino} {block : Block}

namespace Sfs

/-- The block exists, and is not the superblock. -/
def Valid (s : Sfs) (b : Ino) : Prop := b ≠ 0 ∧ b.toNat < s.blocks

/-- The blocks that are marked free. -/
def free (s : Sfs) : Set Ino := fun b => b.toNat ∈ s.freemap.bits

/-- The block exists and is marked in use. -/
def InUse (s : Sfs) (b : Ino) : Prop := s.Valid b ∧ b ∉ s.free

/-- No transfer to come fails. -/
def Reliable (s : Sfs) : Prop := ∀ k, s.io k = true

/-- The freemap covers the volume, its bits are blocks, and they are counted. -/
structure Sound (s : Sfs) : Prop where
  map : s.freemap.Wf
  covers : s.blocks ≤ s.freemap.nbits
  small : s.blocks ≤ 2 ^ 32
  range : ∀ i ∈ s.freemap.bits, i ≠ 0 ∧ i < s.blocks
  unused : s.unusedBlocks = s.freemap.bits.card

/-- The volume is the same, after some transfers. -/
structure Same (s t : Sfs) : Prop where
  blocks : t.blocks = s.blocks
  unused : t.unusedBlocks = s.unusedBlocks
  freemap : t.freemap = s.freemap
  disk : t.disk = s.disk
  io : s.Reliable → t.Reliable

/-- A block was free and is in use now, and cleared. -/
structure Allotted (s : Sfs) (b : Ino) (t : Sfs) : Prop where
  sound : t.Sound
  free : b ∈ s.free
  bits : t.freemap.bits = s.freemap.bits.erase b.toNat
  blocks : t.blocks = s.blocks
  disk : t.disk = Function.update s.disk b .zero
  io : s.Reliable → t.Reliable

/-- A block was in use and is free now. -/
structure Returned (s : Sfs) (b : Ino) (t : Sfs) : Prop where
  sound : t.Sound
  bits : t.freemap.bits = insert b.toNat s.freemap.bits
  blocks : t.blocks = s.blocks
  disk : t.disk = s.disk
  io : t.io = s.io

/-- A block was written. -/
structure Stored (s : Sfs) (b : Ino) (block : Block) (t : Sfs) : Prop where
  blocks : t.blocks = s.blocks
  unused : t.unusedBlocks = s.unusedBlocks
  freemap : t.freemap = s.freemap
  disk : t.disk = Function.update s.disk b block
  io : s.Reliable → t.Reliable

/-- Something was not done: blocks that were free may have been written to, and some of them
are lost if a transfer failed. -/
structure Abandoned (s t : Sfs) : Prop where
  sound : t.Sound
  bits : t.freemap.bits ⊆ s.freemap.bits
  blocks : t.blocks = s.blocks
  disk : ∀ b, b ∉ s.free → t.disk b = s.disk b
  kept : s.Reliable → t.freemap.bits = s.freemap.bits
  io : s.Reliable → t.Reliable

/-! ### The relations -/

theorem mem_free : b ∈ s.free ↔ b.toNat ∈ s.freemap.bits := Iff.rfl

variable {k offset : Nat} {c : Ino}

theorem entry_end (hk : k < blkNentry) : 4 * k + 4 ≤ blkSize := by
  show 4 * k + 4 ≤ 4096
  have : k < 1024 := hk
  omega

theorem Same.refl (s : Sfs) : Same s s := ⟨rfl, rfl, rfl, rfl, id⟩

theorem Same.trans (h : Same s t) (h' : Same t u) : Same s u :=
  ⟨h'.blocks.trans h.blocks, h'.unused.trans h.unused, h'.freemap.trans h.freemap,
    h'.disk.trans h.disk, h'.io ∘ h.io⟩

theorem Sound.congr (hs : s.Sound) (hblocks : t.blocks = s.blocks) (hunused : t.unusedBlocks = s.unusedBlocks)
    (hfree : t.freemap = s.freemap) : t.Sound := by
  refine ⟨?_, ?_, ?_, ?_, ?_⟩
  · rw [hfree]; exact hs.map
  · rw [hfree, hblocks]; exact hs.covers
  · rw [hblocks]; exact hs.small
  · rw [hfree, hblocks]; exact hs.range
  · rw [hunused, hfree]; exact hs.unused

theorem InUse.congr (hb : s.InUse b) (hblocks : t.blocks = s.blocks) (hfree : t.freemap = s.freemap) :
    t.InUse b := by
  unfold InUse Valid free
  rw [hblocks, hfree]
  exact hb

theorem Same.sound (h : Same s t) (hs : s.Sound) : t.Sound := hs.congr h.blocks h.unused h.freemap

theorem Same.inUse (h : Same s t) (hb : s.InUse b) : t.InUse b := hb.congr h.blocks h.freemap

theorem Same.abandoned (h : Same s t) (hs : s.Sound) : Abandoned s t :=
  ⟨h.sound hs, by rw [h.freemap], h.blocks, fun _ _ => by rw [h.disk], fun _ => by rw [h.freemap],
    h.io⟩

theorem Same.allotted (h : Same s t) (h' : Allotted t b u) : Allotted s b u := by
  refine ⟨h'.sound, ?_, ?_, h'.blocks.trans h.blocks, ?_, h'.io ∘ h.io⟩
  · have hfree := h'.free
    rwa [mem_free, h.freemap] at hfree
  · rw [h'.bits, h.freemap]
  · rw [h'.disk, h.disk]

theorem Same.abandon (h : Same s t) (h' : Abandoned t u) : Abandoned s u := by
  refine ⟨h'.sound, ?_, h'.blocks.trans h.blocks, fun b hb => ?_, fun hr => ?_, h'.io ∘ h.io⟩
  · rw [← h.freemap]
    exact h'.bits
  · rw [h'.disk b (by rw [mem_free, h.freemap]; exact hb), h.disk]
  · rw [h'.kept (h.io hr), h.freemap]

theorem Sound.valid_of_free (hs : s.Sound) (hb : b ∈ s.free) : s.Valid b := by
  obtain ⟨hne, hlt⟩ := hs.range b.toNat hb
  exact ⟨fun hzero => hne (by rw [hzero]; rfl), hlt⟩

theorem Allotted.inUse (hs : s.Sound) (h : Allotted s b t) : t.InUse b := by
  have hvalid := hs.valid_of_free h.free
  refine ⟨⟨hvalid.1, h.blocks ▸ hvalid.2⟩, fun hfree => ?_⟩
  rw [mem_free, h.bits] at hfree
  exact notMem_erase _ _ hfree

theorem Allotted.inUse_of (h : Allotted s b t) (hc : s.InUse c) : t.InUse c := by
  refine ⟨⟨hc.1.1, h.blocks ▸ hc.1.2⟩, fun hfree => hc.2 ?_⟩
  rw [mem_free, h.bits] at hfree
  exact mem_of_mem_erase hfree

theorem Abandoned.inUse (h : Abandoned s t) (hb : s.InUse b) : t.InUse b :=
  ⟨⟨hb.1.1, h.blocks ▸ hb.1.2⟩, fun hfree => hb.2 (h.bits hfree)⟩

theorem Stored.sound (h : Stored s b block t) (hs : s.Sound) : t.Sound :=
  hs.congr h.blocks h.unused h.freemap

theorem Stored.inUse (h : Stored s b block t) (hc : s.InUse c) : t.InUse c :=
  hc.congr h.blocks h.freemap

theorem Same.free_eq (h : Same s t) : t.free = s.free := by
  unfold Sfs.free
  rw [h.freemap]

theorem Stored.free_eq (h : Stored s b block t) : t.free = s.free := by
  unfold Sfs.free
  rw [h.freemap]

theorem Allotted.free_eq (h : Allotted s b t) : t.free = s.free \ {b} := by
  ext c
  rw [mem_free, h.bits, mem_erase, Set.mem_sdiff, mem_free, Set.mem_singleton_iff]
  constructor
  · exact fun hc => ⟨hc.2, fun hcb => hc.1 (hcb ▸ rfl)⟩
  · exact fun hc => ⟨fun hnat => hc.2 (BitVec.eq_of_toNat_eq hnat), hc.1⟩

theorem Returned.free_eq (h : Returned s b t) : t.free = insert b s.free := by
  ext c
  rw [mem_free, h.bits, mem_insert, Set.mem_insert_iff, mem_free]
  constructor
  · exact Or.imp_left fun hnat => BitVec.eq_of_toNat_eq hnat
  · exact Or.imp_left fun hcb => hcb ▸ rfl

/-- A block that was taken is given back after what came next failed. -/
theorem Allotted.undo (h : Allotted s b t) (h' : Abandoned t u)
    (hret : Returned u b v) : Abandoned s v := by
  have hins : insert b.toNat t.freemap.bits = s.freemap.bits := by
    rw [h.bits, insert_erase h.free]
  refine ⟨hret.sound, ?_, hret.blocks.trans (h'.blocks.trans h.blocks), fun c hc => ?_,
    fun hr => ?_, fun hr => ?_⟩
  · rw [hret.bits, ← hins]
    exact insert_subset_insert _ h'.bits
  · have hcb : c ≠ b := fun hcb => hc (hcb ▸ h.free)
    have hct : c ∉ t.free := fun hmem => by
      rw [mem_free, h.bits] at hmem
      exact hc (mem_free.mpr (mem_of_mem_erase hmem))
    rw [hret.disk, h'.disk c hct, h.disk, Function.update_of_ne hcb]
  · rw [hret.bits, h'.kept (h.io hr), hins]
  · unfold Reliable
    rw [hret.io]
    exact h'.io (h.io hr)

/-! ### Transfers -/

/-- A transfer to come fails. -/
theorem not_reliable (h : s.io 0 = false) : ¬s.Reliable := fun hr => by
  rw [hr 0] at h
  cases h

theorem rwblockNolock_read (hb : s.Valid b) (buf : Block) :
    ∃ t, Same s t ∧ (s.rwblockNolock buf b false true = .ok (.ok (s.disk b), t) ∨
      ¬s.Reliable ∧ s.rwblockNolock buf b false true = .ok (.error .io, t)) := by
  refine ⟨{ s with io := fun k => s.io (k + 1) }, ⟨rfl, rfl, rfl, rfl, fun hr k => hr (k + 1)⟩, ?_⟩
  rw [rwblockNolock, if_neg (not_not.mpr ⟨.inl hb.1, hb.2⟩), dopIo]
  cases hio : s.io 0 with
  | false => exact .inr ⟨not_reliable hio, rfl⟩
  | true => exact .inl rfl

theorem rwblockNolock_write (hb : s.Valid b) (buf : Block) :
    ∃ t, (Stored s b buf t ∧ s.rwblockNolock buf b true true = .ok (.ok buf, t)) ∨
      (Same s t ∧ ¬s.Reliable ∧ s.rwblockNolock buf b true true = .ok (.error .io, t)) := by
  have hio' : s.Reliable → ∀ k, s.io (k + 1) = true := fun hr k => hr (k + 1)
  rw [rwblockNolock, if_neg (not_not.mpr ⟨.inl hb.1, hb.2⟩), dopIo]
  cases hio : s.io 0 with
  | false =>
    exact ⟨{ s with io := fun k => s.io (k + 1) },
      .inr ⟨⟨rfl, rfl, rfl, rfl, hio'⟩, not_reliable hio, rfl⟩⟩
  | true =>
    exact ⟨{ s with io := fun k => s.io (k + 1), disk := Function.update s.disk b buf },
      .inl ⟨⟨rfl, rfl, rfl, rfl, hio'⟩, rfl⟩⟩

theorem rbuf_spec (hb : s.Valid b) {len : Nat} (hoff : offset < blkSize)
    (hend : offset + len ≤ blkSize) :
    ∃ t, Same s t ∧ (s.rbuf len b offset = .ok (.ok ((s.disk b).slice offset len), t) ∨
      ¬s.Reliable ∧ s.rbuf len b offset = .ok (.error .io, t)) := by
  obtain ⟨t, hsame, hread | ⟨hio, hread⟩⟩ := rwblockNolock_read hb .zero
  · exact ⟨t, hsame, .inl (by rw [rbuf, if_neg (not_not.mpr ⟨hoff, hend⟩), hread]; rfl)⟩
  · exact ⟨t, hsame, .inr ⟨hio, by rw [rbuf, if_neg (not_not.mpr ⟨hoff, hend⟩), hread]; rfl⟩⟩

theorem wbuf_spec (hb : s.Valid b) (data : List (BitVec 8)) (hoff : offset < blkSize)
    (hend : offset + data.length ≤ blkSize) :
    ∃ t, (Stored s b ((s.disk b).patch offset data) t ∧ s.wbuf data b offset = .ok (.ok (), t)) ∨
      (Same s t ∧ ¬s.Reliable ∧ s.wbuf data b offset = .ok (.error .io, t)) := by
  rw [wbuf, if_neg (not_not.mpr ⟨hoff, hend⟩)]
  obtain ⟨t, hsame, hread | ⟨hio, hread⟩⟩ := rwblockNolock_read hb .zero
  · rw [hread]
    have hb' : t.Valid b := ⟨hb.1, by rw [hsame.blocks]; exact hb.2⟩
    obtain ⟨u, ⟨hst, hwrite⟩ | ⟨hsame', hio, hwrite⟩⟩ :=
      rwblockNolock_write hb' ((s.disk b).patch offset data)
    · refine ⟨u, .inl ⟨⟨hst.blocks.trans hsame.blocks, hst.unused.trans hsame.unused,
        hst.freemap.trans hsame.freemap, hst.disk.trans (by rw [hsame.disk]),
        hst.io ∘ hsame.io⟩, ?_⟩⟩
      simp only [ok_bind, hwrite]
      rfl
    · refine ⟨u, .inr ⟨hsame.trans hsame', fun hr => hio (hsame.io hr), ?_⟩⟩
      simp only [ok_bind, hwrite]
      rfl
  · exact ⟨t, .inr ⟨hsame, hio, by rw [hread]; rfl⟩⟩

/-! ### Taking and giving back blocks -/

theorem assertInuse_of (hs : s.Sound) (hb : s.InUse b) : s.assertInuse b = .ok () := by
  have hlt : b.toNat < s.freemap.nbits := hb.1.2.trans_le hs.covers
  have hbit : s.freemap.bit b.toNat = false := by
    rw [← Bool.not_eq_true]
    exact fun hset => hb.2 (Bitmap.mem_bits.mpr ⟨hlt, hset⟩)
  have hvalid : b ≠ 0 ∧ b.toNat < s.blocks := hb.1
  rw [assertInuse, blockInuse, if_pos hvalid, Bitmap.test_eq hlt, hbit]
  rfl

theorem blockFree_spec (hs : s.Sound) (hb : s.InUse b) :
    ∃ t, s.blockFree b = .ok t ∧ Returned s b t := by
  have hlt : b.toNat < s.freemap.nbits := hb.1.2.trans_le hs.covers
  obtain ⟨map, heq, hwf, hnbits, hbits⟩ := hs.map.free hlt hb.2
  refine ⟨{ s with freemap := map, unusedBlocks := s.unusedBlocks + 1 }, ?_,
    ⟨hwf, ?_, hs.small, ?_, ?_⟩, hbits, rfl, rfl, rfl⟩
  · rw [blockFree, assertInuse_of hs hb, heq]
    rfl
  · exact hs.covers.trans_eq hnbits.symm
  · intro i hi
    rcases mem_insert.mp (hbits ▸ hi) with rfl | hi
    · exact ⟨fun hzero => hb.1.1 (BitVec.eq_of_toNat_eq hzero), hb.1.2⟩
    · exact hs.range i hi
  · rw [hbits, card_insert_of_notMem hb.2, hs.unused]

/-- A free block is taken and cleared. Without one, or when it cannot be cleared, nothing is
returned; in the latter case the block stays marked. -/
theorem blockAlloc_spec (hs : s.Sound) :
    (∃ b t, s.blockAlloc = .ok (.ok b, t) ∧ Allotted s b t) ∨
    ∃ e t, s.blockAlloc = .ok (.error e, t) ∧ Abandoned s t ∧
      (s.Reliable → s.freemap.bits = ∅) := by
  rcases hs.map.alloc with ⟨heq, hempty⟩ | ⟨i, map, heq, hwf, hnbits, hi, -, hbits⟩
  · refine .inr ⟨.noMem, s, ?_, (Same.refl s).abandoned hs, fun _ => hempty⟩
    rw [blockAlloc, heq]
    rfl
  · obtain ⟨hi0, hilt⟩ := hs.range i hi
    have hcard : 0 < s.unusedBlocks := hs.unused ▸ card_pos.mpr ⟨i, hi⟩
    have hnat : (BitVec.ofNat 32 i).toNat = i := by
      exact Nat.mod_eq_of_lt (hilt.trans_le hs.small)
    -- the volume with the bit cleared
    let m : Sfs := { s with freemap := map, unusedBlocks := s.unusedBlocks - 1 }
    have hm : m.Sound := by
      refine ⟨hwf, hs.covers.trans_eq hnbits.symm, hs.small, fun j hj => ?_, ?_⟩
      · exact hs.range j (mem_of_mem_erase (hbits ▸ hj))
      · show s.unusedBlocks - 1 = map.bits.card
        rw [hbits, card_erase_of_mem hi, hs.unused]
    have hne : BitVec.ofNat 32 i ≠ 0 := fun hzero => hi0 (by rw [← hnat, hzero]; rfl)
    have huse : m.InUse (BitVec.ofNat 32 i) := by
      refine ⟨⟨hne, hnat.symm ▸ hilt⟩, fun hmem => ?_⟩
      rw [mem_free, hnat] at hmem
      exact notMem_erase i s.freemap.bits (hbits ▸ hmem)
    have hrun : s.blockAlloc = clearBlock 1 m (BitVec.ofNat 32 i) >>= fun x =>
        .ok (x.1.map fun _ => BitVec.ofNat 32 i, x.2) := by
      rw [blockAlloc, heq]
      simp only [bind, Except.bind, if_neg (Nat.ne_of_gt hcard)]
      rw [show assertInuse { s with freemap := map, unusedBlocks := s.unusedBlocks - 1 }
        (BitVec.ofNat 32 i) = .ok () from assertInuse_of hm huse]
      rfl
    obtain ⟨t, ⟨hst, hwrite⟩ | ⟨hsame, hio, hwrite⟩⟩ := rwblockNolock_write huse.1 .zero
    · refine .inl ⟨BitVec.ofNat 32 i, t, ?_, hst.sound hm, ?_, ?_, hst.blocks, hst.disk, hst.io⟩
      · rw [hrun, clearBlock]
        simp only [ok_bind, hwrite, clearBlock]
        rfl
      · rw [mem_free, hnat]
        exact hi
      · rw [hst.freemap, hnat]
        exact hbits
    · refine .inr ⟨.io, t, ?_, ⟨hsame.sound hm, ?_, hsame.blocks, ?_, ?_, hsame.io⟩,
        fun hr => absurd hr hio⟩
      · rw [hrun, clearBlock]
        simp only [ok_bind, hwrite]
        rfl
      · rw [hsame.freemap]
        exact hbits ▸ erase_subset i _
      · exact fun b _ => by rw [hsame.disk]
      · exact fun hr => absurd hr hio

/-! ### Looking up a block -/

/-- An entry of an indirect block; there is none without the block. -/
def entry (s : Sfs) (ent : Ino) (k : Nat) : Ino := if ent = 0 then 0 else (s.disk ent).word k

/-- The block of a file with the given index, 0 if there is none. -/
def mapped (s : Sfs) (sin : SfsInode) (index : Nat) : Ino :=
  if h : index < nDirect then sin.din.direct ⟨index, h⟩
  else s.entry sin.din.indirect (index - nDirect)

end Sfs

namespace SfsInode

/-- The inode with a direct block. -/
def setDirect (sin : SfsInode) (k : Fin nDirect) (b : Ino) : SfsInode :=
  { sin with din := { sin.din with direct := Function.update sin.din.direct k b }, dirty := true }

/-- The inode with an indirect block. -/
def setIndirect (sin : SfsInode) (b : Ino) : SfsInode :=
  { sin with din := { sin.din with indirect := b }, dirty := true }

/-- The inode with one block more, and with one block less. -/
def addBlock (sin : SfsInode) : SfsInode :=
  { sin with din := { sin.din with blocks := sin.din.blocks + 1 } }
def dropBlock (sin : SfsInode) : SfsInode :=
  { sin with din := { sin.din with blocks := sin.din.blocks - 1 }, dirty := true }

/-- How many blocks a new block of the file takes. -/
def newBlocks (sin : SfsInode) (index : Nat) : Nat :=
  if index < nDirect ∨ sin.din.indirect ≠ 0 then 1 else 2

end SfsInode

namespace Sfs

/-- The outcomes of `sfs_bmap_get_nolock`. -/
inductive Got (s : Sfs) (sin : SfsInode) (index : Nat) (create : Bool) :
    Except Err Ino → Sfs → SfsInode → Prop
  /-- The file has such a block, or it has none and none is wanted. -/
  | found {t : Sfs} : Same s t → (s.mapped sin index = 0 → create = false) →
      Got s sin index create (.ok (s.mapped sin index)) t sin
  /-- A new direct block. -/
  | direct {k : Fin nDirect} {b : Ino} {t : Sfs} : k.val = index → create = true →
      sin.din.direct k = 0 → Allotted s b t → Got s sin index create (.ok b) t (sin.setDirect k b)
  /-- A new block in the indirect block. -/
  | entry {k : Nat} {b : Ino} {t u : Sfs} : nDirect + k = index → k < blkNentry → create = true →
      sin.din.indirect ≠ 0 → s.entry sin.din.indirect k = 0 → Allotted s b t →
      Stored t sin.din.indirect ((t.disk sin.din.indirect).patch (4 * k) (wordBytes b)) u →
      Got s sin index create (.ok b) u sin
  /-- A new indirect block and a new block in it. -/
  | both {k : Nat} {ent b : Ino} {t u v : Sfs} : nDirect + k = index → k < blkNentry →
      create = true → sin.din.indirect = 0 → Allotted s ent t → Allotted t b u →
      Stored u ent ((u.disk ent).patch (4 * k) (wordBytes b)) v →
      Got s sin index create (.ok b) v (sin.setIndirect ent)
  /-- There was no block to be had, or a transfer failed. -/
  | failed {e : Err} {t : Sfs} : Abandoned s t →
      (s.Reliable → create = true ∧ s.mapped sin index = 0 ∧
        s.freemap.bits.card < sin.newBlocks index) →
      Got s sin index create (.error e) t sin

theorem bmapCleanup_same (s : Sfs) (ent : Ino) (e : Err) :
    s.bmapCleanup ent ent e = .ok (.error e, s) := by
  rw [bmapCleanup, if_neg (not_not.mpr rfl)]
  rfl

variable {ent : Ino}

/-- The new block for an entry, or what is left to clean up. -/
theorem bmapNewEntry_spec (hs : s.Sound) (entp : Ino) (hent : s.InUse ent) (hk : k < blkNentry) :
    (∃ b t u, s.bmapNewEntry entp ent k = .ok (.ok (ent, b), u) ∧ Allotted s b t ∧
      Stored t ent ((t.disk ent).patch (4 * k) (wordBytes b)) u) ∨
    ∃ e t, s.bmapNewEntry entp ent k = t.bmapCleanup entp ent e ∧ Abandoned s t ∧
      (s.Reliable → s.freemap.bits = ∅) := by
  rcases blockAlloc_spec hs with ⟨b, t, halloc, hb⟩ | ⟨e, t, halloc, hab, hnone⟩
  · have hlen : 4 * k + (wordBytes b).length ≤ blkSize := by
      exact entry_end hk
    have hoff : 4 * k < blkSize := by
      rw [length_wordBytes] at hlen
      omega
    obtain ⟨u, ⟨hst, hwrite⟩ | ⟨hsame, hio, hwrite⟩⟩ := wbuf_spec (hb.inUse_of hent).1 _ hoff hlen
    · refine .inl ⟨b, t, u, ?_, hb, hst⟩
      rw [bmapNewEntry, halloc]
      simp only [ok_bind, hwrite]
      rfl
    · obtain ⟨v, hfree, hret⟩ := blockFree_spec (hsame.sound hb.sound) (hsame.inUse (hb.inUse hs))
      refine .inr ⟨.io, v, ?_, hb.undo (hsame.abandoned hb.sound) hret,
        fun hr => absurd (hb.io hr) hio⟩
      rw [bmapNewEntry, halloc]
      simp only [ok_bind, hwrite, hfree]
  · refine .inr ⟨e, t, ?_, hab, hnone⟩
    rw [bmapNewEntry, halloc]
    rfl

theorem entry_zero (s : Sfs) (k : Nat) : s.entry 0 k = 0 := if_pos rfl

theorem entry_of_ne (h : ent ≠ 0) (s : Sfs) (k : Nat) :
    s.entry ent k = (s.disk ent).word k := if_neg h

theorem Same.entry (h : Same s t) (ent : Ino) (k : Nat) : t.entry ent k = s.entry ent k := by
  unfold Sfs.entry
  rw [h.disk]

/-- With an indirect block, the outcomes are those for one of its entries. -/
theorem bmapGetSub_of_ne (hs : s.Sound) {entp : Ino} (hne : entp ≠ 0) (hent : s.InUse entp)
    (hk : k < blkNentry) (create : Bool) :
    (∃ t, s.bmapGetSub entp k create = .ok (.ok (entp, s.entry entp k), t) ∧ Same s t ∧
      (s.entry entp k = 0 → create = false)) ∨
    (∃ b t u, s.bmapGetSub entp k create = .ok (.ok (entp, b), u) ∧ create = true ∧
      s.entry entp k = 0 ∧ Allotted s b t ∧
      Stored t entp ((t.disk entp).patch (4 * k) (wordBytes b)) u) ∨
    ∃ e t, s.bmapGetSub entp k create = .ok (.error e, t) ∧ Abandoned s t ∧
      (s.Reliable → create = true ∧ s.entry entp k = 0 ∧ s.freemap.bits = ∅) := by
  have hend := entry_end hk
  rw [bmapGetSub, if_neg (not_not.mpr hk), if_pos hne]
  obtain ⟨t, hsame, hread | ⟨hio, hread⟩⟩ :=
    rbuf_spec hent.1 (show 4 * k < blkSize by omega) hend
  · rw [hread]
    simp only [ok_bind, Buffer.leWord_slice]
    rw [entry_of_ne hne]
    by_cases hfound : (s.disk entp).word k ≠ 0 ∨ create = false
    · rw [if_pos hfound]
      exact .inl ⟨t, rfl, hsame, fun hzero => hfound.resolve_left (not_not.mpr hzero)⟩
    · rw [if_neg hfound]
      rw [not_or, not_not, Bool.not_eq_false] at hfound
      rcases bmapNewEntry_spec (hsame.sound hs) entp (hsame.inUse hent) hk with
        ⟨b, u, v, hrun, hb, hst⟩ | ⟨e, u, hrun, hab, hnone⟩
      · exact .inr (.inl ⟨b, u, v, hrun, hfound.2, hfound.1, hsame.allotted hb, hst⟩)
      · refine .inr (.inr ⟨e, u, ?_, hsame.abandon hab, fun hr => ⟨hfound.2, hfound.1, ?_⟩⟩)
        · rw [hrun, bmapCleanup_same]
        · rw [← hsame.freemap]
          exact hnone (hsame.io hr)
  · rw [hread]
    exact .inr (.inr ⟨.io, t, rfl, hsame.abandoned hs, fun hr => absurd hr hio⟩)

/-- Without one, it is made together with its first entry. -/
theorem bmapGetSub_zero (hs : s.Sound) (hk : k < blkNentry) (create : Bool) :
    (s.bmapGetSub 0 k create = .ok (.ok (0, 0), s) ∧ create = false) ∨
    (∃ ent b t u v, s.bmapGetSub 0 k create = .ok (.ok (ent, b), v) ∧ create = true ∧
      Allotted s ent t ∧ Allotted t b u ∧
      Stored u ent ((u.disk ent).patch (4 * k) (wordBytes b)) v) ∨
    ∃ e t, s.bmapGetSub 0 k create = .ok (.error e, t) ∧ Abandoned s t ∧
      (s.Reliable → create = true ∧ s.freemap.bits.card < 2) := by
  rw [bmapGetSub, if_neg (not_not.mpr hk), if_neg (not_not.mpr rfl)]
  cases create with
  | false => exact .inl ⟨rfl, rfl⟩
  | true =>
    right
    rcases blockAlloc_spec hs with ⟨ent, t, halloc, hent⟩ | ⟨e, t, halloc, hab, hnone⟩
    · rw [halloc]
      simp only [ok_bind]
      have huse := hent.inUse hs
      rcases bmapNewEntry_spec hent.sound 0 huse hk with
        ⟨b, u, v, hrun, hb, hst⟩ | ⟨e, u, hrun, hab, hnone⟩
      · exact .inl ⟨ent, b, t, u, v, hrun, trivial, hent, hb, hst⟩
      · obtain ⟨v, hfree, hret⟩ := blockFree_spec hab.sound (hab.inUse huse)
        refine .inr ⟨e, v, ?_, hent.undo hab hret, fun hr => ⟨trivial, ?_⟩⟩
        · rw [hrun, bmapCleanup, if_pos huse.1.1, hfree]
          rfl
        · have hcard := card_erase_of_mem (mem_free.mp hent.free)
          rw [← hent.bits, hnone (hent.io hr), card_empty] at hcard
          omega
    · rw [halloc]
      refine .inr ⟨e, t, rfl, hab, fun hr => ⟨rfl, ?_⟩⟩
      rw [hnone hr, card_empty]
      decide

theorem bmapOut_of (hs : s.Sound) (sin : SfsInode) (hb : b ≠ 0 → s.InUse b) :
    s.bmapOut sin b = .ok (.ok b, s, sin) := by
  unfold bmapOut
  by_cases hzero : b = 0
  · rw [if_pos hzero]
  · rw [if_neg hzero, assertInuse_of hs (hb hzero)]
    rfl

variable {sin : SfsInode} {index : Nat} {create : Bool}

/-- Looking up a block of a file whose blocks are in use, with or without making it. -/
theorem bmapGet_spec (hs : s.Sound) (hind : sin.din.indirect ≠ 0 → s.InUse sin.din.indirect)
    (hmap : s.mapped sin index ≠ 0 → s.InUse (s.mapped sin index)) (hi : index < nDirect + blkNentry)
    (create : Bool) :
    ∃ ret t sin', s.bmapGet sin index create = .ok (ret, t, sin') ∧
      Got s sin index create ret t sin' := by
  unfold bmapGet
  by_cases hdir : index < nDirect
  · have hmapped : s.mapped sin index = sin.din.direct ⟨index, hdir⟩ := dif_pos hdir
    rw [dif_pos hdir]
    by_cases hnew : sin.din.direct ⟨index, hdir⟩ = 0 ∧ create = true
    · rw [if_pos hnew]
      rcases blockAlloc_spec hs with ⟨b, t, halloc, hb⟩ | ⟨e, t, halloc, hab, hnone⟩
      · refine ⟨.ok b, t, sin.setDirect ⟨index, hdir⟩ b, ?_, .direct rfl hnew.2 hnew.1 hb⟩
        rw [halloc]
        exact bmapOut_of hb.sound _ fun _ => hb.inUse hs
      · refine ⟨.error e, t, sin, by rw [halloc]; rfl, .failed hab fun hr => ?_⟩
        refine ⟨hnew.2, hmapped.trans hnew.1, ?_⟩
        rw [hnone hr, card_empty, SfsInode.newBlocks, if_pos (.inl hdir)]
        decide
    · rw [if_neg hnew]
      refine ⟨.ok (s.mapped sin index), s, sin, ?_, .found (Same.refl s) fun hzero => ?_⟩
      · rw [← hmapped]
        exact bmapOut_of hs sin hmap
      · rw [← Bool.not_eq_true]
        exact fun hcreate => hnew ⟨hmapped.symm.trans hzero, hcreate⟩
  · have hk : index - nDirect < blkNentry := by omega
    have hsum : nDirect + (index - nDirect) = index := by omega
    have hmapped : s.mapped sin index = s.entry sin.din.indirect (index - nDirect) := dif_neg hdir
    rw [dif_neg hdir, if_pos hk]
    by_cases hzero : sin.din.indirect = 0
    · have hnewBlocks : sin.newBlocks index = 2 := if_neg (not_or.mpr ⟨hdir, not_not.mpr hzero⟩)
      have hnone : s.mapped sin index = 0 := by rw [hmapped, hzero, entry_zero]
      rw [hzero]
      rcases bmapGetSub_zero hs hk create with
        ⟨hrun, hcreate⟩ | ⟨ent, b, t, u, v, hrun, hcreate, hent, hb, hst⟩ | ⟨e, t, hrun, hab, hfew⟩
      · refine ⟨.ok 0, s, sin, ?_, hnone ▸ .found (Same.refl s) fun _ => hcreate⟩
        rw [hrun]
        exact bmapOut_of hs sin fun hne => absurd rfl hne
      · have huse := hent.inUse hs
        refine ⟨.ok b, v, sin.setIndirect ent, ?_, .both hsum hk hcreate hzero hent hb hst⟩
        rw [hrun]
        simp only [ok_bind]
        rw [if_neg huse.1.1, if_neg (not_not.mpr rfl)]
        exact bmapOut_of (hst.sound hb.sound) _ fun _ => hst.inUse (hb.inUse hent.sound)
      · refine ⟨.error e, t, sin, by rw [hrun]; rfl, .failed hab fun hr => ?_⟩
        exact ⟨(hfew hr).1, hnone, hnewBlocks ▸ (hfew hr).2⟩
    · have hnewBlocks : sin.newBlocks index = 1 := if_pos (.inr hzero)
      rcases bmapGetSub_of_ne hs hzero (hind hzero) hk create with
        ⟨t, hrun, hsame, hfound⟩ | ⟨b, t, u, hrun, hcreate, hnone, hb, hst⟩ | ⟨e, t, hrun, hab, hfew⟩
      · refine ⟨.ok (s.mapped sin index), t, sin, ?_, .found hsame (hmapped ▸ hfound)⟩
        rw [hrun, hmapped]
        simp only [ok_bind, if_pos]
        exact bmapOut_of (hsame.sound hs) sin fun hne => hsame.inUse (hmapped ▸ hmap (hmapped ▸ hne))
      · refine ⟨.ok b, u, sin, ?_, .entry hsum hk hcreate hzero hnone hb hst⟩
        rw [hrun]
        simp only [ok_bind, if_pos]
        exact bmapOut_of (hst.sound hb.sound) sin fun _ => hst.inUse (hb.inUse hs)
      · refine ⟨.error e, t, sin, by rw [hrun]; rfl, .failed hab fun hr => ?_⟩
        obtain ⟨hcreate, hnone, hempty⟩ := hfew hr
        refine ⟨hcreate, hmapped.trans hnone, ?_⟩
        rw [hnewBlocks, hempty, card_empty]
        decide

/-- A file has no more blocks than direct ones and entries of its indirect block. -/
theorem bmapGet_panic (hi : nDirect + blkNentry ≤ index) (create : Bool) :
    s.bmapGet sin index create = .error .assertion := by
  rw [bmapGet, dif_neg (by omega), if_neg (by omega)]

/-! ### Giving back a block of a file -/

/-- The outcomes of `sfs_bmap_free_nolock`. -/
inductive Dropped (s : Sfs) (sin : SfsInode) (index : Nat) : Except Err Unit → Sfs → SfsInode → Prop
  /-- There is no such block. -/
  | nothing {t : Sfs} : Same s t → (index < nDirect + blkNentry → s.mapped sin index = 0) →
      Dropped s sin index (.ok ()) t sin
  /-- A direct block. -/
  | direct {k : Fin nDirect} {t : Sfs} : k.val = index → sin.din.direct k ≠ 0 →
      Returned s (sin.din.direct k) t → Dropped s sin index (.ok ()) t (sin.setDirect k 0)
  /-- A block in the indirect block. -/
  | entry {k : Nat} {t u : Sfs} : nDirect + k = index → k < blkNentry → sin.din.indirect ≠ 0 →
      s.entry sin.din.indirect k ≠ 0 →
      Stored s sin.din.indirect ((s.disk sin.din.indirect).patch (4 * k) (wordBytes 0)) t →
      Returned t (s.entry sin.din.indirect k) u → Dropped s sin index (.ok ()) u sin
  /-- A transfer failed. -/
  | failed {e : Err} {t : Sfs} : Same s t → ¬s.Reliable → Dropped s sin index (.error e) t sin

theorem bmapFreeSub_spec (hs : s.Sound) (hent : s.InUse ent)
    (hk : k < blkNentry) (hmap : s.entry ent k ≠ 0 → s.InUse (s.entry ent k)) :
    (∃ t, s.bmapFreeSub ent k = .ok (.ok (), t) ∧ Same s t ∧ s.entry ent k = 0) ∨
    (∃ t u, s.bmapFreeSub ent k = .ok (.ok (), u) ∧ s.entry ent k ≠ 0 ∧
      Stored s ent ((s.disk ent).patch (4 * k) (wordBytes 0)) t ∧ Returned t (s.entry ent k) u) ∨
    ∃ e t, s.bmapFreeSub ent k = .ok (.error e, t) ∧ Same s t ∧ ¬s.Reliable := by
  have hend := entry_end hk
  have hoff : 4 * k < blkSize := by omega
  rw [bmapFreeSub, assertInuse_of hs hent]
  simp only [bind, Except.bind]
  rw [if_neg (not_not.mpr hk)]
  obtain ⟨t, hsame, hread | ⟨hio, hread⟩⟩ := rbuf_spec hent.1 hoff hend
  · rw [hread]
    dsimp only
    rw [Buffer.leWord_slice, ← entry_of_ne hent.1.1 s k]
    by_cases hzero : s.entry ent k = 0
    · rw [if_pos hzero]
      exact .inl ⟨t, rfl, hsame, hzero⟩
    · rw [if_neg hzero]
      right
      obtain ⟨u, ⟨hst, hwrite⟩ | ⟨hsame', hio, hwrite⟩⟩ :=
        wbuf_spec (hsame.inUse hent).1 (wordBytes 0) hoff (by rw [length_wordBytes]; exact hend)
      · rw [hwrite]
        have hst' : Stored s ent ((s.disk ent).patch (4 * k) (wordBytes 0)) u :=
          ⟨hst.blocks.trans hsame.blocks, hst.unused.trans hsame.unused,
            hst.freemap.trans hsame.freemap, by rw [hst.disk, hsame.disk], hst.io ∘ hsame.io⟩
        obtain ⟨v, hfree, hret⟩ := blockFree_spec (hst'.sound hs) (hst'.inUse (hmap hzero))
        refine .inl ⟨u, v, ?_, hzero, hst', hret⟩
        dsimp only
        rw [hfree]
        rfl
      · rw [hwrite]
        exact .inr ⟨.io, u, rfl, hsame.trans hsame', fun hr => hio (hsame.io hr)⟩
  · rw [hread]
    exact .inr (.inr ⟨.io, t, rfl, hsame, hio⟩)

theorem bmapFree_spec (hs : s.Sound) (index : Nat) (hind : sin.din.indirect ≠ 0 → s.InUse sin.din.indirect)
    (hmap : index < nDirect + blkNentry → s.mapped sin index ≠ 0 → s.InUse (s.mapped sin index)) :
    ∃ ret t sin', s.bmapFree sin index = .ok (ret, t, sin') ∧ Dropped s sin index ret t sin' := by
  unfold bmapFree
  by_cases hdir : index < nDirect
  · have hmapped : s.mapped sin index = sin.din.direct ⟨index, hdir⟩ := dif_pos hdir
    rw [dif_pos hdir]
    by_cases hzero : sin.din.direct ⟨index, hdir⟩ = 0
    · rw [if_pos hzero]
      exact ⟨_, s, sin, rfl, .nothing (Same.refl s) fun _ => hmapped.trans hzero⟩
    · rw [if_neg hzero]
      obtain ⟨t, hfree, hret⟩ := blockFree_spec hs (hmapped ▸ hmap (by omega) (hmapped ▸ hzero))
      refine ⟨.ok (), t, sin.setDirect ⟨index, hdir⟩ 0, ?_, .direct rfl hzero hret⟩
      rw [hfree]
      rfl
  · have hmapped : s.mapped sin index = s.entry sin.din.indirect (index - nDirect) := dif_neg hdir
    rw [dif_neg hdir]
    by_cases hin : index - nDirect < blkNentry ∧ sin.din.indirect ≠ 0
    · rw [if_pos hin]
      have hsum : nDirect + (index - nDirect) = index := by omega
      rcases bmapFreeSub_spec hs (hind hin.2) hin.1 (hmapped ▸ hmap (by omega)) with
        ⟨t, hrun, hsame, hzero⟩ | ⟨t, u, hrun, hne, hst, hret⟩ | ⟨e, t, hrun, hsame, hio⟩
      · exact ⟨_, t, sin, by rw [hrun]; rfl, .nothing hsame fun _ => hmapped.trans hzero⟩
      · exact ⟨_, u, sin, by rw [hrun]; rfl, .entry hsum hin.1 hin.2 hne hst hret⟩
      · exact ⟨_, t, sin, by rw [hrun]; rfl, .failed hsame hio⟩
    · rw [if_neg hin]
      refine ⟨_, s, sin, rfl, .nothing (Same.refl s) fun hlt => ?_⟩
      have hzero : sin.din.indirect = 0 := by
        by_contra hne
        exact hin ⟨by omega, hne⟩
      rw [hmapped, hzero, entry_zero]

/-! ### The last block of a file -/

theorem Got.inUse {sin' : SfsInode} (hs : s.Sound)
    (hmap : s.mapped sin index ≠ 0 → s.InUse (s.mapped sin index)) (h : Got s sin index create (.ok b) t sin')
    (hb : b ≠ 0) : t.InUse b := by
  cases h with
  | found hsame _ => exact hsame.inUse (hmap hb)
  | direct _ _ _ hnew => exact hnew.inUse hs
  | entry _ _ _ _ _ hnew hst => exact hst.inUse (hnew.inUse hs)
  | both _ _ _ _ hent hnew hst => exact hst.inUse (hnew.inUse hent.sound)

theorem Got.sound {sin' : SfsInode} {ret : Except Err Ino} (hs : s.Sound)
    (h : Got s sin index create ret t sin') : t.Sound := by
  cases h with
  | found hsame _ => exact hsame.sound hs
  | direct _ _ _ hnew => exact hnew.sound
  | entry _ _ _ _ _ hnew hst => exact hst.sound hnew.sound
  | both _ _ _ _ _ hnew hst => exact hst.sound hnew.sound
  | failed hab _ => exact hab.sound

theorem assertInuse_zero (s : Sfs) : s.assertInuse 0 = .error .assertion := by
  rfl

/-- `sfs_bmap_load_nolock` looks up a block, and makes it behind the last one. -/
theorem bmapLoad_spec (hs : s.Sound) (hind : sin.din.indirect ≠ 0 → s.InUse sin.din.indirect)
    (hmap : s.mapped sin index ≠ 0 → s.InUse (s.mapped sin index)) (hle : index ≤ sin.din.blocks.toNat)
    (hi : index < nDirect + blkNentry) :
    ∃ ret t sin', Got s sin index (decide (index = sin.din.blocks.toNat)) ret t sin' ∧
      s.bmapLoad sin index = match ret with
        | .error e => .ok (.error e, t, sin')
        | .ok b =>
          if b = 0 then .error .assertion
          else .ok (.ok b, t, if index = sin.din.blocks.toNat then sin'.addBlock else sin') := by
  obtain ⟨ret, t, sin', hrun, h⟩ :=
    bmapGet_spec hs hind hmap hi (decide (index = sin.din.blocks.toNat))
  refine ⟨ret, t, sin', h, ?_⟩
  rw [bmapLoad, if_neg (not_not.mpr hle)]
  simp only [hrun, bind, Except.bind]
  cases ret with
  | error e => rfl
  | ok b =>
    dsimp only
    by_cases hb : b = 0
    · rw [if_pos hb, hb, assertInuse_zero]
    · rw [if_neg hb, assertInuse_of (h.sound hs) (h.inUse hs hmap hb)]
      by_cases hlast : index = sin.din.blocks.toNat
      · rw [if_pos (decide_eq_true hlast), if_pos hlast]
        rfl
      · rw [if_neg (by rw [decide_eq_true_iff]; exact hlast), if_neg hlast]
        rfl

/-- `sfs_bmap_truncate_nolock` gives back the last block. -/
theorem bmapTruncate_spec (hs : s.Sound) (hne : sin.din.blocks ≠ 0)
    (hind : sin.din.indirect ≠ 0 → s.InUse sin.din.indirect) (hmap : ∀ index < nDirect + blkNentry,
      s.mapped sin index ≠ 0 → s.InUse (s.mapped sin index)) :
    ∃ ret t sin', Dropped s sin (sin.din.blocks.toNat - 1) ret t sin' ∧
      s.bmapTruncate sin = .ok (ret, t, match ret with
        | .error _ => sin'
        | .ok _ => sin'.dropBlock) := by
  obtain ⟨ret, t, sin', hrun, h⟩ :=
    bmapFree_spec hs (sin.din.blocks.toNat - 1) hind (hmap _)
  refine ⟨ret, t, sin', h, ?_⟩
  rw [bmapTruncate, if_neg hne, hrun]
  cases ret <;> rfl

end Sfs

end UcoreMips.Kernel
