import UcoreMips.Kernel.Fs.BlockMap

/-!
# UcoreMips.Kernel.Fs.FileRead

**Reading a file** (`sfs_io_nolock`). A transfer is the end of a block, whole blocks, and the
beginning of a block. The block map is asked for the first of the whole blocks only; the others
are taken from the disk behind it (`runBlock`). So what is read is the file exactly when the
blocks behind the first have the bytes of the blocks of the file (`RunReadable`).
-/

namespace UcoreMips.Kernel

open UcoreMips.Lib BitVec Nat List
open Emulator (Word)

namespace Sfs

variable {s t : Sfs} {sin : SfsInode} {index : Nat}

/-! ### The bytes of a file -/

/-- The blocks of a file, one after the other. -/
def image (s : Sfs) (sin : SfsInode) : List (BitVec 8) :=
  (range sin.din.blocks.toNat).flatMap fun k => (s.disk (s.mapped sin k)).slice 0 blkSize

/-- What is in a file. -/
def content (s : Sfs) (sin : SfsInode) : List (BitVec 8) := (s.image sin).take sin.din.size.toNat

/-- The byte at a position of a file. -/
def fileByte (s : Sfs) (sin : SfsInode) (i : Nat) : BitVec 8 :=
  (s.disk (s.mapped sin (i / blkSize))).get (i % blkSize)

theorem image_eq (s : Sfs) (sin : SfsInode) :
    s.image sin = span (s.fileByte sin) 0 (sin.din.blocks.toNat * blkSize) :=
  Buffer.flatMap_slice (by decide) (fun k => s.disk (s.mapped sin k)) _

theorem content_eq (hsize : sin.din.size.toNat ≤ sin.din.blocks.toNat * blkSize) :
    s.content sin = span (s.fileByte sin) 0 sin.din.size.toNat := by
  rw [content, image_eq, take_span, min_eq_left hsize]

/-- A part of a file. -/
theorem drop_take_content (hsize : sin.din.size.toNat ≤ sin.din.blocks.toNat * blkSize)
    (offset len : Nat) : ((s.content sin).drop offset).take len =
      span (s.fileByte sin) offset (min len (sin.din.size.toNat - offset)) := by
  rw [content_eq hsize, drop_span, take_span, zero_add]

/-- The blocks of a file exist and are in use, and so is its indirect block. -/
structure Mapped (s : Sfs) (sin : SfsInode) : Prop where
  sound : s.Sound
  indirect : sin.din.indirect ≠ 0 → s.InUse sin.din.indirect
  mapped : ∀ k < sin.din.blocks.toNat, s.InUse (s.mapped sin k)
  few : sin.din.blocks.toNat ≤ nDirect + blkNentry

theorem Same.fileByte (h : Same s t) (sin : SfsInode) : t.fileByte sin = s.fileByte sin := by
  funext i
  unfold Sfs.fileByte mapped
  simp only [h.entry, h.disk]

theorem Same.mapped (h : Same s t) (sin : SfsInode) : t.mapped sin = s.mapped sin := by
  funext i
  unfold Sfs.mapped
  simp only [h.entry]

theorem Same.filed (h : Same s t) (hm : Mapped s sin) : Mapped t sin where
  sound := h.sound hm.sound
  indirect hne := h.inUse (hm.indirect hne)
  mapped k hk := by
    rw [h.mapped]
    exact h.inUse (hm.mapped k hk)
  few := hm.few

/-- A block that the file has is looked up. -/
theorem bmapLoad_read (hm : Mapped s sin) (hr : s.Reliable) (hi : index < sin.din.blocks.toNat) :
    ∃ t, Same s t ∧ s.bmapLoad sin index = .ok (.ok (s.mapped sin index), t, sin) := by
  have huse := hm.mapped index hi
  obtain ⟨ret, t, sin', hgot, hrun⟩ := bmapLoad_spec hm.sound hm.indirect (fun _ => huse)
    (le_of_lt hi) (hi.trans_le hm.few)
  have hcreate : decide (index = sin.din.blocks.toNat) = false := decide_eq_false (Nat.ne_of_lt hi)
  rw [hcreate] at hgot
  cases hgot with
  | found hsame _ =>
    refine ⟨t, hsame, ?_⟩
    rw [hrun]
    dsimp only
    rw [if_neg huse.1.1, if_neg (Nat.ne_of_lt hi)]
  | direct _ hnew | entry _ _ hnew | both _ _ hnew => cases hnew
  | failed _ hfail => cases (hfail hr).1

end Sfs

/-! ### The parts of a transfer -/

/-- The first block that lies wholly behind a position. -/
def firstWhole (offset : Nat) : Nat := (offset + blkSize - 1) / blkSize

/-- How many whole blocks lie between two positions. -/
def wholeBlocks (offset endpos : Nat) : Nat := endpos / blkSize - firstWhole offset

variable {offset endpos : Nat}

/-- A transfer of at most a block has one whole block at most. -/
theorem wholeBlocks_le_one (h : endpos ≤ offset + blkSize) : wholeBlocks offset endpos ≤ 1 := by
  have h' : endpos ≤ offset + 4096 := h
  show endpos / 4096 - (offset + 4096 - 1) / 4096 ≤ 1
  omega

theorem putAt_append (done rest data : List (BitVec 8)) :
    putAt (done ++ rest) done.length data = done ++ data ++ rest.drop data.length := by
  rw [putAt, take_left, drop_length_add_append]

/-- How many bytes of a transfer are before its first whole block. -/
def headLen (offset endpos : Nat) : Nat :=
  if 0 < offset % blkSize then min (blkSize - offset % blkSize) (endpos - offset) else 0

namespace Transfer

/-- The end of the first block. -/
def head (x : Transfer) (write : Bool) (offset endpos : Nat) : Except Stop Transfer :=
  if 0 < offset % blkSize then
    x.part write (offset / blkSize) (offset % blkSize) (headLen offset endpos)
  else .ok x

/-- The whole blocks. -/
def middle (x : Transfer) (write : Bool) (offset endpos : Nat) : Except Stop Transfer :=
  if 0 < wholeBlocks offset endpos then
    x.whole write (firstWhole offset) (wholeBlocks offset endpos)
  else .ok x

/-- The beginning of the last block. -/
def tail (x : Transfer) (write : Bool) (offset endpos : Nat) : Except Stop Transfer :=
  if firstWhole offset ≤ endpos / blkSize ∧ 0 < endpos % blkSize then
    x.part write (endpos / blkSize) 0 (endpos % blkSize)
  else .ok x

theorem run_eq (x : Transfer) (write : Bool) (hle : offset ≤ endpos) : x.run write offset endpos =
      ((x.head write offset endpos >>= fun x => x.middle write offset endpos) >>= fun x =>
        x.tail write offset endpos) := by
  unfold run head middle tail headLen wholeBlocks firstWhole
  by_cases hoff : 0 < offset % 4096
  · have hfirst : (offset + 4096 - 1) / 4096 = offset / 4096 + 1 := by omega
    have hlen : (if 0 < endpos / 4096 - offset / 4096 then 4096 - offset % 4096 else endpos - offset)
        = min (4096 - offset % 4096) (endpos - offset) := by
      split <;> omega
    have hsub : endpos / 4096 - offset / 4096 - 1 = endpos / 4096 - (offset / 4096 + 1) := by omega
    have hsingle : (¬endpos / 4096 - offset / 4096 = 0) ↔ offset / 4096 + 1 ≤ endpos / 4096 := by
      omega
    simp only [hoff, if_true, true_and, hfirst, hlen, hsub, decide_eq_false_iff_not, hsingle]
    rw [bind_assoc]
    refine bind_congr fun y => ?_
    split <;> rfl
  · have hfirst : (offset + 4096 - 1) / 4096 = offset / 4096 := by omega
    have hfull : offset / 4096 ≤ endpos / 4096 := Nat.div_le_div_right hle
    simp only [hoff, if_false, false_and, hfirst, hfull, decide_false, true_and]
    split <;> rfl

end Transfer

/-! ### Blocks that follow each other on the disk -/

namespace Sfs

variable {s t : Sfs} {sin : SfsInode} {b : Ino} {n : Nat}

theorem add_ofNat_succ (b : Ino) (k : Nat) :
    b + 1 + BitVec.ofNat 32 k = b + BitVec.ofNat 32 (k + 1) := by
  rw [BitVec.add_assoc, show (1 : Ino) = BitVec.ofNat 32 1 from rfl, ← BitVec.ofNat_add,
    add_comm 1 k]

theorem add_ofNat_zero (b : Ino) : b + BitVec.ofNat 32 0 = b := BitVec.add_zero b

/-- A transfer of blocks is one of the first block, and of the others. -/
theorem valid_run_succ : (∀ k < n + 1, s.Valid (b + BitVec.ofNat 32 k)) ↔
      s.Valid b ∧ ∀ k < n, s.Valid (b + 1 + BitVec.ofNat 32 k) := by
  simp only [add_ofNat_succ]
  constructor
  · exact fun h => ⟨add_ofNat_zero b ▸ h 0 (succ_pos n), fun k hk => h (k + 1) (by omega)⟩
  · rintro ⟨hzero, hsucc⟩ k hk
    cases k with
    | zero => exact (add_ofNat_zero b).symm ▸ hzero
    | succ k => exact hsucc k (by omega)

theorem rwblockNolock_invalid (hb : ¬s.Valid b) (buf : Block) (write : Bool) :
    s.rwblockNolock buf b write true = .error .assertion :=
  if_pos fun h => hb ⟨h.1.resolve_right (by decide), h.2⟩

/-- A transfer fails on a block that does not exist. -/
theorem rwblock_invalid (write : Bool) :
    ∀ {s : Sfs} {b : Ino} (buf : List (BitVec 8)) (pos : Nat), s.Reliable →
      ¬(∀ k < n, s.Valid (b + BitVec.ofNat 32 k)) →
      rwblock write n s buf pos b = .error .assertion := by
  induction n with
  | zero => exact fun _ _ _ h => absurd (fun k hk => absurd hk (not_lt_zero k)) h
  | succ n ih =>
    intro s b buf pos hr h
    rw [valid_run_succ] at h
    by_cases hb : s.Valid b
    · have hrest := fun hall => h ⟨hb, hall⟩
      obtain ⟨t, block, hrun, hblocks, hr'⟩ : ∃ t block,
          s.rwblockNolock (.ofList (buf.drop pos)) b write true = .ok (.ok block, t) ∧
            t.blocks = s.blocks ∧ t.Reliable := by
        cases write with
        | false =>
          obtain ⟨t, hsame, hrun | ⟨hio, -⟩⟩ := rwblockNolock_read hb (.ofList (buf.drop pos))
          · exact ⟨t, _, hrun, hsame.blocks, hsame.io hr⟩
          · exact absurd hr hio
        | true =>
          obtain ⟨t, ⟨hst, hrun⟩ | ⟨-, hio, -⟩⟩ := rwblockNolock_write hb (.ofList (buf.drop pos))
          · exact ⟨t, _, hrun, hst.blocks, hst.io hr⟩
          · exact absurd hr hio
      rw [rwblock, hrun]
      refine ih _ _ hr' fun hall => hrest fun k hk => ?_
      exact ⟨(hall k hk).1, hblocks ▸ (hall k hk).2⟩
    · rw [rwblock, rwblockNolock_invalid hb]
      rfl

/-- `sfs_rblock` puts the blocks behind what is in the buffer. -/
theorem rwblock_read : ∀ {s : Sfs} {b : Ino} (done rest : List (BitVec 8)), s.Reliable →
      (∀ k < n, s.Valid (b + BitVec.ofNat 32 k)) →
      ∃ t, Same s t ∧ rwblock false n s (done ++ rest) done.length b = .ok (.ok (done ++
        ((range n).flatMap fun k => (s.disk (b + BitVec.ofNat 32 k)).slice 0 blkSize) ++
          rest.drop (n * blkSize)), t) := by
  induction n with
  | zero =>
    intro s b done rest _ _
    refine ⟨s, Same.refl s, ?_⟩
    rw [rwblock, range_zero, flatMap_nil, append_nil, Nat.zero_mul, drop_zero]
  | succ n ih =>
    intro s b done rest hr h
    obtain ⟨hb, hall⟩ := valid_run_succ.mp h
    obtain ⟨t, hsame, hrun | ⟨hio, -⟩⟩ :=
      rwblockNolock_read hb (.ofList ((done ++ rest).drop done.length))
    · have hall' : ∀ k < n, t.Valid (b + 1 + BitVec.ofNat 32 k) := fun k hk =>
        ⟨(hall k hk).1, hsame.blocks.symm ▸ (hall k hk).2⟩
      obtain ⟨u, hsame', hrest⟩ := ih (done ++ (s.disk b).slice 0 blkSize) (rest.drop blkSize)
        (hsame.io hr) hall'
      rw [length_append, Buffer.length_slice] at hrest
      refine ⟨u, hsame.trans hsame', ?_⟩
      rw [rwblock, hrun]
      simp only [ok_bind, Bool.false_eq_true, if_false]
      rw [putAt_append, Buffer.length_slice, hrest, hsame.disk, range_succ_eq_map,
        flatMap_cons, flatMap_map, drop_drop, append_assoc done]
      simp only [add_ofNat_succ, add_ofNat_zero, Nat.succ_mul, Nat.add_comm blkSize]
    · exact absurd hr hio

/-! ### What is read -/

/-- The block that is taken for block `k` of the whole ones. -/
def runBlock (s : Sfs) (sin : SfsInode) (offset k : Nat) : Ino :=
  s.mapped sin (firstWhole offset) + BitVec.ofNat 32 k

theorem runBlock_zero (s : Sfs) (sin : SfsInode) (offset : Nat) :
    s.runBlock sin offset 0 = s.mapped sin (firstWhole offset) := add_ofNat_zero _

/-- The blocks behind the first have the bytes of the blocks of the file. -/
def RunReadable (s : Sfs) (sin : SfsInode) (offset endpos : Nat) : Prop :=
  ∀ k < wholeBlocks offset endpos, s.Valid (s.runBlock sin offset k) ∧
    s.disk (s.runBlock sin offset k) = s.disk (s.mapped sin (firstWhole offset + k))

/-- The byte that is read for a position of the file. -/
def readByte (s : Sfs) (sin : SfsInode) (offset endpos i : Nat) : BitVec 8 :=
  if firstWhole offset ≤ i / blkSize ∧ i / blkSize < endpos / blkSize then
    (s.disk (s.runBlock sin offset (i / blkSize - firstWhole offset))).get (i % blkSize)
  else s.fileByte sin i

/-- The bytes up to `pos` have been read into the buffer. -/
structure Fetched (s : Sfs) (sin : SfsInode) (buf : List (BitVec 8)) (f : Nat → BitVec 8)
    (offset : Nat) (x : Transfer) : Prop where
  same : Same s x.sfs
  sin_eq : x.sin = sin
  buf_eq : x.buf = span f offset x.pos ++ buf.drop x.pos

section Fetched

variable {buf : List (BitVec 8)} {f : Nat → BitVec 8} {offset off len : Nat} {x : Transfer}

/-- More bytes are read. -/
theorem Fetched.extend (h : Fetched s sin buf f offset x) (hsame : Same x.sfs t) (len : Nat) :
    Fetched s sin buf f offset
      { x with
        sfs := t
        buf := putAt x.buf x.pos (span f (offset + x.pos) len)
        pos := x.pos + len } where
  same := h.same.trans hsame
  sin_eq := h.sin_eq
  buf_eq := by
    have hput := putAt_append (span f offset x.pos) (buf.drop x.pos) (span f (offset + x.pos) len)
    rw [length_span] at hput
    rw [h.buf_eq, hput, length_span, span_add, drop_drop]

section Fetched

variable (h : Fetched s sin buf f offset x) (hm : Mapped s sin) (hr : s.Reliable)
  (hi : index < sin.din.blocks.toNat)

include h hm hr hi

theorem Fetched.load :
    ∃ t, Same x.sfs t ∧ x.load index = .ok (s.mapped sin index, { x with sfs := t }) := by
  obtain ⟨t, hsame, hrun⟩ := bmapLoad_read (h.same.filed hm) (h.same.io hr) hi
  refine ⟨t, hsame, ?_⟩
  rw [Transfer.load, h.sin_eq, hrun, h.same.mapped, ← h.sin_eq]
  rfl

/-- A part of a block. -/
theorem Fetched.part (hoff : off < blkSize) (hend : off + len ≤ blkSize)
    (hf : span f (offset + x.pos) len = (s.disk (s.mapped sin index)).slice off len) :
    ∃ y, x.part false index off len = .ok y ∧ Fetched s sin buf f offset y ∧
      y.pos = x.pos + len := by
  obtain ⟨t, hsame, hload⟩ := h.load hm hr hi
  have hsame' := h.same.trans hsame
  have huse := hsame'.inUse (hm.mapped index hi)
  obtain ⟨u, hu, hread | ⟨hio, -⟩⟩ := rbuf_spec huse.1 hoff hend
  · refine ⟨_, ?_, h.extend (hsame.trans hu) len, rfl⟩
    rw [Transfer.part, hload, hf]
    simp only [ok_bind, Sfs.bufOp, hread, Bool.false_eq_true, if_false]
    rw [hsame'.disk]
    rfl
  · exact absurd (hsame'.io hr) hio

/-- Whole blocks. -/
theorem Fetched.whole (hvalid : ∀ k < n, s.Valid (s.mapped sin index + BitVec.ofNat 32 k))
    (hf : span f (offset + x.pos) (n * blkSize) = (range n).flatMap fun k =>
      (s.disk (s.mapped sin index + BitVec.ofNat 32 k)).slice 0 blkSize) :
    ∃ y, x.whole false index n = .ok y ∧ Fetched s sin buf f offset y ∧
      y.pos = x.pos + n * blkSize := by
  obtain ⟨t, hsame, hload⟩ := h.load hm hr hi
  have hsame' := h.same.trans hsame
  have hvalid' : ∀ k < n, t.Valid (s.mapped sin index + BitVec.ofNat 32 k) := fun k hk =>
    ⟨(hvalid k hk).1, hsame'.blocks.symm ▸ (hvalid k hk).2⟩
  obtain ⟨u, hu, hread⟩ :=
    rwblock_read (span f offset x.pos) (buf.drop x.pos) (hsame'.io hr) hvalid'
  rw [length_span, hsame'.disk, ← hf, ← h.buf_eq] at hread
  refine ⟨_, ?_, h.extend (hsame.trans hu) (n * blkSize), rfl⟩
  have hput := putAt_append (span f offset x.pos) (buf.drop x.pos)
    (span f (offset + x.pos) (n * blkSize))
  rw [length_span, length_span, ← h.buf_eq] at hput
  rw [Transfer.whole, hload, hput]
  simp only [ok_bind, hread]
  rfl

theorem Fetched.whole_invalid (hinvalid : ¬∀ k < n, s.Valid (s.mapped sin index + BitVec.ofNat 32 k)) :
    x.whole false index n = .error .assertion := by
  obtain ⟨t, hsame, hload⟩ := h.load hm hr hi
  have hsame' := h.same.trans hsame
  have hstop : rwblock false n t x.buf x.pos (s.mapped sin index) = .error .assertion := by
    refine rwblock_invalid false _ _ (hsame'.io hr) fun hall => hinvalid fun k hk => ?_
    exact ⟨(hall k hk).1, hsame'.blocks ▸ (hall k hk).2⟩
  rw [Transfer.whole, hload]
  simp only [bind, Except.bind, hstop]

end Fetched

end Fetched

theorem span_fileByte (hend : off + len ≤ blkSize) :
    span (s.fileByte sin) (index * blkSize + off) len =
      (s.disk (s.mapped sin index)).slice off len := by
  refine map_congr_left fun i hi => ?_
  have hi' : i < len := mem_range.mp hi
  have hlt : off + i < 4096 := Nat.lt_of_lt_of_le (Nat.add_lt_add_left hi' off) hend
  have hdiv : (index * 4096 + off + i) / 4096 = index := by omega
  have hmod : (index * 4096 + off + i) % 4096 = off + i := by omega
  show (s.disk (s.mapped sin ((index * 4096 + off + i) / 4096))).get _ = _
  rw [hdiv]
  exact congrArg _ hmod

/-- Outside the whole blocks the file is read. -/
theorem span_readByte_part (hend : off + len ≤ blkSize)
    (hpart : index < firstWhole offset ∨ endpos / blkSize ≤ index) :
    span (s.readByte sin offset endpos) (index * blkSize + off) len =
      (s.disk (s.mapped sin index)).slice off len := by
  rw [← span_fileByte hend]
  refine span_eq_iff.mpr fun i hi => if_neg ?_
  have hlt : off + i < 4096 := Nat.lt_of_lt_of_le (Nat.add_lt_add_left hi off) hend
  have hdiv : (index * 4096 + off + i) / 4096 = index := by omega
  rw [hdiv]
  omega

theorem span_readByte_whole (hpos : 0 < wholeBlocks offset endpos) :
    span (s.readByte sin offset endpos) (firstWhole offset * blkSize)
        (wholeBlocks offset endpos * blkSize) =
      (range (wholeBlocks offset endpos)).flatMap fun k =>
        (s.disk (s.mapped sin (firstWhole offset) + BitVec.ofNat 32 k)).slice 0 blkSize := by
  rw [Buffer.flatMap_slice (by decide)
    fun k => s.disk (s.mapped sin (firstWhole offset) + BitVec.ofNat 32 k)]
  refine map_congr_left fun i hi => ?_
  have hi' : i < wholeBlocks offset endpos * 4096 := mem_range.mp hi
  have hn : wholeBlocks offset endpos = endpos / 4096 - firstWhole offset := rfl
  have hdiv : (firstWhole offset * blkSize + i) / blkSize = firstWhole offset + i / 4096 := by
    show (firstWhole offset * 4096 + i) / 4096 = _
    omega
  have hmod : (firstWhole offset * blkSize + i) % blkSize = i % 4096 := by
    show (firstWhole offset * 4096 + i) % 4096 = _
    omega
  rw [readByte, hdiv, hmod, if_pos, Nat.add_sub_cancel_left, Nat.zero_add]
  · rfl
  · show firstWhole offset ≤ _ ∧ firstWhole offset + i / 4096 < endpos / 4096
    omega

/-- Where the parts of a transfer are. -/
theorem parts_of_transfer (hlt : offset < endpos) :
    (0 < offset % blkSize → offset = offset / blkSize * blkSize + offset % blkSize ∧
      offset % blkSize + headLen offset endpos ≤ blkSize ∧ offset / blkSize < firstWhole offset) ∧
    (firstWhole offset ≤ endpos / blkSize →
      offset + headLen offset endpos = firstWhole offset * blkSize ∧
      offset + (headLen offset endpos + wholeBlocks offset endpos * blkSize) =
        endpos / blkSize * blkSize) ∧
    (¬firstWhole offset ≤ endpos / blkSize →
      headLen offset endpos = endpos - offset ∧ wholeBlocks offset endpos = 0) := by
  unfold headLen wholeBlocks firstWhole
  rw [show blkSize = 4096 from rfl]
  split <;> omega

section Phases

variable {E : Stop → Prop} {P : Transfer → Prop} {write : Bool} {offset endpos : Nat} {x : Transfer}

/-- `P` is kept by the parts of blocks, in front of the whole blocks and behind them. -/
def PartsEnsure (E : Stop → Prop) (P : Transfer → Prop) (write : Bool) (offset endpos : Nat) : Prop :=
  ∀ ⦃x : Transfer⦄ ⦃index off len : Nat⦄, P x → offset + x.pos = index * blkSize + off → off < blkSize →
    0 < len → off + len ≤ blkSize → offset + x.pos + len ≤ endpos →
    index < firstWhole offset ∨ endpos / blkSize ≤ index →
    Ensures E (fun y => P y ∧ y.pos = x.pos + len) (x.part write index off len)

/-- `P` is kept by the whole blocks. -/
def WholeEnsures (E : Stop → Prop) (P : Transfer → Prop) (write : Bool) (offset endpos : Nat) : Prop :=
  0 < wholeBlocks offset endpos → ∀ ⦃x : Transfer⦄, P x → offset + x.pos = firstWhole offset * blkSize →
    Ensures E (fun y => P y ∧ y.pos = x.pos + wholeBlocks offset endpos * blkSize)
      (x.whole write (firstWhole offset) (wholeBlocks offset endpos))

theorem PartsEnsure.head (hpart : PartsEnsure E P write offset endpos) (hlt : offset < endpos) (h : P x)
    (hpos : x.pos = 0) :
    Ensures E (fun y => P y ∧ y.pos = headLen offset endpos) (x.head write offset endpos) := by
  unfold Transfer.head
  split
  · next hoff =>
    obtain ⟨hidx, hroom, hbefore⟩ := (parts_of_transfer hlt).1 hoff
    have hmod : offset % blkSize < blkSize := mod_lt _ (by decide)
    have hlen : headLen offset endpos = min (blkSize - offset % blkSize) (endpos - offset) := if_pos hoff
    have hres := hpart h (by rw [hpos]; exact hidx) hmod (by omega) hroom (by omega) (.inl hbefore)
    rwa [hpos, zero_add] at hres
  · next hoff => exact ⟨h, hpos.trans (if_neg hoff).symm⟩

theorem WholeEnsures.middle (hwhole : WholeEnsures E P write offset endpos) (hlt : offset < endpos) (h : P x)
    (hpos : x.pos = headLen offset endpos) :
    Ensures E (fun y => P y ∧ y.pos = headLen offset endpos + wholeBlocks offset endpos * blkSize)
      (x.middle write offset endpos) := by
  unfold Transfer.middle
  split
  · next hsome =>
    rw [← hpos]
    refine hwhole hsome h ?_
    rw [hpos, ((parts_of_transfer hlt).2.1 (Nat.le_of_lt (Nat.lt_of_sub_pos hsome))).1]
  · next hnone =>
    rw [Nat.eq_zero_of_not_pos hnone, Nat.zero_mul]
    exact ⟨h, hpos⟩

theorem PartsEnsure.tail (hpart : PartsEnsure E P write offset endpos) (hlt : offset < endpos) (h : P x)
    (hpos : x.pos = headLen offset endpos + wholeBlocks offset endpos * blkSize) :
    Ensures E (fun y => P y ∧ y.pos = endpos - offset) (x.tail write offset endpos) := by
  obtain ⟨-, hfull, hsingle⟩ := parts_of_transfer hlt
  have hdiv : endpos / blkSize * blkSize + endpos % blkSize = endpos := div_add_mod' _ _
  unfold Transfer.tail
  split
  · next htail =>
    have hroom : 0 + endpos % blkSize ≤ blkSize :=
      Nat.zero_add _ ▸ Nat.le_of_lt (Nat.mod_lt _ (by decide))
    have hat : offset + x.pos = endpos / blkSize * blkSize + 0 := by
      rw [hpos, (hfull htail.1).2, add_zero]
    refine (hpart h hat (succ_pos 4095) htail.2 hroom (by omega) (.inr le_rfl)).mono (fun _ => id)
      fun y hy => ⟨hy.1, by omega⟩
  · next htail =>
    refine ⟨h, ?_⟩
    by_cases hle : firstWhole offset ≤ endpos / blkSize
    · have := (hfull hle).2
      have : endpos % blkSize = 0 := Nat.eq_zero_of_not_pos fun hlt => htail ⟨hle, hlt⟩
      omega
    · rw [hpos, (hsingle hle).1, (hsingle hle).2, Nat.zero_mul, Nat.add_zero]

/-- What the parts of blocks and the whole blocks keep is kept by a transfer. -/
theorem run_ensures (hlt : offset < endpos) (hpart : PartsEnsure E P write offset endpos)
    (hwhole : WholeEnsures E P write offset endpos) (h : P x) (hpos : x.pos = 0) :
    Ensures E (fun y => P y ∧ y.pos = endpos - offset) (x.run write offset endpos) := by
  rw [Transfer.run_eq _ _ (le_of_lt hlt)]
  exact Ensures.bind (Ensures.bind (hpart.head hlt h hpos) fun _ hy => hwhole.middle hlt hy.1 hy.2)
    fun _ hy => hpart.tail hlt hy.1 hy.2

end Phases

section Read

variable {buf : List (BitVec 8)} {offset endpos : Nat} {x : Transfer}

theorem Fetched.parts (hm : Mapped s sin) (hr : s.Reliable) (hend : endpos ≤ sin.din.blocks.toNat * blkSize) :
    PartsEnsure (fun _ => False) (Fetched s sin buf (s.readByte sin offset endpos) offset) false offset
      endpos := by
  intro x index off len h hat hoff hlen hroom hle hside
  have hi : index < sin.din.blocks.toNat := by
    change endpos ≤ _ * 4096 at hend
    change _ = index * 4096 + off at hat
    omega
  obtain ⟨y, hrun, hy⟩ := h.part hm hr hi hoff hroom (by rw [hat]; exact span_readByte_part hroom hside)
  rw [hrun]
  exact hy

section ReadRun

variable (hm : Mapped s sin) (hr : s.Reliable) (buf : List (BitVec 8)) (hlt : offset < endpos)
  (hend : endpos ≤ sin.din.blocks.toNat * blkSize)

include hm hr hlt hend

/-- A transfer of the bytes between two positions. -/
theorem run_read (hvalid : ∀ k < wholeBlocks offset endpos, s.Valid (s.runBlock sin offset k)) :
    ∃ y, (⟨s, sin, buf, 0⟩ : Transfer).run false offset endpos = .ok y ∧
      Fetched s sin buf (s.readByte sin offset endpos) offset y ∧ y.pos = endpos - offset := by
  have hstart : Fetched s sin buf (s.readByte sin offset endpos) offset ⟨s, sin, buf, 0⟩ :=
    ⟨Same.refl s, rfl, rfl⟩
  refine (run_ensures hlt (Fetched.parts hm hr hend) (fun hwhole x hx hat => ?_) hstart rfl).exists_ok
    fun _ => id
  have hi : firstWhole offset < sin.din.blocks.toNat :=
    Nat.lt_of_lt_of_le (Nat.lt_of_sub_pos hwhole) (Nat.div_le_of_le_mul (Nat.mul_comm _ _ ▸ hend))
  obtain ⟨y, hrun, hy⟩ := hx.whole hm hr hi hvalid (by rw [hat]; exact span_readByte_whole hwhole)
  rw [hrun]
  exact hy

theorem run_read_invalid (hinvalid : ¬∀ k < wholeBlocks offset endpos, s.Valid (s.runBlock sin offset k)) :
    (⟨s, sin, buf, 0⟩ : Transfer).run false offset endpos = .error .assertion := by
  have hwhole : 0 < wholeBlocks offset endpos :=
    pos_of_ne_zero fun hzero => hinvalid fun k hk => absurd hk (by rw [hzero]; exact not_lt_zero k)
  have hi : firstWhole offset < sin.din.blocks.toNat :=
    Nat.lt_of_lt_of_le (Nat.lt_of_sub_pos hwhole) (Nat.div_le_of_le_mul (Nat.mul_comm _ _ ▸ hend))
  have hstart : Fetched s sin buf (s.readByte sin offset endpos) offset ⟨s, sin, buf, 0⟩ :=
    ⟨Same.refl s, rfl, rfl⟩
  obtain ⟨x, hhead, hx, -⟩ := ((Fetched.parts hm hr hend).head hlt hstart rfl).exists_ok fun _ => id
  rw [Transfer.run_eq _ _ (le_of_lt hlt), hhead]
  simp only [bind, Except.bind, Transfer.middle, if_pos hwhole, hx.whole_invalid hm hr hi hinvalid]

end ReadRun

/-- What is read is the file where the blocks that are taken have its bytes. -/
theorem span_readByte_iff (hlt : offset < endpos) :
    span (s.readByte sin offset endpos) offset (endpos - offset) =
        span (s.fileByte sin) offset (endpos - offset) ↔
      ∀ k < wholeBlocks offset endpos, s.disk (s.runBlock sin offset k) =
        s.disk (s.mapped sin (firstWhole offset + k)) := by
  have hfirst : firstWhole offset = (offset + 4096 - 1) / 4096 := rfl
  have hn : wholeBlocks offset endpos = endpos / 4096 - firstWhole offset := rfl
  rw [span_eq_iff]
  constructor
  · intro h k hk
    refine Buffer.ext_get fun i hi => ?_
    have hi' : i < 4096 := hi
    have hat := h ((firstWhole offset + k) * 4096 + i - offset) (by omega)
    rw [show offset + ((firstWhole offset + k) * 4096 + i - offset) =
      (firstWhole offset + k) * 4096 + i by omega] at hat
    have hdiv : ((firstWhole offset + k) * 4096 + i) / blkSize = firstWhole offset + k := by
      show _ / 4096 = _
      omega
    have hmod : ((firstWhole offset + k) * 4096 + i) % blkSize = i := by
      show _ % 4096 = _
      omega
    rw [readByte, fileByte, hdiv, hmod, if_pos ⟨le_add_right _ _, by
      show _ < endpos / 4096
      omega⟩, Nat.add_sub_cancel_left] at hat
    exact hat
  · intro h i hi
    unfold readByte
    split
    · next hin =>
      rw [fileByte, h _ (Nat.sub_lt_sub_right hin.1 hin.2), Nat.add_sub_cancel' hin.1]
    · rfl

end Read

/-- The bytes of the file from `offset` on are read: `len` of them, or those that there are. -/
def ReadsFile (s : Sfs) (sin : SfsInode) (buf : List (BitVec 8)) (offset len : Word) : Prop :=
  ∃ x, s.ioNolock sin false buf offset len =
      .ok (.ok (min len.toNat (sin.din.size.toNat - offset.toNat)), x) ∧
    x.buf = ((s.content sin).drop offset.toNat).take len.toNat ++
      buf.drop (min len.toNat (sin.din.size.toNat - offset.toNat))

theorem slt_iff_of_lt {a b : Word} (ha : a.toNat < 2 ^ 31) (hb : b.toNat < 2 ^ 31) :
    a.slt b = true ↔ a.toNat < b.toNat := by
  rw [slt_iff_toInt_lt, toInt_eq_toNat_of_lt (by omega), toInt_eq_toNat_of_lt (by omega)]
  exact Int.ofNat_lt

/-- The arguments of a transfer are all right. -/
theorem ioNolock_eq {write : Bool} {offset len : Word} (htype : sin.din.type = typeFile)
    (hoff : offset.toNat < maxFileSize) (hover : offset.toNat + len.toNat < 2 ^ 31)
    (buf : List (BitVec 8)) : s.ioNolock sin write buf offset len =
      if len = 0 ∨ write = false ∧ sin.din.size.toNat ≤ offset.toNat then
        .ok (.ok 0, ⟨s, sin, buf, 0⟩)
      else do
        let endpos := min (offset.toNat + len.toNat) maxFileSize
        let x ← (⟨s, sin, buf, 0⟩ : Transfer).run write offset.toNat
          (if write then endpos else min endpos sin.din.size.toNat)
        return (.ok x.pos, x.finish offset.toNat) := by
  have hsum : (offset + len).toNat = offset.toNat + len.toNat := by
    rw [toNat_add, mod_eq_of_lt (by omega)]
  have harg : ¬(offset.slt 0 ∨ maxFileSize ≤ offset.toNat ∨ (offset + len).slt offset) := by
    rw [slt_iff_of_lt (by omega) (by decide), slt_iff_of_lt (by omega) (by omega), hsum]
    show ¬(offset.toNat < 0 ∨ _)
    omega
  have hzero : offset = offset + len ↔ len = 0 := by
    rw [← toNat_inj, hsum, ← toNat_inj]
    show _ ↔ len.toNat = 0
    omega
  unfold ioNolock
  rw [if_neg (by rw [htype]; decide)]
  simp only [if_neg harg, hzero, hsum]
  by_cases hlen : len = 0
  · rw [if_pos hlen, if_pos (.inl hlen)]
  · rw [if_neg hlen]
    simp only [hlen, false_or]

section Reads

variable {buf : List (BitVec 8)} {offset len : Word}

/-- Where nothing is to be read. -/
theorem readsFile_nothing (htype : sin.din.type = typeFile) (hoff : offset.toNat < maxFileSize)
    (hover : offset.toNat + len.toNat < 2 ^ 31)
    (hnone : len = 0 ∨ sin.din.size.toNat ≤ offset.toNat) : ReadsFile s sin buf offset len := by
  have hzero : min len.toNat (sin.din.size.toNat - offset.toNat) = 0 := by
    rcases hnone with rfl | hle
    · exact zero_min _
    · rw [Nat.sub_eq_zero_of_le hle, Nat.min_zero]
  have hdata : ((s.content sin).drop offset.toNat).take len.toNat = [] := by
    rcases hnone with rfl | hle
    · rfl
    · rw [drop_eq_nil_of_le, take_nil]
      exact (length_take_le _ _).trans hle
  refine ⟨⟨s, sin, buf, 0⟩, ?_, ?_⟩
  · rw [ioNolock_eq htype hoff hover, if_pos (hnone.imp_right fun h => ⟨rfl, h⟩), hzero]
  · rw [hzero, hdata]
    rfl

variable {endpos : Nat}

theorem ioNolock_run_read (hm : Mapped s sin) (htype : sin.din.type = typeFile)
    (hsize : sin.din.size.toNat ≤ sin.din.blocks.toNat * blkSize)
    (hoff : offset.toNat < maxFileSize) (hover : offset.toNat + len.toNat < 2 ^ 31)
    (hendpos : endpos = min (offset.toNat + len.toNat) sin.din.size.toNat)
    (hsome : offset.toNat < endpos) (buf : List (BitVec 8)) :
    s.ioNolock sin false buf offset len = (do
      let x ← (⟨s, sin, buf, 0⟩ : Transfer).run false offset.toNat endpos
      return (.ok x.pos, x.finish offset.toNat)) := by
  have hmax : sin.din.size.toNat ≤ maxFileSize := by
    have hfew : sin.din.blocks.toNat ≤ 1036 := hm.few
    have : sin.din.size.toNat ≤ sin.din.blocks.toNat * 4096 := hsize
    show _ ≤ 134217728
    omega
  have hmin : min (min (offset.toNat + len.toNat) maxFileSize) sin.din.size.toNat = endpos := by omega
  have hlen : len ≠ 0 := by
    rintro rfl
    rw [show (0 : Word).toNat = 0 from rfl] at hendpos
    omega
  rw [ioNolock_eq htype hoff hover, if_neg fun h => h.elim hlen fun h => by omega]
  simp only [Bool.false_eq_true, if_false, hmin]

/-- What is read is `readByte` of each position. -/
theorem ioNolock_read (hm : Mapped s sin) (hr : s.Reliable) (htype : sin.din.type = typeFile)
    (hsize : sin.din.size.toNat ≤ sin.din.blocks.toNat * blkSize)
    (hoff : offset.toNat < maxFileSize) (hover : offset.toNat + len.toNat < 2 ^ 31)
    (hendpos : endpos = min (offset.toNat + len.toNat) sin.din.size.toNat)
    (hsome : offset.toNat < endpos) (buf : List (BitVec 8))
    (hvalid : ∀ k < wholeBlocks offset.toNat endpos, s.Valid (s.runBlock sin offset.toNat k)) :
    ∃ x, s.ioNolock sin false buf offset len = .ok (.ok (endpos - offset.toNat), x) ∧
      Same s x.sfs ∧ x.sin = sin ∧
      x.buf = span (s.readByte sin offset.toNat endpos) offset.toNat (endpos - offset.toNat) ++
        buf.drop (endpos - offset.toNat) := by
  obtain ⟨y, hy, hfetch, hpos⟩ := run_read hm hr buf hsome (by omega) hvalid
  -- reading does not make the file longer
  have hfinish : y.finish offset.toNat = y := by
    rw [Transfer.finish, if_neg]
    rw [hfetch.sin_eq, hpos]
    omega
  refine ⟨y, ?_, hfetch.same, hfetch.sin_eq, hpos ▸ hfetch.buf_eq⟩
  rw [ioNolock_run_read hm htype hsize hoff hover hendpos hsome, hy, ← hpos]
  show Except.ok (Except.ok y.pos, y.finish offset.toNat) = _
  rw [hfinish]

/-- `sfs_io_nolock` reads the file exactly where the blocks that follow the first whole block of
the transfer on the disk have the bytes of the blocks that follow it in the file. -/
theorem sfs_io_reads_file_iff (hm : Mapped s sin) (hr : s.Reliable) (htype : sin.din.type = typeFile)
    (hsize : sin.din.size.toNat ≤ sin.din.blocks.toNat * blkSize) (buf : List (BitVec 8))
    (offset len : Word) (hoff : offset.toNat < maxFileSize)
    (hover : offset.toNat + len.toNat < 2 ^ 31) :
    ReadsFile s sin buf offset len ↔
      s.RunReadable sin offset.toNat (min (offset.toNat + len.toNat) sin.din.size.toNat) := by
  obtain ⟨endpos, hendpos⟩ : ∃ endpos, endpos =
    min (offset.toNat + len.toNat) sin.din.size.toNat := ⟨_, rfl⟩
  rw [← hendpos]
  by_cases hsome : offset.toNat < endpos
  · have hcount : min len.toNat (sin.din.size.toNat - offset.toNat) = endpos - offset.toNat := by
      omega
    unfold ReadsFile RunReadable
    rw [drop_take_content hsize, hcount]
    by_cases hvalid : ∀ k < wholeBlocks offset.toNat endpos, s.Valid (s.runBlock sin offset.toNat k)
    · obtain ⟨x, hrun, -, -, hbuf⟩ :=
        ioNolock_read hm hr htype hsize hoff hover hendpos hsome buf hvalid
      have hiff := @span_readByte_iff s sin _ _ hsome
      constructor
      · rintro ⟨y, hrun', hbuf'⟩ k hk
        obtain ⟨-, rfl⟩ := Prod.mk.inj (Except.ok.inj (hrun.symm.trans hrun'))
        exact ⟨hvalid k hk, hiff.mp (append_cancel_right (hbuf.symm.trans hbuf')) k hk⟩
      · intro h
        exact ⟨x, hrun, by rw [hbuf, hiff.mpr fun k hk => (h k hk).2]⟩
    · constructor
      · rintro ⟨y, hrun, -⟩
        rw [ioNolock_run_read hm htype hsize hoff hover hendpos hsome,
          run_read_invalid hm hr buf hsome (by omega) hvalid] at hrun
        cases hrun
      · exact fun h => absurd (fun k hk => (h k hk).1) hvalid
  · refine iff_of_true (readsFile_nothing htype hoff hover ?_) fun k hk => ?_
    · by_cases hlen : len = 0
      · exact .inl hlen
      · have hpos : 0 < len.toNat :=
          pos_of_ne_zero fun hzero => hlen (eq_of_toNat_eq hzero)
        omega
    · -- no block lies between the positions
      have hzero : wholeBlocks offset.toNat endpos = 0 := by
        show endpos / 4096 - (offset.toNat + 4096 - 1) / 4096 = 0
        omega
      rw [hzero] at hk
      exact absurd hk (not_lt_zero k)

end Reads

/-- A file with two blocks that do not follow each other: another file has the block between them. -/
def scattered : Sfs where
  blocks := 8
  unusedBlocks := 1
  freemap := ⟨32, 1, fun _ => 0x80⟩
  disk b := if b = 6 then fun _ => 1 else .zero
  io _ := true

def scatteredFile : SfsInode where
  din := ⟨8192, typeFile, 1, 2, fun k => if k = 0 then 4 else if k = 1 then 6 else 0, 0⟩
  ino := 3
  dirty := false
  reclaimCount := 1

theorem scattered_sound : scattered.Sound := by
  refine ⟨⟨by decide, fun i hi hi' => ?_⟩, by decide, by decide, by decide, by decide⟩
  exact absurd hi' (not_lt.mpr hi)

theorem scattered_mapped : Mapped scattered scatteredFile := by
  refine ⟨scattered_sound, fun hne => absurd rfl hne, fun k hk => ?_, by decide⟩
  have hk' : k = 0 ∨ k = 1 := by
    have : k < 2 := hk
    omega
  rcases hk' with rfl | rfl
  · refine ⟨⟨by decide, by decide⟩, ?_⟩
    rw [mem_free]
    decide
  · refine ⟨⟨by decide, by decide⟩, ?_⟩
    rw [mem_free]
    decide

theorem sfs_io_reads_file_iff_block :
    ReadsFile scattered scatteredFile (replicate 4096 0) 0 4096 := by
  refine (sfs_io_reads_file_iff scattered_mapped (fun _ => rfl) rfl (by decide) _ 0 4096 (by decide)
    (by decide)).mpr fun k hk => ?_
  have hk' : k = 0 := by
    have : k < 1 := hk
    omega
  subst hk'
  exact ⟨⟨by decide, by decide⟩, by rw [runBlock_zero, add_zero]⟩

/-- Of two blocks, the second is the one of the other file. -/
theorem sfs_io_reads_other_block :
    Mapped scattered scatteredFile ∧ scattered.Reliable ∧ scatteredFile.din.type = typeFile ∧
      scatteredFile.din.size.toNat ≤ scatteredFile.din.blocks.toNat * blkSize ∧
      ¬ReadsFile scattered scatteredFile (replicate 8192 0) 0 8192 := by
  refine ⟨scattered_mapped, fun _ => rfl, rfl, by decide, ?_⟩
  rintro ⟨y, hrun, hbuf⟩
  have hvalid : ∀ k < wholeBlocks 0 8192, scattered.Valid (scattered.runBlock scatteredFile 0 k) := by
    intro k hk
    have hk' : k = 0 ∨ k = 1 := by
      have : k < 2 := hk
      omega
    rcases hk' with rfl | rfl <;> exact ⟨by decide, by decide⟩
  have hsome : (0 : Word).toNat < 8192 := by decide
  obtain ⟨x, hrun', -, -, hbuf'⟩ := ioNolock_read scattered_mapped (fun _ => rfl) rfl (by decide)
    (by decide) (by decide) (show 8192 = min ((0 : Word).toNat + (8192 : Word).toNat) _ from rfl)
    hsome (replicate 8192 0) hvalid
  obtain ⟨-, rfl⟩ := Prod.mk.inj (Except.ok.inj (hrun'.symm.trans hrun))
  rw [drop_take_content (by decide)] at hbuf
  have hblock := (@span_readByte_iff scattered scatteredFile _ _ hsome).mp
    (append_cancel_right (hbuf'.symm.trans hbuf)) 1 (by decide)
  have hbyte := congrArg (fun b : Block => b.get 0) hblock
  revert hbyte
  decide

end Sfs

end UcoreMips.Kernel
