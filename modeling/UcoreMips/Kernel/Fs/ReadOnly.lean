import UcoreMips.Kernel.Fs.FileCalls
import UcoreMips.Kernel.Fs.WriteRuns

/-!
# UcoreMips.Kernel.Fs.ReadOnly

**What can be done to a file through a descriptor that is not writable**: any sequence of calls through
it, and through the descriptors that are duplicated from it.

`file_write` is refused, and reading looks up blocks that are there. What is left is `file_seek`:
`sfs_tryseek` makes the file longer for a position behind its end, and no one asks whether the
descriptor is writable (`Call.Inside`).

The volume may be in any state and the device may fail: the results are about the calls that return.
-/

namespace UcoreMips.Kernel

open UcoreMips.Lib Files
open Emulator (Word)
open Function (update update_of_ne update_self)

namespace Sfs

variable {s t : Sfs} {sin sin' : SfsInode} {b ino : Ino} {buf : List (BitVec 8)}
  {block : Block} {check : Bool} {offset index : Nat} {r : Except Err Ino}

/-! ### Reading changes nothing -/

theorem dopIo_read (s : Sfs) (block : Block) (b : Ino) : Same s (s.dopIo block b false).2 := by
  unfold dopIo
  refine ⟨?_, ?_, ?_, ?_, ?_⟩ <;> dsimp only <;> split <;>
    first | rfl | exact fun hr k => hr (k + 1)

theorem same_of_rwblockNolock {r : Except Err Block}
    (h : s.rwblockNolock block b false check = .ok (r, t)) : Same s t := by
  unfold rwblockNolock at h
  split at h
  · cases h
  · have hread := dopIo_read s block b
    rw [Except.ok.inj h] at hread
    exact hread

theorem same_of_rbuf {len : Nat} {r : Except Err (List (BitVec 8))}
    (h : s.rbuf len b offset = .ok (r, t)) : Same s t := by
  unfold rbuf at h
  split at h
  · cases h
  · obtain ⟨⟨r', s'⟩, hread, h⟩ := bind_eq_ok.mp h
    have hsame := same_of_rwblockNolock hread
    cases r' with
    | error e =>
      cases h
      exact hsame
    | ok block =>
      cases h
      exact hsame

theorem same_of_rwblock {n pos : Nat} {r : Except Err (List (BitVec 8))}
    (h : rwblock false n s buf pos b = .ok (r, t)) : Same s t := by
  induction n generalizing s buf pos b with
  | zero =>
    cases h
    exact Same.refl _
  | succ n ih =>
    obtain ⟨⟨r', s'⟩, hread, h⟩ := bind_eq_ok.mp h
    have hsame := same_of_rwblockNolock hread
    cases r' with
    | error e =>
      cases h
      exact hsame
    | ok block => exact hsame.trans (ih h)

theorem eq_of_bmapOut (h : s.bmapOut sin ino = .ok (r, t, sin')) : t = s ∧ sin' = sin := by
  unfold bmapOut at h
  split at h
  · cases h
    exact ⟨rfl, rfl⟩
  · obtain ⟨-, -, h⟩ := bind_eq_ok.mp h
    cases h
    exact ⟨rfl, rfl⟩

/-- An entry of the indirect block is looked up. -/
theorem same_of_bmapGetSub {entp : Ino} {r : Except Err (Ino × Ino)}
    (h : s.bmapGetSub entp index false = .ok (r, t)) : Same s t ∧ ∀ ent ino, r = .ok (ent, ino) → ent = entp := by
  unfold bmapGetSub at h
  split at h
  · cases h
  · split at h
    · obtain ⟨⟨r', s'⟩, hread, h⟩ := bind_eq_ok.mp h
      have hsame := same_of_rbuf hread
      cases r' with
      | error e =>
        cases h
        exact ⟨hsame, fun ent ino hr => nomatch hr⟩
      | ok bytes =>
        dsimp only at h
        rw [if_pos (.inr rfl)] at h
        cases h
        exact ⟨hsame, fun ent ino hr => (Prod.mk.inj (Except.ok.inj hr)).1.symm⟩
    · next hzero =>
      cases h
      refine ⟨Same.refl s, fun ent ino hr => ?_⟩
      rw [not_not.mp hzero]
      exact (Prod.mk.inj (Except.ok.inj hr)).1.symm

theorem same_of_bmapGet
    (h : s.bmapGet sin index false = .ok (r, t, sin')) : Same s t ∧ sin' = sin := by
  unfold bmapGet at h
  split at h
  · rw [if_neg fun hand => Bool.false_ne_true hand.2] at h
    obtain ⟨rfl, rfl⟩ := eq_of_bmapOut h
    exact ⟨Same.refl _, rfl⟩
  · split at h
    · obtain ⟨⟨r', s'⟩, hsub, h⟩ := bind_eq_ok.mp h
      obtain ⟨hsame, hent⟩ := same_of_bmapGetSub hsub
      cases r' with
      | error e =>
        cases h
        exact ⟨hsame, rfl⟩
      | ok found =>
        obtain ⟨ent, ino⟩ := found
        dsimp only at h
        rw [if_pos (hent ent ino rfl)] at h
        obtain ⟨rfl, rfl⟩ := eq_of_bmapOut h
        exact ⟨hsame, rfl⟩
    · cases h

/-- A block that the file has is looked up. -/
theorem same_of_bmapLoad (hi : index < sin.din.blocks.toNat)
    (h : s.bmapLoad sin index = .ok (r, t, sin')) : Same s t ∧ sin' = sin := by
  unfold bmapLoad at h
  rw [if_neg (not_not_intro (Nat.le_of_lt hi)), decide_eq_false (Nat.ne_of_lt hi)] at h
  obtain ⟨⟨r', s', sin₁⟩, hget, h⟩ := bind_eq_ok.mp h
  obtain ⟨hsame, rfl⟩ := same_of_bmapGet hget
  cases r' with
  | error e =>
    cases h
    exact ⟨hsame, rfl⟩
  | ok ino =>
    obtain ⟨-, -, h⟩ := bind_eq_ok.mp h
    cases h
    exact ⟨hsame, rfl⟩

end Sfs

/-- A part of a transfer was read: nothing else has changed. -/
structure Transfer.Read (x : Transfer) (len : Nat) (y : Transfer) : Prop where
  same : Sfs.Same x.sfs y.sfs
  sin_eq : y.sin = x.sin
  pos_eq : y.pos = x.pos + len

namespace Transfer

variable {x y : Transfer} {index offset endpos len n : Nat}

theorem same_of_load (hi : index < x.sin.din.blocks.toNat) (h : x.load index = .ok (ino, y)) :
    Sfs.Same x.sfs y.sfs ∧ y.sin = x.sin ∧ y.pos = x.pos := by
  obtain ⟨⟨r, s, sin⟩, hload, h⟩ := bind_eq_ok.mp h
  obtain ⟨hsame, rfl⟩ := Sfs.same_of_bmapLoad hi hload
  cases r with
  | error e => cases h
  | ok ino =>
    cases h
    exact ⟨hsame, rfl, rfl⟩

theorem read_of_part (hi : index < x.sin.din.blocks.toNat) (h : x.part false index offset len = .ok y) :
    x.Read len y := by
  obtain ⟨⟨ino, x'⟩, hload, h⟩ := bind_eq_ok.mp h
  obtain ⟨hsame, hsin, hpos⟩ := same_of_load hi hload
  obtain ⟨⟨r, s⟩, hop, h⟩ := bind_eq_ok.mp h
  obtain ⟨⟨r', s'⟩, hread, hop⟩ := bind_eq_ok.mp hop
  cases hop
  cases r' with
  | error e => cases h
  | ok bytes =>
    cases h
    exact ⟨hsame.trans (Sfs.same_of_rbuf hread), hsin, by rw [← hpos]⟩

theorem read_of_whole (hi : index < x.sin.din.blocks.toNat) (h : x.whole false index n = .ok y) :
    x.Read (n * blkSize) y := by
  obtain ⟨⟨ino, x'⟩, hload, h⟩ := bind_eq_ok.mp h
  obtain ⟨hsame, hsin, hpos⟩ := same_of_load hi hload
  obtain ⟨⟨r, s⟩, hread, h⟩ := bind_eq_ok.mp h
  cases r with
  | error e => cases h
  | ok buf =>
    cases h
    exact ⟨hsame.trans (Sfs.same_of_rwblock hread), hsin, by rw [← hpos]⟩

/-- The blocks of a transfer are blocks that the file has. -/
theorem read_of_run (hlt : offset < endpos) (hend : endpos ≤ x.sin.din.blocks.toNat * blkSize)
    (hpos : x.pos = 0) (h : x.run false offset endpos = .ok y) : x.Read (endpos - offset) y := by
  have hend' : endpos ≤ x.sin.din.blocks.toNat * 4096 := hend
  have hpart : Sfs.PartsEnsure (fun _ => True) (fun y => Sfs.Same x.sfs y.sfs ∧ y.sin = x.sin) false offset
      endpos := by
    refine fun w index off len hw hat _ hlen _ hle _ => .of_forall fun y hy => ?_
    change _ = index * 4096 + off at hat
    have hread := read_of_part (by rw [hw.2]; omega) hy
    exact ⟨⟨hw.1.trans hread.same, hread.sin_eq.trans hw.2⟩, hread.pos_eq⟩
  have hwhole : Sfs.WholeEnsures (fun _ => True) (fun y => Sfs.Same x.sfs y.sfs ∧ y.sin = x.sin) false offset
      endpos := by
    refine fun hsome w hw _ => .of_forall fun y hy => ?_
    have hsome' : 0 < endpos / 4096 - firstWhole offset := hsome
    have hread := read_of_whole (by rw [hw.2]; omega) hy
    exact ⟨⟨hw.1.trans hread.same, hread.sin_eq.trans hw.2⟩, hread.pos_eq⟩
  obtain ⟨⟨hsame, hsin⟩, hy⟩ := (Sfs.run_ensures hlt hpart hwhole ⟨Sfs.Same.refl _, rfl⟩ hpos).of_ok h
  exact ⟨hsame, hsin, by rw [hy, hpos, Nat.zero_add]⟩

end Transfer

namespace Sfs

/-- A position that is not negative is not behind a later one. -/
theorem le_of_not_slt {offset endpos : Word} (hoff : ¬offset.slt 0 = true) (h : ¬endpos.slt offset = true) :
    offset.toNat ≤ endpos.toNat := by
  rw [BitVec.slt, decide_eq_true_eq, Int.not_lt] at hoff h
  have hzero : (0 : Word).toInt = 0 := rfl
  rw [hzero] at hoff
  rw [BitVec.toInt_eq_toNat_cond] at hoff h
  rw [BitVec.toInt_eq_toNat_cond] at h
  have hlt := offset.isLt
  split at hoff <;> split at h <;> omega

/-- A read changes nothing, if the file has the blocks its size takes. -/
theorem same_of_ioNolock {offset len : Word} {r : Except Err Nat} {x : Transfer}
    (hsize : sin.din.size.toNat ≤ sin.din.blocks.toNat * blkSize)
    (h : s.ioNolock sin false buf offset len = .ok (r, x)) : Same s x.sfs ∧ x.sin = sin := by
  unfold ioNolock at h
  dsimp only at h
  split at h
  · cases h
  split at h
  · cases h
    exact ⟨Same.refl _, rfl⟩
  next harg =>
  split at h
  · cases h
    exact ⟨Same.refl _, rfl⟩
  next hne =>
  split at h
  · cases h
    exact ⟨Same.refl _, rfl⟩
  next hin =>
  obtain ⟨y, hrun, h⟩ := bind_eq_ok.mp h
  cases h
  obtain ⟨hoff, -, hend⟩ : ¬offset.slt 0 = true ∧ offset.toNat < maxFileSize ∧
      ¬(offset + len).slt offset = true := by
    simpa only [not_or, Nat.not_le] using harg
  have hlt : offset.toNat < (offset + len).toNat :=
    Nat.lt_of_le_of_ne (le_of_not_slt hoff hend) fun heq => hne (BitVec.eq_of_toNat_eq heq)
  have hinside : offset.toNat < sin.din.size.toNat := Nat.lt_of_not_le fun hle => hin ⟨rfl, hle⟩
  rw [if_neg Bool.false_ne_true] at hrun
  have hread := Transfer.read_of_run (by omega) (by dsimp only; omega) rfl hrun
  -- the file is not longer than it was
  rw [Transfer.finish, if_neg]
  · exact ⟨hread.same, hread.sin_eq⟩
  · rw [hread.sin_eq, hread.pos_eq]
    dsimp only
    omega

variable {ret : Int}

/-- A read through a buffer changes nothing. -/
theorem same_of_sfsIo {iob iob' : Iobuf}
    (hsize : sin.din.size.toNat ≤ sin.din.blocks.toNat * blkSize)
    (h : s.sfsIo sin iob false = .ok (ret, iob', t, sin')) : Same s t ∧ sin' = sin := by
  obtain ⟨⟨r, x⟩, hio, h⟩ := bind_eq_ok.mp h
  have hread := same_of_ioNolock hsize (mapError_eq_ok.mp hio)
  cases r with
  | error e =>
    cases h
    exact hread
  | ok alen =>
    dsimp only at h
    split at h
    · obtain ⟨iob₁, -, h⟩ := bind_eq_ok.mp h
      cases h
      exact hread
    · cases h
      exact hread

/-! ### What does not touch a file -/

/-- At most the block of the inode was written. -/
structure Untouched (s : Sfs) (sin : SfsInode) (t : Sfs) (sin' : SfsInode) : Prop where
  din : sin'.din = sin.din
  ino : sin'.ino = sin.ino
  blocks : t.blocks = s.blocks
  unused : t.unusedBlocks = s.unusedBlocks
  freemap : t.freemap = s.freemap
  disk : ∀ b, b ≠ sin.ino → t.disk b = s.disk b

theorem Same.untouched (h : Same s t) (sin : SfsInode) : Untouched s sin t sin :=
  ⟨rfl, rfl, h.blocks, h.unused, h.freemap, fun _ _ => by rw [h.disk]⟩

theorem Untouched.trans (h : Untouched s sin t sin') (h' : Untouched t sin' u sin'') :
    Untouched s sin u sin'' where
  din := h'.din.trans h.din
  ino := h'.ino.trans h.ino
  blocks := h'.blocks.trans h.blocks
  unused := h'.unused.trans h.unused
  freemap := h'.freemap.trans h.freemap
  disk b hb := (h'.disk b (h.ino.symm ▸ hb)).trans (h.disk b hb)

theorem dopIo_write (s : Sfs) (sin : SfsInode) (block : Block) :
    Untouched s sin (s.dopIo block sin.ino true).2 sin := by
  unfold dopIo
  cases s.io 0 with
  | false => exact ⟨rfl, rfl, rfl, rfl, rfl, fun _ _ => rfl⟩
  | true => exact ⟨rfl, rfl, rfl, rfl, rfl, fun b hb => update_of_ne hb ..⟩

theorem untouched_of_rwblockNolock {r : Except Err Block}
    (h : s.rwblockNolock block sin.ino true check = .ok (r, t)) : Untouched s sin t sin := by
  unfold rwblockNolock at h
  split at h
  · cases h
  · have hwrite := dopIo_write s sin block
    rw [Except.ok.inj h] at hwrite
    exact hwrite

theorem untouched_of_wbuf {data : List (BitVec 8)} {r : Except Err Unit}
    (h : s.wbuf data sin.ino offset = .ok (r, t)) : Untouched s sin t sin := by
  unfold wbuf at h
  split at h
  · cases h
  · obtain ⟨⟨r', s'⟩, hread, h⟩ := bind_eq_ok.mp h
    have hsame := (same_of_rwblockNolock hread).untouched sin
    cases r' with
    | error e =>
      cases h
      exact hsame
    | ok block =>
      obtain ⟨⟨r'', s''⟩, hwrite, h⟩ := bind_eq_ok.mp h
      cases h
      exact hsame.trans (untouched_of_rwblockNolock hwrite)

/-- `sfs_fsync` writes the inode. -/
theorem untouched_of_fsync {r : Except Err Unit} (h : s.fsync sin = .ok (r, t, sin')) :
    Untouched s sin t sin' := by
  unfold fsync at h
  split at h
  · obtain ⟨⟨r', s'⟩, hwrite, h⟩ := bind_eq_ok.mp h
    have huntouched := untouched_of_wbuf hwrite
    cases r' with
    | error e =>
      cases h
      exact huntouched
    | ok _ =>
      cases h
      exact huntouched.trans ⟨rfl, rfl, rfl, rfl, rfl, fun _ _ => rfl⟩
  · cases h
    exact (Same.refl _).untouched _

/-- The block of an inode is not its indirect block, and not a block of the file. -/
theorem Filed.ne_ino (hf : Filed s sin) : (sin.din.indirect ≠ 0 → sin.din.indirect ≠ sin.ino) ∧
    ∀ k < sin.din.blocks.toNat, s.mapped sin k ≠ sin.ino := by
  constructor
  · intro hne
    exact hf.healthy.ne_of_slot_ne (p := .indirect) (q := .self) (fun heq => nomatch heq) hne
  · intro k hk
    exact hf.mapped_ne_slot hk (q := .self) rfl

theorem Untouched.mapped_eq (hf : Filed s sin) (h : Untouched s sin t sin') (k : Nat) :
    t.mapped sin' k = s.mapped sin k := by
  unfold mapped
  rw [h.din]
  split
  · rfl
  · by_cases hzero : sin.din.indirect = 0
    · rw [hzero, entry_zero, entry_zero]
    · rw [entry_of_ne hzero, entry_of_ne hzero, h.disk _ (hf.ne_ino.1 hzero)]

theorem Untouched.content_eq (hf : Filed s sin) (h : Untouched s sin t sin') :
    t.content sin' = s.content sin := by
  have himage : t.image sin' = s.image sin := by
    unfold image
    rw [h.din]
    refine List.flatMap_congr fun k hk => ?_
    rw [h.mapped_eq hf, h.disk _ (hf.ne_ino.2 k (List.mem_range.mp hk))]
  rw [content, himage, h.din, content]

end Sfs

/-! ### The operations of the inode -/

namespace Vfs

/-- The file that an inode stands for. -/
def fileAt (v : Vfs) (n : NodeId) : Option SfsInode :=
  match v.inode n with
  | some ⟨.file sin, _, _⟩ => some sin
  | _ => none

variable {v v' : Vfs} {n : NodeId} {sin : SfsInode} {node : Inode}

/-- The operation has not touched the file. -/
def Spared (v : Vfs) (n : NodeId) (sin : SfsInode) (v' : Vfs) : Prop :=
  ∃ sin', v'.fileAt n = some sin' ∧ Sfs.Untouched v.sfs sin v'.sfs sin'

theorem Spared.refl (h : v.fileAt n = some sin) : v.Spared n sin v := ⟨sin, h, (Sfs.Same.refl _).untouched sin⟩

theorem fileAt_setFile (v : Vfs) (n : NodeId) (node : Inode) (t : Sfs) (sin : SfsInode) :
    (v.setFile n node t sin).fileAt n = some sin := by
  simp only [fileAt, setFile, set, update_self]

theorem info_of_fileAt (h : v.fileAt n = some sin) (hvop : v.vop n = .ok node) : node.info = .file sin := by
  unfold vop at hvop
  unfold fileAt at h
  split at hvop
  · cases hvop
  · next node' hnode =>
    split at hvop
    · cases hvop
      rw [hnode] at h
      obtain ⟨info, ref, opn⟩ := node
      cases info with
      | file sin' => rw [Option.some.inj h]
      | dir sin' => cases h
      | device dev => cases h
    · cases hvop

theorem spared_of_vopIo {iob iob' : Iobuf} (h : v.fileAt n = some sin)
    (hsize : sin.din.size.toNat ≤ sin.din.blocks.toNat * blkSize)
    (hop : v.vopIo n iob false = .ok (ret, iob', v')) : v.Spared n sin v' := by
  obtain ⟨node, hvop, hop⟩ := bind_eq_ok.mp hop
  simp only [info_of_fileAt h hvop] at hop
  obtain ⟨⟨ret', iob₁, t, sin'⟩, hio, hret⟩ := bind_eq_ok.mp hop
  obtain ⟨hsame, rfl⟩ := Sfs.same_of_sfsIo hsize hio
  cases hret
  exact ⟨_, fileAt_setFile .., hsame.untouched _⟩

theorem spared_of_vopFsync (h : v.fileAt n = some sin) (hop : v.vopFsync n = .ok (ret, v')) :
    v.Spared n sin v' := by
  obtain ⟨node, hvop, hop⟩ := bind_eq_ok.mp hop
  simp only [info_of_fileAt h hvop] at hop
  obtain ⟨⟨r, t, sin'⟩, hsync, hret⟩ := bind_eq_ok.mp hop
  have huntouched := Sfs.untouched_of_fsync (mapError_eq_ok.mp hsync)
  cases hret
  exact ⟨sin', fileAt_setFile .., huntouched⟩

theorem spared_of_vopTryseek {q : Word} (h : v.fileAt n = some sin)
    (hq : q.slt 0 = true ∨ maxFileSize ≤ q.toNat ∨ q.toNat ≤ sin.din.size.toNat)
    (hop : v.vopTryseek n q = .ok (ret, v')) : v.Spared n sin v' := by
  obtain ⟨node, hvop, hop⟩ := bind_eq_ok.mp hop
  simp only [info_of_fileAt h hvop] at hop
  obtain ⟨⟨r, t, sin'⟩, hseek, hret⟩ := bind_eq_ok.mp hop
  have hseek := mapError_eq_ok.mp hseek
  have hsame : t = v.sfs ∧ sin' = sin := by
    unfold Sfs.tryseek at hseek
    split at hseek
    · cases hseek
      exact ⟨rfl, rfl⟩
    · next harg =>
      have hle : q.toNat ≤ sin.din.size.toNat :=
        (hq.resolve_left fun hneg => harg (.inl hneg)).resolve_left fun hmax => harg (.inr hmax)
      rw [if_neg (Nat.not_lt.mpr hle)] at hseek
      cases hseek
      exact ⟨rfl, rfl⟩
  obtain ⟨rfl, rfl⟩ := hsame
  cases hret
  exact ⟨_, fileAt_setFile .., (Sfs.Same.refl _).untouched _⟩

end Vfs

/-! ### Calls through the descriptor -/

inductive Call
  | read (fd : Int) (base : List (BitVec 8))
  | write (fd : Int) (base : List (BitVec 8))
  | seek (fd : Int) (pos : Word) (whence : Int)
  | fstat (fd : Int)
  | fsync (fd : Int)
  | dup (fd1 fd2 : Int)

namespace Call

/-- The descriptor a call goes through. -/
def fd : Call → Int
  | read fd _ => fd
  | write fd _ => fd
  | seek fd _ _ => fd
  | fstat fd => fd
  | fsync fd => fd
  | dup fd1 _ => fd1

/-- What a call makes of the files. -/
def exec (c : Files) : Call → Except VfsStop Files
  | read fd base => (c.fileRead fd base).map fun r => r.2.2.2
  | write fd base => (c.fileWrite fd base).map fun r => r.2.2.2
  | seek fd pos whence => (c.fileSeek fd pos whence).map fun r => r.2
  | fstat fd => (c.fileFstat fd).map fun r => r.2
  | fsync fd => (c.fileFsync fd).map fun r => r.2
  | dup fd1 fd2 => (c.fileDup fd1 fd2).map fun r => r.2

/-- A `file_seek` goes to a position in the file, or to one that is refused. -/
def Inside (c : Files) (f : FdIndex) (sin : SfsInode) : Call → Prop
  | seek _ pos whence => ∀ q, seekPos (c.fdArray f) sin pos whence = some q →
      q.slt 0 = true ∨ maxFileSize ≤ q.toNat ∨ q.toNat ≤ sin.din.size.toNat
  | _ => True

end Call

namespace Files

variable {c c' : Files} {f g : FdIndex} {n : NodeId} {sin : SfsInode} {fd : Int} {vfs : Vfs}
  {pos : Word}

/-- An entry that is open on an inode and not writable. -/
structure ReadOnly (c : Files) (n : NodeId) (f : FdIndex) : Prop where
  status : (c.fdArray f).status = .opened
  node : (c.fdArray f).node = some n
  writable : (c.fdArray f).writable = false
  count : 0 < (c.fdArray f).openCount

theorem ReadOnly.entry (h : c.ReadOnly n f) (hfd : fd2file c.fdArray fd = some f) : c.Entry fd f n :=
  ⟨hfd, h.node, h.count⟩

theorem ReadOnly.placed (h : c.ReadOnly n g) : (c.placed f vfs pos).ReadOnly n g := by
  by_cases hg : g = f
  · subst hg
    exact ⟨by simpa [placed] using h.status, by simpa [placed] using h.node,
      by simpa [placed] using h.writable, by simpa [placed] using h.count⟩
  · exact ⟨by simpa [Files.placed, hg] using h.status, by simpa [Files.placed, hg] using h.node,
      by simpa [Files.placed, hg] using h.writable, by simpa [Files.placed, hg] using h.count⟩

/-- What a call keeps: the file, the entries that are not writable, and those that it has opened are
not writable. -/
structure Keeps (c : Files) (n : NodeId) (sin : SfsInode) (c' : Files) : Prop where
  spared : c.vfs.Spared n sin c'.vfs
  entries : ∀ g, c.ReadOnly n g → c'.ReadOnly n g
  opened : ∀ g, (c.fdArray g).status = .none → (c'.fdArray g).status = .opened → c'.ReadOnly n g

theorem keeps_placed (hstatus : (c.fdArray f).status = .opened)
    (hspared : c.vfs.Spared n sin vfs) : c.Keeps n sin (c.placed f vfs pos) := by
  refine ⟨hspared, fun g hg => hg.placed, fun g hnone hopened => ?_⟩
  by_cases hg : g = f
  · subst hg
    rw [hstatus] at hnone
    cases hnone
  · simp only [placed, update_of_ne hg, hnone] at hopened
    cases hopened

theorem keeps_self (h : c.vfs.fileAt n = some sin) : c.Keeps n sin c := by
  refine ⟨.refl h, fun g hg => hg, fun g hnone hopened => ?_⟩
  rw [hnone] at hopened
  cases hopened

/-- A new entry is found that was free, or nothing is done. -/
theorem fdArrayAlloc_cases {t t' : FdArray} {r : Except Int FdIndex} (h : fdArrayAlloc t fd = .ok (r, t')) :
    (∃ e, r = .error e ∧ t' = t) ∨ ∃ f, r = .ok f ∧ (t f).status = .none ∧ (t f).openCount = 0 ∧
      t' = update t f { t f with status := .init, node := none } := by
  have hfound : ∀ f, (t f).status = .none → fdArrayFound t f = .ok (r, t') →
      ∃ f, r = .ok f ∧ (t f).status = .none ∧ (t f).openCount = 0 ∧
        t' = update t f { t f with status := .init, node := none } := fun f hf h => by
    unfold fdArrayFound at h
    split at h
    · cases h
    · next hcount =>
      cases h
      exact ⟨f, rfl, hf, not_not.mp hcount, rfl⟩
  unfold fdArrayAlloc at h
  split at h
  · split at h
    · next f hfind => exact .inr (hfound f (by simpa using List.find?_some hfind) h)
    · cases h
      exact .inl ⟨_, rfl, rfl⟩
  · split at h
    · next f htest =>
      split at h
      · next hf => exact .inr (hfound f hf h)
      · cases h
        exact .inl ⟨_, rfl, rfl⟩
    · cases h
      exact .inl ⟨_, rfl, rfl⟩

theorem fdArrayDup_eq {target source : File} (htarget : target.status = .init)
    (hsource : source.status = .opened) (hnode : source.node = some n) :
    fdArrayDup target source = .ok (n, { target with
      status := .opened
      pos := source.pos
      readable := source.readable
      writable := source.writable
      node := some n
      openCount := target.openCount + 1 }) := by
  unfold fdArrayDup fdArrayOpen
  rw [if_neg (not_not_intro ⟨htarget, hsource⟩), hnode]
  dsimp only
  rw [if_neg (not_not_intro ⟨htarget, rfl⟩)]
  rfl

theorem spared_of_opened {v v' : Vfs} (h : v.fileAt n = some sin) (hop : v.opened n = .ok v') :
    v.Spared n sin v' := by
  unfold Vfs.opened at hop
  unfold Vfs.fileAt at h
  split at hop
  · cases hop
  · next node hnode =>
    cases hop
    rw [hnode] at h
    obtain ⟨info, ref, opn⟩ := node
    cases info with
    | file sin' =>
      obtain rfl := Option.some.inj h
      refine ⟨sin', ?_, (Sfs.Same.refl _).untouched _⟩
      simp only [Vfs.fileAt, Vfs.set, update_self]
    | dir sin' => cases h
    | device dev => cases h

/-- A duplicate of an entry that is not writable is not writable. -/
theorem keeps_of_fileDup {fd1 fd2 : Int} (h : c.ReadOnly n f) (hfd : fd2file c.fdArray fd1 = some f)
    (hfile : c.vfs.fileAt n = some sin) (hdup : c.fileDup fd1 fd2 = .ok (ret, c')) : c.Keeps n sin c' := by
  unfold fileDup at hdup
  rw [hfd] at hdup
  obtain ⟨⟨r, t⟩, halloc, hdup⟩ := bind_eq_ok.mp hdup
  rcases fdArrayAlloc_cases (mapError_eq_ok.mp halloc) with ⟨e, rfl, rfl⟩ | ⟨f2, rfl, hnone, hcount, rfl⟩
  · cases hdup
    exact keeps_self hfile
  · have hne : f ≠ f2 := by
      rintro rfl
      rw [h.status] at hnone
      cases hnone
    obtain ⟨⟨n', e⟩, hcopy, hdup⟩ := bind_eq_ok.mp hdup
    rw [update_self, update_of_ne hne, fdArrayDup_eq rfl h.status h.node] at hcopy
    cases mapError_eq_ok.mp hcopy
    obtain ⟨vfs, hopened, hret⟩ := bind_eq_ok.mp hdup
    cases hret
    refine ⟨spared_of_opened hfile hopened, fun g hg => ?_, fun g hg hnew => ?_⟩
    · have hg2 : g ≠ f2 := by
        rintro rfl
        rw [hg.status] at hnone
        cases hnone
      exact ⟨by simpa [hg2] using hg.status, by simpa [hg2] using hg.node, by simpa [hg2] using hg.writable,
        by simpa [hg2] using hg.count⟩
    · by_cases hg2 : g = f2
      · subst hg2
        exact ⟨by simp, by simp, by simpa using h.writable, by simp [hcount]⟩
      · simp only [update_of_ne hg2, hg] at hnew
        cases hnew

/-- The position that `file_seek` tries. -/
theorem Entry.seekPos_eq {whence : Int} {target : Option Word} (h : c.Entry fd f n)
    (hfile : c.vfs.fileAt n = some sin) (htarget : c.seekTarget f pos whence = .ok target) :
    seekPos (c.fdArray f) sin pos whence = target := by
  unfold seekTarget at htarget
  unfold seekPos
  split at htarget
  · next hset =>
    rw [if_pos hset]
    exact Except.ok.inj htarget
  next hset =>
  rw [if_neg hset]
  split at htarget
  · next hcur =>
    rw [if_pos hcur]
    exact Except.ok.inj htarget
  next hcur =>
  rw [if_neg hcur]
  split at htarget
  · next hend =>
    rw [if_pos hend]
    obtain ⟨n', hn', htarget⟩ := bind_eq_ok.mp htarget
    rw [node, h.node_eq] at hn'
    cases hn'
    obtain ⟨stat, hstat, htarget⟩ := bind_eq_ok.mp htarget
    obtain ⟨node, hvop, hstat⟩ := bind_eq_ok.mp hstat
    rw [Vfs.info_of_fileAt hfile hvop] at hstat
    obtain ⟨type, -, hret⟩ := bind_eq_ok.mp hstat
    cases hret
    exact Except.ok.inj htarget
  · next hend =>
    rw [if_neg hend]
    exact Except.ok.inj htarget

end Files

/-- One call through an entry that is not writable. -/
theorem Call.keeps {call : Call} {c c' : Files} {f : FdIndex} {n : NodeId} {sin : SfsInode}
    (h : c.ReadOnly n f) (hfd : fd2file c.fdArray call.fd = some f) (hfile : c.vfs.fileAt n = some sin)
    (hsize : sin.din.size.toNat ≤ sin.din.blocks.toNat * blkSize) (hinside : call.Inside c f sin)
    (hexec : call.exec c = .ok c') : c.Keeps n sin c' := by
  have hentry : c.Entry call.fd f n := h.entry hfd
  cases call with
  | read fd base =>
    obtain ⟨⟨ret, copied, bytes, c''⟩, hcall, rfl⟩ := map_eq_ok.mp hexec
    cases hmode : (c.fdArray f).readable with
    | false =>
      cases (hentry.fileIo_mode (show (if false then _ else _) = false from hmode)).symm.trans hcall
      exact keeps_self hfile
    | true =>
      obtain ⟨⟨ret', iob, vfs⟩, hop, hret⟩ :=
        map_eq_ok.mp ((hentry.fileIo_eq (show (if false then _ else _) = true from hmode)).symm.trans hcall)
      cases hret
      exact keeps_placed h.status (Vfs.spared_of_vopIo hfile hsize hop)
  | write fd base =>
    obtain ⟨⟨ret, copied, bytes, c''⟩, hcall, rfl⟩ := map_eq_ok.mp hexec
    cases (hentry.fileIo_mode (show (if true then _ else _) = false from h.writable)).symm.trans hcall
    exact keeps_self hfile
  | seek fd pos whence =>
    obtain ⟨⟨ret, c''⟩, hcall, rfl⟩ := map_eq_ok.mp hexec
    obtain ⟨target, htarget, hcall⟩ := bind_eq_ok.mp (hentry.fileSeek_eq.symm.trans hcall)
    have hseek := hentry.seekPos_eq hfile htarget
    cases target with
    | none =>
      cases hcall
      exact keeps_self hfile
    | some q =>
      obtain ⟨⟨ret', vfs⟩, hop, hret⟩ := bind_eq_ok.mp hcall
      cases hret
      exact keeps_placed h.status (Vfs.spared_of_vopTryseek hfile (hinside q hseek) hop)
  | fstat fd =>
    obtain ⟨⟨ret, c''⟩, hcall, rfl⟩ := map_eq_ok.mp hexec
    obtain ⟨stat, -, hret⟩ := map_eq_ok.mp (hentry.fileFstat_eq.symm.trans hcall)
    cases hret
    exact keeps_self hfile
  | fsync fd =>
    obtain ⟨⟨ret, c''⟩, hcall, rfl⟩ := map_eq_ok.mp hexec
    obtain ⟨⟨ret', vfs⟩, hop, hret⟩ := map_eq_ok.mp (hentry.fileFsync_eq.symm.trans hcall)
    cases hret
    rw [← placed_self c f]
    exact keeps_placed h.status (Vfs.spared_of_vopFsync hfile hop)
  | dup fd1 fd2 =>
    obtain ⟨⟨ret, c''⟩, hcall, rfl⟩ := map_eq_ok.mp hexec
    exact keeps_of_fileDup h hfd hfile hcall

/-! ### Any sequence of calls -/

/-- The files after some calls through the entry `f₀`, and through the entries that such calls have
opened, which are the duplicates of `f₀`; no `file_seek` goes behind the end of the file. -/
inductive ReadOnlyRun (n : NodeId) (c₀ : Files) (f₀ : FdIndex) : Files → (FdIndex → Prop) → Prop
  | start : ReadOnlyRun n c₀ f₀ c₀ (· = f₀)
  | call {c c' : Files} {dups : FdIndex → Prop} {f : FdIndex} (call : Call) :
      ReadOnlyRun n c₀ f₀ c dups → fd2file c.fdArray call.fd = some f → dups f →
      (∀ sin, c.vfs.fileAt n = some sin → call.Inside c f sin) → call.exec c = .ok c' →
      ReadOnlyRun n c₀ f₀ c' fun g =>
        dups g ∨ (c.fdArray g).status = .none ∧ (c'.fdArray g).status = .opened

variable {n : NodeId} {c₀ c : Files} {f₀ : FdIndex} {dups : FdIndex → Prop} {sin : SfsInode}

theorem ReadOnlyRun.spared (h₀ : c₀.ReadOnly n f₀) (hfile : c₀.vfs.fileAt n = some sin)
    (hsize : sin.din.size.toNat ≤ sin.din.blocks.toNat * blkSize) (hrun : ReadOnlyRun n c₀ f₀ c dups) :
    c₀.vfs.Spared n sin c.vfs ∧ ∀ f, dups f → c.ReadOnly n f := by
  induction hrun with
  | start =>
    refine ⟨.refl hfile, fun f hf => ?_⟩
    subst hf
    exact h₀
  | call call _ hfd hdup hinside hexec ih =>
    obtain ⟨⟨sin', hfile', huntouched⟩, hdups⟩ := ih
    have hkeeps := call.keeps (hdups _ hdup) hfd hfile' (by rw [huntouched.din]; exact hsize)
      (hinside sin' hfile') hexec
    obtain ⟨sin'', hfile'', huntouched'⟩ := hkeeps.spared
    refine ⟨⟨sin'', hfile'', huntouched.trans huntouched'⟩, fun g hg => ?_⟩
    rcases hg with hg | ⟨hnone, hopened⟩
    · exact hkeeps.entries g (hdups g hg)
    · exact hkeeps.opened g hnone hopened

/-- A file of 8000 bytes in two blocks, and a descriptor for it that is not writable. -/
def shortFile : SfsInode := { Sfs.scatteredFile with din := { Sfs.scatteredFile.din with size := 8000 } }

def readOnlyFiles : Files where
  vfs := ⟨Sfs.scattered, fun n => if n = 1 then some ⟨.file shortFile, 1, 1⟩ else none, [], []⟩
  fdArray f := if f = 0 then ⟨.opened, true, false, 0, 0, some 1, 1⟩ else ⟨.none, false, false, f, 0, none, 0⟩

theorem readOnlyFiles_readOnly : readOnlyFiles.ReadOnly 1 0 := ⟨rfl, rfl, rfl, by decide⟩

theorem shortFile_filed : Sfs.Filed readOnlyFiles.vfs.sfs shortFile :=
  Sfs.scattered_filed.congr Sfs.scattered_sound rfl rfl rfl rfl

theorem readOnlyFiles_openOn : readOnlyFiles.OpenOn 0 0 1 shortFile :=
  ⟨⟨by decide, rfl, by decide⟩, _, rfl, rfl, rfl⟩

end UcoreMips.Kernel
