import UcoreMips.Kernel.Fs.FileWrite
import UcoreMips.Kernel.Fs.Vop

/-!
# UcoreMips.Kernel.Fs.FileCalls

**The calls on open files** (`kern/fs/file.c`), of a process that runs alone: an entry of the table is
taken into use, an operation of its inode is called, the position of the entry follows the transfer,
and the entry is given back.

For an entry that is open on a file of the volume, a call is an operation of the volume and a new
position (`Files.moved`); the other entries and the other inodes have no part in it.
-/

namespace UcoreMips.Kernel

open UcoreMips.Lib Nat
open Emulator (Word)
open Function (update update_self update_eq_self update_idem)

/-- `fd_array` of a process, and the file system. -/
structure Files where
  vfs : Vfs
  fdArray : FdArray

namespace Files

def set (c : Files) (f : FdIndex) (e : File) : Files := { c with fdArray := update c.fdArray f e }

/-- The end of `fd_array_release` and of `fd_array_close`, where the last use closes the inode. -/
def closed (c : Files) (f : FdIndex) : Option NodeId × File → Except VfsStop Files
  | (none, e) => .ok (c.set f e)
  | (some n, e) => do
    let vfs ← c.vfs.vfsClose n
    return { c.set f (fdArrayFreed e) with vfs := vfs }

/-- `fd_array_acquire`. -/
def acquire (c : Files) (f : FdIndex) : Except VfsStop Files := do
  return c.set f (← (fdArrayAcquire (c.fdArray f)).mapError .files)

/-- `fd_array_release`. -/
def release (c : Files) (f : FdIndex) : Except VfsStop Files := do
  c.closed f (← (fdArrayRelease (c.fdArray f)).mapError .files)

/-- `file->node`, for an operation. -/
def node (c : Files) (f : FdIndex) : Except VfsStop NodeId :=
  match (c.fdArray f).node with
  | none => .error (.files .nullNode)
  | some n => .ok n

/-- `file_testfd`. -/
def fileTestfd (c : Files) (fd : Int) (readable writable : Bool) : Bool :=
  match fd2file c.fdArray fd with
  | none => false
  | some f =>
    if readable ∧ (c.fdArray f).readable = false then false
    else if writable ∧ (c.fdArray f).writable = false then false
    else true

/-- `file_read` and `file_write`: the code, how many bytes were transferred, and the buffer. -/
def fileIo (c : Files) (write : Bool) (fd : Int) (base : List (BitVec 8)) :
    Except VfsStop (Int × Nat × List (BitVec 8) × Files) :=
  match fd2file c.fdArray fd with
  | none => .ok (-eInval, 0, base, c)
  | some f =>
    if (if write then (c.fdArray f).writable else (c.fdArray f).readable) = false then
      .ok (-eInval, 0, base, c)
    else do
      let c ← c.acquire f
      let (ret, iob, vfs) ← c.vfs.vopIo (← c.node f) (.init base (c.fdArray f).pos) write
      let c := { c with vfs := vfs }
      let e := c.fdArray f
      let e := if e.status = .opened then { e with pos := e.pos + BitVec.ofNat 32 iob.used } else e
      let c ← (c.set f e).release f
      return (ret, iob.used, iob.bytes, c)

/-- `file_read`. -/
def fileRead (c : Files) : Int → List (BitVec 8) → Except VfsStop (Int × Nat × List (BitVec 8) × Files) :=
  c.fileIo false

/-- `file_write`. -/
def fileWrite (c : Files) : Int → List (BitVec 8) → Except VfsStop (Int × Nat × List (BitVec 8) × Files) :=
  c.fileIo true

/-- Where `file_seek` is to go; there is no place for another `whence`. -/
def seekTarget (c : Files) (f : FdIndex) (pos : Word) (whence : Int) : Except VfsStop (Option Word) :=
  if whence = lseekSet then .ok (some pos)
  else if whence = lseekCur then .ok (some (pos + (c.fdArray f).pos))
  else if whence = lseekEnd then do
    let stat ← c.vfs.vopFstat (← c.node f)
    return some (pos + stat.size)
  else .ok none

/-- `file_seek`. -/
def fileSeek (c : Files) (fd : Int) (pos : Word) (whence : Int) : Except VfsStop (Int × Files) :=
  match fd2file c.fdArray fd with
  | none => .ok (-eInval, c)
  | some f => do
    let c ← c.acquire f
    match ← c.seekTarget f pos whence with
    | none => return (-eInval, ← c.release f)
    | some pos =>
      let (ret, vfs) ← c.vfs.vopTryseek (← c.node f) pos
      let c := { c with vfs := vfs }
      let c := if ret = 0 then c.set f { c.fdArray f with pos := pos } else c
      return (ret, ← c.release f)

/-- `file_fstat`. -/
def fileFstat (c : Files) (fd : Int) : Except VfsStop (Except Int Stat × Files) :=
  match fd2file c.fdArray fd with
  | none => .ok (.error (-eInval), c)
  | some f => do
    let c ← c.acquire f
    let stat ← c.vfs.vopFstat (← c.node f)
    return (.ok stat, ← c.release f)

/-- `file_fsync`. -/
def fileFsync (c : Files) (fd : Int) : Except VfsStop (Int × Files) :=
  match fd2file c.fdArray fd with
  | none => .ok (-eInval, c)
  | some f => do
    let c ← c.acquire f
    let (ret, vfs) ← c.vfs.vopFsync (← c.node f)
    return (ret, ← { c with vfs := vfs }.release f)

/-- `file_dup`. -/
def fileDup (c : Files) (fd1 fd2 : Int) : Except VfsStop (Int × Files) :=
  match fd2file c.fdArray fd1 with
  | none => .ok (-eInval, c)
  | some f1 => do
    match ← (fdArrayAlloc c.fdArray fd2).mapError .files with
    | (.error e, t) => return (e, { c with fdArray := t })
    | (.ok f2, t) =>
      let (n, e) ← (fdArrayDup (t f2) (t f1)).mapError .files
      let vfs ← c.vfs.opened n
      return (e.fd, ⟨vfs, update t f2 e⟩)

end Files

/-! ### Transfers of at most a block -/

@[simp] theorem Iobuf.rest_init (bytes : List (BitVec 8)) (offset : Word) :
    (Iobuf.init bytes offset).rest = bytes := by
  simp [Iobuf.rest, Iobuf.init]

namespace Sfs

variable {s : Sfs} {sin : SfsInode} {pos : Word} {base : List (BitVec 8)} {write : Bool}

/-- What `sfs_io` leaves of a buffer. -/
theorem sfsIo_eq {alen : Nat} {x : Transfer} (halen : alen ≤ base.length)
    (hio : s.ioNolock sin write base pos (BitVec.ofNat 32 base.length) = .ok (.ok alen, x)) :
    ∃ iob, s.sfsIo sin (.init base pos) write = .ok (0, iob, x.sfs, x.sin) ∧ iob.used = alen ∧
      iob.bytes = putAt base 0 x.buf := by
  have hinit : s.ioNolock sin write (Iobuf.init base pos).rest (Iobuf.init base pos).offset
      (BitVec.ofNat 32 (Iobuf.init base pos).resid) = .ok (.ok alen, x) := by
    rw [Iobuf.rest_init]
    exact hio
  simp only [sfsIo, hinit, Except.mapError, ok_bind]
  by_cases hzero : alen = 0
  · subst hzero
    exact ⟨_, rfl, Nat.sub_self _, rfl⟩
  · have hskip : ((Iobuf.init base pos).store x.buf).skip alen = .ok ⟨putAt base 0 x.buf, alen,
        pos + BitVec.ofNat 32 alen, base.length, base.length - alen⟩ := by
      simp only [Iobuf.skip, Iobuf.store, Iobuf.init, not_lt.mpr halen, if_false, zero_add]
    rw [if_pos hzero, hskip]
    exact ⟨_, rfl, Nat.sub_sub_self halen, rfl⟩

section Nolock

variable (hm : Mapped s sin) (hr : s.Reliable) (htype : sin.din.type = typeFile)
  (hsize : sin.din.size.toNat ≤ sin.din.blocks.toNat * blkSize)

include hm hr htype hsize

/-- Reading at most a block gives the bytes of the file, wherever its blocks are. -/
theorem ioNolock_read_block {len : Word} (hlen : len.toNat ≤ blkSize) (hpos : pos.toNat ≤ sin.din.size.toNat) (buf : List (BitVec 8)) :
    ∃ x, s.ioNolock sin false buf pos len = .ok (.ok (min len.toNat (sin.din.size.toNat - pos.toNat)), x) ∧
      Same s x.sfs ∧ x.sin = sin ∧
      x.buf = ((s.content sin).drop pos.toNat).take len.toNat ++
        buf.drop (min len.toNat (sin.din.size.toNat - pos.toNat)) := by
  have hfew : sin.din.blocks.toNat ≤ 1036 := hm.few
  have hsize' : sin.din.size.toNat ≤ sin.din.blocks.toNat * 4096 := hsize
  have hlen' : len.toNat ≤ 4096 := hlen
  have hmax : pos.toNat < maxFileSize := by
    show _ < 134217728
    omega
  rw [drop_take_content hsize]
  by_cases hsome : 0 < min len.toNat (sin.din.size.toNat - pos.toNat)
  · obtain ⟨endpos, hendpos⟩ : ∃ endpos, endpos = min (pos.toNat + len.toNat) sin.din.size.toNat := ⟨_, rfl⟩
    have hcount : min len.toNat (sin.din.size.toNat - pos.toNat) = endpos - pos.toNat := by omega
    have hlt : pos.toNat < endpos := by omega
    have hone : wholeBlocks pos.toNat endpos ≤ 1 := wholeBlocks_le_one (show endpos ≤ pos.toNat + 4096 by omega)
    -- the block that is looked up is the only one
    have hfirst : ∀ k < wholeBlocks pos.toNat endpos, k = 0 ∧
        s.Valid (s.mapped sin (firstWhole pos.toNat)) := fun k hk => by
      have hk' : 0 < endpos / 4096 - firstWhole pos.toNat := (zero_le k).trans_lt hk
      exact ⟨by omega, (hm.mapped (firstWhole pos.toNat) (by omega)).1⟩
    have hvalid : ∀ k < wholeBlocks pos.toNat endpos, s.Valid (s.runBlock sin pos.toNat k) := fun k hk => by
      obtain ⟨rfl, hvalid⟩ := hfirst k hk
      rwa [runBlock_zero]
    obtain ⟨x, hrun, hsame, hsin, hbuf⟩ := ioNolock_read hm hr htype hsize hmax (by omega) hendpos hlt buf hvalid
    have hbytes := (@span_readByte_iff s sin pos.toNat endpos hlt).mpr fun k hk => by
      obtain ⟨rfl, -⟩ := hfirst k hk
      rw [runBlock_zero, add_zero]
    exact ⟨x, hcount ▸ hrun, hsame, hsin, by rw [hcount, hbuf, hbytes]⟩
  · have hzero : min len.toNat (sin.din.size.toNat - pos.toNat) = 0 := by omega
    have hnone : len = 0 ∨ false = false ∧ sin.din.size.toNat ≤ pos.toNat := by
      by_cases hlen0 : len.toNat = 0
      · exact .inl (BitVec.eq_of_toNat_eq hlen0)
      · exact .inr ⟨rfl, by omega⟩
    refine ⟨⟨s, sin, buf, 0⟩, ?_, Same.refl s, rfl, ?_⟩
    · rw [ioNolock_eq htype hmax (by omega), if_pos hnone, hzero]
    · rw [hzero]
      rfl

/-- Reading a file through a buffer. -/
theorem sfsIo_read (hlen : base.length ≤ blkSize) (hpos : pos.toNat ≤ sin.din.size.toNat) :
    ∃ t iob, s.sfsIo sin (.init base pos) false = .ok (0, iob, t, sin) ∧ Same s t ∧
      iob.used = min base.length (sin.din.size.toNat - pos.toNat) ∧
      iob.bytes = ((s.content sin).drop pos.toNat).take base.length ++ base.drop iob.used := by
  have hlen' : base.length ≤ 4096 := hlen
  have htoNat : (BitVec.ofNat 32 base.length).toNat = base.length := by
    rw [BitVec.toNat_ofNat, mod_eq_of_lt (by omega)]
  obtain ⟨x, hio, hsame, hsin, hbuf⟩ := ioNolock_read_block hm hr htype hsize (htoNat.symm ▸ hlen) hpos base
  rw [htoNat] at hio hbuf
  obtain ⟨iob, hrun, hused, hbytes⟩ := sfsIo_eq (min_le_left ..) hio
  refine ⟨x.sfs, iob, hsin ▸ hrun, hsame, hused, ?_⟩
  have hcount : (((s.content sin).drop pos.toNat).take base.length).length =
      min base.length (sin.din.size.toNat - pos.toNat) := by
    rw [drop_take_content hsize, length_span]
  have hall : base.length ≤ 0 + x.buf.length := by
    rw [hbuf, List.length_append, hcount, List.length_drop]
    omega
  rw [hbytes, putAt, List.drop_eq_nil_of_le hall, List.take_zero, List.nil_append, List.append_nil, hbuf, hused]

end Nolock

/-- Writing a file through a buffer. -/
theorem sfsIo_write (hf : Filed s sin) (hr : s.Reliable) (htype : sin.din.type = typeFile)
    (hblocks : sin.din.blocks.toNat = blocksFor sin.din.size.toNat)
    (hpos : pos.toNat ≤ sin.din.size.toNat) (hlen : base.length ≤ blkSize)
    (hmax : pos.toNat + base.length ≤ (nDirect + blkNentry) * blkSize)
    (hroom : sin.needed (blocksFor (pos.toNat + base.length)) ≤ s.freemap.bits.card) :
    ∃ t sin' iob, s.sfsIo sin (.init base pos) true = .ok (0, iob, t, sin') ∧
      iob.used = base.length ∧ Written s sin pos.toNat base t sin' := by
  have hlen' : base.length ≤ 4096 := hlen
  have htoNat : (BitVec.ofNat 32 base.length).toNat = base.length := by
    rw [BitVec.toNat_ofNat, mod_eq_of_lt (by omega)]
  have hone : wholeBlocks pos.toNat (pos.toNat + base.length) ≤ 1 :=
    wholeBlocks_le_one (Nat.add_le_add_left hlen _)
  have hwrite := @ioNolock_write s sin base pos (BitVec.ofNat 32 base.length) hf hr htype hblocks hpos
  rw [htoNat] at hwrite
  obtain ⟨x, hio, hwritten⟩ := hwrite hmax hroom rfl (.inl hone)
  obtain ⟨iob, hrun, hused, -⟩ := sfsIo_eq le_rfl hio
  exact ⟨x.sfs, x.sin, iob, hrun, hused, hwritten⟩

end Sfs

namespace Files

/-! ### An entry that is open -/

/-- The descriptor is open on an inode. -/
structure Entry (c : Files) (fd : Int) (f : FdIndex) (n : NodeId) : Prop where
  found : fd2file c.fdArray fd = some f
  node_eq : (c.fdArray f).node = some n
  count : 0 < (c.fdArray f).openCount

/-- An operation was called, and the entry has a new position. -/
def placed (c : Files) (f : FdIndex) (vfs : Vfs) (pos : Word) : Files :=
  ⟨vfs, update c.fdArray f { c.fdArray f with pos := pos }⟩

variable {c : Files} {fd : Int} {f : FdIndex} {n : NodeId} {s t : Sfs} {sin sin' : SfsInode}
  {pos : Word} {vfs : Vfs}

theorem Entry.status (h : c.Entry fd f n) : (c.fdArray f).status = .opened := (fd2file_eq_some h.found).1

theorem Entry.placed (h : c.Entry fd f n) : (c.placed f vfs pos).Entry fd f n := by
  refine ⟨?_, ?_, ?_⟩
  · obtain ⟨htest, hfilter⟩ := Option.filter_eq_some_iff.mp h.found
    refine Option.filter_eq_some_iff.mpr ⟨htest, ?_⟩
    simpa [Files.placed] using hfilter
  · simpa [Files.placed] using h.node_eq
  · simpa [Files.placed] using h.count

theorem placed_self (c : Files) (f : FdIndex) (vfs : Vfs) : c.placed f vfs (c.fdArray f).pos = { c with vfs := vfs } := by
  rw [placed, update_eq_self]

theorem acquire_eq (hstatus : (c.fdArray f).status = .opened) :
    c.acquire f = .ok (c.set f { c.fdArray f with openCount := (c.fdArray f).openCount + 1 }) := by
  rw [acquire, fdArrayAcquire, if_neg (not_not_intro hstatus)]
  rfl

/-- The entry is in use besides the call. -/
theorem release_eq {fdArray : FdArray} {e : File} (hstatus : e.status = .opened)
    (hcount : 1 < e.openCount) : (⟨vfs, update fdArray f e⟩ : Files).release f =
      .ok ⟨vfs, update fdArray f { e with openCount := e.openCount - 1 }⟩ := by
  simp only [release, update_self, fdArrayRelease_eq (.inl hstatus) (Int.lt_trans Int.zero_lt_one hcount),
    fopenCountDecFree_eq (Int.ne_of_gt hcount)]
  simp only [Except.mapError, ok_bind, closed, set, update_idem]

variable {base : List (BitVec 8)} {whence : Int} {q : Word}

section Entry

variable (h : c.Entry fd f n)

include h

/-- The end of a call that has given the entry a new position. -/
theorem Entry.released (vfs : Vfs) (pos : Word) :
    (⟨vfs, update c.fdArray f
      { c.fdArray f with pos := pos, openCount := (c.fdArray f).openCount + 1 }⟩ : Files).release f =
      .ok (c.placed f vfs pos) := by
  have hcount := h.count
  rw [release_eq]
  · simp only [Int.add_sub_cancel]
    rfl
  · exact h.status
  · show 1 < (c.fdArray f).openCount + 1
    omega

theorem Entry.acquired_node :
    (c.set f { c.fdArray f with openCount := (c.fdArray f).openCount + 1 }).node f = .ok n := by
  simp only [Files.node, set, update_self, h.node_eq]

/-- A transfer through an entry is one of its inode. -/
theorem Entry.fileIo_eq (hmode : (if write then (c.fdArray f).writable else (c.fdArray f).readable) = true) :
    c.fileIo write fd base = (c.vfs.vopIo n (.init base (c.fdArray f).pos) write).map fun (ret, iob, vfs) =>
      (ret, iob.used, iob.bytes, c.placed f vfs ((c.fdArray f).pos + BitVec.ofNat 32 iob.used)) := by
  unfold Files.fileIo
  rw [h.found]
  simp only [hmode, Bool.true_eq_false, if_false, acquire_eq h.status, bind, Except.bind, h.acquired_node]
  simp only [set, update_self]
  cases c.vfs.vopIo n (.init base (c.fdArray f).pos) write with
  | error e => rfl
  | ok r =>
    simp only [if_pos h.status, update_idem]
    rw [h.released]
    rfl

theorem Entry.fileIo_mode (hmode : (if write then (c.fdArray f).writable else (c.fdArray f).readable) = false) :
    c.fileIo write fd base = .ok (-eInval, 0, base, c) := by
  unfold Files.fileIo
  rw [h.found]
  exact if_pos hmode

theorem Entry.seekTarget_eq (whence : Int) :
    (c.set f { c.fdArray f with openCount := (c.fdArray f).openCount + 1 }).seekTarget f pos whence =
      c.seekTarget f pos whence := by
  unfold seekTarget
  simp only [set, update_self, Files.node, h.node_eq]

/-- `file_seek` is `vop_tryseek`, and a new position if that succeeds. -/
theorem Entry.fileSeek_eq : c.fileSeek fd pos whence = (do
      match ← c.seekTarget f pos whence with
      | none => return (-eInval, c)
      | some q =>
        let (ret, vfs) ← c.vfs.vopTryseek n q
        return (ret, c.placed f vfs (if ret = 0 then q else (c.fdArray f).pos))) := by
  unfold Files.fileSeek
  rw [h.found]
  simp only [acquire_eq h.status, bind, Except.bind, h.seekTarget_eq, h.acquired_node]
  cases c.seekTarget f pos whence with
  | error e => rfl
  | ok target =>
    cases target with
    | none =>
      simp only [set]
      rw [h.released c.vfs (c.fdArray f).pos, placed_self]
    | some q =>
      simp only [set]
      cases c.vfs.vopTryseek n q with
      | error e => rfl
      | ok r =>
        by_cases hret : r.1 = 0
        · simp only [if_pos hret, update_self, update_idem]
          rw [h.released]
        · simp only [if_neg hret]
          rw [h.released]

theorem Entry.fileFstat_eq : c.fileFstat fd = (c.vfs.vopFstat n).map fun stat => (.ok stat, c) := by
  unfold Files.fileFstat
  rw [h.found]
  simp only [acquire_eq h.status, bind, Except.bind, h.acquired_node]
  simp only [set]
  cases c.vfs.vopFstat n with
  | error e => rfl
  | ok stat =>
    simp only
    rw [h.released c.vfs (c.fdArray f).pos, placed_self]
    rfl

theorem Entry.fileFsync_eq :
    c.fileFsync fd = (c.vfs.vopFsync n).map fun (ret, vfs) => (ret, { c with vfs := vfs }) := by
  unfold Files.fileFsync
  rw [h.found]
  simp only [acquire_eq h.status, bind, Except.bind, h.acquired_node]
  simp only [set]
  cases c.vfs.vopFsync n with
  | error e => rfl
  | ok r =>
    simp only
    rw [h.released r.2 (c.fdArray f).pos, placed_self]
    rfl

end Entry

/-! ### An entry that is open on a file -/

/-- The descriptor is open on a file of the volume. -/
structure OpenOn (c : Files) (fd : Int) (f : FdIndex) (n : NodeId) (sin : SfsInode) : Prop extends
    c.Entry fd f n where
  inode : ∃ node, c.vfs.inode n = some node ∧ node.check = true ∧ node.info = .file sin

/-- A file of the volume has been worked on, and the entry has a new position. -/
def moved (c : Files) (f : FdIndex) (n : NodeId) (sfs : Sfs) (sin : SfsInode) (pos : Word) : Files :=
  c.placed f { c.vfs with
    sfs := sfs
    inode := update c.vfs.inode n ((c.vfs.inode n).map fun node => { node with info := .file sin }) } pos

theorem moved_moved : (c.moved f n s sin pos).moved f n t sin' q = c.moved f n t sin' q := by
  simp only [moved, placed, update_idem, update_self, Option.map_map]
  rfl

/-- Nothing has been done. -/
theorem OpenOn.moved_self (h : c.OpenOn fd f n sin) : c.moved f n c.vfs.sfs sin (c.fdArray f).pos = c := by
  obtain ⟨node, hnode, -, hinfo⟩ := h.inode
  have hmap : ((c.vfs.inode n).map fun node => { node with info := .file sin }) = c.vfs.inode n := by
    rw [hnode, Option.map_some, ← hinfo]
  rw [moved, hmap, update_eq_self, placed_self]

theorem OpenOn.moved (h : c.OpenOn fd f n sin) : (c.moved f n t sin' pos).OpenOn fd f n sin' := by
  obtain ⟨node, hnode, hcheck, -⟩ := h.inode
  refine ⟨h.toEntry.placed, { node with info := .file sin' }, ?_, hcheck, rfl⟩
  simp [Files.moved, Files.placed, hnode]

theorem OpenOn.vop (h : c.OpenOn fd f n sin) : ∃ node, c.vfs.vop n = .ok node ∧ node.info = .file sin ∧
    ∀ t sin' pos, c.placed f (c.vfs.setFile n node t sin') pos = c.moved f n t sin' pos := by
  obtain ⟨node, hnode, hcheck, hinfo⟩ := h.inode
  refine ⟨node, ?_, hinfo, fun t sin' pos => ?_⟩
  · rw [Vfs.vop, hnode]
    exact if_pos hcheck
  · simp only [Vfs.setFile, Vfs.set, Files.moved, hnode, Option.map_some]

/-- A transfer through the entry is a transfer of the volume. -/
theorem OpenOn.fileIo_eq {ret : Int} {iob : Iobuf} (h : c.OpenOn fd f n sin)
    (hmode : (if write then (c.fdArray f).writable else (c.fdArray f).readable) = true)
    (hio : c.vfs.sfs.sfsIo sin (.init base (c.fdArray f).pos) write = .ok (ret, iob, t, sin')) :
    c.fileIo write fd base = .ok (ret, iob.used, iob.bytes,
      c.moved f n t sin' ((c.fdArray f).pos + BitVec.ofNat 32 iob.used)) := by
  obtain ⟨node, hvop, hinfo, hset⟩ := h.vop
  have hvopIo : c.vfs.vopIo n (.init base (c.fdArray f).pos) write =
      .ok (ret, iob, c.vfs.setFile n node t sin') := by
    simp only [Vfs.vopIo, hvop, ok_bind, hinfo, hio]
    rfl
  rw [h.toEntry.fileIo_eq hmode, hvopIo, ← hset]
  rfl

/-- Where `file_seek` goes in a file. -/
def seekPos (e : File) (sin : SfsInode) (pos : Word) (whence : Int) : Option Word :=
  if whence = lseekSet then some pos
  else if whence = lseekCur then some (pos + e.pos)
  else if whence = lseekEnd then some (pos + sin.din.size)
  else none

theorem OpenOn.seekTarget_eq (h : c.OpenOn fd f n sin) (htype : sin.din.type = typeFile) (whence : Int) :
    c.seekTarget f pos whence = .ok (seekPos (c.fdArray f) sin pos whence) := by
  obtain ⟨node, hvop, hinfo, -⟩ := h.vop
  have hstat : c.vfs.vopFstat n = .ok ⟨sIfreg, sin.din.nlinks.setWidth 32, sin.din.blocks, sin.din.size⟩ := by
    simp only [Vfs.vopFstat, hvop, ok_bind, hinfo, sfsFstat, sfsGettype, htype]
    rfl
  unfold seekTarget seekPos
  simp only [Files.node, h.node_eq, ok_bind, hstat]
  split
  · rfl
  · split
    · rfl
    · split <;> rfl

/-- `file_seek` in a file is `sfs_tryseek`, and a new position if that succeeds. -/
theorem OpenOn.fileSeek_eq {r : Except Err Unit} (h : c.OpenOn fd f n sin)
    (htype : sin.din.type = typeFile) (htarget : seekPos (c.fdArray f) sin pos whence = some q)
    (hseek : c.vfs.sfs.tryseek sin q = .ok (r, t, sin')) :
    c.fileSeek fd pos whence = .ok (retCode r,
      c.moved f n t sin' (if retCode r = 0 then q else (c.fdArray f).pos)) := by
  obtain ⟨node, hvop, hinfo, hset⟩ := h.vop
  have htry : c.vfs.vopTryseek n q = .ok (retCode r, c.vfs.setFile n node t sin') := by
    simp only [Vfs.vopTryseek, hvop, ok_bind, hinfo, hseek, Except.mapError]
    rfl
  rw [h.toEntry.fileSeek_eq, h.seekTarget_eq htype, htarget, ← hset]
  simp only [ok_bind, htry]
  rfl

end Files

end UcoreMips.Kernel
