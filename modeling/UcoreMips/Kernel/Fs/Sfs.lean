import UcoreMips.Kernel.Fs.Bitmap
import UcoreMips.Lib.Buffer

/-!
# UcoreMips.Kernel.Fs.Sfs

The **simple file system** of the kernel: blocks on the disk (`sfs_io.c`), the block maps of
the inodes, files and directories (`sfs_inode.c`).

* A call that returns a code is a pair of the code, or the value it stores where it returns 0,
  and the new state. A failed assertion or a panic is a `Stop`.
* The disk gives back the blocks that were written to it. A transfer may fail with an error
  of the device, and then nothing is transferred: `io` says which of the transfers to come
  succeed.
* `sfs_buffer` is scratch memory and `super_dirty` is read by `sfs_sync` only; the locks have
  no part in the functions below, which run with them held.
-/

namespace UcoreMips.Kernel

open UcoreMips.Lib
open Emulator (Word)

/-! ### Layout of the disk -/

/-- The error codes, and the ones a device returns. -/
inductive Err
  | inval
  | noMem
  | naDev
  | busy
  | noEnt
  | io
  deriving Repr, DecidableEq

/-- `SFS_BLKSIZE`. -/
abbrev blkSize : Nat := 4096

abbrev Block := Buffer blkSize

/-- The number of a block. -/
abbrev Ino := Word

/-- `SFS_NDIRECT`. -/
abbrev nDirect : Nat := 12

instance : NeZero nDirect := ⟨by decide⟩

/-- `SFS_BLK_NENTRY`. -/
abbrev blkNentry : Nat := 1024

/-- `SFS_MAX_FILE_SIZE`. -/
def maxFileSize : Nat := 1024 * 1024 * 128

/-- `SFS_MAX_FNAME_LEN`. -/
def maxFnameLen : Nat := 255

/-- `SFS_TYPE_FILE`, `SFS_TYPE_DIR`, `SFS_TYPE_LINK`. -/
def typeFile : BitVec 16 := 1
def typeDir : BitVec 16 := 2
def typeLink : BitVec 16 := 3

/-- `struct sfs_disk_inode`. -/
structure DiskInode where
  size : Word
  type : BitVec 16
  nlinks : BitVec 16
  blocks : Word
  direct : Fin nDirect → Ino
  indirect : Ino

/-- The 16 words of a `struct sfs_disk_inode`. -/
def DiskInode.words (din : DiskInode) : List Word :=
  [din.size, din.nlinks ++ din.type, din.blocks] ++ List.ofFn din.direct ++ [din.indirect]

/-- A `struct sfs_disk_inode` at the beginning of a block. -/
def DiskInode.ofBlock (b : Block) : DiskInode where
  size := b.word 0
  type := (b.word 1).extractLsb' 0 16
  nlinks := (b.word 1).extractLsb' 16 16
  blocks := b.word 2
  direct i := b.word (3 + i)
  indirect := b.word 15

/-- `struct sfs_inode`. -/
structure SfsInode where
  din : DiskInode
  ino : Ino
  dirty : Bool
  reclaimCount : Int

/-- `struct sfs_fs`, with the disk. -/
structure Sfs where
  /-- `super.blocks` and `super.unused_blocks`. -/
  blocks : Nat
  unusedBlocks : Nat
  freemap : Bitmap
  disk : Ino → Block
  io : Nat → Bool

/-- The inode in a block, as `sfs_load_inode` makes it. -/
def Sfs.inodeAt (s : Sfs) (ino : Ino) : SfsInode := ⟨DiskInode.ofBlock (s.disk ino), ino, false, 1⟩

/-- A buffer with `data` in it from `pos` on. -/
def putAt (buf : List (BitVec 8)) (pos : Nat) (data : List (BitVec 8)) : List (BitVec 8) :=
  buf.take pos ++ data ++ buf.drop (pos + data.length)

namespace Sfs

/-! ### Blocks -/

/-- `dop_io` for one block: what is in the buffer afterwards. -/
def dopIo (s : Sfs) (buf : Block) (blkno : Ino) (write : Bool) : Except Err Block × Sfs :=
  let t := { s with io := fun k => s.io (k + 1) }
  if s.io 0 = false then (.error .io, t)
  else if write then (.ok buf, { t with disk := Function.update t.disk blkno buf })
  else (.ok (t.disk blkno), t)

/-- `sfs_rwblock_nolock`. -/
def rwblockNolock (s : Sfs) (buf : Block) (blkno : Ino) (write check : Bool) :
    Except Stop (Except Err Block × Sfs) :=
  if ¬((blkno ≠ 0 ∨ check = false) ∧ blkno.toNat < s.blocks) then .error .assertion
  else .ok (s.dopIo buf blkno write)

/-- `sfs_rwblock`: the blocks from `blkno` on, to or from the buffer from `pos` on. -/
def rwblock (write : Bool) :
    (nblks : Nat) → Sfs → (buf : List (BitVec 8)) → (pos : Nat) → Ino →
      Except Stop (Except Err (List (BitVec 8)) × Sfs)
  | 0, s, buf, _, _ => .ok (.ok buf, s)
  | nblks + 1, s, buf, pos, blkno => do
    match ← s.rwblockNolock (.ofList (buf.drop pos)) blkno write true with
    | (.error e, s) => return (.error e, s)
    | (.ok block, s) =>
      let buf := if write then buf else putAt buf pos (block.slice 0 blkSize)
      rwblock write nblks s buf (pos + blkSize) (blkno + 1)

/-- `sfs_rbuf`: `len` bytes of a block. -/
def rbuf (s : Sfs) (len : Nat) (blkno : Ino) (offset : Nat) :
    Except Stop (Except Err (List (BitVec 8)) × Sfs) :=
  if ¬(offset < blkSize ∧ offset + len ≤ blkSize) then .error .assertion
  else do
    match ← s.rwblockNolock .zero blkno false true with
    | (.error e, s) => return (.error e, s)
    | (.ok block, s) => return (.ok (block.slice offset len), s)

/-- `sfs_wbuf`: the block is read, changed and written. -/
def wbuf (s : Sfs) (data : List (BitVec 8)) (blkno : Ino) (offset : Nat) :
    Except Stop (Except Err Unit × Sfs) :=
  if ¬(offset < blkSize ∧ offset + data.length ≤ blkSize) then .error .assertion
  else do
    match ← s.rwblockNolock .zero blkno false true with
    | (.error e, s) => return (.error e, s)
    | (.ok block, s) =>
      let (ret, s) ← s.rwblockNolock (block.patch offset data) blkno true true
      return (ret.map fun _ => (), s)

/-- `sfs_clear_block`. With no blocks to clear, its result is not set. -/
def clearBlock : (nblks : Nat) → Sfs → Ino → Except Stop (Except Err Unit × Sfs)
  | 0, s, _ => .ok (.ok (), s)
  | nblks + 1, s, blkno => do
    match ← s.rwblockNolock .zero blkno true true with
    | (.error e, s) => return (.error e, s)
    | (.ok _, s) => clearBlock nblks s (blkno + 1)

/-- `sfs_block_inuse`. -/
def blockInuse (s : Sfs) (ino : Ino) : Except Stop Bool :=
  if ino ≠ 0 ∧ ino.toNat < s.blocks then do
    return !(← s.freemap.test ino.toNat)
  else .error .assertion

/-- `assert(sfs_block_inuse(sfs, ino))`. -/
def assertInuse (s : Sfs) (ino : Ino) : Except Stop Unit := do
  if ← s.blockInuse ino then return () else throw .assertion

/-- `sfs_block_alloc`. -/
def blockAlloc (s : Sfs) : Except Stop (Except Err Ino × Sfs) := do
  match ← s.freemap.alloc with
  | none => return (.error .noMem, s)
  | some (index, freemap) =>
    if s.unusedBlocks = 0 then throw .assertion
    else
      let s := { s with freemap := freemap, unusedBlocks := s.unusedBlocks - 1 }
      let ino := BitVec.ofNat 32 index
      s.assertInuse ino
      let (ret, s) ← clearBlock 1 s ino
      return (ret.map fun _ => ino, s)

/-- `sfs_block_free`. -/
def blockFree (s : Sfs) (ino : Ino) : Except Stop Sfs := do
  s.assertInuse ino
  let freemap ← s.freemap.free ino.toNat
  return { s with freemap := freemap, unusedBlocks := s.unusedBlocks + 1 }

/-! ### The block map of an inode -/

/-- The label `failed_cleanup` of `sfs_bmap_get_sub_nolock`. -/
def bmapCleanup (s : Sfs) (entp ent : Ino) (e : Err) : Except Stop (Except Err (Ino × Ino) × Sfs) := do
  let s ← if ent ≠ entp then s.blockFree ent else pure s
  return (.error e, s)

/-- The second half of `sfs_bmap_get_sub_nolock`: a new block for an entry of the block `ent`. -/
def bmapNewEntry (s : Sfs) (entp ent : Ino) (index : Nat) :
    Except Stop (Except Err (Ino × Ino) × Sfs) := do
  match ← s.blockAlloc with
  | (.error e, s) => s.bmapCleanup entp ent e
  | (.ok ino, s) =>
    match ← s.wbuf (wordBytes ino) ent (4 * index) with
    | (.error e, s) =>
      let s ← s.blockFree ino
      s.bmapCleanup entp ent e
    | (.ok _, s) => return (.ok (ent, ino), s)

/-- `sfs_bmap_get_sub_nolock`: the new value of `*entp`, and the block. -/
def bmapGetSub (s : Sfs) (entp : Ino) (index : Nat) (create : Bool) :
    Except Stop (Except Err (Ino × Ino) × Sfs) :=
  if ¬index < blkNentry then .error .assertion
  else if entp ≠ 0 then do
    match ← s.rbuf 4 entp (4 * index) with
    | (.error e, s) => return (.error e, s)
    | (.ok bytes, s) =>
      if leWord bytes ≠ 0 ∨ create = false then return (.ok (entp, leWord bytes), s)
      else s.bmapNewEntry entp entp index
  else if create = false then .ok (.ok (0, 0), s)
  else do
    match ← s.blockAlloc with
    | (.error e, s) => return (.error e, s)
    | (.ok ent, s) => s.bmapNewEntry entp ent index

/-- The label `out` of `sfs_bmap_get_nolock`. -/
def bmapOut (s : Sfs) (sin : SfsInode) (ino : Ino) :
    Except Stop (Except Err Ino × Sfs × SfsInode) :=
  if ino = 0 then .ok (.ok ino, s, sin)
  else do
    s.assertInuse ino
    return (.ok ino, s, sin)

/-- `sfs_bmap_get_nolock`: the block with an index in the file, 0 if there is none. -/
def bmapGet (s : Sfs) (sin : SfsInode) (index : Nat) (create : Bool) :
    Except Stop (Except Err Ino × Sfs × SfsInode) :=
  if h : index < nDirect then
    if sin.din.direct ⟨index, h⟩ = 0 ∧ create = true then do
      match ← s.blockAlloc with
      | (.error e, s) => return (.error e, s, sin)
      | (.ok ino, s) =>
        let direct := Function.update sin.din.direct ⟨index, h⟩ ino
        s.bmapOut { sin with din := { sin.din with direct := direct }, dirty := true } ino
    else s.bmapOut sin (sin.din.direct ⟨index, h⟩)
  else if index - nDirect < blkNentry then do
    match ← s.bmapGetSub sin.din.indirect (index - nDirect) create with
    | (.error e, s) => return (.error e, s, sin)
    | (.ok (ent, ino), s) =>
      if ent = sin.din.indirect then s.bmapOut sin ino
      else if sin.din.indirect ≠ 0 then throw .assertion
      else s.bmapOut { sin with din := { sin.din with indirect := ent }, dirty := true } ino
  else .error .assertion

/-- `sfs_bmap_free_sub_nolock`. -/
def bmapFreeSub (s : Sfs) (ent : Ino) (index : Nat) : Except Stop (Except Err Unit × Sfs) := do
  s.assertInuse ent
  if ¬index < blkNentry then throw .assertion
  else
    match ← s.rbuf 4 ent (4 * index) with
    | (.error e, s) => return (.error e, s)
    | (.ok bytes, s) =>
      if leWord bytes = 0 then return (.ok (), s)
      else
        match ← s.wbuf (wordBytes 0) ent (4 * index) with
        | (.error e, s) => return (.error e, s)
        | (.ok _, s) => return (.ok (), ← s.blockFree (leWord bytes))

/-- `sfs_bmap_free_nolock`. -/
def bmapFree (s : Sfs) (sin : SfsInode) (index : Nat) :
    Except Stop (Except Err Unit × Sfs × SfsInode) :=
  if h : index < nDirect then
    if sin.din.direct ⟨index, h⟩ = 0 then .ok (.ok (), s, sin)
    else do
      let s ← s.blockFree (sin.din.direct ⟨index, h⟩)
      let direct := Function.update sin.din.direct ⟨index, h⟩ 0
      return (.ok (), s, { sin with din := { sin.din with direct := direct }, dirty := true })
  else if index - nDirect < blkNentry ∧ sin.din.indirect ≠ 0 then do
    let (ret, s) ← s.bmapFreeSub sin.din.indirect (index - nDirect)
    return (ret, s, sin)
  else .ok (.ok (), s, sin)

/-- `sfs_bmap_load_nolock`: the block behind the last one is made. -/
def bmapLoad (s : Sfs) (sin : SfsInode) (index : Nat) :
    Except Stop (Except Err Ino × Sfs × SfsInode) :=
  if ¬index ≤ sin.din.blocks.toNat then .error .assertion
  else do
    let create := decide (index = sin.din.blocks.toNat)
    match ← s.bmapGet sin index create with
    | (.error e, s, sin) => return (.error e, s, sin)
    | (.ok ino, s, sin) =>
      s.assertInuse ino
      if create then
        return (.ok ino, s, { sin with din := { sin.din with blocks := sin.din.blocks + 1 } })
      else return (.ok ino, s, sin)

/-- `sfs_bmap_truncate_nolock`. -/
def bmapTruncate (s : Sfs) (sin : SfsInode) : Except Stop (Except Err Unit × Sfs × SfsInode) :=
  if sin.din.blocks = 0 then .error .assertion
  else do
    match ← s.bmapFree sin (sin.din.blocks.toNat - 1) with
    | (.error e, s, sin) => return (.error e, s, sin)
    | (.ok _, s, sin) =>
      return (.ok (), s,
        { sin with din := { sin.din with blocks := sin.din.blocks - 1 }, dirty := true })

/-! ### Files -/

/-- The loop of `sfs_truncfile` that adds blocks, from `nblks` on. -/
def enlarge : (n : Nat) → Sfs → SfsInode → (nblks : Nat) →
    Except Stop (Except Err Unit × Sfs × SfsInode)
  | 0, s, sin, _ => .ok (.ok (), s, sin)
  | n + 1, s, sin, nblks => do
    match ← s.bmapLoad sin nblks with
    | (.error e, s, sin) => return (.error e, s, sin)
    | (.ok _, s, sin) => enlarge n s sin (nblks + 1)

/-- The loop of `sfs_truncfile` that takes blocks away. -/
def shrink : (n : Nat) → Sfs → SfsInode → Except Stop (Except Err Unit × Sfs × SfsInode)
  | 0, s, sin => .ok (.ok (), s, sin)
  | n + 1, s, sin => do
    match ← s.bmapTruncate sin with
    | (.error e, s, sin) => return (.error e, s, sin)
    | (.ok _, s, sin) => shrink n s sin

/-- `sfs_truncfile`. -/
def truncfile (s : Sfs) (sin : SfsInode) (len : Int) :
    Except Stop (Except Err Unit × Sfs × SfsInode) :=
  if len < 0 ∨ maxFileSize < len.toNat then .ok (.error .inval, s, sin)
  else
    let tblks := (len.toNat + blkSize - 1) / blkSize
    if sin.din.size.toNat = len.toNat then
      if tblks = sin.din.blocks.toNat then .ok (.ok (), s, sin) else .error .assertion
    else do
      let nblks := sin.din.blocks.toNat
      -- one of the two loops has no turn
      match ← enlarge (tblks - nblks) s sin nblks with
      | (.error e, s, sin) => return (.error e, s, sin)
      | (.ok _, s, sin) =>
        match ← shrink (nblks - tblks) s sin with
        | (.error e, s, sin) => return (.error e, s, sin)
        | (.ok _, s, sin) =>
          if sin.din.blocks.toNat ≠ tblks then throw .assertion
          else
            let din := { sin.din with size := BitVec.ofNat 32 len.toNat }
            return (.ok (), s, { sin with din := din, dirty := true })

/-- `sfs_fsync`. -/
def fsync (s : Sfs) (sin : SfsInode) : Except Stop (Except Err Unit × Sfs × SfsInode) :=
  if sin.dirty then do
    let (ret, s) ← s.wbuf (sin.din.words.flatMap wordBytes) sin.ino 0
    match ret with
    | .error e => return (.error e, s, sin)
    | .ok _ => return (.ok (), s, { sin with dirty := false })
  else .ok (.ok (), s, sin)

/-- The end of `sfs_reclaim`: the blocks of an inode without a link are given back. -/
def reclaimBlocks (s : Sfs) (sin : SfsInode) : Except Stop Sfs :=
  if sin.din.nlinks = 0 then do
    let s ← s.blockFree sin.ino
    if sin.din.indirect ≠ 0 then s.blockFree sin.din.indirect else return s
  else .ok s

/-- `sfs_reclaim` of an inode with the given number of references: `none` when the inode
is gone. Only files can be truncated. -/
def reclaim (s : Sfs) (sin : SfsInode) (refCount : Int) :
    Except Stop (Except Err Unit × Sfs × Option SfsInode) :=
  if ¬0 < sin.reclaimCount then .error .assertion
  else
    let sin := { sin with reclaimCount := sin.reclaimCount - 1 }
    if sin.reclaimCount ≠ 0 ∨ refCount ≠ 0 then .ok (.error .busy, s, some sin)
    else if sin.din.nlinks = 0 ∧ sin.din.type ≠ typeFile then .error .assertion
    else do
      let (ret, s, sin) ← if sin.din.nlinks = 0 then s.truncfile sin 0 else pure (.ok (), s, sin)
      match ret with
      | .error e => return (.error e, s, some sin)
      | .ok _ =>
        match ← s.fsync sin with
        | (.error e, s, sin) => return (.error e, s, some sin)
        | (.ok _, s, sin) => return (.ok (), ← s.reclaimBlocks sin, none)

/-! ### Reading and writing -/

/-- `sfs_buf_op`: `sfs_wbuf` or `sfs_rbuf`, from or to the buffer from `pos` on. -/
def bufOp (s : Sfs) (write : Bool) (buf : List (BitVec 8)) (pos len : Nat) (ino : Ino)
    (offset : Nat) : Except Stop (Except Err (List (BitVec 8)) × Sfs) :=
  if write then do
    let (ret, s) ← s.wbuf ((buf.drop pos).take len) ino offset
    return (ret.map fun _ => buf, s)
  else do
    let (ret, s) ← s.rbuf len ino offset
    return (ret.map (putAt buf pos), s)

end Sfs

/-- A transfer under way: what has been done with the first `pos` bytes of the buffer. -/
structure Transfer where
  sfs : Sfs
  sin : SfsInode
  buf : List (BitVec 8)
  pos : Nat

namespace Transfer

/-- `assert(sfs_bmap_load_nolock(sfs, sin, index, &ino) == 0)`. -/
def load (x : Transfer) (index : Nat) : Except Stop (Ino × Transfer) := do
  match ← x.sfs.bmapLoad x.sin index with
  | (.error _, _) => throw .assertion
  | (.ok ino, sfs, sin) => return (ino, { x with sfs := sfs, sin := sin })

/-- `len` bytes of the block with an index in the file, from `offset` on. -/
def part (x : Transfer) (write : Bool) (index offset len : Nat) : Except Stop Transfer := do
  let (ino, x) ← x.load index
  match ← x.sfs.bufOp write x.buf x.pos len ino offset with
  | (.error _, _) => throw .assertion
  | (.ok buf, sfs) => return { x with sfs := sfs, buf := buf, pos := x.pos + len }

/-- `nblks` whole blocks: the first is looked up, the others follow it on the disk. -/
def whole (x : Transfer) (write : Bool) (index nblks : Nat) : Except Stop Transfer := do
  let (ino, x) ← x.load index
  match ← Sfs.rwblock write nblks x.sfs x.buf x.pos ino with
  | (.error _, _) => throw .assertion
  | (.ok buf, sfs) => return { x with sfs := sfs, buf := buf, pos := x.pos + nblks * blkSize }

/-- The body of `sfs_io_nolock`: a part of the first block, whole blocks, and a part of the
last block. -/
def run (x : Transfer) (write : Bool) (offset endpos : Nat) : Except Stop Transfer := do
  let blkno := offset / blkSize
  let nblks := endpos / blkSize - blkno
  let blkoff := offset % blkSize
  let blkend := endpos % blkSize
  let x ←
    if 0 < blkoff then
      x.part write blkno blkoff (if 0 < nblks then blkSize - blkoff else endpos - offset)
    else pure x
  let single := decide (0 < blkoff ∧ nblks = 0)
  let (blkno, nblks) := if 0 < blkoff then (blkno + 1, nblks - 1) else (blkno, nblks)
  let x ← if 0 < nblks then x.whole write blkno nblks else pure x
  if single = false ∧ 0 < blkend then x.part write (endpos / blkSize) 0 blkend else pure x

/-- The end of `sfs_io_nolock`: the file may have grown. -/
def finish (x : Transfer) (offset : Nat) : Transfer :=
  if x.sin.din.size.toNat < offset + x.pos then
    let din := { x.sin.din with size := BitVec.ofNat 32 (offset + x.pos) }
    { x with sin := { x.sin with din := din, dirty := true } }
  else x

end Transfer

namespace Sfs

/-- `sfs_io_nolock`: how many bytes were transferred. The buffer holds `len` bytes. -/
def ioNolock (s : Sfs) (sin : SfsInode) (write : Bool) (buf : List (BitVec 8)) (offset len : Word) :
    Except Stop (Except Err Nat × Transfer) :=
  let x : Transfer := ⟨s, sin, buf, 0⟩
  let endpos := offset + len
  if sin.din.type = typeDir then .error .assertion
  else if offset.slt 0 ∨ maxFileSize ≤ offset.toNat ∨ endpos.slt offset then .ok (.error .inval, x)
  else if offset = endpos then .ok (.ok 0, x)
  else if write = false ∧ sin.din.size.toNat ≤ offset.toNat then .ok (.ok 0, x)
  else do
    let endpos := min endpos.toNat maxFileSize
    let endpos := if write then endpos else min endpos sin.din.size.toNat
    let x ← x.run write offset.toNat endpos
    return (.ok x.pos, x.finish offset.toNat)

end Sfs

/-! ### Directories -/

/-- `struct sfs_disk_entry`. -/
structure DirEntry where
  ino : Ino
  name : List (BitVec 8)
  deriving Repr, DecidableEq

/-- The string in an array of characters. -/
def cstr (bs : List (BitVec 8)) : List (BitVec 8) := bs.takeWhile (· ≠ 0)

namespace Sfs

/-- `sfs_dirent_read_nolock`. -/
def direntRead (s : Sfs) (sin : SfsInode) (slot : Nat) :
    Except Stop (Except Err DirEntry × Sfs × SfsInode) :=
  if ¬(sin.din.type = typeDir ∧ slot < sin.din.blocks.toNat) then .error .assertion
  else do
    match ← s.bmapLoad sin slot with
    | (.error e, s, sin) => return (.error e, s, sin)
    | (.ok ino, s, sin) =>
      s.assertInuse ino
      match ← s.rbuf (4 + (maxFnameLen + 1)) ino 0 with
      | (.error e, s) => return (.error e, s, sin)
      | (.ok bytes, s) =>
        return (.ok ⟨leWord bytes, (bytes.drop 4).take maxFnameLen ++ [0]⟩, s, sin)

/-- The loop of `sfs_dirent_search_nolock` over the slots that are left, from `i` on. -/
def searchFrom (name : List (BitVec 8)) :
    (n : Nat) → (i emptySlot : Nat) → Sfs → SfsInode →
      Except Stop (Except Err (Nat × Ino) × Nat × Sfs × SfsInode)
  | 0, _, emptySlot, s, sin => .ok (.error .noEnt, emptySlot, s, sin)
  | n + 1, i, emptySlot, s, sin => do
    match ← s.direntRead sin i with
    | (.error e, s, sin) => return (.error e, emptySlot, s, sin)
    | (.ok entry, s, sin) =>
      if entry.ino = 0 then searchFrom name n (i + 1) i s sin
      else if name = cstr entry.name then return (.ok (i, entry.ino), emptySlot, s, sin)
      else searchFrom name n (i + 1) emptySlot s sin

/-- `sfs_dirent_search_nolock`, where `memory` says whether it gets its memory: the slot and
the number of the inode, and the empty slot. -/
def direntSearch (s : Sfs) (sin : SfsInode) (memory : Bool) (name : List (BitVec 8)) :
    Except Stop (Except Err (Nat × Ino) × Nat × Sfs × SfsInode) :=
  if ¬name.length ≤ maxFnameLen then .error .assertion
  else if memory = false then .ok (.error .noMem, 0, s, sin)
  else searchFrom name sin.din.blocks.toNat 0 sin.din.blocks.toNat s sin

end Sfs

end UcoreMips.Kernel
