import UcoreMips.Kernel.Fs.Sfs

/-!
# UcoreMips.Tools.Mksfs

**The tool that makes images of the simple file system** (`tools/mksfs.c`), a program of its own
with its own declarations of what is on the disk.

* Inodes and index blocks are kept in memory until `close_sfs` writes them. What is allocated is
  addressed by the number of allocations before it, in place of a pointer.
* `bug` and a failed assertion end the program (`Bug`). Memory is never short and the image can
  always be written.
* The walk through the directories of the host is not modelled: it makes inodes
  (`alloc_cache_inode`), adds the blocks of files and links (`open_file`, `open_link`) and adds
  entries to directories (`add_entry`).
-/

namespace UcoreMips.Tools

open UcoreMips.Lib
open UcoreMips.Kernel (Ino Block nDirect blkNentry blkSize maxFileSize maxFnameLen)
open Emulator (Word)
open Function (update)

/-- Why the tool ends early. -/
inductive Bug
  /-- `out of disk space.` -/
  | diskFull
  /-- `img file is too small (…).` -/
  | imgTooSmall
  /-- `file is too big.` -/
  | fileTooBig
  | assertion
  deriving Repr, DecidableEq

/-- `hash32`, with `HASH_SHIFT` 10. -/
def hash32 (val : Word) : Nat := ((val * 0x9e370001#32) >>> (32 - 10)).toNat

/-- `hash64`. -/
def hash64 (val : BitVec 64) : Nat := hash32 (val.setWidth 32)

/-- `HASH_LIST_SIZE`. -/
def hashListSize : Nat := 1024

/-- `SFS_MAGIC`. -/
def magic : Word := 0x2f8dbe2a

/-- `SFS_MAX_NBLKS`. -/
def maxNblks : Nat := 1024 * 512

/-- `SFS_BLKBITS`. -/
abbrev blkBits : Nat := blkSize * 8

/-- `SFS_BLKN_SUPER`, `SFS_BLKN_ROOT` and `SFS_BLKN_FREEMAP`. -/
def blknSuper : Ino := 0
def blknRoot : Ino := 1
def blknFreemap : Nat := 2

/-- `SFS_L0_NBLKS`, `SFS_L1_NBLKS`, `SFS_L2_NBLKS` and `SFS_LN_NBLKS`. -/
abbrev l0Nblks : Nat := nDirect
abbrev l1Nblks : Nat := blkNentry + l0Nblks
abbrev l2Nblks : Nat := blkNentry * blkNentry + l1Nblks
abbrev lnNblks : Nat := maxFileSize / blkSize

/-- `struct inode`. -/
structure Inode where
  size : Word
  type : BitVec 16
  nlinks : BitVec 16
  blocks : Word
  direct : Fin nDirect → Ino
  indirect : Ino
  dbIndirect : Ino

/-- The words of a `struct inode`. -/
def Inode.words (inode : Inode) : List Word :=
  [inode.size, inode.nlinks ++ inode.type, inode.blocks] ++ List.ofFn inode.direct ++
    [inode.indirect, inode.dbIndirect]

/-- `struct cache_block`. -/
structure CacheBlock where
  ino : Ino
  cache : Block

/-- `struct cache_inode`. -/
structure CacheInode where
  inode : Inode
  real : BitVec 64
  ino : Ino
  nblks : Nat
  l1 : Option Nat
  l2 : Option Nat

/-- `struct sfs_fs`, with what is in memory and the image. -/
structure Mksfs where
  /-- `super.blocks`, `super.unused_blocks` and `super.info`. -/
  blocks : Word
  unusedBlocks : Word
  info : Buffer 32
  ninos : Nat
  nextIno : Nat
  /-- The hash lists. -/
  inodeHash : Nat → List Nat
  blockHash : Nat → List Nat
  /-- The inodes and the index blocks in memory, and how many there are. -/
  inode : Nat → CacheInode
  inodes : Nat
  block : Nat → CacheBlock
  nblocks : Nat
  img : Ino → Block
  /-- The name in the static `struct sfs_entry` of `add_entry`. -/
  entryName : Buffer (maxFnameLen + 1)

namespace Mksfs

/-- `sfs_alloc_ino`. -/
def allocIno (s : Mksfs) : Except Bug (Ino × Mksfs) :=
  if s.nextIno < s.ninos then
    .ok (BitVec.ofNat 32 s.nextIno,
      { s with unusedBlocks := s.unusedBlocks - 1, nextIno := s.nextIno + 1 })
  else .error .diskFull

/-- A number that is given, or a new one. -/
def inoOr (s : Mksfs) (ino : Ino) : Except Bug (Ino × Mksfs) :=
  if ino ≠ 0 then .ok (ino, s) else s.allocIno

/-- `alloc_cache_block`. The list is chosen by the number that is given, also when it is 0. -/
def allocCacheBlock (s : Mksfs) (ino : Ino) : Except Bug (Nat × Mksfs) := do
  let (number, s) ← s.inoOr ino
  let cb := s.nblocks
  return (cb, { s with
    block := update s.block cb ⟨number, .zero⟩
    nblocks := cb + 1
    blockHash := update s.blockHash (hash32 ino) (cb :: s.blockHash (hash32 ino)) })

/-- `search_cache_block`. -/
def searchCacheBlock (s : Mksfs) (ino : Ino) : Option Nat :=
  (s.blockHash (hash32 ino)).find? fun cb => (s.block cb).ino = ino

/-- `alloc_cache_inode`. -/
def allocCacheInode (s : Mksfs) (real : BitVec 64) (ino : Ino) (type : BitVec 16) :
    Except Bug (Nat × Mksfs) := do
  let (number, s) ← s.inoOr ino
  let ci := s.inodes
  return (ci, { s with
    inode := update s.inode ci ⟨⟨0, type, 0, 0, fun _ => 0, 0, 0⟩, real, number, 0, none, none⟩
    inodes := ci + 1
    inodeHash := update s.inodeHash (hash64 real) (ci :: s.inodeHash (hash64 real)) })

/-- `create_sfs` for an image file with `stSize` bytes, which hold `img`; `info` is what `snprintf`
leaves in `super.info`. -/
def createSfs (stSize : Nat) (info : Buffer 32) (img : Ino → Block) : Except Bug Mksfs :=
  let ninos := stSize / blkSize % 2 ^ 32
  let ninos := if maxNblks < ninos then maxNblks else ninos
  let nextIno := blknFreemap + (ninos + blkBits - 1) / blkBits
  if ninos ≤ nextIno then .error .imgTooSmall
  else do
    let s : Mksfs :=
      { blocks := BitVec.ofNat 32 ninos, unusedBlocks := BitVec.ofNat 32 (ninos - nextIno)
        info := info, ninos := ninos, nextIno := nextIno
        inodeHash := fun _ => [], blockHash := fun _ => []
        inode := fun _ => ⟨⟨0, 0, 0, 0, fun _ => 0, 0, 0⟩, 0, 0, 0, none, none⟩, inodes := 0
        block := fun _ => ⟨0, .zero⟩, nblocks := 0, img := img, entryName := .zero }
    let (_, s) ← s.allocCacheInode 0 blknRoot Kernel.typeDir
    return s

/-- `write_block`: the rest of the block is 0. -/
def writeBlock (s : Mksfs) (data : List (BitVec 8)) (ino : Ino) : Except Bug Mksfs :=
  if ¬(data.length ≤ blkSize ∧ ino.toNat < s.ninos) then .error .assertion
  else .ok { s with img := update s.img ino (.ofList data) }

/-- `flush_cache_block`. -/
def flushCacheBlock (s : Mksfs) (cb : Nat) : Except Bug Mksfs :=
  s.writeBlock ((s.block cb).cache.slice 0 blkSize) (s.block cb).ino

/-- `flush_cache_inode`. -/
def flushCacheInode (s : Mksfs) (ci : Nat) : Except Bug Mksfs :=
  s.writeBlock ((s.inode ci).inode.words.flatMap wordBytes) (s.inode ci).ino

/-- The words of a block of the freemap: the bits from `start` to `last` are set. -/
def freemapData (start last : Nat) : Nat → Word :=
  (List.range' start (last - start)).foldl
    (fun data j => update data (j / 32) (data (j / 32) ||| 1#32 <<< (j % 32))) fun _ => 0

/-- The block of the freemap for the blocks from `i` on. -/
def freemapBlock (s : Mksfs) (i : Nat) : Block :=
  if s.nextIno < i + blkBits then
    let start := if i < s.nextIno then s.nextIno - i else 0
    let last := if s.ninos < i + blkBits then s.ninos - i else blkBits
    .ofWords (freemapData start last)
  else .zero

/-- The loop of `close_sfs` over the blocks of the freemap. Each turn goes forward, so `ninos`
turns are enough. -/
def writeFreemap : (turns : Nat) → Mksfs → (i : Nat) → (ino : Ino) → Except Bug Mksfs
  | 0, s, _, _ => .ok s
  | turns + 1, s, i, ino =>
    if i < s.ninos then do
      let s ← s.writeBlock ((s.freemapBlock i).slice 0 blkSize) ino
      writeFreemap turns s (i + blkBits) (ino + 1)
    else .ok s

/-- The superblock. -/
def superBytes (s : Mksfs) : List (BitVec 8) :=
  [magic, s.blocks, s.unusedBlocks].flatMap wordBytes ++ s.info.slice 0 32

/-- `close_sfs`. -/
def closeSfs (s : Mksfs) : Except Bug Mksfs := do
  let s ← writeFreemap s.ninos s 0 (BitVec.ofNat 32 blknFreemap)
  let s ← s.writeBlock s.superBytes blknSuper
  (List.range hashListSize).foldlM (fun s i => do
    let s ← (s.blockHash i).foldlM flushCacheBlock s
    (s.inodeHash i).foldlM flushCacheInode s) s

/-! ### Blocks of files -/

/-- An inode replaced. -/
def setInode (s : Mksfs) (file : Nat) (ci : CacheInode) : Mksfs :=
  { s with inode := update s.inode file ci }

/-- A word of an index block changed. -/
def setWord (s : Mksfs) (cb k : Nat) (w : Word) : Mksfs :=
  { s with
    block := update s.block cb
      { s.block cb with cache := (s.block cb).cache.patch (4 * k) (wordBytes w) } }

/-- `update_cache`: the block, and its number. -/
def updateCache (s : Mksfs) (cbp : Option Nat) (inop : Ino) : Except Bug (Nat × Ino × Mksfs) :=
  if inop = 0 then do
    let (cb, s) ← s.allocCacheBlock 0
    return (cb, (s.block cb).ino, s)
  else
    match cbp.filter fun cb => (s.block cb).ino = inop with
    | some cb => .ok (cb, inop, s)
    | none =>
      match s.searchCacheBlock inop with
      | some cb => .ok (cb, inop, s)
      | none => .error .assertion

/-- The part of `append_block` that enters the block in the index of the file. -/
def enterBlock (s : Mksfs) (file : Nat) (ino : Ino) : Except Bug Mksfs :=
  let ci := s.inode file
  if h : ci.nblks < l0Nblks then
    let direct := update ci.inode.direct ⟨ci.nblks, h⟩ ino
    .ok (s.setInode file { ci with inode := { ci.inode with direct := direct } })
  else if ci.nblks < l1Nblks then do
    let (l1, indirect, s) ← s.updateCache ci.l1 ci.inode.indirect
    let s := s.setInode file { ci with inode := { ci.inode with indirect := indirect }, l1 := some l1 }
    return s.setWord l1 (ci.nblks - l0Nblks) ino
  else if ci.nblks < l2Nblks then do
    let nblks := ci.nblks - l1Nblks
    let (l2, dbIndirect, s) ← s.updateCache ci.l2 ci.inode.dbIndirect
    let (l1, index, s) ← s.updateCache ci.l1 ((s.block l2).cache.word (nblks / blkNentry))
    let s := s.setWord l2 (nblks / blkNentry) index
    let inode := { ci.inode with dbIndirect := dbIndirect }
    let s := s.setInode file { ci with inode := inode, l1 := some l1, l2 := some l2 }
    return s.setWord l1 (nblks % blkNentry) ino
  else .ok s

/-- `append_block`. -/
def appendBlock (s : Mksfs) (file size : Nat) (ino : Ino) : Except Bug Mksfs :=
  if ¬size ≤ blkSize then .error .assertion
  else if lnNblks ≤ (s.inode file).nblks then .error .fileTooBig
  else do
    let s ← s.enterBlock file ino
    let ci := s.inode file
    let inode := { ci.inode with
      size := ci.inode.size + BitVec.ofNat 32 size, blocks := ci.inode.blocks + 1 }
    return s.setInode file { ci with inode := inode, nblks := ci.nblks + 1 }

/-- What `open_file` does with the bytes of one `read`, and `open_link` with those of its
`readlink`: the new block. -/
def addData (s : Mksfs) (file : Nat) (buffer : List (BitVec 8)) : Except Bug (Ino × Mksfs) := do
  let (ino, s) ← s.allocIno
  let s ← s.writeBlock buffer ino
  let s ← s.appendBlock file buffer.length ino
  return (ino, s)

/-- `sizeof(entry->name)`. -/
abbrev nameSize : Nat := maxFnameLen + 1

/-- `add_entry`: the block of the new entry. As many bytes of the entry are written as there are in
its name, the inode number included. -/
def addEntry (s : Mksfs) (current file : Nat) (name : List (BitVec 8)) :
    Except Bug (Ino × Mksfs) :=
  if ¬((s.inode current).inode.type = Kernel.typeDir ∧ name.length ≤ maxFnameLen) then
    .error .assertion
  else do
    let s := { s with entryName := s.entryName.patch 0 (name ++ [0]) }
    let (ino, s) ← s.allocIno
    let entry := wordBytes (s.inode file).ino ++ s.entryName.slice 0 nameSize
    let s ← s.writeBlock (entry.take nameSize) ino
    let s ← s.appendBlock current nameSize ino
    let ci := s.inode file
    let inode := { ci.inode with nlinks := ci.inode.nlinks + 1 }
    return (ino, s.setInode file { ci with inode := inode })

end Mksfs

end UcoreMips.Tools
