import UcoreMips.Kernel.Fs.FileTable
import UcoreMips.Kernel.Fs.Sfs

/-!
# UcoreMips.Kernel.Fs.Vop

**Inodes and their operations** (`kern/fs/vfs/inode.h`, `kern/fs/iobuf.c`, `kern/fs/devs/`): an inode is
a file or a directory of the mounted volume or one of the two character devices, and an operation is
looked up in the table of its kind. A table without the operation stops the kernel.

* The volume is that of `disk0`, which is mounted when the kernel starts; its own inode is behind the
  root of the volume then, and no call reaches it.
* The reader of `stdin` waits until there are enough characters, or until it is woken for another
  reason: `typed` is what is typed until then.
* Warnings are not part of the model.
-/

namespace UcoreMips.Kernel

open Emulator (Word)

/-- The number of an error. Other codes than these are not returned by `disk0_io`. -/
def Err.code : Err → Int
  | .inval => -eInval
  | .noMem => -eNoMem
  | .naDev => -eNaDev
  | .busy => -eBusy
  | .noEnt => -eNoent
  | .io => -eInval

/-- What a call returns. -/
def retCode {α : Type} : Except Err α → Int
  | .ok _ => 0
  | .error e => e.code

/-! ### Buffers -/

/-- `struct iobuf`: the bytes it was set up with, and how far `io_base` is from the first of them. -/
structure Iobuf where
  bytes : List (BitVec 8)
  base : Nat
  offset : Word
  len : Nat
  resid : Nat
  deriving Repr, DecidableEq

inductive VfsStop
  /-- `__vop_op`: the table of the inode does not have the operation. -/
  | missing
  /-- `inode_check`. -/
  | check
  /-- There is no inode at the address. -/
  | freed
  /-- `inode_ref_dec`, `inode_open_dec` and `inode_kill`: assertions about the counts. -/
  | count
  /-- `iobuf_skip`: `assert(iob->io_resid >= n)`. -/
  | skip
  /-- `sfs_gettype`: `panic("invalid file type")`. -/
  | type
  /-- `sysfile_read` and `sysfile_write`: `assert(len >= alen)`. -/
  | alen
  | sfs (e : Stop)
  | files (e : FdStop)
  deriving Repr, DecidableEq

namespace Iobuf

/-- `iobuf_init`, for the bytes at `base`. -/
def init (bytes : List (BitVec 8)) (offset : Word) : Iobuf := ⟨bytes, 0, offset, bytes.length, bytes.length⟩

/-- `iobuf_used`. -/
def used (iob : Iobuf) : Nat := iob.len - iob.resid

/-- `iobuf_skip`. -/
def skip (iob : Iobuf) (n : Nat) : Except VfsStop Iobuf :=
  if iob.resid < n then .error .skip
  else .ok { iob with base := iob.base + n, offset := iob.offset + BitVec.ofNat 32 n, resid := iob.resid - n }

/-- The bytes that are left, at `io_base`. -/
def rest (iob : Iobuf) : List (BitVec 8) := (iob.bytes.drop iob.base).take iob.resid

/-- Bytes stored at `io_base`. -/
def store (iob : Iobuf) (data : List (BitVec 8)) : Iobuf := { iob with bytes := putAt iob.bytes iob.base data }

end Iobuf

/-! ### Inodes -/

inductive CharDevice
  | stdin
  | stdout
  deriving Repr, DecidableEq

/-- What an inode stands for, and with it its table: `sfs_node_fileops`, `sfs_node_dirops` or
`dev_node_ops`. -/
inductive InodeInfo
  | file (sin : SfsInode)
  | dir (sin : SfsInode)
  | device (dev : CharDevice)

/-- `struct inode`. -/
structure Inode where
  info : InodeInfo
  refCount : Int
  openCount : Int

/-- `struct stat`. -/
structure Stat where
  mode : Word
  nlinks : Word
  blocks : Word
  size : Word
  deriving Repr, DecidableEq

def sIfreg : Word := 0x1000
def sIfdir : Word := 0x2000
def sIflnk : Word := 0x3000
def sIfchr : Word := 0x4000

/-- The inodes in memory, the volume, what is typed and what has been printed. -/
structure Vfs where
  sfs : Sfs
  inode : NodeId → Option Inode
  typed : List (BitVec 8)
  printed : List (BitVec 8)

/-- `MAX_INODE_COUNT`. -/
def maxInodeCount : Int := 0x10000

/-- `inode_check`. -/
def Inode.check (node : Inode) : Bool :=
  node.openCount ≤ node.refCount ∧ 0 ≤ node.openCount ∧
    node.refCount < maxInodeCount ∧ node.openCount < maxInodeCount

/-- `sfs_gettype`. -/
def sfsGettype (sin : SfsInode) : Except VfsStop Word :=
  if sin.din.type = typeDir then .ok sIfdir
  else if sin.din.type = typeFile then .ok sIfreg
  else if sin.din.type = typeLink then .ok sIflnk
  else .error .type

/-- `sfs_fstat`. -/
def sfsFstat (sin : SfsInode) : Except VfsStop Stat := do
  return ⟨← sfsGettype sin, sin.din.nlinks.setWidth 32, sin.din.blocks, sin.din.size⟩

namespace Sfs

/-- `sfs_io`. -/
def sfsIo (s : Sfs) (sin : SfsInode) (iob : Iobuf) (write : Bool) :
    Except VfsStop (Int × Iobuf × Sfs × SfsInode) := do
  let (ret, x) ← (s.ioNolock sin write iob.rest iob.offset (BitVec.ofNat 32 iob.resid)).mapError .sfs
  let iob := iob.store x.buf
  match ret with
  | .error e => return (e.code, iob, x.sfs, x.sin)
  | .ok alen =>
    let iob ← if alen ≠ 0 then iob.skip alen else pure iob
    return (0, iob, x.sfs, x.sin)

/-- `sfs_tryseek`. A position behind the end of the file makes it longer. -/
def tryseek (s : Sfs) (sin : SfsInode) (pos : Word) : Except Stop (Except Err Unit × Sfs × SfsInode) :=
  if pos.slt 0 ∨ maxFileSize ≤ pos.toNat then .ok (.error .inval, s, sin)
  else if sin.din.size.toNat < pos.toNat then s.truncfile sin pos.toInt
  else .ok (.ok (), s, sin)

end Sfs

namespace Vfs

/-- The inode at an address, as `__vop_op` checks it. -/
def vop (v : Vfs) (n : NodeId) : Except VfsStop Inode :=
  match v.inode n with
  | none => .error .freed
  | some node => if node.check then .ok node else .error .check

def set (v : Vfs) (n : NodeId) (node : Inode) : Vfs := { v with inode := Function.update v.inode n (some node) }

/-- What an operation of the volume has made of a file. -/
def setFile (v : Vfs) (n : NodeId) (node : Inode) (sfs : Sfs) (sin : SfsInode) : Vfs :=
  { v with sfs := sfs }.set n { node with info := .file sin }

def setDir (v : Vfs) (n : NodeId) (node : Inode) (sfs : Sfs) (sin : SfsInode) : Vfs :=
  { v with sfs := sfs }.set n { node with info := .dir sin }

/-- `stdin_io`; the result of a read is the number of characters. -/
def stdinIo (v : Vfs) (iob : Iobuf) (write : Bool) : Int × Iobuf × Vfs :=
  if write then (-eInval, iob, v)
  else
    let chars := v.typed.take iob.resid
    let iob := iob.store chars
    (chars.length, { iob with resid := iob.resid - chars.length }, { v with typed := v.typed.drop iob.resid })

/-- `stdout_io`. -/
def stdoutIo (v : Vfs) (iob : Iobuf) (write : Bool) : Int × Iobuf × Vfs :=
  if write then (0, { iob with resid := 0 }, { v with printed := v.printed ++ iob.rest })
  else (-eInval, iob, v)

/-- `vop_read` and `vop_write`. -/
def vopIo (v : Vfs) (n : NodeId) (iob : Iobuf) (write : Bool) : Except VfsStop (Int × Iobuf × Vfs) := do
  let node ← v.vop n
  match node.info with
  | .file sin =>
    let (ret, iob, sfs, sin) ← v.sfs.sfsIo sin iob write
    return (ret, iob, v.setFile n node sfs sin)
  | .dir _ => throw .missing
  | .device .stdin => return v.stdinIo iob write
  | .device .stdout => return v.stdoutIo iob write

/-- `vop_fstat`. -/
def vopFstat (v : Vfs) (n : NodeId) : Except VfsStop Stat := do
  let node ← v.vop n
  match node.info with
  | .file sin => sfsFstat sin
  | .dir sin => sfsFstat sin
  | .device _ => return ⟨sIfchr, 1, 0, 0⟩

/-- `vop_fsync`. -/
def vopFsync (v : Vfs) (n : NodeId) : Except VfsStop (Int × Vfs) := do
  let node ← v.vop n
  match node.info with
  | .file sin =>
    let (ret, sfs, sin) ← (v.sfs.fsync sin).mapError .sfs
    return (retCode ret, v.setFile n node sfs sin)
  | .dir sin =>
    let (ret, sfs, sin) ← (v.sfs.fsync sin).mapError .sfs
    return (retCode ret, v.setDir n node sfs sin)
  | .device _ => throw .missing

/-- `vop_tryseek`. -/
def vopTryseek (v : Vfs) (n : NodeId) (pos : Word) : Except VfsStop (Int × Vfs) := do
  let node ← v.vop n
  match node.info with
  | .file sin =>
    let (ret, sfs, sin) ← (v.sfs.tryseek sin pos).mapError .sfs
    return (retCode ret, v.setFile n node sfs sin)
  | .dir _ => throw .missing
  | .device _ => return (-eInval, v)

/-! ### The counts of an inode -/

/-- `vop_close`. -/
def vopClose (v : Vfs) (n : NodeId) : Except VfsStop Vfs := do
  let node ← v.vop n
  match node.info with
  | .device _ => return v
  | _ => return (← v.vopFsync n).2

/-- `vop_ref_inc` and `vop_open_inc`. -/
def opened (v : Vfs) (n : NodeId) : Except VfsStop Vfs :=
  match v.inode n with
  | none => .error .freed
  | some node => .ok (v.set n { node with refCount := node.refCount + 1, openCount := node.openCount + 1 })

/-- `inode_open_dec`. -/
def inodeOpenDec (v : Vfs) (n : NodeId) : Except VfsStop Vfs :=
  match v.inode n with
  | none => .error .freed
  | some node =>
    if node.openCount ≤ 0 then .error .count
    else
      let v := v.set n { node with openCount := node.openCount - 1 }
      if node.openCount - 1 = 0 then v.vopClose n else .ok v

/-- `vop_reclaim`, and `inode_kill` of an inode that is not used any more. -/
def vopReclaim (v : Vfs) (n : NodeId) : Except VfsStop Vfs := do
  let node ← v.vop n
  let reclaimed (info : SfsInode → InodeInfo) (sin : SfsInode) : Except VfsStop Vfs := do
    match ← (v.sfs.reclaim sin node.refCount).mapError .sfs with
    | (_, sfs, some sin) => return { v with sfs := sfs }.set n { node with info := info sin }
    | (_, sfs, none) =>
      if node.refCount ≠ 0 ∨ node.openCount ≠ 0 then throw .count
      else return { v with sfs := sfs, inode := Function.update v.inode n none }
  match node.info with
  | .file sin => reclaimed .file sin
  | .dir sin => reclaimed .dir sin
  | .device _ => throw .missing

/-- `inode_ref_dec`. -/
def inodeRefDec (v : Vfs) (n : NodeId) : Except VfsStop Vfs :=
  match v.inode n with
  | none => .error .freed
  | some node =>
    if node.refCount ≤ 0 then .error .count
    else
      let v := v.set n { node with refCount := node.refCount - 1 }
      if node.refCount - 1 = 0 then v.vopReclaim n else .ok v

/-- `vfs_close`. -/
def vfsClose (v : Vfs) (n : NodeId) : Except VfsStop Vfs := do
  (← v.inodeOpenDec n).inodeRefDec n

end Vfs

end UcoreMips.Kernel
