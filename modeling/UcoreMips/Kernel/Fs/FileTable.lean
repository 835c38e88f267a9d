import UcoreMips.Kernel.Fs.InodeCache

/-!
# UcoreMips.Kernel.Fs.FileTable

The **open files of a process** (`kern/fs/file.c`): an array of entries, each with a status, the inode
it is open on, and the number of calls that use it.

`fd_array_free` gives the inode of a closed entry to `vfs_close`, which may wait for the file system,
and marks the entry as free only when that has returned. What calls it is split there: the inode that
is to be closed is returned, and `fdArrayFreed` is the rest.
-/

namespace UcoreMips.Kernel

/-! ### `unistd.h` -/

def oRdonly : BitVec 32 := 0
def oWronly : BitVec 32 := 1
def oRdwr : BitVec 32 := 2
def oCreat : BitVec 32 := 0x00000004
def oExcl : BitVec 32 := 0x00000008
def oTrunc : BitVec 32 := 0x00000010
def oAppend : BitVec 32 := 0x00000020
def oAccmode : BitVec 32 := 3

def noFd : Int := -0x9527

def lseekSet : Int := 0
def lseekCur : Int := 1
def lseekEnd : Int := 2

/-! ### The entries -/

inductive FileStatus
  | none
  | init
  | opened
  | closed
  deriving Repr, DecidableEq

/-- `struct file`. -/
structure File where
  status : FileStatus
  readable : Bool
  writable : Bool
  fd : Int
  pos : BitVec 32
  node : Option NodeId
  openCount : Int
  deriving Repr, DecidableEq

/-- `FILES_STRUCT_NENTRY`: what is left of a page after a `struct files_struct`. -/
def filesStructNentry : Nat := (4096 - 24) / 28

instance : NeZero filesStructNentry := ⟨by decide⟩

/-- The place of an entry in `fd_array`. -/
abbrev FdIndex := Fin filesStructNentry

abbrev FdArray := FdIndex → File

inductive FdStop
  /-- `fd_array_alloc`: `assert(fopen_count(file) == 0)`. -/
  | allocCount
  /-- `fd_array_free`: `assert(file->status == FD_INIT || file->status == FD_CLOSED)`. -/
  | freeStatus
  /-- `fd_array_free`: `assert(fopen_count(file) == 0)`. -/
  | freeCount
  /-- `fd_array_acquire`: `assert(file->status == FD_OPENED)`. -/
  | acquireStatus
  /-- `fd_array_release`: `assert(file->status == FD_OPENED || file->status == FD_CLOSED)`. -/
  | releaseStatus
  /-- `fd_array_release`: `assert(fopen_count(file) > 0)`. -/
  | releaseCount
  /-- `fd_array_open`: `assert(file->status == FD_INIT && file->node != NULL)`. -/
  | openStatus
  /-- `fd_array_close`: `assert(file->status == FD_OPENED)`. -/
  | closeStatus
  /-- `fd_array_close`: `assert(fopen_count(file) > 0)`. -/
  | closeCount
  /-- `fd_array_dup`: `assert(to->status == FD_INIT && from->status == FD_OPENED)`. -/
  | dupStatus
  /-- An operation on the inode of an entry that has none. -/
  | nullNode
  deriving Repr, DecidableEq

/-- `testfd`, and the entry. -/
def testfd (fd : Int) : Option FdIndex :=
  if h : 0 ≤ fd ∧ fd < filesStructNentry then some ⟨fd.toNat, by omega⟩ else none

/-- `fd_array_init`. -/
def fdArrayInit (t : FdArray) : FdArray :=
  fun f => { t f with openCount := 0, status := .none, fd := f }

/-- The end of `fd_array_alloc`. -/
def fdArrayFound (t : FdArray) (f : FdIndex) : Except FdStop (Except Int FdIndex × FdArray) :=
  if (t f).openCount ≠ 0 then .error .allocCount
  else .ok (.ok f, Function.update t f { t f with status := .init, node := none })

/-- `fd_array_alloc`; an error code is a result. -/
def fdArrayAlloc (t : FdArray) (fd : Int) : Except FdStop (Except Int FdIndex × FdArray) :=
  if fd = noFd then
    match (List.finRange filesStructNentry).find? (fun f => (t f).status = .none) with
    | some f => fdArrayFound t f
    | none => .ok (.error (-eMaxOpen), t)
  else
    match testfd fd with
    | some f => if (t f).status = .none then fdArrayFound t f else .ok (.error (-eBusy), t)
    | none => .ok (.error (-eInval), t)

/-- `fd_array_free`, up to the call of `vfs_close` with the inode that is returned. -/
def fdArrayFree (e : File) : Except FdStop (Option NodeId × File) :=
  if ¬(e.status = .init ∨ e.status = .closed) then .error .freeStatus
  else if e.openCount ≠ 0 then .error .freeCount
  else if e.status = .closed then
    match e.node with
    | some n => .ok (some n, e)
    | none => .error .nullNode
  else .ok (none, { e with status := .none })

/-- `fd_array_free`, after `vfs_close`. -/
def fdArrayFreed (e : File) : File := { e with status := .none }

/-- `fd_array_acquire`. -/
def fdArrayAcquire (e : File) : Except FdStop File :=
  if e.status ≠ .opened then .error .acquireStatus else .ok { e with openCount := e.openCount + 1 }

/-- One use less: the end of `fd_array_release` and of `fd_array_close`. -/
def fopenCountDecFree (e : File) : Except FdStop (Option NodeId × File) :=
  let e := { e with openCount := e.openCount - 1 }
  if e.openCount = 0 then fdArrayFree e else .ok (none, e)

/-- `fd_array_release`. -/
def fdArrayRelease (e : File) : Except FdStop (Option NodeId × File) :=
  if ¬(e.status = .opened ∨ e.status = .closed) then .error .releaseStatus
  else if e.openCount ≤ 0 then .error .releaseCount
  else fopenCountDecFree e

/-- `fd_array_open`. -/
def fdArrayOpen (e : File) : Except FdStop File :=
  if ¬(e.status = .init ∧ e.node.isSome) then .error .openStatus
  else .ok { e with status := .opened, openCount := e.openCount + 1 }

/-- `fd_array_close`. -/
def fdArrayClose (e : File) : Except FdStop (Option NodeId × File) :=
  if e.status ≠ .opened then .error .closeStatus
  else if e.openCount ≤ 0 then .error .closeCount
  else fopenCountDecFree { e with status := .closed }

/-- `fd_array_dup`; the counts of the inode, which is returned, are one higher. -/
def fdArrayDup (target source : File) : Except FdStop (NodeId × File) :=
  if ¬(target.status = .init ∧ source.status = .opened) then .error .dupStatus
  else
    match source.node with
    | none => .error .nullNode
    | some n => do
      let target ← fdArrayOpen { target with
        pos := source.pos
        readable := source.readable
        writable := source.writable
        node := some n }
      return (n, target)

/-- `fd2file`. -/
def fd2file (t : FdArray) (fd : Int) : Option FdIndex :=
  (testfd fd).filter fun f => (t f).status = .opened ∧ (t f).fd = fd

/-- The access that `open_flags` asks for: whether the file is readable, and whether it is writable. -/
def accessMode (flags : BitVec 32) : Option (Bool × Bool) :=
  if flags &&& oAccmode = oRdonly then some (true, false)
  else if flags &&& oAccmode = oWronly then some (false, true)
  else if flags &&& oAccmode = oRdwr then some (true, true)
  else none

/-! ### What the functions do -/

variable {t : FdArray} {e : File} {f : FdIndex} {fd : Int} {n : NodeId}

theorem fd2file_eq_some (h : fd2file t fd = some f) : (t f).status = .opened ∧ (t f).fd = fd := by
  have hfilter := (Option.filter_eq_some_iff.mp h).2
  simpa using hfilter

/-- What `fd_array_alloc` returns is an error code, or an entry that was free. -/
theorem fdArrayAlloc_spec (hcount : ∀ f, (t f).status = .none → (t f).openCount = 0) (fd : Int) :
    (∃ r, fdArrayAlloc t fd = .ok (.error r, t)) ∨
    ∃ f, (t f).status = .none ∧ fdArrayAlloc t fd =
      .ok (.ok f, Function.update t f { t f with status := .init, node := none }) := by
  have hfound : ∀ f, (t f).status = .none → fdArrayFound t f =
      .ok (.ok f, Function.update t f { t f with status := .init, node := none }) := fun f hf => by
    rw [fdArrayFound, if_neg (by simpa using hcount f hf)]
  unfold fdArrayAlloc
  split
  · cases hfind : (List.finRange filesStructNentry).find? (fun f => (t f).status = .none) with
    | none => exact .inl ⟨_, rfl⟩
    | some f =>
      have hf : (t f).status = .none := by simpa using List.find?_some hfind
      exact .inr ⟨f, hf, hfound f hf⟩
  · cases testfd fd with
    | none => exact .inl ⟨_, rfl⟩
    | some f =>
      by_cases hf : (t f).status = .none
      · exact .inr ⟨f, hf, (if_pos hf).trans (hfound f hf)⟩
      · exact .inl ⟨_, if_neg hf⟩

/-- The entry is closed, or other uses are left. -/
theorem fopenCountDecFree_eq (h : e.openCount ≠ 1) :
    fopenCountDecFree e = .ok (none, { e with openCount := e.openCount - 1 }) :=
  if_neg (show ¬e.openCount - 1 = 0 by omega)

theorem fopenCountDecFree_last (h : e.openCount = 1) (hstatus : e.status = .closed)
    (hn : e.node = some n) :
    fopenCountDecFree e = .ok (some n, { e with openCount := e.openCount - 1 }) := by
  simp [fopenCountDecFree, fdArrayFree, h, hstatus, hn]

theorem fdArrayRelease_eq (hstatus : e.status = .opened ∨ e.status = .closed)
    (hcount : 0 < e.openCount) : fdArrayRelease e = fopenCountDecFree e := by
  rw [fdArrayRelease, if_neg (not_not_intro hstatus), if_neg (by omega)]

theorem fdArrayClose_eq (hstatus : e.status = .opened) (hcount : 0 < e.openCount) :
    fdArrayClose e = fopenCountDecFree { e with status := .closed } := by
  rw [fdArrayClose, if_neg (not_not_intro hstatus), if_neg (by omega)]

end UcoreMips.Kernel
