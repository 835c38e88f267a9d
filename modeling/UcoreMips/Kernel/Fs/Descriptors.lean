import UcoreMips.Kernel.Fs.FileTable

/-!
# UcoreMips.Kernel.Fs.Descriptors

**Processes that share their open files.** A call on an open file takes its entry
(`fd_array_acquire`), gives the work to the inode, and gives the entry back (`fd_array_release`);
in between it may be suspended, and other processes close the file, or open others. So may
`file_open` while the path is looked up, and whoever has to call `vfs_close`.

The calls are split where they may be suspended. What an operation of the inode returns is a parameter
of the step.
-/

namespace UcoreMips.Kernel

open UcoreMips.Lib
open Function (update update_of_ne update_self update_eq_self update_idem)

/-- The calls on an open file. -/
inductive FileCall
  | read
  | write
  | seek (pos : BitVec 32) (whence : Int)
  | fstat
  | fsync
  | getdirentry
  deriving Repr, DecidableEq

/-- The operation of the inode in which such a call is suspended. -/
inductive Vop
  | read
  | write
  /-- `file_seek` in `vop_fstat`. -/
  | seekEnd (pos : BitVec 32)
  | tryseek (pos : BitVec 32)
  | fstat
  | fsync
  | getdirentry
  deriving Repr, DecidableEq

inductive FdPlace
  | out
  /-- `file_open` in `vfs_open`; `access` is whether to read and whether to write. -/
  | opening (f : FdIndex) (access : Bool × Bool) (flags : BitVec 32)
  /-- `file_open` in `vop_fstat`. -/
  | statting (f : FdIndex) (access : Bool × Bool) (n : NodeId)
  /-- `file_open` in `vfs_close`, to return an error. -/
  | abandoning (f : FdIndex) (ret : Int)
  /-- Between `fd_array_acquire` and `fd_array_release`. -/
  | using (f : FdIndex) (op : Vop)
  /-- `fd_array_free` in `vfs_close`. -/
  | closing (f : FdIndex) (ret : Int)
  deriving Repr, DecidableEq

/-- What a process does with an entry. -/
inductive FdRole
  | opening
  | statting
  | abandoning
  | using
  | closing
  deriving Repr, DecidableEq

theorem FdRole.forall {Q : FdRole → Prop} : (∀ r, Q r) ↔
    Q .opening ∧ Q .statting ∧ Q .abandoning ∧ Q .using ∧ Q .closing :=
  ⟨fun h => ⟨h _, h _, h _, h _, h _⟩, fun ⟨h1, h2, h3, h4, h5⟩ r => by cases r <;> assumption⟩

@[simp] def FdPlace.role : FdPlace → Option (FdRole × FdIndex)
  | .out => none
  | .opening f _ _ => some (.opening, f)
  | .statting f _ _ => some (.statting, f)
  | .abandoning f _ => some (.abandoning, f)
  | .using f _ => some (.using, f)
  | .closing f _ => some (.closing, f)

/-- `opens` and `closes` count, for each entry, the calls of `vfs_open` that succeeded and the
duplicates that were made, and the calls of `vfs_close`. -/
structure FdSys (P : Type) where
  files : FdArray
  place : P → FdPlace
  /-- What the last call of the process has returned. -/
  ret : P → Int
  opens : FdIndex → Nat
  closes : FdIndex → Nat

inductive FdOp (P : Type)
  | fileOpen (p : P) (flags : BitVec 32)
  /-- `vfs_open` returns an error, or an inode. -/
  | vfsOpened (p : P) (r : Except Int NodeId)
  /-- `vop_fstat` returns an error, or the size. -/
  | openStatted (p : P) (r : Except Int (BitVec 32))
  | fileClose (p : P) (fd : Int)
  /-- `vfs_close` returns. -/
  | vfsClosed (p : P)
  | fileDup (p : P) (fd1 fd2 : Int)
  | fileCall (p : P) (fd : Int) (call : FileCall)
  /-- The operation of the inode returns, with the number of bytes or the size. -/
  | vopDone (p : P) (ret : Int) (value : BitVec 32)

def FdOp.proc {P : Type} : FdOp P → P
  | .fileOpen p _ | .vfsOpened p _ | .openStatted p _ | .fileClose p _ | .vfsClosed p
  | .fileDup p _ _ | .fileCall p _ _ | .vopDone p _ _ => p

namespace FdSys

variable {P : Type} [DecidableEq P]

def goto (m : FdSys P) (p : P) (x : FdPlace) : FdSys P :=
  { m with place := update m.place p x }

/-- The call of `p` returns. -/
def finish (m : FdSys P) (p : P) (ret : Int) : FdSys P :=
  { m.goto p .out with ret := update m.ret p ret }

omit [DecidableEq P] in
def setFile (m : FdSys P) (f : FdIndex) (e : File) : FdSys P :=
  { m with files := update m.files f e }

omit [DecidableEq P] in
def vfsOpen (m : FdSys P) (f : FdIndex) : FdSys P :=
  { m with opens := update m.opens f (m.opens f + 1) }

omit [DecidableEq P] in
def vfsClose (m : FdSys P) (f : FdIndex) : FdSys P :=
  { m with closes := update m.closes f (m.closes f + 1) }

/-- The call that gave up its use of an entry returns, or is in `vfs_close` first. -/
def settle (m : FdSys P) (p : P) (f : FdIndex) (ret : Int) : Option NodeId × File → FdSys P
  | (none, e) => (m.setFile f e).finish p ret
  | (some _, e) => ((m.setFile f e).vfsClose f).goto p (.closing f ret)

/-- The end of `file_open`. -/
def opened (m : FdSys P) (p : P) (f : FdIndex) (access : Bool × Bool) (n : NodeId) :
    Except FdStop (FdSys P) := do
  let e ← fdArrayOpen { m.files f with node := some n, readable := access.1, writable := access.2 }
  return (m.setFile f e).finish p e.fd

/-- When a step can be taken. -/
def Legal (m : FdSys P) : FdOp P → Prop
  | .fileOpen p _ | .fileClose p _ | .fileDup p _ _ | .fileCall p _ _ => m.place p = .out
  | .vfsOpened p _ => ∃ f access flags, m.place p = .opening f access flags
  | .openStatted p _ => ∃ f access n, m.place p = .statting f access n
  | .vfsClosed p => ∃ f ret, m.place p = .closing f ret ∨ m.place p = .abandoning f ret
  | .vopDone p _ _ => ∃ f op, m.place p = .using f op

/-- What is done between `fd_array_acquire` and the operation of the inode. -/
def enter (m : FdSys P) (p : P) (f : FdIndex) : FileCall → Except FdStop (FdSys P)
  | .read => .ok (m.goto p (.using f .read))
  | .write => .ok (m.goto p (.using f .write))
  | .fstat => .ok (m.goto p (.using f .fstat))
  | .fsync => .ok (m.goto p (.using f .fsync))
  | .getdirentry => .ok (m.goto p (.using f .getdirentry))
  | .seek pos whence =>
    if whence = lseekSet then .ok (m.goto p (.using f (.tryseek pos)))
    else if whence = lseekCur then .ok (m.goto p (.using f (.tryseek (pos + (m.files f).pos))))
    else if whence = lseekEnd then .ok (m.goto p (.using f (.seekEnd pos)))
    else do return m.settle p f (-eInval) (← fdArrayRelease (m.files f))

/-- Whether the entry is open for the call. -/
def permits (e : File) : FileCall → Bool
  | .read => e.readable
  | .write => e.writable
  | _ => true

/-- What is done with the entry when the operation of the inode has returned. -/
def vopEffect (e : File) (ret : Int) (value : BitVec 32) : Vop → File
  | .read | .write => if e.status = .opened then { e with pos := e.pos + value } else e
  | .tryseek pos => if ret = 0 then { e with pos := pos } else e
  | _ => e

def exec (m : FdSys P) : FdOp P → Except FdStop (FdSys P)
  | .fileOpen p flags =>
    match accessMode flags with
    | none => .ok (m.finish p (-eInval))
    | some access => do
      match ← fdArrayAlloc m.files noFd with
      | (.error ret, _) => return m.finish p ret
      | (.ok f, files) => return { m with files := files }.goto p (.opening f access flags)
  | .vfsOpened p r =>
    match m.place p, r with
    | .opening f _ _, .error ret => do return m.settle p f ret (← fdArrayFree (m.files f))
    | .opening f access flags, .ok n =>
      let m := (m.setFile f { m.files f with pos := 0 }).vfsOpen f
      if flags &&& oAppend ≠ 0 then .ok (m.goto p (.statting f access n)) else m.opened p f access n
    | _, _ => .ok m
  | .openStatted p r =>
    match m.place p, r with
    | .statting f _ _, .error ret => .ok ((m.vfsClose f).goto p (.abandoning f ret))
    | .statting f access n, .ok size =>
      (m.setFile f { m.files f with pos := size }).opened p f access n
    | _, _ => .ok m
  | .fileClose p fd =>
    match fd2file m.files fd with
    | none => .ok (m.finish p (-eInval))
    | some f => do return m.settle p f 0 (← fdArrayClose (m.files f))
  | .vfsClosed p =>
    match m.place p with
    | .closing f ret => .ok ((m.setFile f (fdArrayFreed (m.files f))).finish p ret)
    | .abandoning f ret => do return m.settle p f ret (← fdArrayFree (m.files f))
    | _ => .ok m
  | .fileDup p fd1 fd2 =>
    match fd2file m.files fd1 with
    | none => .ok (m.finish p (-eInval))
    | some f1 => do
      match ← fdArrayAlloc m.files fd2 with
      | (.error ret, _) => return m.finish p ret
      | (.ok f2, files) =>
        let (_, e) ← fdArrayDup (files f2) (files f1)
        return (({ m with files := files }.setFile f2 e).vfsOpen f2).finish p e.fd
  | .fileCall p fd call =>
    match fd2file m.files fd with
    | none => .ok (m.finish p (-eInval))
    | some f =>
      if permits (m.files f) call then do
        (m.setFile f (← fdArrayAcquire (m.files f))).enter p f call
      else .ok (m.finish p (-eInval))
  | .vopDone p ret value =>
    match m.place p with
    | .using f (.seekEnd pos) =>
      if ret = 0 then .ok (m.goto p (.using f (.tryseek (pos + value))))
      else do return m.settle p f ret (← fdArrayRelease (m.files f))
    | .using f op => do
      return m.settle p f ret (← fdArrayRelease (vopEffect (m.files f) ret value op))
    | _ => .ok m

def Step (m m' : FdSys P) (op : FdOp P) : Prop := m.Legal op ∧ m.exec op = .ok m'

/-- All entries are free. -/
def Start (m : FdSys P) : Prop :=
  (∃ t, m.files = fdArrayInit t) ∧ (∀ p, m.place p = .out) ∧ ∀ f, m.opens f = 0 ∧ m.closes f = 0

inductive Reachable : FdSys P → Prop
  | start {m : FdSys P} (h : m.Start) : Reachable m
  | step {m m' : FdSys P} {op : FdOp P} (h : Reachable m) (hstep : m.Step m' op) : Reachable m'

/-! ### What holds between two steps -/

variable [Fintype P]

/-- The number of processes that are at the entry in this way. -/
def tally (m : FdSys P) (f : FdIndex) (r : FdRole) : Nat :=
  headcount (fun p => (m.place p).role) (some (r, f))

/-- The count of an entry is that of the calls that use it, and one more while it is open. The last
one to give up a closed entry is in `vfs_close` for it. -/
def Fits (e : File) (count : FdRole → Nat) (opens closes : Nat) : Prop :=
  match e.status with
  | .none => e.openCount = 0 ∧ (∀ r, count r = 0) ∧ opens = closes
  | .init => e.openCount = 0 ∧ count .opening + count .statting + count .abandoning = 1 ∧
      count .using = 0 ∧ count .closing = 0 ∧ opens = closes + count .statting
  | .opened => e.openCount = count .using + 1 ∧ e.node.isSome ∧ (∀ r, r ≠ .using → count r = 0) ∧
      opens = closes + 1
  | .closed => e.openCount = count .using ∧ e.node.isSome ∧
      (∀ r, r ≠ .using → r ≠ .closing → count r = 0) ∧
      (count .using = 0 ∧ count .closing = 1 ∧ opens = closes ∨
        0 < count .using ∧ count .closing = 0 ∧ opens = closes + 1)

structure Inv (m : FdSys P) : Prop where
  fd : ∀ f, (m.files f).fd = f
  fits : ∀ f, Fits (m.files f) (m.tally f) (m.opens f) (m.closes f)

variable {m m' : FdSys P} {p q : P} {f : FdIndex} {e : File} {x : FdPlace} {r : FdRole}
  {a b : Option FdRole} {access : Bool × Bool} {op : FdOp P}

/-- One process moves. -/
theorem tally_move (hplace : m'.place = update m.place p x) (f : FdIndex) (r : FdRole) :
    m'.tally f r + (if (m.place p).role = some (r, f) then 1 else 0) =
      m.tally f r + if x.role = some (r, f) then 1 else 0 := by
  have hrole : (fun q => (m'.place q).role) =
      update (fun q => (m.place q).role) p x.role := by
    rw [hplace]
    exact Function.comp_update FdPlace.role m.place p x
  rw [tally, hrole]
  exact headcount_update _ p _ x.role

section Status

omit [DecidableEq P]

theorem tally_pos (hp : (m.place p).role = some (r, f)) : 0 < m.tally f r :=
  headcount_pos hp

theorem not_using (h : m.tally f .using = 0) (q : P) (op : Vop) : m.place q ≠ .using f op :=
  fun hq => headcount_eq_zero.mp h q (by simp [hq])

/-- An entry that is being opened. -/
theorem Inv.init_of_opening (h : m.Inv) (hr : r ≠ .using ∧ r ≠ .closing)
    (hp : (m.place p).role = some (r, f)) : (m.files f).status = .init ∧ (m.files f).openCount = 0 ∧
      m.tally f .opening + m.tally f .statting + m.tally f .abandoning = 1 ∧ m.tally f .using = 0 ∧
      m.tally f .closing = 0 ∧ m.opens f = m.closes f + m.tally f .statting := by
  have hpos := tally_pos hp
  have hfits := h.fits f
  unfold Fits at hfits
  cases hs : (m.files f).status <;> simp only [hs] at hfits
  case none => exact absurd (hfits.2.1 r) (by omega)
  case init => exact ⟨rfl, hfits⟩
  case opened => exact absurd (hfits.2.2.1 r hr.1) (by omega)
  case closed => exact absurd (hfits.2.2.1 r hr.1 hr.2) (by omega)

theorem Inv.status_of_using (h : m.Inv) (hr : r = .using ∨ r = .closing)
    (hp : (m.place p).role = some (r, f)) :
    r = .using ∧ (m.files f).status = .opened ∨ (m.files f).status = .closed := by
  have hpos := tally_pos hp
  have hfits := h.fits f
  unfold Fits at hfits
  cases hs : (m.files f).status <;> simp only [hs] at hfits
  case none => exact absurd (hfits.2.1 r) (by omega)
  case init => rcases hr with rfl | rfl <;> omega
  case opened => exact .inl ⟨by_contra fun hne => absurd (hfits.2.2.1 r hne) (by omega), rfl⟩
  case closed => exact .inr rfl

end Status

/-- When `vfs_close` is called for an entry: it has been closed, and no call uses it; or `file_open`
fails after `vfs_open`. -/
def Closes (m m' : FdSys P) (p : P) (f : FdIndex) : Prop :=
  (∃ access n, m.place p = .statting f access n) ∨
    (m'.files f).status = .closed ∧ ∀ q op, m'.place q ≠ .using f op

/-- What a step of `p` does. -/
structure After (m m' : FdSys P) (p : P) : Prop where
  inv : m'.Inv
  closes : ∀ f, m'.closes f = m.closes f ∨ m'.closes f = m.closes f + 1 ∧ Closes m m' p f
  opened : ∀ f, (m'.files f).status = .opened → (m.files f).status ≠ .closed
  node : ∀ f q op, m.place q = .using f op → (m'.files f).node = (m.files f).node

/-- The numbers of the processes at an entry change with one process, which does the one thing before
and the other after the step. -/
def Moves (a b : Option FdRole) (count count' : FdRole → Nat) : Prop :=
  ∀ r, count' r + (if a = some r then 1 else 0) = count r + if b = some r then 1 else 0

theorem tally_moves (hplace : m'.place = update m.place p x)
    (hp : (m.place p).role = a.map (·, f)) (hx : x.role = b.map (·, f)) :
    Moves a b (m.tally f) (m'.tally f) := by
  intro r
  have hmove := tally_move hplace f r
  rw [hp, hx] at hmove
  cases a <;> cases b <;> simpa using hmove

section Steps

variable (h : m.Inv)

include h

/-- A step changes one entry, and the place of one process, which is at no other entry before and
after it. -/
theorem Inv.edit (hplace : m'.place = update m.place p x) (hfiles : m'.files = update m.files f e)
    (hp : (m.place p).role = a.map (·, f)) (hx : x.role = b.map (·, f))
    (hopens : ∀ k, k ≠ f → m'.opens k = m.opens k)
    (hcloses : ∀ k, k ≠ f → m'.closes k = m.closes k) (hfd : e.fd = (m.files f).fd)
    (hfits : ∀ count, Moves a b (m.tally f) count → Fits e count (m'.opens f) (m'.closes f))
    (hclose : m'.closes f = m.closes f ∨ m'.closes f = m.closes f + 1 ∧
      ((∃ access n, m.place p = .statting f access n) ∨
        e.status = .closed ∧ ∀ count, Moves a b (m.tally f) count → count .using = 0))
    (hopened : e.status = .opened → (m.files f).status ≠ .closed)
    (hnode : 0 < m.tally f .using → e.node = (m.files f).node) : After m m' p := by
  have hself : m'.files f = e := by rw [hfiles, update_self]
  have hother : ∀ k, k ≠ f → m'.files k = m.files k := fun k hk => by
    rw [hfiles, update_of_ne hk]
  have htally : ∀ k, k ≠ f → m'.tally k = m.tally k := fun k hk => funext fun r => by
    have hmove := tally_move hplace k r
    rw [hp, hx] at hmove
    cases a <;> cases b <;> simpa [Ne.symm hk] using hmove
  refine ⟨⟨fun k => ?_, fun k => ?_⟩, fun k => ?_, fun k => ?_, fun k q op hq => ?_⟩ <;>
    by_cases hk : k = f
  · rw [hk, hself, hfd, h.fd]
  · rw [hother k hk, h.fd]
  · rw [hk, hself]
    exact hfits _ (tally_moves hplace hp hx)
  · rw [hother k hk, htally k hk, hopens k hk, hcloses k hk]
    exact h.fits k
  · rw [hk]
    exact hclose.imp_right fun ⟨heq, hclosed⟩ => ⟨heq, hclosed.imp_right fun ⟨hs, hcount⟩ =>
      ⟨hself ▸ hs, not_using (hcount _ (tally_moves hplace hp hx))⟩⟩
  · exact .inl (hcloses k hk)
  · rw [hk, hself]
    exact hopened
  · rw [hother k hk]
    intro hs
    simp [hs]
  · rw [hk, hself]
    exact hnode (tally_pos (p := q) (by simp [hq, hk]))
  · rw [hother k hk]

/-- A call returns at once. -/
theorem Inv.finish (hp : m.place p = .out) (ret : Int) : After m (m.finish p ret) p := by
  have hplace : (m.finish p ret).place = m.place := by
    rw [← update_eq_self p m.place, hp]
    rfl
  have htally : (m.finish p ret).tally = m.tally := by
    unfold tally
    rw [hplace]
  refine ⟨⟨h.fd, fun f => htally ▸ h.fits f⟩, fun f => .inl rfl, fun f hs => ?_, fun _ _ _ _ => rfl⟩
  rw [show (m.files f).status = .opened from hs]
  nofun

omit [DecidableEq P] in
theorem Inv.count_of_none (hs : (m.files f).status = .none) : (m.files f).openCount = 0 := by
  have hfits := h.fits f
  simp only [Fits, hs] at hfits
  exact hfits.1

/-- An entry is taken for `file_open`. -/
theorem Inv.alloc (hp : m.place p = .out) (hs : (m.files f).status = .none)
    (access : Bool × Bool) (flags : BitVec 32) :
    After m ((m.setFile f { m.files f with status := .init, node := none }).goto p
      (.opening f access flags)) p := by
  have hfits := h.fits f
  simp only [Fits, hs] at hfits
  obtain ⟨hcount, hnone, hlog⟩ := hfits
  refine h.edit (f := f) (a := none) (b := some .opening) rfl rfl (by simp [hp]) rfl (fun _ _ => rfl)
    (fun _ _ => rfl) rfl (fun count hmoves => ?_) (.inl rfl) nofun fun hpos => ?_
  · simp [Moves, FdRole.forall, hnone] at hmoves
    simp [Fits, hmoves, hcount, hlog, goto, setFile]
  · exact absurd (hnone .using) (by omega)

theorem Inv.exec_fileOpen (hp : m.place p = .out) (flags : BitVec 32) :
    ∃ m', m.exec (.fileOpen p flags) = .ok m' ∧ After m m' p := by
  cases haccess : accessMode flags with
  | none => exact ⟨m.finish p (-eInval), by simp only [exec, haccess], h.finish hp _⟩
  | some access =>
    rcases fdArrayAlloc_spec (t := m.files) (fun f => h.count_of_none) noFd with
      ⟨ret, halloc⟩ | ⟨f, hs, halloc⟩
    · exact ⟨_, by simp only [exec, haccess, halloc]; rfl, h.finish hp _⟩
    · exact ⟨_, by simp only [exec, haccess, halloc]; rfl, h.alloc hp hs access flags⟩

/-- `file_open` gives its entry back. -/
theorem Inv.drop (hr : r = .opening ∨ r = .abandoning)
    (hp : (m.place p).role = some (r, f)) (ret : Int) :
    ∃ m', (do return m.settle p f ret (← fdArrayFree (m.files f))) = (.ok m' : Except FdStop _) ∧
      After m m' p := by
  obtain ⟨hs, hcount, hone, husing, hclosing, hlog⟩ :=
    h.init_of_opening (by rcases hr with rfl | rfl <;> simp) hp
  have hpos := tally_pos hp
  refine ⟨(m.setFile f { m.files f with status := .none }).finish p ret, ?_, ?_⟩
  · simp [fdArrayFree, hs, hcount, settle]
  · refine h.edit (f := f) (a := some r) (b := none) rfl rfl hp rfl (fun _ _ => rfl)
      (fun _ _ => rfl) rfl (fun count hmoves => ?_) (.inl rfl) (by rintro ⟨⟩) fun hpos => by omega
    have hm := FdRole.forall.mp hmoves
    show (m.files f).openCount = 0 ∧ (∀ r, count r = 0) ∧ m.opens f = m.closes f
    rw [FdRole.forall]
    rcases hr with rfl | rfl <;> simp at hm <;> omega

/-- `file_open` comes to its end. -/
theorem Inv.opened {t : FdSys P} (hr : r = .opening ∨ r = .statting)
    (hp : (m.place p).role = some (r, f)) (hfiles : t.files = update m.files f e)
    (hplace : t.place = m.place) (hopens : ∀ k, k ≠ f → t.opens k = m.opens k)
    (hopen : t.opens f = m.opens f + if r = .opening then 1 else 0) (hcloses : t.closes = m.closes)
    (he : e.status = .init ∧ e.openCount = 0 ∧ e.fd = f) (access : Bool × Bool) (n : NodeId) :
    ∃ m'', t.opened p f access n = .ok m'' ∧ After m m'' p := by
  obtain ⟨hs, -, hone, husing, hclosing, hlog⟩ :=
    h.init_of_opening (by rcases hr with rfl | rfl <;> simp) hp
  have hpos := tally_pos hp
  have hself : t.files f = e := by rw [hfiles, update_self]
  obtain ⟨e', hopened, hs', hcount', hnode', hfd'⟩ : ∃ e', fdArrayOpen { t.files f with
      node := some n, readable := access.1, writable := access.2 } = .ok e' ∧ e'.status = .opened ∧
      e'.openCount = 1 ∧ e'.node = some n ∧ e'.fd = f := by
    rw [hself, fdArrayOpen, if_neg (by simp [he])]
    exact ⟨_, rfl, rfl, by simp [he], rfl, he.2.2⟩
  refine ⟨(t.setFile f e').finish p e'.fd, ?_, ?_⟩
  · simp only [FdSys.opened, hopened, ok_bind, pure_eq_ok]
  · refine h.edit (f := f) (a := some r) (b := none) (x := .out) (e := e') ?_ ?_ hp rfl hopens
      (fun k _ => congrFun hcloses k) ?_ (fun count hmoves => ?_) (.inl (congrFun hcloses f))
      (fun _ => by simp [hs]) fun hpos => by omega
    · exact congrArg (update · p .out) hplace
    · exact (congrArg (update · f _) hfiles).trans (update_idem ..)
    · rw [hfd', h.fd]
    · have hm := FdRole.forall.mp hmoves
      show Fits e' count (t.opens f) (t.closes f)
      simp only [Fits, hs', FdRole.forall, hcloses, hcount', hnode', Option.isSome_some]
      rcases hr with rfl | rfl <;> simp at hm hopen ⊢ <;> omega

theorem Inv.exec_vfsOpened {flags : BitVec 32}
    (hp : m.place p = .opening f access flags) (r : Except Int NodeId) :
    ∃ m', m.exec (.vfsOpened p r) = .ok m' ∧ After m m' p := by
  have hrole : (m.place p).role = some (.opening, f) := by simp [hp]
  obtain ⟨hs, hcount, hone, husing, hclosing, hlog⟩ := h.init_of_opening (by simp) hrole
  cases r with
  | error ret =>
    simp only [exec, hp]
    exact h.drop (.inl rfl) hrole ret
  | ok n =>
    simp only [exec, hp]
    split
    · refine ⟨_, rfl, ?_⟩
      refine h.edit (f := f) (a := some .opening) (b := some .statting) rfl rfl hrole rfl
        (fun k hk => update_of_ne hk ..) (fun _ _ => rfl) rfl (fun count hmoves => ?_)
        (.inl rfl) (fun _ => by simp [hs]) fun hpos => by omega
      have hm := FdRole.forall.mp hmoves
      simp at hm
      show Fits _ count (update m.opens f (m.opens f + 1) f) (m.closes f)
      simp only [Fits, hs, update_self]
      omega
    · refine h.opened (t := (m.setFile f { m.files f with pos := 0 }).vfsOpen f) (.inl rfl) hrole rfl
        rfl (fun k hk => update_of_ne hk ..) ?_ rfl ⟨hs, hcount, h.fd f⟩ access n
      exact update_self ..

theorem Inv.exec_openStatted {n : NodeId}
    (hp : m.place p = .statting f access n) (r : Except Int (BitVec 32)) :
    ∃ m', m.exec (.openStatted p r) = .ok m' ∧ After m m' p := by
  have hrole : (m.place p).role = some (.statting, f) := by simp [hp]
  obtain ⟨hs, hcount, hone, husing, hclosing, hlog⟩ := h.init_of_opening (by simp) hrole
  cases r with
  | error ret =>
    simp only [exec, hp]
    refine ⟨_, rfl, ?_⟩
    refine h.edit (f := f) (a := some .statting) (b := some .abandoning) (e := m.files f) rfl
      (update_eq_self ..).symm hrole rfl (fun _ _ => rfl)
      (fun k hk => update_of_ne hk ..) rfl (fun count hmoves => ?_) (.inr ⟨?_, ?_⟩)
      (fun _ => by simp [hs]) fun _ => rfl
    · have hm := FdRole.forall.mp hmoves
      simp at hm
      show Fits _ count (m.opens f) (update m.closes f (m.closes f + 1) f)
      simp only [Fits, hs, update_self]
      omega
    · exact update_self ..
    · exact .inl ⟨access, n, hp⟩
  | ok size =>
    simp only [exec, hp]
    exact h.opened (t := m.setFile f { m.files f with pos := size }) (.inr rfl) hrole rfl rfl
      (fun _ _ => rfl) rfl rfl ⟨hs, hcount, h.fd f⟩ access n

end Steps

theorem Moves.refl_iff {count count' : FdRole → Nat} : Moves none none count count' ↔ count' = count := by
  simp [Moves, funext_iff]

/-- A call gives up its use of an entry. -/
theorem Inv.release (h : m.Inv) (hp : (m.place p).role = some (.using, f))
    (hstatus : e.status = (m.files f).status) (hopen : e.openCount = (m.files f).openCount)
    (hnode : e.node = (m.files f).node) (hfd : e.fd = (m.files f).fd) (ret : Int) :
    ∃ m', (do return m.settle p f ret (← fdArrayRelease e)) = (.ok m' : Except FdStop _) ∧
      After m m' p := by
  have hpos := tally_pos hp
  have hs := (h.status_of_using (.inl rfl) hp).imp_left And.right
  have hfits := h.fits f
  rw [← hstatus] at hs
  unfold Fits at hfits
  rw [← hopen, ← hnode, ← hstatus] at hfits
  have hcount : 0 < e.openCount := by
    rcases hs with hs | hs <;> simp only [hs] at hfits <;> omega
  have hsome : e.node.isSome := by
    rcases hs with hs | hs <;> simp only [hs] at hfits <;> exact hfits.2.1
  rw [fdArrayRelease_eq hs hcount]
  by_cases hlast : e.openCount = 1
  · -- The last use, and the entry has been closed.
    have hclosed : e.status = .closed := by
      rcases hs with hs | hs
      · simp only [hs] at hfits
        omega
      · exact hs
    simp only [hclosed] at hfits
    obtain ⟨husing, -, hzero, hphase⟩ := hfits
    obtain ⟨n, hn⟩ := Option.isSome_iff_exists.mp hsome
    rw [fopenCountDecFree_last hlast hclosed hn]
    refine ⟨_, rfl, h.edit (f := f) (a := some .using) (b := some .closing) rfl rfl hp rfl
      (fun _ _ => rfl) (fun k hk => update_of_ne hk ..) hfd (fun count hmoves => ?_)
      (.inr ⟨update_self .., .inr ⟨hclosed, fun count hmoves => ?_⟩⟩) (by simp [hclosed])
      fun _ => hnode⟩
    · have hm := FdRole.forall.mp hmoves
      simp at hm
      show Fits _ count (m.opens f) (update m.closes f (m.closes f + 1) f)
      simp only [Fits, hclosed, hn, FdRole.forall, update_self] at hzero ⊢
      simp at hzero ⊢
      omega
    · have hm := hmoves .using
      simp at hm
      omega
  · rw [fopenCountDecFree_eq hlast]
    refine ⟨_, rfl, h.edit (f := f) (a := some .using) (b := none) rfl rfl hp rfl (fun _ _ => rfl)
      (fun _ _ => rfl) hfd (fun count hmoves => ?_) (.inl rfl) (fun hs' => ?_) fun _ => hnode⟩
    · have hm := FdRole.forall.mp hmoves
      simp at hm
      show Fits _ count (m.opens f) (m.closes f)
      rcases hs with hs | hs <;> simp only [Fits, hs, hsome, FdRole.forall] at hfits ⊢ <;>
        simp at hfits ⊢ <;> omega
    · rw [← hstatus, show e.status = _ from hs']
      nofun

theorem Inv.exec_fileClose (h : m.Inv) (hp : m.place p = .out) (fd : Int) :
    ∃ m', m.exec (.fileClose p fd) = .ok m' ∧ After m m' p := by
  cases hfd : fd2file m.files fd with
  | none => exact ⟨m.finish p (-eInval), by simp only [exec, hfd], h.finish hp _⟩
  | some f =>
    have hs := (fd2file_eq_some hfd).1
    have hfits := h.fits f
    simp only [Fits, hs] at hfits
    obtain ⟨hcount, hsome, hzero, hlog⟩ := hfits
    obtain ⟨n, hn⟩ := Option.isSome_iff_exists.mp hsome
    simp only [exec, hfd]
    rw [fdArrayClose_eq hs (by omega)]
    by_cases hlast : (m.files f).openCount = 1
    · rw [fopenCountDecFree_last (e := { m.files f with status := .closed }) hlast rfl hn]
      refine ⟨_, rfl, h.edit (f := f) (a := none) (b := some .closing) rfl rfl (by simp [hp]) rfl
        (fun _ _ => rfl) (fun k hk => update_of_ne hk ..) rfl (fun count hmoves => ?_)
        (.inr ⟨update_self .., .inr ⟨rfl, fun count hmoves => ?_⟩⟩) nofun fun _ => rfl⟩
      · have hm := FdRole.forall.mp hmoves
        simp at hm
        show Fits _ count (m.opens f) (update m.closes f (m.closes f + 1) f)
        simp only [Fits, hn, FdRole.forall, update_self] at hzero ⊢
        simp at hzero ⊢
        omega
      · have hm := hmoves .using
        simp at hm
        omega
    · rw [fopenCountDecFree_eq (e := { m.files f with status := .closed }) hlast]
      refine ⟨_, rfl, h.edit (f := f) (a := none) (b := none) rfl rfl (by simp [hp]) rfl
        (fun _ _ => rfl) (fun _ _ => rfl) rfl (fun count hmoves => ?_) (.inl rfl) nofun fun _ => rfl⟩
      obtain rfl := Moves.refl_iff.mp hmoves
      show Fits _ _ (m.opens f) (m.closes f)
      simp only [Fits, hn, FdRole.forall] at hzero ⊢
      simp at hzero ⊢
      omega

theorem Inv.exec_vfsClosed (h : m.Inv) {ret : Int}
    (hp : m.place p = .closing f ret ∨ m.place p = .abandoning f ret) :
    ∃ m', m.exec (.vfsClosed p) = .ok m' ∧ After m m' p := by
  rcases hp with hp | hp
  · have hrole : (m.place p).role = some (.closing, f) := by simp [hp]
    have hpos := tally_pos hrole
    obtain ⟨⟨⟩, -⟩ | hs := h.status_of_using (.inr rfl) hrole
    have hfits := h.fits f
    simp only [Fits, hs] at hfits
    obtain ⟨hcount, -, hzero, hlog⟩ := hfits
    simp only [exec, hp]
    refine ⟨_, rfl, h.edit (f := f) (a := some .closing) (b := none) rfl rfl hrole rfl
      (fun _ _ => rfl) (fun _ _ => rfl) rfl (fun count hmoves => ?_) (.inl rfl) nofun fun _ => rfl⟩
    have hm := FdRole.forall.mp hmoves
    simp at hm
    show (m.files f).openCount = 0 ∧ (∀ r, count r = 0) ∧ m.opens f = m.closes f
    simp only [FdRole.forall] at hzero ⊢
    simp at hzero
    omega
  · simp only [exec, hp]
    exact h.drop (.inr rfl) (by simp [hp]) ret

section Calls

variable (h : m.Inv) (hp : m.place p = .out)

include h hp

theorem Inv.exec_fileDup (fd1 fd2 : Int) :
    ∃ m', m.exec (.fileDup p fd1 fd2) = .ok m' ∧ After m m' p := by
  cases hfd : fd2file m.files fd1 with
  | none => exact ⟨m.finish p (-eInval), by simp only [exec, hfd], h.finish hp _⟩
  | some f1 =>
    have hs1 := (fd2file_eq_some hfd).1
    have hfits1 := h.fits f1
    simp only [Fits, hs1] at hfits1
    obtain ⟨n, hn⟩ := Option.isSome_iff_exists.mp hfits1.2.1
    rcases fdArrayAlloc_spec (t := m.files) (fun f => h.count_of_none) fd2 with
      ⟨ret, halloc⟩ | ⟨f, hs, halloc⟩
    · exact ⟨m.finish p ret, by simp only [exec, hfd, halloc]; rfl, h.finish hp _⟩
    · have hne : f1 ≠ f := by
        rintro rfl
        exact nomatch hs1.symm.trans hs
      have hfits := h.fits f
      simp only [Fits, hs] at hfits
      obtain ⟨hcount, hzero, hlog⟩ := hfits
      simp only [exec, hfd, halloc, ok_bind, update_self, update_of_ne hne,
        fdArrayDup, fdArrayOpen, hs1, hn]
      refine ⟨_, rfl, h.edit (f := f) (a := none) (b := none) rfl (update_idem ..)
        (by simp [hp]) rfl (fun k hk => update_of_ne hk ..) (fun _ _ => rfl) rfl
        (fun count hmoves => ?_) (.inl rfl) (fun _ => by simp [hs]) fun hpos => ?_⟩
      · obtain rfl := Moves.refl_iff.mp hmoves
        show (m.files f).openCount + 1 = _ ∧ _ ∧ _ ∧ update m.opens f (m.opens f + 1) f = _
        simp [hcount, hzero, hlog, FdSys.finish, goto, vfsOpen, setFile]
      · exact absurd (hzero .using) (by omega)

/-- A call takes its entry. -/
theorem Inv.acquire (hs : (m.files f).status = .opened) (op : Vop) :
    After m ((m.setFile f { m.files f with openCount := (m.files f).openCount + 1 }).goto p
      (.using f op)) p := by
  have hfits := h.fits f
  simp only [Fits, hs] at hfits
  obtain ⟨hcount, hsome, hzero, hlog⟩ := hfits
  refine h.edit (f := f) (a := none) (b := some .using) rfl rfl (by simp [hp]) rfl (fun _ _ => rfl)
    (fun _ _ => rfl) rfl (fun count hmoves => ?_) (.inl rfl) (fun _ => by simp [hs]) fun _ => rfl
  have hm := FdRole.forall.mp hmoves
  simp at hm
  show Fits _ count (m.opens f) (m.closes f)
  simp only [Fits, hs, hsome, FdRole.forall] at hzero ⊢
  simp at hzero ⊢
  omega

/-- `file_seek` with no such `whence` takes its entry, and gives it back. -/
theorem Inv.acquire_release (hs : (m.files f).status = .opened) (ret : Int) : ∃ m', (do
        let m := m.setFile f { m.files f with openCount := (m.files f).openCount + 1 }
        return m.settle p f ret (← fdArrayRelease (m.files f))) = (.ok m' : Except FdStop _) ∧
      After m m' p := by
  have hfits := h.fits f
  simp only [Fits, hs] at hfits
  obtain ⟨hcount, -⟩ := hfits
  have hrelease : fdArrayRelease { m.files f with openCount := (m.files f).openCount + 1 } =
      .ok (none, { m.files f with openCount := (m.files f).openCount + 1 - 1 }) := by
    rw [fdArrayRelease_eq (e := { m.files f with openCount := (m.files f).openCount + 1 }) (.inl hs)
      (by simp only; omega), fopenCountDecFree_eq (by simp only; omega)]
  simp only [setFile, update_self, hrelease]
  refine ⟨_, rfl, h.edit (f := f) (a := none) (b := none) rfl (update_idem ..) (by simp [hp])
    rfl (fun _ _ => rfl) (fun _ _ => rfl) rfl (fun count hmoves => ?_) (.inl rfl)
    (fun _ => by simp [hs]) fun _ => rfl⟩
  obtain rfl := Moves.refl_iff.mp hmoves
  simp only [Int.add_sub_cancel]
  exact h.fits f

theorem Inv.enter (hs : (m.files f).status = .opened) (call : FileCall) : ∃ m',
      (m.setFile f { m.files f with openCount := (m.files f).openCount + 1 }).enter p f call = .ok m' ∧
        After m m' p := by
  cases call with
  | read | write | fstat | fsync | getdirentry => exact ⟨_, rfl, h.acquire hp hs _⟩
  | seek pos whence =>
    rw [FdSys.enter]
    split
    · exact ⟨_, rfl, h.acquire hp hs _⟩
    · split
      · exact ⟨_, rfl, h.acquire hp hs _⟩
      · split
        · exact ⟨_, rfl, h.acquire hp hs _⟩
        · exact h.acquire_release hp hs (-eInval)

theorem Inv.exec_fileCall (fd : Int) (call : FileCall) :
    ∃ m', m.exec (.fileCall p fd call) = .ok m' ∧ After m m' p := by
  cases hfd : fd2file m.files fd with
  | none => exact ⟨m.finish p (-eInval), by simp only [exec, hfd], h.finish hp _⟩
  | some f =>
    have hs := (fd2file_eq_some hfd).1
    simp only [exec, hfd]
    split
    · rw [fdArrayAcquire, if_neg (not_not_intro hs)]
      exact h.enter hp hs call
    · exact ⟨_, rfl, h.finish hp _⟩

end Calls

omit [DecidableEq P] [Fintype P] in
theorem vopEffect_same (e : File) (ret : Int) (value : BitVec 32) (op : Vop) :
    (vopEffect e ret value op).status = e.status ∧ (vopEffect e ret value op).openCount = e.openCount ∧
    (vopEffect e ret value op).node = e.node ∧ (vopEffect e ret value op).fd = e.fd := by
  cases op <;> simp only [vopEffect] <;> (try split) <;> simp

theorem Inv.exec_vopDone (h : m.Inv) {op : Vop} (hp : m.place p = .using f op) (ret : Int)
    (value : BitVec 32) : ∃ m', m.exec (.vopDone p ret value) = .ok m' ∧ After m m' p := by
  have hrole : (m.place p).role = some (.using, f) := by simp [hp]
  obtain ⟨hs, hcount, hnode, hfd⟩ := vopEffect_same (m.files f) ret value op
  by_cases hseek : ∃ pos, op = .seekEnd pos
  · obtain ⟨pos, rfl⟩ := hseek
    simp only [exec, hp]
    split
    · refine ⟨_, rfl, h.edit (f := f) (a := some .using) (b := some .using) (e := m.files f) rfl
        (update_eq_self ..).symm hrole rfl (fun _ _ => rfl) (fun _ _ => rfl) rfl
        (fun count hmoves => ?_) (.inl rfl) (fun hs => by simp [hs]) fun _ => rfl⟩
      obtain rfl : count = m.tally f := funext fun r => Nat.add_right_cancel (hmoves r)
      exact h.fits f
    · exact h.release hrole rfl rfl rfl rfl ret
  · have hexec : m.exec (.vopDone p ret value) =
        (do return m.settle p f ret (← fdArrayRelease (vopEffect (m.files f) ret value op))) := by
      cases op with
      | seekEnd pos => exact absurd ⟨pos, rfl⟩ hseek
      | _ => simp only [exec, hp]
    rw [hexec]
    exact h.release hrole hs hcount hnode hfd ret

/-- No assertion fails in a step. -/
theorem Inv.exec (h : m.Inv) (hlegal : m.Legal op) :
    ∃ m', m.exec op = .ok m' ∧ After m m' op.proc := by
  cases op with
  | fileOpen p flags => exact h.exec_fileOpen hlegal flags
  | vfsOpened p r =>
    obtain ⟨f, access, flags, hp⟩ := hlegal
    exact h.exec_vfsOpened hp r
  | openStatted p r =>
    obtain ⟨f, access, n, hp⟩ := hlegal
    exact h.exec_openStatted hp r
  | fileClose p fd => exact h.exec_fileClose hlegal fd
  | vfsClosed p =>
    obtain ⟨f, ret, hp⟩ := hlegal
    exact h.exec_vfsClosed hp
  | fileDup p fd1 fd2 => exact h.exec_fileDup hlegal fd1 fd2
  | fileCall p fd call => exact h.exec_fileCall hlegal fd call
  | vopDone p ret value =>
    obtain ⟨f, op, hp⟩ := hlegal
    exact h.exec_vopDone hp ret value

theorem Inv.step (h : m.Inv) (hstep : m.Step m' op) : After m m' op.proc := by
  obtain ⟨m'', hexec, hafter⟩ := h.exec hstep.1
  obtain rfl := Except.ok.inj (hexec.symm.trans hstep.2)
  exact hafter

omit [DecidableEq P] in
theorem Start.inv (h : m.Start) : m.Inv := by
  obtain ⟨⟨t, hfiles⟩, hplace, hlog⟩ := h
  refine ⟨fun f => by rw [hfiles]; rfl, fun f => ?_⟩
  have hzero : ∀ r, m.tally f r = 0 := fun r => headcount_eq_zero.mpr fun p => by simp [hplace]
  rw [hfiles]
  exact ⟨rfl, hzero, (hlog f).1.trans (hlog f).2.symm⟩

theorem Reachable.inv (h : m.Reachable) : m.Inv := by
  induction h with
  | start h => exact h.inv
  | step _ hstep ih => exact (ih.step hstep).inv

section Idle

omit [DecidableEq P]

/-- An entry has no uses when it is free or being opened, and while `vfs_close` is called for it. -/
theorem Inv.openCount_eq_zero (h : m.Inv) (f : FdIndex) : (m.files f).openCount = 0 ↔
    ((m.files f).status = .none ∨ (m.files f).status = .init) ∨ ∃ p ret, m.place p = .closing f ret := by
  have hnone : m.tally f .closing = 0 ↔ ¬∃ p ret, m.place p = .closing f ret := by
    rw [tally, headcount_eq_zero]
    constructor
    · rintro hzero ⟨p, ret, hp⟩
      exact hzero p (by simp [hp])
    · intro hno p hp
      cases hplace : m.place p <;> simp [hplace] at hp
      exact hno ⟨p, _, hplace.trans (by rw [hp])⟩
  have hfits := h.fits f
  unfold Fits at hfits
  cases hs : (m.files f).status <;> simp only [hs] at hfits
  case none => simp [hfits]
  case init => simp [hfits]
  case opened =>
    have hzero := hfits.2.2.1 .closing (by simp)
    simp only [hnone.mp hzero, or_false, reduceCtorEq, iff_false]
    omega
  case closed =>
    by_cases hclosing : m.tally f .closing = 0
    · simp only [hnone.mp hclosing, or_false, reduceCtorEq, iff_false]
      omega
    · simp only [not_not.mp (fun hno => hclosing (hnone.mpr hno)), or_true, iff_true]
      omega

/-- Whoever is at an entry in some way is counted. -/
theorem Inv.idle (h : m.Inv) (hs : (m.files f).status = .none ∨ (m.files f).status = .init) :
    (∀ p op, m.place p ≠ .using f op) ∧ (∀ p ret, m.place p ≠ .closing f ret) ∧
      m.opens f = m.closes f + m.tally f .statting := by
  have hfits := h.fits f
  unfold Fits at hfits
  have hzero : m.tally f .using = 0 ∧ m.tally f .closing = 0 ∧
      m.opens f = m.closes f + m.tally f .statting := by
    rcases hs with hs | hs <;> simp only [hs] at hfits
    · simp [hfits]
    · exact hfits.2.2
  exact ⟨not_using hzero.1, fun p ret hp => headcount_eq_zero.mp hzero.2.1 p (by simp [hp]), hzero.2.2⟩

/-- The inodes that were opened for an entry and are still to be closed. -/
theorem Inv.log (h : m.Inv) (f : FdIndex) : m.opens f = m.closes f + m.tally f .statting +
    if (m.files f).status = .opened ∨ (m.files f).status = .closed ∧ (m.files f).openCount ≠ 0
      then 1 else 0 := by
  have hfits := h.fits f
  unfold Fits at hfits
  cases hs : (m.files f).status <;> simp only [hs] at hfits
  case none => simp [hfits]
  case init => simp [hfits]
  case opened => simp [hfits.2.2.1 .statting, hfits.2.2.2]
  case closed =>
    obtain ⟨hcount, -, hzero, hphase⟩ := hfits
    rw [hzero .statting (by simp) (by simp), hcount]
    rcases hphase with hphase | hphase
    · simp [hphase]
    · simp [hphase.2.2, show m.tally f .using ≠ 0 by omega]

end Idle

/-- **The descriptor table.** In every state that processes with the same open files can reach: no
assertion fails in the next step. An entry has `open_count` 0 exactly if it is `FD_NONE` or `FD_INIT`,
as long as no process is inside `vfs_close` for it; while one is, the entry is `FD_CLOSED`. To each
successful open or dup there is one call of `vfs_close`, or the entry is still open or in use. A step
calls `vfs_close` for an entry only when it has been closed and no call uses it any more, or for a
`file_open` that fails. An entry becomes `FD_OPENED`, so that its number is handed out, only when no
call uses it and no process is inside `vfs_close` for it, and all that was opened for it before has been
closed. A call that is suspended finds the inode of its entry again. -/
theorem descriptor_table_safe (h : m.Reachable) :
    (∀ op, m.Legal op → ∃ m', m.exec op = .ok m') ∧
    (∀ f, (∀ p ret, m.place p ≠ .closing f ret) → ((m.files f).openCount = 0 ↔
      (m.files f).status = .none ∨ (m.files f).status = .init)) ∧
    (∀ f p ret, m.place p = .closing f ret → (m.files f).status = .closed) ∧
    (∀ f, m.opens f = m.closes f + m.tally f .statting +
      if (m.files f).status = .opened ∨ (m.files f).status = .closed ∧ (m.files f).openCount ≠ 0
        then 1 else 0) ∧
    ∀ op m', m.Step m' op → ∀ f,
      (m'.closes f = m.closes f ∨ m'.closes f = m.closes f + 1 ∧ Closes m m' op.proc f) ∧
      ((m.files f).status ≠ .opened → (m'.files f).status = .opened →
        (∀ p op, m.place p ≠ .using f op) ∧ (∀ p ret, m.place p ≠ .closing f ret) ∧
          m.opens f = m.closes f + m.tally f .statting) ∧
      ∀ p op, m.place p = .using f op → (m'.files f).node = (m.files f).node := by
  have hinv := h.inv
  refine ⟨fun op hlegal => ?_, fun f hno => ?_, fun f p ret hp => ?_, hinv.log,
    fun op m' hstep f => ?_⟩
  · obtain ⟨m', hexec, -⟩ := hinv.exec hlegal
    exact ⟨m', hexec⟩
  · rw [hinv.openCount_eq_zero, or_iff_left]
    rintro ⟨p, ret, hp⟩
    exact hno p ret hp
  · exact (hinv.status_of_using (p := p) (.inr rfl) (by simp [hp])).resolve_left nofun
  · have hafter := hinv.step hstep
    refine ⟨hafter.closes f, fun hnot hopened => hinv.idle ?_, hafter.node f⟩
    have hclosed := hafter.opened f hopened
    cases hs : (m.files f).status <;> simp_all

section Example

instance (x : FdPlace) : Decidable (∃ f access flags, x = .opening f access flags) := by
  cases x <;> first | exact .isTrue ⟨_, _, _, rfl⟩ | exact .isFalse nofun

instance (x : FdPlace) : Decidable (∃ f access n, x = .statting f access n) := by
  cases x <;> first | exact .isTrue ⟨_, _, _, rfl⟩ | exact .isFalse nofun

instance (x : FdPlace) : Decidable (∃ f ret, x = .closing f ret ∨ x = .abandoning f ret) := by
  cases x <;> first | exact .isTrue ⟨_, _, .inl rfl⟩ | exact .isTrue ⟨_, _, .inr rfl⟩ |
    exact .isFalse (by simp)

instance (x : FdPlace) : Decidable (∃ f op, x = .using f op) := by
  cases x <;> first | exact .isTrue ⟨_, _, rfl⟩ | exact .isFalse nofun

omit [Fintype P] in
instance (m : FdSys P) (op : FdOp P) : Decidable (m.Legal op) := by
  cases op <;> unfold Legal <;> infer_instance

/-- Two processes, and no open files. -/
def blank : FdSys (Fin 2) where
  files := fdArrayInit fun _ => ⟨.none, false, false, 0, 0, none, 0⟩
  place _ := .out
  ret _ := 0
  opens _ := 0
  closes _ := 0

theorem blank_reachable : blank.Reachable := .start ⟨⟨_, rfl⟩, fun _ => rfl, fun _ => ⟨rfl, rfl⟩⟩

/-- A process closes a file from which another one reads: the entry is kept until the reader is done,
who calls `vfs_close`. -/
theorem descriptor_table_safe_closed_reading : ∃ m : FdSys (Fin 2), m.Reachable ∧
    m.place 0 = .using 0 .read ∧ (m.files 0).status = .closed ∧ m.opens 0 = m.closes 0 + 1 ∧
    ∃ m', m.exec (.vopDone 0 0 7) = .ok m' := by
  obtain ⟨m, hexec, hm⟩ := (Option.any_eq_true _ _).mp (show (execAll Legal exec blank
      [.fileOpen 0 0, .vfsOpened 0 (.ok 5), .fileCall 0 0 .read, .fileClose 1 0]).any
        (fun m => m.place 0 = .using 0 .read ∧ (m.files 0).status = .closed ∧
          (m.files 0).openCount = 1 ∧ m.place 1 = .out) = true by decide +kernel)
  obtain ⟨hplace, hs, hcount, hother⟩ := of_decide_eq_true hm
  have hreach := execAll_keeps (fun _ _ _ h hl hop => h.step ⟨hl, hop⟩) hexec blank_reachable
  obtain ⟨hok, -, -, hlog, -⟩ := descriptor_table_safe hreach
  have hzero : m.tally 0 .statting = 0 :=
    headcount_eq_zero.mpr (Fin.forall_fin_two.mpr ⟨by simp [hplace], by simp [hother]⟩)
  refine ⟨m, hreach, hplace, hs, ?_, hok (.vopDone 0 0 7) ⟨0, .read, hplace⟩⟩
  simpa [hs, hcount, hzero] using hlog 0

end Example

end FdSys

end UcoreMips.Kernel
