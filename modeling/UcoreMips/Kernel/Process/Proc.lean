import UcoreMips.Kernel.Schedule.Timers

/-!
# UcoreMips.Kernel.Process.Proc

The **life of a process** (`kern/process/proc.c`), as far as the scheduler sees it: a process is
made by `do_fork` and left by `do_exit`, which hands its children to `initproc`. The memory and
the files of a process, its `pid` and the lists by which it is found are not part of the state
here.
-/

namespace UcoreMips.Kernel

/-- A `proc_struct` after `memset` in `alloc_proc`; `PROC_UNINIT` is 0. -/
def Proc.zero : Proc where
  state := .uninit
  runs := 0
  needResched := false
  parent := none
  exitCode := 0
  waitState := 0
  cptr := none
  yptr := none
  optr := none
  rq := false
  timeSlice := 0

namespace Sched

/-- `alloc_proc`, for a structure at `p`. -/
def allocProc (s : Sched) (p : ProcId) : Sched :=
  { s.setProc p .zero with runList := listInit s.runList (.entry p) }

def setParent (s : Sched) (p parent : ProcId) : Sched :=
  s.setProc p { s.procs p with parent := some parent }

def setCptr (s : Sched) (p : ProcId) (c : Option ProcId) : Sched :=
  s.setProc p { s.procs p with cptr := c }

def setYptr (s : Sched) (p : ProcId) (y : Option ProcId) : Sched :=
  s.setProc p { s.procs p with yptr := y }

def setOptr (s : Sched) (p : ProcId) (o : Option ProcId) : Sched :=
  s.setProc p { s.procs p with optr := o }

/-- `p` becomes the first child of `parent`: the relations in `set_links`, and in the loop of
`do_exit`. -/
def linkChild (s : Sched) (p parent : ProcId) : Sched :=
  let s := (s.setYptr p none).setOptr p (s.procs parent).cptr
  let s := match (s.procs p).optr with
    | none => s
    | some o => s.setYptr o (some p)
  s.setCptr parent (some p)

/-- `do_fork`, for a structure at `p`. -/
def forkProc (s : Sched) (p : ProcId) : Except SchedStop Sched :=
  let s := s.allocProc p
  if (s.procs s.current).waitState ≠ 0 then .error .forkWaiting
  else
    ((s.setParent p s.current).linkChild p s.current).wakeupProc p

/-- The body of the loop of `do_exit`: the child `p` is given to `initproc`, at `init`. -/
def adoptChild (s : Sched) (p init : ProcId) : Except SchedStop Sched :=
  let s := s.setCptr s.current (s.procs p).optr
  let s := (s.setParent p init).linkChild p init
  if (s.procs p).state = .zombie ∧ (s.procs init).waitState = wtChild then s.wakeupProc init
  else .ok s

/-- The loop of `do_exit`. -/
def adoptChildren : Nat → Sched → Except SchedStop Sched
  | 0, _ => .error .outOfFuel
  | fuel + 1, s =>
    match (s.procs s.current).cptr, s.initproc with
    | none, _ => .ok s
    | some _, none => .error .nullPointer
    | some p, some init => do adoptChildren fuel (← s.adoptChild p init)

/-- The parent is woken when it waits for a child. -/
def wakeParent (s : Sched) : Except SchedStop Sched :=
  match (s.procs s.current).parent with
  | none => .error .nullPointer
  | some p => if (s.procs p).waitState = wtChild then s.wakeupProc p else .ok s

/-- `do_exit` before its call of `schedule`. -/
def exitBegin (fuel : Nat) (s : Sched) (errorCode : Int) : Except SchedStop Sched :=
  if s.current = s.idleproc then .error .idleExit
  else if s.initproc = some s.current then .error .initExit
  else do
    let s := s.setProc s.current { s.procs s.current with state := .zombie, exitCode := errorCode }
    adoptChildren fuel (← s.wakeParent)

/-- `do_exit`, up to where another process goes on. -/
def doExit (fuel : Nat) (s : Sched) (errorCode : Int) : Except SchedStop Sched := do
  let t ← (← s.exitBegin fuel errorCode).schedule
  if t.current = s.current then throw .exitReturned
  return t

/-- The current process is put to sleep; it calls `schedule` later. -/
def sleep (s : Sched) (waitState : BitVec 32) : Sched :=
  s.setProc s.current { s.procs s.current with state := .sleeping, waitState := waitState }

theorem sleep_self (s : Sched) (waitState : BitVec 32) :
    (s.sleep waitState).procs s.current =
      { s.procs s.current with state := .sleeping, waitState := waitState } := setProc_self ..

theorem sleep_of_ne (s : Sched) (waitState : BitVec 32) {p : ProcId} (h : p ≠ s.current) :
    (s.sleep waitState).procs p = s.procs p := setProc_of_ne s _ h

/-- `sched_init`. -/
def schedInit (s : Sched) : Sched :=
  { s with
    runList := listInit s.runList .head
    procNum := 0
    timerList := listInit s.timerList .head }

/-- The first half of `proc_init`: the idle process, at `idle`. -/
def idleInit (s : Sched) (idle : ProcId) : Sched :=
  { (s.allocProc idle).setProc idle { Proc.zero with state := .runnable, needResched := true } with
    idleproc := idle
    current := idle
    initproc := none }

/-- `proc_init`: the idle process forks the process at `init`. -/
def procInit (s : Sched) (idle init : ProcId) : Except SchedStop Sched := do
  let s ← (s.idleInit idle).forkProc init
  return { s with initproc := some init }

end Sched

end UcoreMips.Kernel
