import UcoreMips.Kernel.Lists

/-!
# UcoreMips.Kernel.Schedule.Sched

The **scheduler** (`kern/schedule/sched.c`, `kern/schedule/default_sched.c`): the run queue of
the round-robin class, and the list of timers.

* A process and a timer are named by the address of their structure. Of a `proc_struct` the
  model has the fields that the scheduler, `do_fork` and `do_exit` use.
* There is one run queue, so `rq` of a process only says whether it has been set.
* `schedule` ends where the next process goes on: `proc_run` sets `current`, and what it
  loads into the processor is not part of the state.
-/

namespace UcoreMips.Kernel

open UcoreMips.Lib

/-- `enum proc_state`. -/
inductive ProcState
  | uninit
  | sleeping
  | runnable
  | zombie
  deriving Repr, DecidableEq

abbrev ProcId := BitVec 32
abbrev TimerId := BitVec 32

/-- `struct proc_struct`. -/
structure Proc where
  state : ProcState
  runs : Int
  needResched : Bool
  parent : Option ProcId
  exitCode : Int
  waitState : BitVec 32
  cptr : Option ProcId
  yptr : Option ProcId
  optr : Option ProcId
  rq : Bool
  timeSlice : Int
  deriving Repr, DecidableEq

/-- `timer_t`; its `timer_link` is in `Sched.timerList`. -/
structure Timer where
  expires : BitVec 32
  proc : Option ProcId
  deriving Repr, DecidableEq

def wtInterrupted : BitVec 32 := 0x80000000#32
def wtChild : BitVec 32 := 0x80000001#32
def wtTimer : BitVec 32 := 0x80000002#32

def maxTimeSlice : Int := 20

/-- Why a call does not come back: the assertion that fails, or the `panic`. -/
inductive SchedStop
  /-- `wakeup_proc`: `proc->state != PROC_ZOMBIE`. -/
  | wakeupZombie
  /-- `RR_enqueue`: `list_empty(&(proc->run_link))`. -/
  | enqueueLinked
  /-- `RR_dequeue`: `!list_empty(&(proc->run_link)) && proc->rq == rq`. -/
  | dequeueUnlinked
  /-- `add_timer`: `timer->expires > 0 && timer->proc != NULL`. -/
  | timerUnset
  /-- `add_timer`: `list_empty(&(timer->timer_link))`. -/
  | timerLinked
  /-- `run_timer_list`: `timer->expires != 0`. -/
  | timerExpired
  /-- `run_timer_list`: `proc->wait_state & WT_INTERRUPTED`. -/
  | timerWait
  /-- `do_fork`: `current->wait_state == 0`. -/
  | forkWaiting
  /-- `do_exit`: "idleproc exit.". -/
  | idleExit
  /-- `do_exit`: "initproc exit.". -/
  | initExit
  /-- `do_exit`: "do_exit will not return!!". -/
  | exitReturned
  | nullPointer
  | outOfFuel
  deriving Repr, DecidableEq

structure Sched where
  /-- `rq->run_list` and the fields `run_link`. -/
  runList : Links (ListNode ProcId)
  procNum : BitVec 32
  procs : ProcId → Proc
  current : ProcId
  idleproc : ProcId
  initproc : Option ProcId
  /-- `timer_list` and the fields `timer_link`. -/
  timerList : Links (ListNode TimerId)
  timers : TimerId → Timer

namespace Sched

def setProc (s : Sched) (p : ProcId) (q : Proc) : Sched :=
  { s with procs := Function.update s.procs p q }

def setTimer (s : Sched) (t : TimerId) (r : Timer) : Sched :=
  { s with timers := Function.update s.timers t r }

@[simp] theorem setProc_self (s : Sched) (p : ProcId) (q : Proc) : (s.setProc p q).procs p = q :=
  Function.update_self ..

theorem setProc_of_ne (s : Sched) {p r : ProcId} (q : Proc) (h : r ≠ p) :
    (s.setProc p q).procs r = s.procs r :=
  Function.update_of_ne h ..

/-! ### `default_sched.c` -/

/-- `RR_enqueue` after its assertion. -/
def enqueued (s : Sched) (p : ProcId) : Sched :=
  let q := s.procs p
  let slice := if q.timeSlice = 0 ∨ q.timeSlice > maxTimeSlice then maxTimeSlice
    else q.timeSlice
  { s.setProc p { q with timeSlice := slice, rq := true } with
    runList := listAddBefore s.runList .head (.entry p)
    procNum := s.procNum + 1 }

/-- `RR_enqueue`. -/
def rrEnqueue (s : Sched) (p : ProcId) : Except SchedStop Sched :=
  if listEmpty s.runList (.entry p) then .ok (s.enqueued p) else .error .enqueueLinked

/-- `RR_dequeue` after its assertion. -/
def dequeued (s : Sched) (p : ProcId) : Sched :=
  { s with runList := listDelInit s.runList (.entry p), procNum := s.procNum - 1 }

/-- `RR_dequeue`. -/
def rrDequeue (s : Sched) (p : ProcId) : Except SchedStop Sched :=
  if ¬listEmpty s.runList (.entry p) ∧ (s.procs p).rq then .ok (s.dequeued p)
  else .error .dequeueUnlinked

/-- `RR_pick_next`. -/
def rrPickNext (s : Sched) : Option ProcId :=
  match s.runList.next .head with
  | .head => none
  | .entry p => some p

/-- `RR_proc_tick`. -/
def rrProcTick (s : Sched) (p : ProcId) : Sched :=
  let q := s.procs p
  let q := if q.timeSlice > 0 then { q with timeSlice := q.timeSlice - 1 } else q
  let q := if q.timeSlice = 0 then { q with needResched := true } else q
  s.setProc p q

/-! ### `sched.c`: processes -/

/-- `sched_class_enqueue`. -/
def schedClassEnqueue (s : Sched) (p : ProcId) : Except SchedStop Sched :=
  if p ≠ s.idleproc then s.rrEnqueue p else .ok s

/-- `sched_class_proc_tick`. -/
def schedClassProcTick (s : Sched) (p : ProcId) : Sched :=
  if p ≠ s.idleproc then s.rrProcTick p
  else s.setProc p { s.procs p with needResched := true }

/-- The fields that `wakeup_proc` sets. -/
def madeRunnable (s : Sched) (p : ProcId) : Sched :=
  s.setProc p { s.procs p with state := .runnable, waitState := 0 }

/-- `wakeup_proc`; for a process that is runnable there is only a warning. -/
def wakeupProc (s : Sched) (p : ProcId) : Except SchedStop Sched :=
  if (s.procs p).state = .zombie then .error .wakeupZombie
  else if (s.procs p).state ≠ .runnable then
    if p ≠ s.current then (s.madeRunnable p).schedClassEnqueue p else .ok (s.madeRunnable p)
  else .ok s

/-- The first half of `schedule`: the current process goes back to the queue. -/
def requeueCurrent (s : Sched) : Except SchedStop Sched :=
  let s := s.setProc s.current { s.procs s.current with needResched := false }
  if (s.procs s.current).state = .runnable then s.schedClassEnqueue s.current else .ok s

/-- The process `next` is counted and made the current one. -/
def procRun (s : Sched) (next : ProcId) : Sched :=
  { s.setProc next { s.procs next with runs := (s.procs next).runs + 1 } with current := next }

/-- The second half of `schedule`: the first process of the queue takes over. -/
def runNext (s : Sched) : Except SchedStop Sched :=
  match s.rrPickNext with
  | some next => do return (← s.rrDequeue next).procRun next
  | none => .ok (s.procRun s.idleproc)

/-- `schedule`, up to where the next process goes on. -/
def schedule (s : Sched) : Except SchedStop Sched := do (← s.requeueCurrent).runNext

/-! ### `sched.c`: timers -/

/-- `timer_init`. -/
def timerInit (s : Sched) (t : TimerId) (proc : Option ProcId) (expires : BitVec 32) : Sched :=
  { s.setTimer t ⟨expires, proc⟩ with timerList := listInit s.timerList (.entry t) }

/-- The loop of `add_timer`, at `le`. -/
def addTimerFrom (t : TimerId) : Nat → Sched → ListNode TimerId → Except SchedStop Sched
  | 0, _, _ => .error .outOfFuel
  | _ + 1, s, .head =>
    .ok { s with timerList := listAddBefore s.timerList .head (.entry t) }
  | fuel + 1, s, .entry next =>
    let timer := s.timers t
    let nextTimer := s.timers next
    if timer.expires < nextTimer.expires then
      let s := s.setTimer next { nextTimer with expires := nextTimer.expires - timer.expires }
      .ok { s with timerList := listAddBefore s.timerList (.entry next) (.entry t) }
    else
      let s := s.setTimer t { timer with expires := timer.expires - nextTimer.expires }
      addTimerFrom t fuel s (s.timerList.next (.entry next))

/-- `add_timer`. -/
def addTimer (fuel : Nat) (s : Sched) (t : TimerId) : Except SchedStop Sched :=
  if ¬((s.timers t).expires > 0 ∧ (s.timers t).proc ≠ none) then .error .timerUnset
  else if ¬listEmpty s.timerList (.entry t) then .error .timerLinked
  else addTimerFrom t fuel s (s.timerList.next .head)

/-- `del_timer`. -/
def delTimer (s : Sched) (t : TimerId) : Sched :=
  if listEmpty s.timerList (.entry t) then s
  else
    let s :=
      if (s.timers t).expires ≠ 0 then
        match s.timerList.next (.entry t) with
        | .head => s
        | .entry next =>
          s.setTimer next
            { s.timers next with expires := (s.timers next).expires + (s.timers t).expires }
      else s
    { s with timerList := listDelInit s.timerList (.entry t) }

/-- The body of the loop of `run_timer_list`: the timer fires. -/
def fireTimer (s : Sched) (t : TimerId) : Except SchedStop Sched := do
  let some p := (s.timers t).proc | throw .nullPointer
  if (s.procs p).waitState ≠ 0 ∧ (s.procs p).waitState &&& wtInterrupted = 0 then
    throw .timerWait
  let s ← s.wakeupProc p
  return s.delTimer t

/-- The loop of `run_timer_list`, at the timer `t`. -/
def fireTimersFrom : Nat → Sched → TimerId → Except SchedStop Sched
  | 0, _, _ => .error .outOfFuel
  | fuel + 1, s, t =>
    if (s.timers t).expires = 0 then do
      let le := s.timerList.next (.entry t)
      let s ← s.fireTimer t
      match le with
      | .head => return s
      | .entry next => fireTimersFrom fuel s next
    else .ok s

/-- The timers in `run_timer_list`: the first one counts down. -/
def fireTimers (fuel : Nat) (s : Sched) : Except SchedStop Sched :=
  match s.timerList.next .head with
  | .head => .ok s
  | .entry t =>
    if (s.timers t).expires = 0 then .error .timerExpired
    else
      fireTimersFrom fuel (s.setTimer t { s.timers t with expires := (s.timers t).expires - 1 }) t

/-- `run_timer_list`. -/
def runTimerList (fuel : Nat) (s : Sched) : Except SchedStop Sched := do
  let s ← s.fireTimers fuel
  return s.schedClassProcTick s.current

end Sched

end UcoreMips.Kernel
