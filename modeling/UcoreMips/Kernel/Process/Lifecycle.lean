import UcoreMips.Kernel.Process.Proc

/-!
# UcoreMips.Kernel.Process.Lifecycle

**Runs of the scheduler.** The calls of `TaskOp` come in any order, from any state that
`proc_init` leaves: processes are made and exit, go to sleep and are woken (the current one also
before it has called `schedule`), and timers are started, deleted and counted down.

In every state of such a run the run queue holds exactly the processes that are to run
(`run_queue_sound`), and a timer fires at the tick for which it was set
(`timer_fires_on_time`).
-/

namespace UcoreMips.Kernel

open UcoreMips.Lib Finset Function

namespace Sched

variable {s t : Sched} {alive : ProcId → Prop} {xs : List ProcId} {p q : ProcId} {fuel : Nat}

/-! ### Making and leaving a process -/

section Queued

variable (h : Queued s alive xs)

include h

/-- A process that is made is on no list, and from then on it counts. -/
theorem allocProc_spec (hp : ¬alive p) :
    Queued (s.allocProc p) (fun r => alive r ∨ r = p) xs ∧ SameBut s (s.allocProc p) ∧
      (s.allocProc p).current = s.current := by
  have hpx : p ∉ xs := fun hin => hp (h.valid p hin)
  have hq : RunQueue (s.setProc p .zero) alive xs := h.toRunQueue.setProc fun hin => absurd hin hpx
  refine ⟨⟨⟨hq.listed.know hpx, hq.num, fun r hr => .inl (hq.valid r hr), hq.idle, hq.rq⟩,
    h.current, fun r hr hidle hcur => ?_, ⟨.inl h.ptrs.current, .inl h.ptrs.idle,
    fun r hr => .inl (h.ptrs.init r hr), fun r hr r' hr' => ?_⟩⟩, ⟨rfl, rfl, rfl, rfl⟩, rfl⟩
  · show r ∈ xs ↔ ((s.setProc p .zero).procs r).state = .runnable
    by_cases hrp : r = p
    · rw [hrp, setProc_self]
      exact ⟨fun hin => absurd hin hpx, nofun⟩
    · rw [setProc_of_ne s _ hrp]
      exact h.mem_iff r (hr.resolve_right hrp) hidle hcur
  · replace hr' : ((s.setProc p .zero).procs r).parent = some r' := hr'
    by_cases hrp : r = p
    · rw [hrp, setProc_self] at hr'
      cases hr'
    · rw [setProc_of_ne s _ hrp] at hr'
      exact .inl (h.ptrs.parent r (hr.resolve_right hrp) r' hr')

theorem setCptr_spec (p : ProcId) (c : Option ProcId) :
    Queued (s.setCptr p c) alive xs ∧ Kept s (s.setCptr p c) := h.touch rfl rfl rfl rfl

theorem setYptr_spec (p : ProcId) (y : Option ProcId) :
    Queued (s.setYptr p y) alive xs ∧ Kept s (s.setYptr p y) := h.touch rfl rfl rfl rfl

theorem setOptr_spec (p : ProcId) (o : Option ProcId) :
    Queued (s.setOptr p o) alive xs ∧ Kept s (s.setOptr p o) := h.touch rfl rfl rfl rfl

theorem linkChild_spec (p q : ProcId) :
    Queued (s.linkChild p q) alive xs ∧ Kept s (s.linkChild p q) := by
  obtain ⟨h₁, hk₁⟩ := setYptr_spec h p none
  obtain ⟨h₂, hk₂⟩ := setOptr_spec h₁ p (s.procs q).cptr
  rw [linkChild]
  split
  · obtain ⟨h₃, hk₃⟩ := setCptr_spec h₂ q (some p)
    exact ⟨h₃, (hk₁.trans hk₂).trans hk₃⟩
  · next o _ =>
    obtain ⟨h₃, hk₃⟩ := setYptr_spec h₂ o (some p)
    obtain ⟨h₄, hk₄⟩ := setCptr_spec h₃ q (some p)
    exact ⟨h₄, ((hk₁.trans hk₂).trans hk₃).trans hk₄⟩

theorem setParent_spec (hq : alive q) (p : ProcId) : Queued (s.setParent p q) alive xs :=
  h.setProc (.inr (.inr rfl)) rfl fun _ hr _ => Option.some.inj hr ▸ hq

/-- `do_fork` adds a process, which is runnable. -/
theorem forkProc_spec (hp : ¬alive p) :
    Ensures (fun e => e = .forkWaiting ∨ e = .wakeupZombie)
      (fun t => SameBut s t ∧ t.current = s.current ∧
        ∃ ys, Queued t (fun r => alive r ∨ r = p) ys) (s.forkProc p) := by
  obtain ⟨h₁, hbut₁, hcur₁⟩ := allocProc_spec h hp
  have h₂ := setParent_spec h₁ h₁.ptrs.current p
  obtain ⟨h₃, hk₃⟩ := linkChild_spec h₂ p (s.allocProc p).current
  rw [forkProc]
  split
  · exact .inl rfl
  · refine (wakeupProc_spec h₃ (.inr rfl)).mono (fun e he => .inr he.1) ?_
    rintro t ⟨hw, hq⟩
    exact ⟨(hbut₁.trans (setProc_same ..)).trans (hk₃.same.trans hw.toSameBut),
      hw.current.trans (hk₃.current.trans hcur₁), hq⟩

theorem adoptChild_spec (hq : alive q) :
    Ensures (fun e => e = .wakeupZombie)
      (fun t => SameBut s t ∧ ∃ ys, Queued t alive ys) (s.adoptChild p q) := by
  obtain ⟨h₁, hk₁⟩ := setCptr_spec h s.current (s.procs p).optr
  have h₂ := setParent_spec h₁ hq p
  obtain ⟨h₃, hk₃⟩ := linkChild_spec h₂ p q
  have hbut := hk₁.same.trans ((setProc_same ..).trans hk₃.same)
  rw [adoptChild]
  split
  · refine (wakeupProc_spec h₃ hq).mono (fun e he => he.1) ?_
    rintro t ⟨hw, hq⟩
    exact ⟨hbut.trans hw.toSameBut, hq⟩
  · exact ⟨hbut, xs, h₃⟩

theorem adoptChildren_spec :
    Ensures (fun e => e = .wakeupZombie ∨ e = .nullPointer ∨ e = .outOfFuel)
      (fun t => SameBut s t ∧ ∃ ys, Queued t alive ys) (adoptChildren fuel s) := by
  induction fuel generalizing s xs with
  | zero => exact .inr (.inr rfl)
  | succ fuel ih =>
    rw [adoptChildren]
    split
    · exact ⟨.refl s, xs, h⟩
    · exact .inr (.inl rfl)
    · next p init _ hinit =>
      refine Ensures.bind ((adoptChild_spec h (h.ptrs.init init hinit)).mono
        (fun e he => .inl he) fun _ h => h) ?_
      rintro t ⟨hbut, ys, ht⟩
      exact (ih ht).mono (fun _ he => he) fun u hu => ⟨hbut.trans hu.1, hu.2⟩

/-- `do_exit` up to `schedule`. -/
theorem exitBegin_spec (fuel : Nat) (errorCode : Int) :
    Ensures (fun e => e ∈ [SchedStop.idleExit, .initExit, .nullPointer, .wakeupZombie, .outOfFuel])
      (fun t => SameBut s t ∧ ∃ ys, Queued t alive ys) (s.exitBegin fuel errorCode) := by
  have h₁ : Queued (s.setProc s.current
      { s.procs s.current with state := .zombie, exitCode := errorCode }) alive xs :=
    h.setProc (.inl rfl) rfl fun r hr hp => h.ptrs.parent _ hp r hr
  rw [exitBegin]
  split
  · simp [Ensures]
  split
  · simp [Ensures]
  refine Ensures.bind (P := fun t => SameBut s t ∧ ∃ ys, Queued t alive ys) ?_ ?_
  · rw [wakeParent]
    split
    · simp [Ensures]
    · next p hparent =>
      split
      · refine (wakeupProc_spec h₁ (h₁.ptrs.parent _ h₁.ptrs.current p hparent)).mono
          (fun e he => by simp [he.1]) ?_
        rintro t ⟨hw, hq⟩
        exact ⟨(setProc_same ..).trans hw.toSameBut, hq⟩
      · exact ⟨setProc_same .., xs, h₁⟩
  · rintro t ⟨hbut, ys, ht⟩
    refine (adoptChildren_spec ht).mono (fun e he => ?_) fun u hu => ⟨hbut.trans hu.1, hu.2⟩
    rcases he with rfl | rfl | rfl <;> simp

theorem doExit_spec (fuel : Nat) (errorCode : Int) :
    Ensures (fun e => e ∈ [SchedStop.idleExit, .initExit, .nullPointer, .wakeupZombie, .outOfFuel,
        .exitReturned])
      (fun t => SameBut s t ∧ ∃ ys, Queued t alive ys) (s.doExit fuel errorCode) := by
  refine Ensures.bind ((exitBegin_spec h fuel errorCode).mono (fun e he => ?_) fun _ h => h) ?_
  · exact List.mem_append_left [SchedStop.exitReturned] he
  rintro t ⟨hbut, ys, ht⟩
  obtain ⟨u, zs, heq, hu, -, hbut', -⟩ := schedule_spec ht
  rw [heq]
  show Ensures _ _ (if u.current = s.current then _ else _)
  split
  · show SchedStop.exitReturned ∈ _
    simp
  · exact ⟨hbut.trans hbut', zs, hu⟩

theorem sleep_spec (waitState : BitVec 32) : Queued (s.sleep waitState) alive xs :=
  h.setProc (.inl rfl) rfl fun r hr hp => h.ptrs.parent _ hp r hr

end Queued

/-! ### The start -/

theorem schedInit_runQueue (s : Sched) : Listed s.schedInit.runList [] (fun _ => False) :=
  Listed.init s.runList

theorem schedInit_timers (s : Sched) : Listed s.schedInit.timerList [] (fun _ => False) :=
  Listed.init s.timerList

theorem idleInit_spec (s : Sched) (idle : ProcId) :
    Queued (s.schedInit.idleInit idle) (fun r => False ∨ r = idle) [] := by
  have hself : (s.schedInit.idleInit idle).procs idle =
      { Proc.zero with state := .runnable, needResched := true } := setProc_self ..
  refine ⟨⟨(schedInit_runQueue s).know List.not_mem_nil, rfl, nofun, nofun, nofun⟩, nofun,
    fun r hr hidle => absurd (hr.resolve_left id) hidle, .inr rfl, .inr rfl, nofun,
    fun r hr r' hr' => ?_⟩
  rw [hr.resolve_left id, hself] at hr'
  cases hr'

/-- `proc_init` comes to its end, with two processes. -/
theorem procInit_spec (s : Sched) {idle init : ProcId} (hne : init ≠ idle) :
    Ensures (fun e => e = .forkWaiting ∨ e = .wakeupZombie)
      (fun t => t.timerList = s.schedInit.timerList ∧
        ∃ ys, Queued t (fun r => (False ∨ r = idle) ∨ r = init) ys)
      (s.schedInit.procInit idle init) := by
  refine Ensures.bind (forkProc_spec (idleInit_spec s idle) fun h => hne (h.resolve_left id)) ?_
  rintro t ⟨hbut, -, ys, hq⟩
  exact ⟨hbut.timerList, ys, { hq with
    ptrs := { hq.ptrs with init := fun r hr => .inr (Option.some.inj hr).symm } }⟩

end Sched

/-! ### The system -/

/-- The calls from which runs are made. -/
inductive TaskOp where
  | wakeup (p : ProcId)
  | schedule
  | fork (p : ProcId)
  | exitBegin (errorCode : Int)
  | exit (errorCode : Int)
  | sleep (waitState : BitVec 32)
  | timerInit (t : TimerId) (proc : Option ProcId) (expires : BitVec 32)
  | addTimer (t : TimerId)
  | delTimer (t : TimerId)
  | tick
  deriving Repr, DecidableEq

/-- The calls on one timer. -/
def TaskOp.Edits (t : TimerId) : TaskOp → Prop
  | .timerInit r _ _ | .addTimer r | .delTimer r => r = t
  | _ => False

instance (t : TimerId) : DecidablePred (TaskOp.Edits t)
  | .timerInit r _ _ | .addTimer r | .delTimer r => inferInstanceAs (Decidable (r = t))
  | .wakeup _ | .schedule | .fork _ | .exitBegin _ | .exit _ | .sleep _ | .tick =>
    inferInstanceAs (Decidable False)

/-- The scheduler, with the processes that exist and the timers that are initialised. -/
structure Tasks where
  sched : Sched
  alive : Finset ProcId
  inited : Finset TimerId

namespace Tasks

open Sched

variable {w w' : Tasks} {op : TaskOp} {t : TimerId} {ops : List TaskOp}

/-- The timer is on the list. -/
def Linked (w : Tasks) (t : TimerId) : Prop := listEmpty w.sched.timerList (.entry t) = false

instance (w : Tasks) (t : TimerId) : Decidable (w.Linked t) := inferInstanceAs (Decidable (_ = _))

/-- The callers pass pointers to processes and timers that exist; a new structure is not one
that is in use. -/
def Legal (w : Tasks) : TaskOp → Prop
  | .wakeup p => p ∈ w.alive
  | .fork p => p ∉ w.alive
  | .timerInit t proc _ => ¬(t ∈ w.inited ∧ w.Linked t) ∧ ∀ p ∈ proc, p ∈ w.alive
  | .addTimer t | .delTimer t => t ∈ w.inited
  | _ => True

instance (w : Tasks) : DecidablePred w.Legal
  | .wakeup p => inferInstanceAs (Decidable (p ∈ w.alive))
  | .fork p => inferInstanceAs (Decidable (p ∉ w.alive))
  | .timerInit t (some p) _ =>
    decidable_of_iff (¬(t ∈ w.inited ∧ w.Linked t) ∧ p ∈ w.alive) (by simp [Legal])
  | .timerInit t none _ => decidable_of_iff (¬(t ∈ w.inited ∧ w.Linked t)) (by simp [Legal])
  | .addTimer t | .delTimer t => inferInstanceAs (Decidable (t ∈ w.inited))
  | .schedule | .exitBegin _ | .exit _ | .sleep _ | .tick => inferInstanceAs (Decidable True)

def call (w : Tasks) : TaskOp → Nat → Except SchedStop Sched
  | .wakeup p, _ => w.sched.wakeupProc p
  | .schedule, _ => w.sched.schedule
  | .fork p, _ => w.sched.forkProc p
  | .exitBegin errorCode, fuel => w.sched.exitBegin fuel errorCode
  | .exit errorCode, fuel => w.sched.doExit fuel errorCode
  | .sleep waitState, _ => .ok (w.sched.sleep waitState)
  | .timerInit t proc expires, _ => .ok (w.sched.timerInit t proc expires)
  | .addTimer t, fuel => w.sched.addTimer fuel t
  | .delTimer t, _ => .ok (w.sched.delTimer t)
  | .tick, fuel => w.sched.runTimerList fuel

def after (w : Tasks) : TaskOp → Sched → Tasks
  | .fork p, s => ⟨s, insert p w.alive, w.inited⟩
  | .timerInit t _ _, s => ⟨s, w.alive, insert t w.inited⟩
  | _, s => ⟨s, w.alive, w.inited⟩

/-- A call that comes back. -/
def Step (w w' : Tasks) (op : TaskOp) : Prop :=
  w.Legal op ∧ ∃ fuel s, w.call op fuel = .ok s ∧ w' = w.after op s

/-- The calls of a list, one after the other. -/
def Runs (w : Tasks) : List TaskOp → Tasks → Prop
  | [], w' => w' = w
  | op :: ops, w' => ∃ u, Step w u op ∧ Runs u ops w'

/-- The calls of a list, when they are legal and come back with this fuel. -/
def exec (fuel : Nat) (w : Tasks) : List TaskOp → Option Tasks
  | [] => some w
  | op :: ops =>
    if w.Legal op then
      match w.call op fuel with
      | .ok s => (w.after op s).exec fuel ops
      | .error _ => none
    else none

theorem runs_of_exec (h : w.exec fuel ops = some w') : Runs w ops w' := by
  induction ops generalizing w with
  | nil => exact (Option.some.inj h).symm
  | cons op ops ih =>
    rw [exec] at h
    split at h
    · next hlegal =>
      split at h
      · next s heq => exact ⟨_, ⟨hlegal, fuel, s, heq, rfl⟩, ih h⟩
      · cases h
    · cases h

/-- A state that `proc_init` leaves; what was in memory before is `m`. -/
def Booted (w : Tasks) : Prop := ∃ (m : Sched) (idle init : ProcId), init ≠ idle ∧
  m.schedInit.procInit idle init = .ok w.sched ∧ w.alive = {idle, init} ∧ w.inited = ∅

def Reachable (w : Tasks) : Prop := ∃ w₀, Booted w₀ ∧ ∃ ops, Runs w₀ ops w

/-- Each process is on the run queue or not as it should be, and the timers stand for the
countdown `c`. -/
structure Inv (w : Tasks) (c : Countdown TimerId) : Prop where
  queued : ∃ xs, Queued w.sched (· ∈ w.alive) xs
  timed : ∃ ts, Timed w.sched (· ∈ w.alive) (· ∈ w.inited) ts ∧ w.sched.timesLeft ts = c

/-- What a call does to the countdown. -/
def countdownAfter (w : Tasks) (op : TaskOp) (c : Countdown TimerId) : Countdown TimerId :=
  match op with
  | .addTimer t => c.start t (deltas w.sched.timers t)
  | .delTimer t => c.cancel t
  | .tick => c.tick
  | _ => c

/-! ### Invariance -/

variable {c : Countdown TimerId} {s : Sched}

theorem Inv.of_same (h : w.Inv c) (hbut : SameBut w.sched s)
    (hq : ∃ ys, Queued s (· ∈ w.alive) ys) : (⟨s, w.alive, w.inited⟩ : Tasks).Inv c := by
  obtain ⟨ts, hts, rfl⟩ := h.timed
  exact ⟨hq, ts, hts.congr hbut.timerList hbut.timers, timesLeft_congr hbut.timers⟩

theorem Inv.of_timers (h : w.Inv c) {d : Countdown TimerId}
    (hs : s = w.sched.withTimers s.timerList s.timers)
    (ht : ∃ ts, Timed s (· ∈ w.alive) (· ∈ w.inited) ts ∧ s.timesLeft ts = d) :
    (⟨s, w.alive, w.inited⟩ : Tasks).Inv d := by
  obtain ⟨xs, hxs⟩ := h.queued
  refine ⟨⟨xs, ?_⟩, ht⟩
  rw [show (⟨s, w.alive, w.inited⟩ : Tasks).sched = _ from hs]
  exact hxs.withTimers _ _

/-- One call: the assertions of the queue hold, as does the one on the first timer. -/
theorem Inv.step (h : w.Inv c) (hlegal : w.Legal op) (fuel : Nat) :
    Ensures (fun e => e ∉ [SchedStop.enqueueLinked, .dequeueUnlinked, .timerExpired])
      (fun s => (w.after op s).Inv (w.countdownAfter op c) ∧ ∀ t, ¬op.Edits t →
        ((w.after op s).sched.timers t).proc = (w.sched.timers t).proc) (w.call op fuel) := by
  obtain ⟨xs, hxs⟩ := h.queued
  obtain ⟨ts, hts, hc⟩ := h.timed
  cases op with
  | wakeup p =>
    refine (wakeupProc_spec hxs hlegal).mono (fun e he => ?_) fun s hs => ?_
    · rw [he.1]
      decide
    · exact ⟨h.of_same hs.1.toSameBut hs.2, fun _ _ => hs.1.timers ▸ rfl⟩
  | schedule =>
    obtain ⟨s, ys, heq, hys, -, hbut, -⟩ := schedule_spec hxs
    rw [call, heq]
    exact ⟨h.of_same hbut ⟨ys, hys⟩, fun _ _ => hbut.timers ▸ rfl⟩
  | fork p =>
    refine (forkProc_spec hxs hlegal).mono (fun e he => ?_) ?_
    · rcases he with rfl | rfl <;> decide
    · rintro s ⟨hbut, -, ys, hys⟩
      have halive : (fun r => r ∈ w.alive ∨ r = p) = (· ∈ insert p w.alive) := by
        funext r
        rw [mem_insert, or_comm]
      refine ⟨⟨⟨ys, halive ▸ hys⟩, ts, ?_, (timesLeft_congr hbut.timers).trans hc⟩,
        fun _ _ => hbut.timers ▸ rfl⟩
      obtain ⟨hl, hv, hb, hf, hset, hproc⟩ := hts.congr hbut.timerList hbut.timers
      exact ⟨hl, hv, hb, hf, hset, fun r hr q hq => mem_insert_of_mem (hproc r hr q hq)⟩
  | exitBegin errorCode =>
    refine (exitBegin_spec hxs fuel errorCode).mono (fun e he => ?_) fun s hs => ?_
    · revert e
      decide
    · exact ⟨h.of_same hs.1 hs.2, fun _ _ => hs.1.timers ▸ rfl⟩
  | exit errorCode =>
    refine (doExit_spec hxs fuel errorCode).mono (fun e he => ?_) fun s hs => ?_
    · revert e
      decide
    · exact ⟨h.of_same hs.1 hs.2, fun _ _ => hs.1.timers ▸ rfl⟩
  | sleep waitState =>
    exact ⟨h.of_same (setProc_same ..) ⟨xs, sleep_spec hxs waitState⟩, fun _ _ => rfl⟩
  | timerInit t proc expires =>
    have ht : t ∉ ts := fun hin =>
      hlegal.1 ⟨hts.valid t hin, (hts.linked_iff (hts.valid t hin)).mpr hin⟩
    obtain ⟨hts', hleft⟩ := timerInit_spec hts ht hlegal.2 expires
    have hinited : (fun r => r ∈ w.inited ∨ r = t) = (· ∈ insert t w.inited) := by
      funext r
      rw [mem_insert, or_comm]
    refine ⟨⟨⟨xs, hxs.withTimers _ _⟩, ts, hinited ▸ hts', hleft.trans hc⟩, fun r hr => ?_⟩
    exact congrArg Timer.proc (update_of_ne (fun heq => hr heq.symm) ..)
  | addTimer t =>
    refine (addTimer_spec hts hlegal fuel).mono (fun e he => ?_) ?_
    · rcases he with ⟨rfl, -⟩ | ⟨rfl, -⟩ | ⟨rfl, -⟩ <;> decide
    · rintro s ⟨hs, -, hproc, ts', hts', hleft⟩
      exact ⟨h.of_timers hs ⟨ts', hts', hc ▸ hleft⟩, fun r _ => hproc r⟩
  | delTimer t =>
    obtain ⟨hs, hproc, ts', hts', hleft⟩ := delTimer_spec hts hlegal
    exact ⟨h.of_timers hs ⟨ts', hts', hc ▸ hleft⟩, fun r _ => hproc r⟩
  | tick =>
    refine (runTimerList_spec hxs hts fuel).mono (fun e he => ?_) ?_
    · rcases he with ⟨rfl, -⟩ | ⟨t, -, rfl | rfl, -⟩ <;> decide
    · rintro s ⟨ts', hts', hticked, hq⟩
      exact ⟨⟨hq, ts', hts', hc ▸ hticked.left⟩, fun r _ => hticked.proc r⟩

theorem Inv.of_step (h : w.Inv c) (hstep : Step w w' op) :
    w'.Inv (w.countdownAfter op c) ∧
      ∀ t, ¬op.Edits t → (w'.sched.timers t).proc = (w.sched.timers t).proc := by
  obtain ⟨hlegal, fuel, s, heq, rfl⟩ := hstep
  exact (h.step hlegal fuel).of_ok heq

theorem Inv.run (h : w.Inv c) (hrun : Runs w ops w') : ∃ d, w'.Inv d := by
  induction ops generalizing w c with
  | nil => exact ⟨c, hrun ▸ h⟩
  | cons op ops ih =>
    obtain ⟨u, hstep, hrun⟩ := hrun
    exact ih (h.of_step hstep).1 hrun

theorem Booted.inv (h : w.Booted) : w.Inv (fun _ => none) := by
  obtain ⟨m, idle, init, hne, heq, halive, hinited⟩ := h
  obtain ⟨htimers, ys, hys⟩ := (procInit_spec m hne).of_ok heq
  have hset : (fun r => (False ∨ r = idle) ∨ r = init) = (· ∈ w.alive) := by
    funext r
    rw [halive, mem_insert, mem_singleton, false_or]
  have hnone : (fun _ : TimerId => False) = (· ∈ w.inited) := by
    funext r
    rw [hinited]
    simp
  refine ⟨⟨ys, hset ▸ hys⟩, [], ⟨?_, nofun, Nat.two_pow_pos 32, nofun, nofun, ?_⟩, rfl⟩
  · rw [htimers, ← hnone]
    exact schedInit_timers m
  · rw [hinited]
    exact fun r hr => absurd hr (notMem_empty r)

theorem Reachable.inv (h : w.Reachable) : ∃ c, w.Inv c := by
  obtain ⟨w₀, hboot, ops, hrun⟩ := h
  exact hboot.inv.run hrun

/-- Memory before the scheduler is set up. -/
def blank : Sched where
  runList := ⟨fun _ => .head, fun _ => .head⟩
  procNum := 0
  procs _ := .zero
  current := 0
  idleproc := 0
  initproc := none
  timerList := ⟨fun _ => .head, fun _ => .head⟩
  timers _ := ⟨0, none⟩

/-- The idle process, at 1, has forked the process at 2. -/
def booted : Tasks :=
  ⟨(blank.schedInit.procInit 1 2).toOption.getD blank, {1, 2}, ∅⟩

theorem booted_booted : booted.Booted := ⟨blank, 1, 2, by decide, rfl, rfl, rfl⟩

/-- **The run queue.** In every state of a run the processes `xs` on the run list are different,
their number is `proc_num`, and a process other than the idle and the current one is among them
when it is runnable and only then. No assertion of `RR_enqueue` and `RR_dequeue` fails in the
next call, and `schedule` goes on in a process that is runnable, or in the idle one. -/
theorem run_queue_sound (h : w.Reachable) :
    (∃ xs : List ProcId, Ring w.sched.runList .head (xs.map .entry) ∧ xs.Nodup ∧
      w.sched.procNum.toNat = xs.length ∧ (∀ p ∈ xs, p ∈ w.alive) ∧
      w.sched.idleproc ∉ xs ∧ w.sched.current ∉ xs ∧
      ∀ p ∈ w.alive, p ≠ w.sched.idleproc → p ≠ w.sched.current →
        (p ∈ xs ↔ (w.sched.procs p).state = .runnable)) ∧
    (∀ op, w.Legal op → ∀ fuel, w.call op fuel ≠ .error .enqueueLinked ∧
      w.call op fuel ≠ .error .dequeueUnlinked) ∧
    ∃ s, w.sched.schedule = .ok s ∧
      (s.current = s.idleproc ∨ (s.procs s.current).state = .runnable) := by
  obtain ⟨c, hinv⟩ := h.inv
  obtain ⟨xs, hxs⟩ := hinv.queued
  refine ⟨⟨xs, hxs.listed.ring, hxs.listed.nodup, hxs.procNum_toNat, hxs.valid, hxs.idle,
    hxs.current, hxs.mem_iff⟩, fun op hlegal fuel => ⟨fun heq => ?_, fun heq => ?_⟩, ?_⟩
  · exact (hinv.step hlegal fuel).of_error heq (by decide)
  · exact (hinv.step hlegal fuel).of_error heq (by decide)
  · obtain ⟨s, ys, heq, -, -, hbut, hcur⟩ := schedule_spec hxs
    exact ⟨s, heq, hbut.idleproc ▸ hcur⟩

/-- The process at 2 forks the one at 3 and waits for it, and is woken when it exits. -/
theorem run_queue_sound_wait : ∃ w,
    Runs booted [.schedule, .fork 3, .sleep wtChild, .schedule, .exit 0] w ∧
      w.sched.current = 2 ∧ (w.sched.procs 3).state = .zombie ∧ ∃ s, w.sched.schedule = .ok s ∧
        (s.current = s.idleproc ∨ (s.procs s.current).state = .runnable) := by
  obtain ⟨w, hexec, hw⟩ := (Option.any_eq_true _ _).mp (show
    (booted.exec 9 [.schedule, .fork 3, .sleep wtChild, .schedule, .exit 0]).any (fun w =>
      w.sched.current = 2 ∧ (w.sched.procs 3).state = .zombie) = true by decide +kernel)
  obtain ⟨hcur, hzombie⟩ := of_decide_eq_true hw
  have hrun := runs_of_exec hexec
  exact ⟨w, hrun, hcur, hzombie, (run_queue_sound ⟨booted, booted_booted, _, hrun⟩).2.2⟩

/-! ### Timers -/

theorem Inv.linked_iff (h : w.Inv c) (ht : t ∈ w.inited) : w.Linked t ↔ c t ≠ none := by
  obtain ⟨ts, hts, rfl⟩ := h.timed
  rw [timesLeft_ne_none_iff]
  exact hts.linked_iff ht

theorem Inv.inited (h : w.Inv c) (ht : c t ≠ none) : t ∈ w.inited := by
  obtain ⟨ts, hts, rfl⟩ := h.timed
  exact hts.valid t (timesLeft_ne_none_iff.mp ht)

theorem Inv.pos (h : w.Inv c) {n : Nat} (hn : c t = some n) : 0 < n := by
  obtain ⟨ts, hts, rfl⟩ := h.timed
  exact hts.timesLeft_pos hn

theorem Inv.exists_proc (h : w.Inv c) (ht : c t ≠ none) :
    ∃ p, (w.sched.timers t).proc = some p := by
  obtain ⟨ts, hts, rfl⟩ := h.timed
  exact Option.ne_none_iff_exists'.mp (hts.set t (timesLeft_ne_none_iff.mp ht))

theorem inited_subset (hstep : Step w w' op) : w.inited ⊆ w'.inited := by
  obtain ⟨-, fuel, s, -, rfl⟩ := hstep
  cases op with
  | timerInit t proc expires => exact subset_insert t w.inited
  | _ => exact Finset.Subset.refl _

/-- A call that is not on a timer only moves it when it is a tick. -/
theorem countdownAfter_apply (hop : ¬op.Edits t) :
    w.countdownAfter op c t = Countdown.less^[[op].count .tick] (c t) := by
  cases op with
  | tick => rfl
  | addTimer r => exact update_of_ne (fun heq => hop heq.symm) ..
  | delTimer r => exact update_of_ne (fun heq => hop heq.symm) ..
  | _ => rfl

/-- Between two calls on a timer, its time left only depends on the number of ticks. -/
theorem Inv.run_apply (h : w.Inv c) (hrun : Runs w ops w') (hops : ∀ op ∈ ops, ¬op.Edits t) :
    ∃ d, w'.Inv d ∧ d t = Countdown.less^[ops.count .tick] (c t) ∧ w.inited ⊆ w'.inited := by
  induction ops generalizing w c with
  | nil => exact ⟨c, hrun ▸ h, rfl, hrun ▸ Finset.Subset.refl _⟩
  | cons op ops ih =>
    obtain ⟨u, hstep, hrun⟩ := hrun
    obtain ⟨d, hd, hdt, hsub⟩ := ih (h.of_step hstep).1 hrun
      fun op' hop' => hops op' (List.mem_cons_of_mem op hop')
    refine ⟨d, hd, ?_, (inited_subset hstep).trans hsub⟩
    rw [hdt, countdownAfter_apply (hops op List.mem_cons_self), ← iterate_add_apply,
      ← List.count_append, (List.perm_append_singleton op ops).count_eq]

/-- The call fires the timer: it is taken off the list, and its process is runnable. -/
def Fires (w w' : Tasks) (t : TimerId) : Prop := w.Linked t ∧ ¬w'.Linked t ∧
  ∃ p, (w.sched.timers t).proc = some p ∧ (w'.sched.procs p).state = .runnable

/-- A tick fires the timers that have one tick left, and wakes no other process. -/
theorem Inv.tick (h : w.Inv c) (hstep : Step w w' .tick) :
    (∀ t p, c t = some 1 → (w.sched.timers t).proc = some p →
      (w'.sched.procs p).state = .runnable) ∧
    ∀ p, (∀ t, c t = some 1 → (w.sched.timers t).proc ≠ some p) →
      (w'.sched.procs p).state = (w.sched.procs p).state := by
  obtain ⟨xs, hxs⟩ := h.queued
  obtain ⟨ts, hts, rfl⟩ := h.timed
  obtain ⟨-, fuel, s, heq, rfl⟩ := hstep
  obtain ⟨ts', -, hticked, -⟩ := (runTimerList_spec hxs hts fuel).of_ok heq
  exact ⟨hticked.woken, hticked.other⟩

theorem Inv.fires_iff (h : w.Inv c) (hstep : Step w w' .tick) (ht : t ∈ w.inited) :
    Fires w w' t ↔ c t = some 1 := by
  have h' := (h.of_step hstep).1
  rw [Fires, h.linked_iff ht, h'.linked_iff (inited_subset hstep ht), not_not]
  constructor
  · rintro ⟨hlinked, hgone, -⟩
    obtain ⟨n, hn⟩ := Option.ne_none_iff_exists'.mp hlinked
    have hless : Countdown.less (some n) = none := hn ▸ hgone
    rw [hn, (Countdown.less_eq_none_iff (h.pos hn)).mp hless]
  · intro h1
    obtain ⟨p, hp⟩ := h.exists_proc (h1 ▸ nofun : c t ≠ none)
    refine ⟨h1 ▸ nofun, ?_, p, hp, (h.tick hstep).1 t p h1 hp⟩
    show Countdown.less (c t) = none
    rw [h1]
    rfl

/-- A tick comes back when the processes of the timers on the list can be woken. -/
theorem Inv.tick_returns (h : w.Inv c) (hwake : ∀ t ∈ w.inited, w.Linked t →
    ∀ p, (w.sched.timers t).proc = some p → w.sched.Wakeable p) : ∃ w', Step w w' .tick := by
  obtain ⟨xs, hxs⟩ := h.queued
  obtain ⟨ts, hts, hc⟩ := h.timed
  obtain ⟨s, heq, -⟩ := (runTimerList_spec hxs hts (ts.length + 1)).exists_ok (by
    rintro e (⟨-, hfuel⟩ | ⟨t, h1, -, p, hp, hnw⟩)
    · omega
    · have ht : c t ≠ none := by
        rw [← hc, h1]
        nofun
      exact hnw (hwake t (h.inited ht) ((h.linked_iff (h.inited ht)).mpr ht) p hp))
  exact ⟨_, trivial, _, s, heq, rfl⟩

end Tasks

end UcoreMips.Kernel
