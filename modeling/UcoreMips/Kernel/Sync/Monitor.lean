import UcoreMips.Kernel.Sync.Sem

/-!
# UcoreMips.Kernel.Sync.Monitor

**Monitors** (`kern/sync/monitor.c`), with procedures of the form that `check_sync.c` uses: `down` on
the mutex, a body that calls `cond_wait` and `cond_signal`, and `up` on `next` or on the mutex. Any
number of processes run such procedures, statement by statement and in any interleaving.

The right to be inside is a token that is in one place at a time: it is the unit of one of the
semaphores, or a process has it (`Place`). `cond_signal` puts it into the semaphore of a condition
variable, from where only a process that waits there can take it (`Coming`).
-/

namespace UcoreMips.Kernel

open UcoreMips.Lib Finset
open Function (update update_of_ne update_self update_eq_self)

/-- The semaphores of `monitor_t`, and the one of each `condvar_t`. -/
inductive MonitorSem (C : Type)
  | mutex
  | next
  | cv (c : C)
  deriving Repr, DecidableEq

/-- The statement of a monitor procedure that a process executes next. -/
inductive MonitorPc (C : Type)
  | outside
  /-- In `down(mutex)`. -/
  | entering
  | body
  /-- `cond_wait`: `if (next_count > 0)`. -/
  | waitTest (c : C)
  /-- `cond_wait`: `up` on `next` or on the mutex, by the outcome of the test. -/
  | waitUp (c : C) (b : Bool)
  /-- `cond_wait`: `down(sem)`, and in it. -/
  | waitDown (c : C)
  | waitSleep (c : C)
  /-- `cond_wait`: `count --`. -/
  | waitDec (c : C)
  /-- `cond_signal`: `next_count ++`. -/
  | signalInc (c : C)
  /-- `cond_signal`: `up(sem)`. -/
  | signalUp (c : C)
  /-- `cond_signal`: `down(next)`, and in it. -/
  | signalDown
  | signalSleep
  /-- `cond_signal`: `next_count--`. -/
  | signalDec
  /-- The end of the procedure: `up` on `next` or on the mutex. -/
  | leaveUp (b : Bool)
  deriving Repr, DecidableEq

namespace MonitorPc

variable {C : Type}

/-- The semaphore in whose `down` the process is. -/
def sem : MonitorPc C → Option (MonitorSem C)
  | entering => some .mutex
  | waitSleep c => some (.cv c)
  | signalSleep => some .next
  | _ => none

/-- The semaphore on which the process calls `down` next. -/
def asks : MonitorPc C → Option (MonitorSem C)
  | outside => some .mutex
  | waitDown c => some (.cv c)
  | signalDown => some .next
  | _ => none

/-- The process executes inside the monitor. -/
def inside : MonitorPc C → Bool
  | body | waitTest _ | waitUp _ _ | waitDec _ | signalInc _ | signalUp _ | signalDec | leaveUp _ => true
  | _ => false

/-- Between `next_count ++` and `next_count--`. -/
def signals : MonitorPc C → Bool
  | signalUp _ | signalDown | signalSleep | signalDec => true
  | _ => false

/-- The condition variable, between `count ++` and `count --`. -/
def waitsOn : MonitorPc C → Option C
  | waitTest c | waitUp c _ | waitDown c | waitSleep c | waitDec c => some c
  | _ => none

/-- The outcome of the last test of `next_count > 0`. -/
def tested : MonitorPc C → Option Bool
  | waitUp _ b | leaveUp b => some b
  | _ => none

/-- The process has been released, or has released the monitor: a signaller that is suspended. -/
def suspended : MonitorPc C → Bool
  | signalDown | signalSleep => true
  | _ => false

end MonitorPc

/-- What a process does next. In the body it is free to choose. -/
inductive MonitorOp (C : Type)
  | enter
  | condWait (c : C)
  | condSignal (c : C)
  | leave
  /-- The next statement of the function in which the process is. -/
  | resume
  | schedule
  /-- Sleeping and waking for other reasons. -/
  | sleep (waitState : BitVec 32)
  | wakeup (p : ProcId)
  deriving Repr, DecidableEq

/-- A monitor with its condition variables, and the processes. -/
structure Monitor (C : Type) extends SemSys (MonitorSem C) where
  nextCount : Int
  count : C → Int
  pc : ProcId → MonitorPc C

namespace Monitor

variable {C : Type} {x : MonitorPc C} {p : ProcId} {q : MonitorSem C} {c : C} {b : Bool}

/-- How the number of processes at certain statements changes when one process moves. -/
theorem card_update (P : MonitorPc C → Prop) [DecidablePred P] {alive : Finset ProcId}
    (hp : p ∈ alive) (pc : ProcId → MonitorPc C) (x : MonitorPc C) :
    ((alive.filter fun r => P (update pc p x r)).card : Int) =
      (alive.filter fun r => P (pc r)).card + (if P x then 1 else 0) - if P (pc p) then 1 else 0 := by
  have hrest : ∀ y, (alive.filter fun r => P (update pc p y r)).erase p =
      (alive.filter fun r => P (pc r)).erase p := by
    intro y
    ext r
    by_cases hr : r = p
    · simp [hr]
    · simp [hr]
  have hcard : ∀ f : ProcId → MonitorPc C, ((alive.filter fun r => P (f r)).card : Int) =
      ((alive.filter fun r => P (f r)).erase p).card + if P (f p) then 1 else 0 := by
    intro f
    by_cases hf : P (f p)
    · have hmem : p ∈ alive.filter fun r => P (f r) := by simp [hp, hf]
      have h := card_erase_add_one hmem
      simp only [hf, if_true]
      omega
    · simp [hf]
  rw [hcard (update pc p x), hrest x, hcard pc, update_self]
  omega

/-- Who has tested `next_count` is inside. -/
theorem inside_of_tested (h : x.tested = some b) : x.inside = true := by
  cases x <;> first | rfl | cases h

theorem sem_of_inside (h : x.inside = true) : x.sem = none := by
  cases x <;> first | rfl | cases h

theorem not_inside_of_sem (h : x.sem = some q) : x.inside = false := by
  cases x <;> first | rfl | cases h

theorem outer_of_asks (h : x.asks = some q) : x.inside = false ∧ x.sem = none := by
  cases x <;> first | exact ⟨rfl, rfl⟩ | cases h

theorem tested_of_outer (h : x.inside = false) : x.tested = none := by
  cases x <;> first | rfl | cases h

theorem signals_update {pc : ProcId → MonitorPc C} (hx : x.signals = (pc p).signals) (r : ProcId) :
    (update pc p x r).signals = (pc r).signals := by
  by_cases hr : r = p
  · rw [hr, update_self, hx]
  · rw [update_of_ne hr]

variable [DecidableEq C]

def goto (m : Monitor C) (x : MonitorPc C) : Monitor C :=
  { m with pc := update m.pc m.sched.current x }

/-- `down`, which leads to `done` unless the process has to sleep. -/
def down (m : Monitor C) (q : MonitorSem C) (asleep done : MonitorPc C) :
    Except SyncStop (Monitor C) := do
  let s ← m.toSemSys.exec (.down q)
  let x := if s.inDown m.sched.current = none then done else asleep
  return { m with toSemSys := s, pc := update m.pc m.sched.current x }

/-- The end of a `down` in which the process has slept. -/
def finish (m : Monitor C) (done : MonitorPc C) : Except SyncStop (Monitor C) := do
  let s ← m.toSemSys.exec .finish
  return { m with toSemSys := s, pc := update m.pc m.sched.current done }

def up (m : Monitor C) (q : MonitorSem C) (done : MonitorPc C) : Except SyncStop (Monitor C) := do
  let s ← m.toSemSys.exec (.up q)
  return { m with toSemSys := s, pc := update m.pc m.sched.current done }

/-- Who leaves the monitor lets a signaller go on, and otherwise opens the mutex. -/
def release (b : Bool) : MonitorSem C := if b then .next else .mutex

/-- The first statement of `cond_wait`. -/
def condWait (m : Monitor C) (c : C) : Monitor C :=
  { m with count := update m.count c (m.count c + 1) }.goto (.waitTest c)

/-- The test with which `cond_signal` begins. -/
def condSignal (m : Monitor C) (c : C) : Monitor C :=
  if 0 < m.count c then m.goto (.signalInc c) else m

/-- The test at the end of a monitor procedure. -/
def leave (m : Monitor C) : Monitor C := m.goto (.leaveUp (decide (0 < m.nextCount)))

/-- The rest of `cond_wait`, of `cond_signal` and of the calls of `down` and `up` around the body. -/
def resume (m : Monitor C) : Except SyncStop (Monitor C) :=
  match m.pc m.sched.current with
  | .waitTest c => .ok (m.goto (.waitUp c (decide (0 < m.nextCount))))
  | .waitUp c b => m.up (release b) (.waitDown c)
  | .waitDown c => m.down (.cv c) (.waitSleep c) (.waitDec c)
  | .waitSleep c => m.finish (.waitDec c)
  | .waitDec c => .ok ({ m with count := update m.count c (m.count c - 1) }.goto .body)
  | .signalInc c => .ok ({ m with nextCount := m.nextCount + 1 }.goto (.signalUp c))
  | .signalUp c => m.up (.cv c) .signalDown
  | .signalDown => m.down .next .signalSleep .signalDec
  | .signalSleep => m.finish .signalDec
  | .signalDec => .ok ({ m with nextCount := m.nextCount - 1 }.goto .body)
  | .leaveUp b => m.up (release b) .outside
  | .entering => m.finish .body
  | .outside | .body => .ok m

/-- A process calls the procedures one after the other, and in the body the functions on condition
variables; one that sleeps in `down` does nothing. -/
def Legal (m : Monitor C) : MonitorOp C → Prop
  | .enter => m.pc m.sched.current = .outside
  | .condWait _ | .condSignal _ | .leave => m.pc m.sched.current = .body
  | .resume => (m.pc m.sched.current).sem ≠ none →
      (m.sched.procs m.sched.current).state = .runnable
  | .schedule => True
  | .sleep _ => m.inDown m.sched.current = none
  | .wakeup p => p ∈ m.alive ∧ m.inDown p = none

def exec (m : Monitor C) : MonitorOp C → Except SyncStop (Monitor C)
  | .enter => m.down .mutex .entering .body
  | .condWait c => .ok (m.condWait c)
  | .condSignal c => .ok (m.condSignal c)
  | .leave => .ok m.leave
  | .resume => m.resume
  | .schedule => do
    let s ← m.toSemSys.exec .schedule
    return { m with toSemSys := s }
  | .sleep waitState => do
    let s ← m.toSemSys.exec (.sleep waitState)
    return { m with toSemSys := s }
  | .wakeup p => do
    let s ← m.toSemSys.exec (.wakeup p)
    return { m with toSemSys := s }

def Step (m m' : Monitor C) : Prop := ∃ op, m.Legal op ∧ m.exec op = .ok m'

/-- The values that `monitor_init` gives to the semaphores. -/
def initial : MonitorSem C → Int
  | .mutex => 1
  | _ => 0

/-- `monitor_init` has been called, and no process has used the monitor. -/
structure Start (m : Monitor C) : Prop where
  sems : m.toSemSys.Start initial
  nextCount : m.nextCount = 0
  count : ∀ c, m.count c = 0
  pc : ∀ p, m.pc p = .outside

/-! ### Where the token is -/

/-- Where the right to be inside is: it is the unit of a semaphore, or with a process. -/
inductive Place (C : Type)
  | sem (q : MonitorSem C)
  | proc (p : ProcId)
  deriving DecidableEq

/-- The process is inside, or has been handed the unit of the semaphore on which it slept. -/
def Has (pc : ProcId → MonitorPc C) (xs : MonitorSem C → List ProcId) (p : ProcId) : Prop :=
  (pc p).inside = true ∨ ∃ q, (pc p).sem = some q ∧ p ∉ xs q

/-- The processes `xs` sleep in the semaphores, and the token is at `place`. -/
structure Inv (m : Monitor C) (xs : MonitorSem C → List ProcId) (place : Place C) : Prop where
  sems : m.toSemSys.Inv initial xs
  inDown : ∀ p, m.inDown p = (m.pc p).sem
  alive : ∀ p, m.pc p ≠ .outside → p ∈ m.alive
  value : ∀ q, m.value q = if place = .sem q then 1 else 0
  has : ∀ p, Has m.pc xs p ↔ place = .proc p
  tested : ∀ p b, (m.pc p).tested = some b → b = decide (0 < m.nextCount)
  nextCount : m.nextCount = (m.alive.filter fun p => (m.pc p).signals = true).card
  count : ∀ c, m.count c = (m.alive.filter fun p => (m.pc p).waitsOn = some c).card
  suspended : ∀ q, place = .sem q → q ≠ .mutex → ∃ p, (m.pc p).signals = true ∧ ¬Has m.pc xs p

variable {m m' : Monitor C} {xs : MonitorSem C → List ProcId} {place : Place C} {r : ProcId}
  {n : Int} {k : C → Int} {done : MonitorPc C}

theorem Inv.current (h : Inv m xs place) : m.sched.current ∈ m.alive := by
  obtain ⟨ys, hys⟩ := h.sems.waiting.queued
  exact hys.ptrs.current

/-- Of two processes that have the token, one is the other. -/
theorem Inv.has_unique (h : Inv m xs place) (hp : Has m.pc xs p) (hr : Has m.pc xs r) : p = r := by
  have heq := ((h.has p).mp hp).symm.trans ((h.has r).mp hr)
  cases heq
  rfl

/-- The current process goes to `x`, and semaphores and counters change with it. -/
theorem Inv.move (h : Inv m xs place) {s : SemSys (MonitorSem C)} {ys : MonitorSem C → List ProcId}
    {place' : Place C} (hs : s.Inv initial ys) (halive : s.alive = m.alive)
    (hdown : s.inDown = update m.inDown m.sched.current x.sem)
    (hvalue : ∀ q, s.value q = if place' = .sem q then 1 else 0)
    (hself : (x.inside = true ∨ ∃ q, x.sem = some q ∧ m.sched.current ∉ ys q) ↔
      place' = .proc m.sched.current) (hother : ∀ p, p ≠ m.sched.current → (Has m.pc ys p ↔ place' = .proc p))
    (htest : ∀ b, x.tested = some b → b = decide (0 < n))
    (hchange : n = m.nextCount ∨ Has m.pc xs m.sched.current)
    (hn : n = m.nextCount + (if x.signals = true then 1 else 0) -
      if (m.pc m.sched.current).signals = true then 1 else 0)
    (hcnt : ∀ c, k c = m.count c + (if x.waitsOn = some c then 1 else 0) -
      if (m.pc m.sched.current).waitsOn = some c then 1 else 0) (hsusp : ∀ q, place' = .sem q → q ≠ .mutex →
      ∃ p, (update m.pc m.sched.current x p).signals = true) :
    Inv ⟨s, n, k, update m.pc m.sched.current x⟩ ys place' := by
  have hhas : ∀ p, Has (update m.pc m.sched.current x) ys p ↔ place' = .proc p := by
    intro p
    by_cases hp : p = m.sched.current
    · simpa [Has, hp] using hself
    · simpa [Has, hp] using hother p hp
  exact {
    sems := hs
    inDown := fun p => by
      by_cases hp : p = m.sched.current
      · simp [hdown, hp]
      · simp [hdown, hp, h.inDown p]
    alive := fun p hp => by
      rw [halive]
      by_cases hpc : p = m.sched.current
      · exact hpc ▸ h.current
      · exact h.alive p (by simpa [hpc] using hp)
    value := hvalue
    has := hhas
    tested := fun p b hb => by
      by_cases hpc : p = m.sched.current
      · exact htest b (by simpa [hpc] using hb)
      · have hb' : (m.pc p).tested = some b := by simpa [hpc] using hb
        rcases hchange with hsame | hhas
        · rw [hsame]
          exact h.tested p b hb'
        · exact absurd (h.has_unique (.inl (inside_of_tested hb')) hhas) hpc
    nextCount := by
      rw [halive, card_update (fun y => y.signals = true) h.current, hn, h.nextCount]
    count := fun c => by
      show k c = ((s.alive.filter fun p =>
        (update m.pc m.sched.current x p).waitsOn = some c).card : Int)
      rw [halive, card_update (fun y => y.waitsOn = some c) h.current, hcnt, h.count]
    suspended := fun q hq hne => by
      obtain ⟨p, hp⟩ := hsusp q hq hne
      refine ⟨p, hp, fun hin => ?_⟩
      cases hq.symm.trans ((hhas p).mp hin) }

/-- Another process runs next, or one has been woken that does not sleep in a semaphore. -/
theorem Inv.reschedule (h : Inv m xs place) {s : Sched}
    (hs : SemSys.Inv initial { m.toSemSys with sched := s } xs) :
    Inv { m with sched := s } xs place :=
  { h with sems := hs }

/-! ### Statements -/

/-- What a statement does to the current process and to the token. -/
inductive Moved (m m' : Monitor C) (place place' : Place C) : Prop
  | still (pc : m'.pc = m.pc) (goes : place' = place)
  /-- The process inside stays inside. -/
  | stays (x : MonitorPc C) (pc : m'.pc = update m.pc m.sched.current x)
    (goes : place' = place) (here : (m.pc m.sched.current).inside = true)
    (inc : ∀ c, m.pc m.sched.current = .signalInc c → x = .signalUp c)
    (up : ∀ c, m.pc m.sched.current ≠ .signalUp c)
  /-- It puts the token into a semaphore. -/
  | gives (q : MonitorSem C) (x : MonitorPc C) (pc : m'.pc = update m.pc m.sched.current x)
    (goes : place' = .sem q ∨ ∃ r, place' = .proc r ∧ (m.pc r).sem = some q)
    (here : (m.pc m.sched.current).inside = true)
    (waits : x.waitsOn = (m.pc m.sched.current).waitsOn)
    (inc : ∀ c, m.pc m.sched.current ≠ .signalInc c)
    (up : ∀ c, m.pc m.sched.current = .signalUp c → q = .cv c)
  /-- A process takes the token out of a semaphore. -/
  | takes (q : MonitorSem C) (x : MonitorPc C) (pc : m'.pc = update m.pc m.sched.current x)
    (goes : place' = .proc m.sched.current) (x_inside : x.inside = true)
    (from_sem : (m.pc m.sched.current).asks = some q ∧ place = .sem q ∨
      (m.pc m.sched.current).sem = some q ∧ place = .proc m.sched.current)
  /-- A process goes to sleep in a semaphore. -/
  | sleeps (q : MonitorSem C) (x : MonitorPc C) (pc : m'.pc = update m.pc m.sched.current x)
    (goes : place' = place) (x_outside : x.inside = false)
    (waits : x.waitsOn = (m.pc m.sched.current).waitsOn) (ask : (m.pc m.sched.current).asks = some q)

/-- The statement comes back, with the invariant. -/
def Comes (m : Monitor C) (place : Place C) (r : Except SyncStop (Monitor C)) : Prop :=
  ∃ m' ys place', r = .ok m' ∧ Inv m' ys place' ∧ Moved m m' place place'

/-- The process inside can go on to `x`, where it is still inside, with the counters `n` and `k`. -/
structure Stays (m : Monitor C) (x : MonitorPc C) (n : Int) (k : C → Int) : Prop where
  here : (m.pc m.sched.current).inside = true
  inside : x.inside = true
  tested : ∀ b, x.tested = some b → b = decide (0 < n)
  signals : n = m.nextCount + (if x.signals = true then 1 else 0) -
    if (m.pc m.sched.current).signals = true then 1 else 0
  waits : ∀ c, k c = m.count c + (if x.waitsOn = some c then 1 else 0) -
    if (m.pc m.sched.current).waitsOn = some c then 1 else 0
  inc : ∀ c, m.pc m.sched.current = .signalInc c → x = .signalUp c
  up : ∀ c, m.pc m.sched.current ≠ .signalUp c

theorem Inv.stay (h : Inv m xs place) (hx : Stays m x n k) :
    Comes m place (.ok ⟨m.toSemSys, n, k, update m.pc m.sched.current x⟩) := by
  have hplace : place = .proc m.sched.current := (h.has _).mp (.inl hx.here)
  have hsem : m.inDown m.sched.current = x.sem := by
    rw [h.inDown, sem_of_inside hx.here, sem_of_inside hx.inside]
  refine ⟨_, xs, place, rfl, h.move h.sems rfl ?_ h.value ?_ (fun p _ => h.has p) hx.tested
    (.inr (.inl hx.here)) hx.signals hx.waits (by simp [hplace]),
    .stays x rfl rfl hx.here hx.inc hx.up⟩
  · rw [← hsem, update_eq_self]
  · simp [hx.inside, hplace]

/-- The process is inside once its `down` has led to `x`. -/
structure Enters (m : Monitor C) (x : MonitorPc C) : Prop where
  inside : x.inside = true
  signals : x.signals = (m.pc m.sched.current).signals
  waits : x.waitsOn = (m.pc m.sched.current).waitsOn
  tested : x.tested = none

/-- `down` takes the token if it is in that semaphore; otherwise the process sleeps. -/
theorem Inv.down_comes (h : Inv m xs place) {asleep : MonitorPc C}
    (hask : (m.pc m.sched.current).asks = some q) (hasleep : asleep.sem = some q)
    (hsig : asleep.signals = (m.pc m.sched.current).signals)
    (hwait : asleep.waitsOn = (m.pc m.sched.current).waitsOn) (hdone : Enters m done) :
    Comes m place (m.down q asleep done) := by
  obtain ⟨houter, hnone⟩ := outer_of_asks hask
  have hcur : m.inDown m.sched.current = none := (h.inDown _).trans hnone
  have hnot : place ≠ .proc m.sched.current := fun heq => by
    rcases (h.has _).mpr heq with hin | ⟨r, hr, -⟩
    · simp [houter] at hin
    · simp [hnone] at hr
  obtain ⟨s, hexec, halive, -, ⟨hpos, hgain, hinv⟩ | ⟨hzero, hvalue, hdown, -, -, hinv⟩⟩ :=
    h.sems.exec_down hcur q
  · have hplace : place = .sem q := by
      by_contra hne
      simp [h.value q, hne] at hpos
    have hdown : s.inDown = m.inDown := by rw [hgain, SemSys.gain]
    have hvalue : s.value = update m.value q (m.value q - 1) := by rw [hgain, SemSys.gain]
    refine ⟨⟨s, m.nextCount, m.count, update m.pc m.sched.current done⟩, xs,
      .proc m.sched.current, ?_, ?_, .takes q done rfl rfl hdone.inside (.inl ⟨hask, hplace⟩)⟩
    · simp [down, hexec, hdown, hcur]
    refine h.move hinv halive ?_ (fun r => ?_) (by simp [hdone.inside]) (fun p hp => ?_)
      (by simp [hdone.tested]) (.inl rfl) (by simp [hdone.signals]) (by simp [hdone.waits]) (by simp)
    · rw [hdown, sem_of_inside hdone.inside, ← hcur, update_eq_self]
    · rw [hvalue]
      by_cases hr : r = q
      · simp [hr, h.value q, hplace]
      · simp [hr, h.value r, hplace, Ne.symm hr]
    · simp [h.has, hplace, Ne.symm hp]
  · have hplace : place ≠ .sem q := fun heq => by simp [h.value q, heq] at hzero
    refine ⟨⟨s, m.nextCount, m.count, update m.pc m.sched.current asleep⟩,
      update xs q (xs q ++ [m.sched.current]), place, ?_, ?_,
      .sleeps q asleep rfl rfl (not_inside_of_sem hasleep) hwait hask⟩
    · simp [down, hexec, hdown]
    refine h.move hinv halive (by rw [hdown, hasleep]) (fun r => hvalue ▸ h.value r)
      (by simp [not_inside_of_sem hasleep, hasleep, hnot]) (fun p hp => ?_)
      (by simp [tested_of_outer (not_inside_of_sem hasleep)]) (.inl rfl) (by simp [hsig])
      (by simp [hwait]) fun r hr hne => ?_
    · simp [← h.has p, Has, Family.mem_addLast, hp]
    · obtain ⟨p, hp, -⟩ := h.suspended r hr hne
      exact ⟨p, (signals_update hsig p).trans hp⟩

/-- `up` puts the token into the semaphore, or hands it to a process that sleeps there. -/
theorem Inv.up_comes (h : Inv m xs place) (hin : (m.pc m.sched.current).inside = true)
    (hx : x.inside = false ∧ x.sem = none) (hsig : x.signals = (m.pc m.sched.current).signals)
    (hwait : x.waitsOn = (m.pc m.sched.current).waitsOn) (hsusp : q ≠ .mutex → ∃ p, (m.pc p).signals = true)
    (hinc : ∀ c, m.pc m.sched.current ≠ .signalInc c)
    (hup : ∀ c, m.pc m.sched.current = .signalUp c → q = .cv c) : Comes m place (m.up q x) := by
  have hplace : place = .proc m.sched.current := (h.has _).mp (.inl hin)
  have hzero : ∀ r, m.value r = 0 := fun r => by simp [h.value r, hplace]
  have hnot : ∀ p, p ≠ m.sched.current → ¬Has m.pc xs p := fun p hp hhas => by
    rw [h.has, hplace] at hhas
    exact hp (Place.proc.inj hhas).symm
  have hsem : m.inDown = update m.inDown m.sched.current x.sem := by
    rw [hx.2, ← sem_of_inside hin, ← h.inDown, update_eq_self]
  obtain ⟨s, hexec, halive, hdown, -, -, -, ⟨hxs, hvalue, hinv⟩ | ⟨r, ws, hxs, hvalue, hinv⟩⟩ :=
    h.sems.exec_up q
  · refine ⟨⟨s, m.nextCount, m.count, update m.pc m.sched.current x⟩, xs, .sem q, ?_, ?_,
      .gives q x rfl (.inl rfl) hin hwait hinc hup⟩
    · simp [up, hexec]
    refine h.move hinv halive (hdown.trans hsem) (fun r => ?_) (by simp [hx])
      (fun p hp => by simp [hnot p hp]) (by simp [tested_of_outer hx.1]) (.inl rfl) (by simp [hsig])
      (by simp [hwait]) fun r hr hne => ?_
    · rw [hvalue]
      by_cases hr : r = q
      · simp [hr, hzero]
      · simp [hr, hzero, Ne.symm hr]
    · obtain ⟨p, hp⟩ := hsusp (Place.sem.inj hr ▸ hne)
      exact ⟨p, (signals_update hsig p).trans hp⟩
  · have hrin : r ∈ xs q := by simp [hxs]
    have hrsem : (m.pc r).sem = some q := (h.inDown r).symm.trans (h.sems.inDown q r hrin)
    have hrc : r ≠ m.sched.current := by
      rintro rfl
      simp [sem_of_inside hin] at hrsem
    have hmem := fun x r' => h.sems.mem_tail (x := x) (r := r') hxs
    refine ⟨⟨s, m.nextCount, m.count, update m.pc m.sched.current x⟩, update xs q ws,
      .proc r, ?_, ?_, .gives q x rfl (.inr ⟨r, rfl, hrsem⟩) hin hwait hinc hup⟩
    · simp [up, hexec]
    refine h.move hinv halive (hdown.trans hsem) (fun r => by simp [hvalue, hzero]) (by simp [hx, hrc])
      (fun p hp => ?_) (by simp [tested_of_outer hx.1]) (.inl rfl) (by simp [hsig]) (by simp [hwait])
      (by simp)
    by_cases hpr : p = r
    · subst hpr
      simp [Has, hrsem, hmem]
    · have hsame : Has m.pc (update xs q ws) p ↔ Has m.pc xs p := by simp [Has, hmem, hpr]
      simp [hsame, hnot p hp, Ne.symm hpr]

/-- Who has been handed the token goes on. -/
theorem Inv.finish_comes (h : Inv m xs place) (hsem : (m.pc m.sched.current).sem = some q)
    (hrun : (m.sched.procs m.sched.current).state = .runnable) (hdone : Enters m done) :
    Comes m place (m.finish done) := by
  have hcur : m.inDown m.sched.current = some q := (h.inDown _).trans hsem
  have hout : m.sched.current ∉ xs q := fun hin => by
    rw [h.sems.asleep q _ hin] at hrun
    cases hrun
  have hplace : place = .proc m.sched.current := (h.has _).mp (.inr ⟨q, hsem, hout⟩)
  obtain ⟨s, hexec, hgain, hinv⟩ := h.sems.exec_finish hcur hrun
  have hvalue : s.value = m.value := by rw [hgain, SemSys.gain]
  refine ⟨⟨s, m.nextCount, m.count, update m.pc m.sched.current done⟩, xs, place, ?_, ?_,
    .takes q done rfl hplace hdone.inside (.inr ⟨hsem, hplace⟩)⟩
  · simp [finish, hexec]
  refine h.move hinv (by rw [hgain, SemSys.gain]) (by rw [hgain, sem_of_inside hdone.inside])
    (fun r => hvalue ▸ h.value r) (by simp [hdone.inside, hplace]) (fun p _ => h.has p)
    (by simp [hdone.tested]) (.inl rfl) (by simp [hdone.signals]) (by simp [hdone.waits])
    (by simp [hplace])

/-- Who releases the monitor knows of a signaller, or opens the mutex. -/
theorem Inv.release_comes (h : Inv m xs place) (hb : (m.pc m.sched.current).tested = some b)
    (hx : x.inside = false ∧ x.sem = none) (hsig : x.signals = (m.pc m.sched.current).signals)
    (hwait : x.waitsOn = (m.pc m.sched.current).waitsOn) : Comes m place (m.up (release b) x) := by
  refine h.up_comes (inside_of_tested hb) hx hsig hwait (fun hne => ?_)
    (fun c hc => by rw [hc] at hb; cases hb) fun c hc => by rw [hc] at hb; cases hb
  have htrue : b = true := by
    cases b with
    | true => rfl
    | false => exact absurd rfl hne
  have hpos : 0 < m.nextCount := of_decide_eq_true ((h.tested _ b hb).symm.trans htrue)
  rw [h.nextCount] at hpos
  obtain ⟨p, hp⟩ := card_pos.mp (by exact_mod_cast hpos)
  exact ⟨p, (mem_filter.mp hp).2⟩

/-- One waiter more, or one less. -/
theorem add_count (k : C → Int) (c d : C) (v : Int) :
    update k c (k c + v) d = k d + if c = d then v else 0 := by
  by_cases hd : d = c
  · simp [hd]
  · simp [hd, Ne.symm hd]

-- The statements below are at a known place, where these compute.
attribute [simp] MonitorPc.sem MonitorPc.asks MonitorPc.inside MonitorPc.signals MonitorPc.waitsOn
  MonitorPc.tested MonitorPc.suspended

/-- The next statement of a function comes back. -/
theorem Inv.resume_comes (h : Inv m xs place) (hl : m.Legal .resume) : Comes m place m.resume := by
  rw [resume]
  cases hpc : m.pc m.sched.current with
  | outside | body => exact ⟨m, xs, place, rfl, h, .still rfl rfl⟩
  | entering =>
    exact h.finish_comes (q := .mutex) (by rw [hpc]; rfl) (hl (by simp [hpc])) (by constructor <;> simp [hpc])
  | waitTest c => exact h.stay (by constructor <;> simp [hpc])
  | waitUp c b => exact h.release_comes (by rw [hpc]; rfl) ⟨rfl, rfl⟩ (by simp [hpc]) (by simp [hpc])
  | waitDown c =>
    exact h.down_comes (by rw [hpc]; rfl) rfl (by simp [hpc]) (by simp [hpc])
      (by constructor <;> simp [hpc])
  | waitSleep c =>
    exact h.finish_comes (q := .cv c) (by rw [hpc]; rfl) (hl (by simp [hpc]))
      (by constructor <;> simp [hpc])
  | waitDec c =>
    exact h.stay (by constructor <;> simp [hpc, Int.sub_eq_add_neg, add_count, apply_ite (-·)])
  | signalInc c => exact h.stay (by constructor <;> simp [hpc])
  | signalUp c =>
    exact h.up_comes (by rw [hpc]; rfl) ⟨rfl, rfl⟩ (by simp [hpc]) (by simp [hpc])
      (fun _ => ⟨m.sched.current, by rw [hpc]; rfl⟩) (by simp [hpc]) (by simp [hpc])
  | signalDown =>
    exact h.down_comes (by rw [hpc]; rfl) rfl (by simp [hpc]) (by simp [hpc])
      (by constructor <;> simp [hpc])
  | signalSleep =>
    exact h.finish_comes (q := .next) (by rw [hpc]; rfl) (hl (by simp [hpc]))
      (by constructor <;> simp [hpc])
  | signalDec => exact h.stay (by constructor <;> simp [hpc])
  | leaveUp b => exact h.release_comes (by rw [hpc]; rfl) ⟨rfl, rfl⟩ (by simp [hpc]) (by simp [hpc])

/-- Every statement comes back, and keeps the invariant. -/
theorem Inv.exec_moved (h : Inv m xs place) {op : MonitorOp C} (hl : m.Legal op) :
    ((∀ p, op ≠ .wakeup p) → ∃ m', m.exec op = .ok m') ∧
      ∀ m', m.exec op = .ok m' → ∃ ys place', Inv m' ys place' ∧ Moved m m' place place' := by
  have of_comes : Comes m place (m.exec op) → ((∀ p, op ≠ .wakeup p) → ∃ m', m.exec op = .ok m') ∧
      ∀ m', m.exec op = .ok m' → ∃ ys place', Inv m' ys place' ∧ Moved m m' place place' := by
    rintro ⟨m', ys, place', hexec, hinv, hmoved⟩
    refine ⟨fun _ => ⟨m', hexec⟩, fun t ht => ?_⟩
    obtain rfl : m' = t := Except.ok.inj (hexec.symm.trans ht)
    exact ⟨ys, place', hinv, hmoved⟩
  cases op with
  | enter =>
    have hpc : m.pc m.sched.current = .outside := hl
    exact of_comes (h.down_comes (by rw [hpc]; rfl) rfl (by simp [hpc]) (by simp [hpc])
      (by constructor <;> simp [hpc]))
  | condWait c =>
    have hpc : m.pc m.sched.current = .body := hl
    exact of_comes (h.stay (by constructor <;> simp [hpc, add_count]))
  | condSignal c =>
    have hpc : m.pc m.sched.current = .body := hl
    refine of_comes ?_
    rw [exec, condSignal]
    split
    · exact h.stay (by constructor <;> simp [hpc])
    · exact ⟨m, xs, place, rfl, h, .still rfl rfl⟩
  | leave =>
    have hpc : m.pc m.sched.current = .body := hl
    exact of_comes (h.stay (by constructor <;> simp [hpc]))
  | resume => exact of_comes (h.resume_comes hl)
  | schedule =>
    obtain ⟨s, hexec, -, hinv⟩ := h.sems.exec_schedule
    refine of_comes ⟨_, xs, place, ?_, h.reschedule hinv, .still rfl rfl⟩
    simp [exec, hexec]
  | sleep waitState =>
    obtain ⟨hexec, hinv⟩ := h.sems.exec_sleep hl waitState
    refine of_comes ⟨_, xs, place, ?_, h.reschedule hinv, .still rfl rfl⟩
    simp [exec, hexec]
  | wakeup p =>
    refine ⟨fun hno => absurd rfl (hno p), fun m' hexec => ?_⟩
    obtain ⟨s, hs, hm⟩ := bind_eq_ok.mp hexec
    obtain ⟨t, rfl, hinv⟩ := h.sems.exec_wakeup hl.1 hl.2 hs
    rw [← Except.ok.inj hm]
    exact ⟨xs, place, h.reschedule hinv, .still rfl rfl⟩

/-! ### Runs -/

/-- The process executes a statement inside the monitor. -/
def Executing (m : Monitor C) (p : ProcId) : Prop := (m.pc p).inside = true

/-- The process executes inside, or its `down` is complete and it will when it runs next. -/
def Inside (m : Monitor C) (p : ProcId) : Prop := m.Executing p ∨ ∃ q, m.Handed p q

theorem Inv.inside_iff (h : Inv m xs place) : m.Inside p ↔ place = .proc p := by
  rw [← h.has]
  refine or_congr_right (exists_congr fun q => ?_)
  rw [h.sems.handed_iff, h.inDown]

/-- `monitor_init` leaves the token in the mutex. -/
theorem Start.inv (h : Start m) : Inv m (fun _ => []) (.sem .mutex) := by
  refine ⟨h.sems.inv fun q => by cases q <;> simp [initial], fun p => ?_, fun p hp => ?_, fun q => ?_,
    fun p => ?_, fun p b hb => ?_, ?_, fun c => ?_, fun q hq hne => ?_⟩
  · rw [h.sems.inDown, h.pc]
    rfl
  · exact absurd (h.pc p) hp
  · rw [h.sems.value]
    cases q <;> simp [initial]
  · simp [Has, h.pc]
  · rw [h.pc] at hb
    cases hb
  · simp [h.nextCount, h.pc]
  · simp [h.count, h.pc]
  · exact absurd (Place.sem.inj hq).symm hne

theorem Inv.run (h : Inv m xs place) (hrun : Relation.ReflTransGen Step m m') :
    ∃ ys place', Inv m' ys place' := by
  induction hrun with
  | refl => exact ⟨xs, place, h⟩
  | tail _ hstep ih =>
    obtain ⟨ys, place', hinv⟩ := ih
    obtain ⟨op, hl, hexec⟩ := hstep
    obtain ⟨zs, place'', hinv', -⟩ := (hinv.exec_moved hl).2 _ hexec
    exact ⟨zs, place'', hinv'⟩

/-- The process `p` is signalling `c`, and nobody but a process of `W` will get the token next: `p`
still has it, or it is in the semaphore of `c`, or a process has it that sleeps there. -/
structure Coming (p : ProcId) (c : C) (W : ProcId → Prop) (m : Monitor C) (place : Place C) : Prop where
  token : place = .proc p ∧ (m.pc p = .signalInc c ∨ m.pc p = .signalUp c) ∨ place = .sem (.cv c) ∨
    ∃ r, place = .proc r ∧ m.pc r = .waitSleep c
  waits : ∀ r, (m.pc r).waitsOn = some c → W r

omit [DecidableEq C] in
theorem waitsOn_of_sem (h : x.sem = some (.cv c)) : x = .waitSleep c := by
  cases x <;> simp_all

omit [DecidableEq C] in
theorem waitsOn_of_asks (h : x.asks = some (.cv c)) : x.waitsOn = some c := by
  cases x <;> simp_all

variable {W : ProcId → Prop}

section Coming

variable (h : Coming p c W m place) (hinv : Inv m xs place)

include h hinv

/-- While the token is with the signaller or on its way to a waiter, only `p` executes inside. -/
theorem Coming.executing (hr : m.Executing r) : r = p := by
  have hplace : place = .proc r := (hinv.has r).mp (.inl hr)
  rcases h.token with ⟨hp, -⟩ | hsem | ⟨x, hx, hpc⟩
  · exact Place.proc.inj (hplace.symm.trans hp)
  · cases hplace.symm.trans hsem
  · obtain rfl := Place.proc.inj (hplace.symm.trans hx)
    simp [Executing, hpc] at hr

theorem Coming.signalling (hin : m.Executing m.sched.current) :
    m.sched.current = p ∧ place = .proc p ∧
      (m.pc m.sched.current = .signalInc c ∨ m.pc m.sched.current = .signalUp c) := by
  have hcur := h.executing hinv hin
  have hplace : place = .proc p := hcur ▸ (hinv.has _).mp (.inl hin)
  rcases h.token with ⟨-, hpc⟩ | hsem | ⟨r, hr, hrpc⟩
  · exact ⟨hcur, hplace, hcur ▸ hpc⟩
  · cases hplace.symm.trans hsem
  · obtain rfl := Place.proc.inj (hplace.symm.trans hr)
    rw [Executing, hcur, hrpc] at hin
    cases hin

/-- One step: the token is still on its way, or a process of `W` has taken it. -/
theorem Coming.step {place' : Place C} (hmoved : Moved m m' place place') :
    Coming p c W m' place' ∨ ∃ r, W r ∧ m'.Executing r := by
  have hself : ∀ x, m'.pc = update m.pc m.sched.current x →
      (x.waitsOn = some c → (m.pc m.sched.current).waitsOn = some c) →
      ∀ r, (m'.pc r).waitsOn = some c → W r := by
    intro x hpc hx r hr
    rw [hpc] at hr
    by_cases hrc : r = m.sched.current
    · subst hrc
      rw [update_self] at hr
      exact h.waits _ (hx hr)
    · rw [update_of_ne hrc] at hr
      exact h.waits r hr
  cases hmoved with
  | still hpc hgoes =>
    rw [hgoes]
    exact .inl ⟨by rw [hpc]; exact h.token, by rw [hpc]; exact h.waits⟩
  | stays x hpc hgoes hin hinc hup =>
    obtain ⟨hcur, hplace, hinc' | hup'⟩ := h.signalling hinv hin
    · obtain rfl := hinc c hinc'
      refine .inl ⟨.inl ⟨hgoes.trans hplace, .inr ?_⟩, hself _ hpc (by simp)⟩
      rw [hpc, ← hcur, update_self]
    · exact absurd hup' (hup c)
  | gives q x hpc hgoes hin hwaits hinc hup =>
    obtain ⟨-, -, hinc' | hup'⟩ := h.signalling hinv hin
    · exact absurd hinc' (hinc c)
    · obtain rfl := hup c hup'
      refine .inl ⟨.inr (hgoes.imp id ?_), hself x hpc (by rw [hwaits]; exact id)⟩
      rintro ⟨r, hr, hsem⟩
      have hne : r ≠ m.sched.current := by
        rintro rfl
        rw [sem_of_inside hin] at hsem
        cases hsem
      exact ⟨r, hr, by rw [hpc, update_of_ne hne]; exact waitsOn_of_sem hsem⟩
  | takes q x hpc hgoes hx hfrom =>
    refine .inr ⟨m.sched.current, ?_, by rw [Executing, hpc, update_self]; exact hx⟩
    rcases h.token with ⟨hp, hpc'⟩ | hsem | ⟨r, hr, hrpc⟩
    · -- the signaller itself is inside
      rcases hfrom with ⟨-, hq⟩ | ⟨hq, hq'⟩
      · cases hp.symm.trans hq
      · obtain rfl := Place.proc.inj (hp.symm.trans hq')
        rcases hpc' with hpc' | hpc' <;> simp [hpc'] at hq
    · rcases hfrom with ⟨hask, hq⟩ | ⟨-, hq⟩
      · obtain rfl := Place.sem.inj (hsem.symm.trans hq)
        exact h.waits _ (waitsOn_of_asks hask)
      · cases hsem.symm.trans hq
    · rcases hfrom with ⟨-, hq⟩ | ⟨-, hq⟩
      · cases hr.symm.trans hq
      · obtain rfl := Place.proc.inj (hr.symm.trans hq)
        exact h.waits _ (by rw [hrpc]; rfl)
  | sleeps q x hpc hgoes hx hwaits hask =>
    obtain ⟨houter, hsem⟩ := outer_of_asks hask
    refine .inl ⟨?_, hself x hpc (by rw [hwaits]; exact id)⟩
    have hne : ∀ r y, m.pc r = y → (y.inside = true ∨ y.sem ≠ none) → m'.pc r = y := by
      rintro r y rfl hy
      have hr : r ≠ m.sched.current := by
        rintro rfl
        rw [houter, hsem] at hy
        simp at hy
      rw [hpc, update_of_ne hr]
    rw [hgoes]
    refine h.token.imp (fun hp => ⟨hp.1, ?_⟩) (Or.imp id ?_)
    · exact hp.2.imp (fun hc => hne p _ hc (.inl rfl)) fun hc => hne p _ hc (.inl rfl)
    · rintro ⟨r, hr, hrpc⟩
      exact ⟨r, hr, hne r _ hrpc (.inr (by simp ))⟩

/-- As long as nobody but the signaller executes inside, the token is on its way. -/
theorem Coming.run (hp : ¬W p)
    (hrun : Relation.ReflTransGen (fun a b => Step a b ∧ ∀ r, b.Executing r → r = p) m m') :
    ∃ ys place', Inv m' ys place' ∧ Coming p c W m' place' := by
  induction hrun with
  | refl => exact ⟨xs, place, hinv, h⟩
  | tail _ hstep ih =>
    obtain ⟨ys, place₂, hinv₂, hcoming⟩ := ih
    obtain ⟨⟨op, hop, hexec⟩, honly⟩ := hstep
    obtain ⟨zs, place₃, hinv₃, hmoved⟩ := (hinv₂.exec_moved hop).2 _ hexec
    rcases hcoming.step hinv₂ hmoved with hnext | ⟨r, hr, hexec⟩
    · exact ⟨zs, place₃, hinv₃, hnext⟩
    · exact absurd (honly r hexec ▸ hr) hp

/-- Who executes inside after the signaller has waited. -/
theorem Coming.last (hstep : Step m m') (hr : m'.Executing r) (hne : r ≠ p) : W r := by
  obtain ⟨op, hop, hexec⟩ := hstep
  obtain ⟨ys, place', hinv', hmoved⟩ := (hinv.exec_moved hop).2 _ hexec
  rcases h.step hinv hmoved with hnext | ⟨x, hx, hxin⟩
  · exact absurd (hnext.executing hinv' hr) hne
  · obtain rfl := hinv'.has_unique (.inl hr) (.inl hxin)
    exact hx

end Coming

/-- `cond_signal` on a condition variable on which somebody waits. -/
theorem Inv.coming (h : Inv m xs place) (hl : m.Legal (.condSignal c)) (hc : 0 < m.count c)
    (hexec : m.exec (.condSignal c) = .ok m') :
    ∃ ys place', Inv m' ys place' ∧
      Coming m.sched.current c (fun r => (m.pc r).waitsOn = some c) m' place' := by
  obtain ⟨ys, place', h', -⟩ := (h.exec_moved hl).2 m' hexec
  have hm' : m' = m.goto (.signalInc c) := by
    simpa [exec, condSignal, hc] using hexec.symm
  have hpc' : m'.pc = update m.pc m.sched.current (.signalInc c) := by
    rw [hm', goto]
  refine ⟨ys, place', h', .inl ⟨?_, .inl (by rw [hpc', update_self])⟩, fun r hr => ?_⟩
  · exact (h'.has _).mp (.inl (by rw [hpc', update_self]; rfl))
  · rw [hpc'] at hr
    by_cases hrc : r = m.sched.current
    · simp [hrc] at hr
    · rwa [update_of_ne hrc] at hr

/-- The signallers are suspended, or inside and next to an assignment to `next_count`. -/
theorem Inv.nextCount_eq (h : Inv m xs place) :
    m.nextCount = (m.alive.filter fun p => (m.pc p).suspended = true).card +
      (m.alive.filter fun p => (m.pc p).signals = true ∧ (m.pc p).inside = true).card := by
  rw [h.nextCount, ← Int.natCast_add, ← card_union_of_disjoint]
  · congr 2
    ext p
    simp only [mem_filter, mem_union, ← and_or_left]
    refine and_congr_right fun _ => ?_
    cases m.pc p <;> simp 
  · rw [disjoint_filter]
    intro p _ hp
    cases hpc : m.pc p <;> simp [hpc] at hp ⊢

/-- While nobody is inside or suspended, the token is in the mutex. -/
theorem Inv.mutex_open (h : Inv m xs place) (hno : ∀ p, ¬m.Inside p ∧ (m.pc p).suspended = false) :
    m.value .mutex = 1 := by
  cases hplace : place with
  | proc p => exact absurd (h.inside_iff.mpr hplace) (hno p).1
  | sem q =>
    by_cases hq : q = .mutex
    · rw [h.value, hplace, hq, if_pos rfl]
    obtain ⟨p, hsig, hhas⟩ := h.suspended q hplace hq
    have hout : ¬(m.pc p).inside = true := fun hin => hhas (.inl hin)
    have hsusp := (hno p).2
    cases hpc : m.pc p <;>
      simp [hpc] at hsig hout hsusp

/-- **Monitors give mutual exclusion and hand over at once.** In every run: at most one process is
inside; `cond_signal` on a condition variable on which nobody waits does nothing; after
`cond_signal` on one on which somebody waits, the next process other than the signaller to execute
inside has waited on it; `next_count` counts the signallers that are suspended, and the one inside
that is next to its assignment to `next_count`; while nobody is inside or suspended, the mutex is
open; and every statement comes back. -/
theorem monitor_safe {m₀ : Monitor C} (h₀ : Start m₀) :
    ∀ m, Relation.ReflTransGen Step m₀ m →
      (∀ p r, m.Inside p → m.Inside r → p = r) ∧
      (∀ c, m.Legal (.condSignal c) → (∀ p, (m.pc p).waitsOn ≠ some c) →
        m.exec (.condSignal c) = .ok m) ∧
      (∀ c m₁ m₂ m₃ r, m.Legal (.condSignal c) → 0 < m.count c → m.exec (.condSignal c) = .ok m₁ →
        Relation.ReflTransGen
          (fun a b => Step a b ∧ ∀ p, b.Executing p → p = m.sched.current) m₁ m₂ →
        Step m₂ m₃ → m₃.Executing r → r ≠ m.sched.current → (m.pc r).waitsOn = some c) ∧
      (∀ c, m.count c = (m.alive.filter fun p => (m.pc p).waitsOn = some c).card) ∧
      m.nextCount = (m.alive.filter fun p => (m.pc p).suspended = true).card +
        (m.alive.filter fun p => (m.pc p).signals = true ∧ (m.pc p).inside = true).card ∧
      ((∀ p, ¬m.Inside p ∧ (m.pc p).suspended = false) → m.value .mutex = 1) ∧
      ∀ op, m.Legal op → (∀ p, op ≠ .wakeup p) → ∃ m', m.exec op = .ok m' := by
  intro m hrun
  obtain ⟨xs, place, h⟩ := h₀.inv.run hrun
  refine ⟨fun p r hp hr => ?_, fun c _ hno => ?_, fun c m₁ m₂ m₃ r hl hc hexec hrun hlast hr hne => ?_,
    h.count, h.nextCount_eq, h.mutex_open, fun op hl hno => (h.exec_moved hl).1 hno⟩
  · exact Place.proc.inj ((h.inside_iff.mp hp).symm.trans (h.inside_iff.mp hr))
  · have hzero : m.count c = 0 := by
      rw [h.count, filter_false_of_mem fun p _ => hno p]
      rfl
    simp [exec, condSignal, hzero]
  · have hpc : m.pc m.sched.current = .body := hl
    obtain ⟨ys, place₁, h₁, hcoming⟩ := h.coming hl hc hexec
    obtain ⟨zs, place₂, h₂, hcoming₂⟩ :=
      hcoming.run h₁ (by simp [hpc]) hrun
    exact hcoming₂.last h₂ hlast hr hne

/-- `monitor_init` is called when the system has come this far. -/
def start (w : Tasks) : Monitor C where
  toSemSys := SemSys.start w initial
  nextCount := 0
  count _ := 0
  pc _ := .outside

omit [DecidableEq C] in
theorem start_spec {w : Tasks} (h : w.Reachable) : Start (start w : Monitor C) :=
  ⟨SemSys.start_spec h initial, rfl, fun _ => rfl, fun _ => rfl⟩

instance (m : Monitor C) : (op : MonitorOp C) → Decidable (m.Legal op)
  | .enter => inferInstanceAs (Decidable (m.pc m.sched.current = .outside))
  | .condWait _ | .condSignal _ | .leave =>
    inferInstanceAs (Decidable (m.pc m.sched.current = .body))
  | .resume => inferInstanceAs (Decidable (_ ≠ _ → _ = _))
  | .schedule => inferInstanceAs (Decidable True)
  | .sleep _ => inferInstanceAs (Decidable (m.inDown m.sched.current = none))
  | .wakeup p => inferInstanceAs (Decidable (p ∈ m.alive ∧ m.inDown p = none))

/-- The process at 2 waits and the one at 3 signals: 3 is suspended while 2 is inside. -/
theorem monitor_safe_two : ∃ (w : Tasks) (m : Monitor Unit),
    Tasks.Runs Tasks.booted [.schedule, .fork 3] w ∧ Relation.ReflTransGen Step (start w) m ∧
      m.pc 2 = .waitDec () ∧ m.pc 3 = .signalSleep ∧ m.nextCount = 1 ∧ ∀ p, m.Inside p → p = 2 := by
  obtain ⟨w, hw, hrun⟩ := (Option.any_eq_true _ _).mp (show
    (Tasks.booted.exec 9 [.schedule, .fork 3]).any (fun w =>
      (execAll Legal exec (start w : Monitor Unit) [.enter, .condWait (), .resume, .resume, .resume, .schedule,
        .enter, .condSignal (), .resume, .resume, .resume, .schedule, .resume]).any fun m =>
        m.pc 2 = .waitDec () ∧ m.pc 3 = .signalSleep ∧ m.nextCount = 1) = true by decide +kernel)
  obtain ⟨m, hm, hlast⟩ := (Option.any_eq_true _ _).mp hrun
  obtain ⟨hpc, hpc', hnext⟩ := of_decide_eq_true hlast
  have hruns := Tasks.runs_of_exec hw
  have hsteps : Relation.ReflTransGen Step (start w) m :=
    execAll_keeps (fun _ op _ h hl hop => h.tail ⟨op, hl, hop⟩) hm .refl
  have hsafe := (monitor_safe (start_spec ⟨_, Tasks.booted_booted, _, hruns⟩) m hsteps).1
  exact ⟨w, m, hruns, hsteps, hpc, hpc', hnext, fun p hp =>
    hsafe p 2 hp (.inl (by rw [Executing, hpc]; rfl))⟩

end Monitor

end UcoreMips.Kernel
