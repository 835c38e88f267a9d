import UcoreMips.Kernel.ListFamily
import UcoreMips.Kernel.Process.Lifecycle

/-!
# UcoreMips.Kernel.Sync.Wait

**Wait queues** (`kern/sync/wait.c`). A `wait_t` is a local variable of the function in which a
process sleeps; a process sleeps in one function at a time, so the model names the `wait_t` by the
process. The queues are named by `Q`.

`Waiting` says who is on which queue: each process is on at most one, and its `wait_t` points back to
both. A process that has been woken for another reason may still be on a queue.
-/

namespace UcoreMips.Kernel

open UcoreMips.Lib
open Function (update)

def wtKsem : BitVec 32 := 0x00000100#32
def wtKbd : BitVec 32 := 0x80000004#32

/-- `wait_t`; its `wait_link` is in `Waits.links`. -/
structure WaitT (Q : Type) where
  proc : ProcId
  wakeupFlags : BitVec 32
  waitQueue : Option Q
  deriving Repr, DecidableEq

/-- Why a call does not come back: the assertion that fails. -/
inductive SyncStop
  | sched (e : SchedStop)
  /-- `wait_queue_add`: `list_empty(&(wait->wait_link))`. -/
  | waitLinked
  /-- `wait_queue_del`: `!list_empty(&(wait->wait_link)) && wait->wait_queue == queue`. -/
  | waitUnlinked
  /-- `__up`: `wait->proc->wait_state == wait_state`. -/
  | upWaitState
  /-- `down`: `flags == 0`. -/
  | downFlags
  | outOfFuel
  deriving Repr, DecidableEq

/-- The processes and the wait queues. -/
structure Waits (Q : Type) where
  sched : Sched
  /-- The heads of the queues and the fields `wait_link`. -/
  links : Links (FamilyNode Q ProcId)
  wait : ProcId → WaitT Q

namespace Waits

variable {Q : Type} [DecidableEq Q]

def setWait (w : Waits Q) (p : ProcId) (t : WaitT Q) : Waits Q :=
  { w with wait := update w.wait p t }

/-- `wait_init` for the process `p`. -/
def waitInit (w : Waits Q) (p : ProcId) : Waits Q :=
  { w.setWait p { w.wait p with proc := p, wakeupFlags := wtInterrupted } with
    links := listInit w.links (.entry p) }

/-- `wait_queue_init`. -/
def waitQueueInit (w : Waits Q) (q : Q) : Waits Q :=
  { w with links := listInit w.links (.head q) }

/-- `wait_queue_add`. -/
def waitQueueAdd (w : Waits Q) (q : Q) (p : ProcId) : Except SyncStop (Waits Q) :=
  if listEmpty w.links (.entry p) then
    .ok { w.setWait p { w.wait p with waitQueue := some q } with
      links := listAddBefore w.links (.head q) (.entry p) }
  else .error .waitLinked

/-- `wait_queue_del`. -/
def waitQueueDel (w : Waits Q) (q : Q) (p : ProcId) : Except SyncStop (Waits Q) :=
  if ¬listEmpty w.links (.entry p) ∧ (w.wait p).waitQueue = some q then
    .ok { w with links := listDelInit w.links (.entry p) }
  else .error .waitUnlinked

/-- `wait_queue_first`. -/
def waitQueueFirst (w : Waits Q) (q : Q) : Option ProcId :=
  match w.links.next (.head q) with
  | .head _ => none
  | .entry p => some p

/-- `wait_queue_empty`. -/
def waitQueueEmpty (w : Waits Q) (q : Q) : Bool := listEmpty w.links (.head q)

/-- `wait_in_queue`. -/
def waitInQueue (w : Waits Q) (p : ProcId) : Bool := !listEmpty w.links (.entry p)

/-- `wakeup_proc`. -/
def wakeupProc (w : Waits Q) (p : ProcId) : Except SyncStop (Waits Q) :=
  match w.sched.wakeupProc p with
  | .ok s => .ok { w with sched := s }
  | .error e => .error (.sched e)

/-- `wakeup_wait` with `del = 1`. -/
def wakeupWait (w : Waits Q) (q : Q) (p : ProcId) (wakeupFlags : BitVec 32) :
    Except SyncStop (Waits Q) := do
  let w ← w.waitQueueDel q p
  let w := w.setWait p { w.wait p with wakeupFlags := wakeupFlags }
  w.wakeupProc (w.wait p).proc

/-- `wakeup_queue` with `del = 1`. -/
def wakeupQueue (q : Q) (wakeupFlags : BitVec 32) : Nat → Waits Q → Except SyncStop (Waits Q)
  | 0, _ => .error .outOfFuel
  | fuel + 1, w =>
    match w.waitQueueFirst q with
    | none => .ok w
    | some p => do wakeupQueue q wakeupFlags fuel (← w.wakeupWait q p wakeupFlags)

/-- `wait_current_set`. -/
def waitCurrentSet (w : Waits Q) (q : Q) (waitState : BitVec 32) : Except SyncStop (Waits Q) :=
  let p := w.sched.current
  let w := w.waitInit p
  { w with sched := w.sched.sleep waitState }.waitQueueAdd q p

/-- `wait_current_del`. -/
def waitCurrentDel (w : Waits Q) (q : Q) : Except SyncStop (Waits Q) :=
  if w.waitInQueue w.sched.current then w.waitQueueDel q w.sched.current else .ok w

/-- `schedule`, up to where the next process goes on. -/
def schedule (w : Waits Q) : Except SyncStop (Waits Q) :=
  match w.sched.schedule with
  | .ok s => .ok { w with sched := s }
  | .error e => .error (.sched e)

/-! ### Who waits -/

/-- The processes `xs` are on the queues; those that are `known` are in a function in which they
sleep, whether they are still on its queue or not. -/
structure Waiting (w : Waits Q) (alive : ProcId → Prop) (xs : Q → List ProcId)
    (known : ProcId → Prop) : Prop where
  queued : ∃ ys, w.sched.Queued alive ys
  family : Family w.links xs known
  alive : ∀ q, ∀ p ∈ xs q, alive p
  known : ∀ q, ∀ p ∈ xs q, known p
  live : ∀ q, ∀ p ∈ xs q, (w.sched.procs p).state ≠ .zombie
  proc : ∀ q, ∀ p ∈ xs q, (w.wait p).proc = p
  queue : ∀ q, ∀ p ∈ xs q, (w.wait p).waitQueue = some q

variable {w : Waits Q} {alive known : ProcId → Prop} {xs : Q → List ProcId} {q : Q} {p : ProcId}
  {ws : List ProcId}

section Waiting

variable (h : Waiting w alive xs known)

include h

omit [DecidableEq Q] in
theorem Waiting.congr {known' : ProcId → Prop} (hknown : ∀ p, known p ↔ known' p) : Waiting w alive xs known' := by
  have heq : known = known' := funext fun p => propext (hknown p)
  rwa [← heq]

omit [DecidableEq Q] in
theorem Waiting.first (q : Q) : w.waitQueueFirst q = (xs q).head? := by
  rw [waitQueueFirst, h.family.next_head]
  cases xs q <;> rfl

theorem Waiting.in_queue_iff (hp : known p) : w.waitInQueue p = true ↔ ∃ q, p ∈ xs q := by
  rw [waitInQueue, Bool.not_eq_true', ← Bool.not_eq_true, h.family.empty_iff hp]
  simp

/-- The current process goes to sleep at the end of the queue. -/
theorem Waiting.currentSet (hcur : ¬known w.sched.current) (q : Q) (waitState : BitVec 32) :
    ∃ w', w.waitCurrentSet q waitState = .ok w' ∧ w'.sched = w.sched.sleep waitState ∧
      w'.wait = update w.wait w.sched.current ⟨w.sched.current, wtInterrupted, some q⟩ ∧
      Waiting w' alive (update xs q (xs q ++ [w.sched.current]))
        (fun p => known p ∨ p = w.sched.current) := by
  have hout : ∀ r, w.sched.current ∉ xs r := fun r hin => hcur (h.known r _ hin)
  have hknow := h.family.know hout
  have hempty : listEmpty (listInit w.links (.entry w.sched.current)) (.entry w.sched.current) = true :=
    (hknow.empty_iff (.inr rfl)).mpr hout
  obtain ⟨ys, hq⟩ := h.queued
  have hmem : ∀ r p, p ∈ update xs q (xs q ++ [w.sched.current]) r →
      (p ∈ xs r ∧ p ≠ w.sched.current) ∨ (p = w.sched.current ∧ r = q) := by
    intro r p hp
    exact (Family.mem_addLast.mp hp).imp_left fun hin => ⟨hin, fun heq => hout r (heq ▸ hin)⟩
  refine ⟨_, if_pos hempty, rfl, ?_, ⟨ys, Sched.sleep_spec hq waitState⟩, hknow.addLast hout, ?_, ?_,
    ?_, ?_, ?_⟩
  · simp [setWait, waitInit]
  · intro r p hp
    rcases hmem r p hp with ⟨hin, -⟩ | ⟨rfl, -⟩
    · exact h.alive r p hin
    · exact hq.ptrs.current
  · intro r p hp
    exact (hmem r p hp).imp (fun hin => h.known r p hin.1) fun heq => heq.1
  · intro r p hp
    show ((w.sched.sleep waitState).procs p).state ≠ .zombie
    rcases hmem r p hp with ⟨hin, hne⟩ | ⟨rfl, -⟩
    · rw [Sched.sleep_of_ne _ _ hne]
      exact h.live r p hin
    · rw [Sched.sleep_self]
      nofun
  · intro r p hp
    rcases hmem r p hp with ⟨hin, hne⟩ | ⟨rfl, -⟩
    · simpa [setWait, waitInit, hne] using h.proc r p hin
    · simp [setWait, waitInit]
  · intro r p hp
    rcases hmem r p hp with ⟨hin, hne⟩ | ⟨rfl, rfl⟩
    · simpa [setWait, waitInit, hne] using h.queue r p hin
    · simp [setWait, waitInit]

/-- The first process of a queue is taken off it and woken. -/
theorem Waiting.wakeup (hq : xs q = p :: ws) (wakeupFlags : BitVec 32) :
    ∃ w', w.wakeupWait q p wakeupFlags = .ok w' ∧ w.sched.wakeupProc p = .ok w'.sched ∧
      w'.wait = update w.wait p { w.wait p with wakeupFlags := wakeupFlags } ∧
      Waiting w' alive (update xs q ws) known := by
  have hin : p ∈ xs q := by simp [hq]
  have hlinked : ¬listEmpty w.links (.entry p) = true := fun he =>
    (h.family.empty_iff (h.known q p hin)).mp he q hin
  have hdel : w.waitQueueDel q p = .ok { w with links := listDelInit w.links (.entry p) } :=
    if_pos ⟨hlinked, h.queue q p hin⟩
  obtain ⟨ys, hrun⟩ := h.queued
  obtain ⟨s, hwake, -, zs, hzs⟩ := (Sched.wakeupProc_spec hrun (h.alive q p hin)).exists_ok
    fun e he => absurd he.2 (h.live q p hin)
  have hproc : (w.wait p).proc = p := h.proc q p hin
  have hsplit : xs q = [] ++ p :: ws := hq
  have hmem : ∀ r x, x ∈ update xs q ws r → x ∈ xs r ∧ x ≠ p :=
    fun r x => (h.family.mem_remove hsplit).mp
  refine ⟨⟨s, listDelInit w.links (.entry p),
    update w.wait p { w.wait p with wakeupFlags := wakeupFlags }⟩, ?_, hwake, rfl,
    ⟨zs, hzs⟩, h.family.remove hsplit, ?_, ?_, ?_, ?_, ?_⟩
  · simp [wakeupWait, hdel, wakeupProc, setWait, hproc, hwake]
  · exact fun r x hx => h.alive r x (hmem r x hx).1
  · exact fun r x hx => h.known r x (hmem r x hx).1
  · intro r x hx
    rw [Sched.wakeupProc_of_ne hwake (hmem r x hx).2]
    exact h.live r x (hmem r x hx).1
  · intro r x hx
    simpa [(hmem r x hx).2] using h.proc r x (hmem r x hx).1
  · intro r x hx
    simpa [(hmem r x hx).2] using h.queue r x (hmem r x hx).1

/-- A process that has been taken off its queue leaves the function in which it slept. -/
theorem Waiting.currentDel (hcur : known w.sched.current)
    (hout : ∀ r, w.sched.current ∉ xs r) (q : Q) :
    w.waitCurrentDel q = .ok w ∧ Waiting w alive xs (fun p => known p ∧ p ≠ w.sched.current) := by
  have hno : ¬w.waitInQueue w.sched.current = true := fun hin => by
    obtain ⟨r, hr⟩ := (h.in_queue_iff hcur).mp hin
    exact hout r hr
  refine ⟨if_neg hno, h.queued, h.family.forget fun p hp => hp.1, h.alive, fun r p hp => ?_, h.live,
    h.proc, h.queue⟩
  exact ⟨h.known r p hp, fun heq => hout r (heq ▸ hp)⟩

/-- All processes of a queue are taken off it and woken. -/
theorem Waiting.wakeupQueue (q : Q) (wakeupFlags : BitVec 32) (fuel : Nat) :
    ((xs q).length < fuel → ∃ w', wakeupQueue q wakeupFlags fuel w = .ok w') ∧
      ∀ w', wakeupQueue q wakeupFlags fuel w = .ok w' →
        Waiting w' alive (update xs q []) known := by
  induction fuel generalizing w xs with
  | zero => exact ⟨by simp, fun w' hw => nomatch hw⟩
  | succ fuel ih =>
    have hfirst := h.first q
    rw [Waits.wakeupQueue]
    cases hq : xs q with
    | nil =>
      rw [hq] at hfirst
      rw [hfirst]
      refine ⟨fun _ => ⟨w, rfl⟩, fun w' hw => ?_⟩
      cases hw
      rwa [← hq, Function.update_eq_self]
    | cons p ws =>
      rw [hq] at hfirst
      obtain ⟨w₁, hwake, -, -, h₁⟩ := h.wakeup hq wakeupFlags
      simpa [hfirst, hwake] using ih h₁

/-- A process leaves the function in which it slept, whether it is still on the queue or not. -/
theorem Waiting.currentLeave (hcur : known w.sched.current) (q : Q)
    (hout : ∀ r, w.sched.current ∈ xs r → r = q) :
    ∃ w' ys, w.waitCurrentDel q = .ok w' ∧ w'.sched = w.sched ∧
      Waiting w' alive ys (fun p => known p ∧ p ≠ w.sched.current) := by
  by_cases hin : w.sched.current ∈ xs q
  · obtain ⟨us, ws, hq⟩ := List.append_of_mem hin
    have hqueued : w.waitInQueue w.sched.current = true := (h.in_queue_iff hcur).mpr ⟨q, hin⟩
    have hlinked : ¬listEmpty w.links (.entry w.sched.current) = true := fun he =>
      (h.family.empty_iff hcur).mp he q hin
    have hmem : ∀ r x, x ∈ update xs q (us ++ ws) r → x ∈ xs r ∧ x ≠ w.sched.current :=
      fun r x => (h.family.mem_remove hq).mp
    have hdel : w.waitQueueDel q w.sched.current =
        .ok { w with links := listDelInit w.links (.entry w.sched.current) } :=
      if_pos ⟨hlinked, h.queue q _ hin⟩
    refine ⟨{ w with links := listDelInit w.links (.entry w.sched.current) },
      update xs q (us ++ ws), ?_, rfl, h.queued,
      (h.family.remove hq).forget fun _ hp => hp.1, fun r x hx => h.alive r x (hmem r x hx).1,
      fun r x hx => ⟨h.known r x (hmem r x hx).1, (hmem r x hx).2⟩,
      fun r x hx => h.live r x (hmem r x hx).1, fun r x hx => h.proc r x (hmem r x hx).1,
      fun r x hx => h.queue r x (hmem r x hx).1⟩
    rw [waitCurrentDel, if_pos hqueued, hdel]
  · obtain ⟨hdel, hw⟩ := h.currentDel hcur (fun r hr => hin (hout r hr ▸ hr)) q
    exact ⟨w, xs, hdel, rfl, hw⟩

omit [DecidableEq Q] in
/-- Processes have been scheduled, or made runnable. -/
theorem Waiting.reschedule {s : Sched} (hq : ∃ ys, s.Queued alive ys)
    (hlive : ∀ p, known p → (w.sched.procs p).state ≠ .zombie → (s.procs p).state ≠ .zombie) :
    Waiting { w with sched := s } alive xs known :=
  { h with queued := hq, live := fun q p hp => hlive p (h.known q p hp) (h.live q p hp) }

omit [DecidableEq Q] in
/-- `schedule` leaves the queues alone. -/
theorem Waiting.schedule :
    ∃ s, w.schedule = .ok { w with sched := s } ∧ w.sched.schedule = .ok s ∧
      Waiting { w with sched := s } alive xs known := by
  obtain ⟨ys, hq⟩ := h.queued
  obtain ⟨s, zs, hrun, hs, hst, -⟩ := Sched.schedule_spec hq
  refine ⟨s, by simp [Waits.schedule, hrun], hrun, ⟨zs, hs⟩, h.family, h.alive, h.known,
    fun r p hp => ?_, h.proc, h.queue⟩
  exact (hst p).1.symm ▸ h.live r p hp

end Waiting

end Waits

end UcoreMips.Kernel
