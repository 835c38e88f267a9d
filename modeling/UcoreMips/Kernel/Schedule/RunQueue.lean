import UcoreMips.Kernel.Schedule.Sched
import UcoreMips.Lib.Result

/-!
# UcoreMips.Kernel.Schedule.RunQueue

**What is on the run queue.** `RunQueue` says that the list is well formed and that its
bookkeeping agrees with it; `Queued` adds which processes are on it: all that are runnable,
but for the current one, which is off the queue while it runs, and the idle one, which is
never on it. The processes that exist are given by `alive`.

`wakeup_proc` and `schedule` keep `Queued` (`wakeupProc_spec`, `schedule_spec`). Between their
steps it does not hold: a process is made runnable before it is put on the queue.
-/

namespace UcoreMips.Kernel

open UcoreMips.Lib
open List

namespace Sched

variable {s t u : Sched} {alive : ProcId → Prop} {xs ys : List ProcId} {p : ProcId}

/-- The run list is the list of processes `xs`, and `proc_num` is its length. -/
structure RunQueue (s : Sched) (alive : ProcId → Prop) (xs : List ProcId) : Prop where
  listed : Listed s.runList xs alive
  num : s.procNum = BitVec.ofNat 32 xs.length
  valid : ∀ p ∈ xs, alive p
  idle : s.idleproc ∉ xs
  rq : ∀ p ∈ xs, (s.procs p).rq = true

/-- The pointers by which processes are found are valid. -/
structure Pointers (s : Sched) (alive : ProcId → Prop) : Prop where
  current : alive s.current
  idle : alive s.idleproc
  init : ∀ p, s.initproc = some p → alive p
  parent : ∀ p, alive p → ∀ q, (s.procs p).parent = some q → alive q

/-- The run list holds the runnable processes other than the current and the idle one. -/
structure Queued (s : Sched) (alive : ProcId → Prop) (xs : List ProcId) : Prop
    extends RunQueue s alive xs where
  current : s.current ∉ xs
  mem_iff : ∀ p, alive p → p ≠ s.idleproc → p ≠ s.current →
    (p ∈ xs ↔ (s.procs p).state = .runnable)
  ptrs : Pointers s alive

/-- A process that nothing points to and that is not on the queue may go. -/
theorem Queued.restrict {alive' : ProcId → Prop} (h : Queued s alive xs)
    (hsub : ∀ p, alive' p → alive p) (hxs : ∀ p ∈ xs, alive' p) (hptrs : Pointers s alive') :
    Queued s alive' xs :=
  ⟨⟨⟨h.listed.ring, fun p hp => h.listed.apart p (hsub p hp)⟩, h.num, hxs, h.idle, h.rq⟩, h.current,
    fun p hp => h.mem_iff p (hsub p hp), hptrs⟩

/-- The parts of the state that no call on a process changes. -/
structure SameBut (s t : Sched) : Prop where
  idleproc : t.idleproc = s.idleproc
  initproc : t.initproc = s.initproc
  timerList : t.timerList = s.timerList
  timers : t.timers = s.timers

theorem SameBut.refl (s : Sched) : SameBut s s := ⟨rfl, rfl, rfl, rfl⟩

theorem setProc_same (s : Sched) (p : ProcId) (q : Proc) : SameBut s (s.setProc p q) :=
  ⟨rfl, rfl, rfl, rfl⟩

theorem SameBut.trans (h : SameBut s t) (h' : SameBut t u) : SameBut s u :=
  ⟨h'.idleproc.trans h.idleproc, h'.initproc.trans h.initproc, h'.timerList.trans h.timerList,
    h'.timers.trans h.timers⟩

/-- No process has changed in what the kernel decides by. -/
def SameStates (s t : Sched) : Prop := ∀ q, (t.procs q).state = (s.procs q).state ∧
  (t.procs q).waitState = (s.procs q).waitState ∧ (t.procs q).parent = (s.procs q).parent

theorem SameStates.trans (h : SameStates s t) (h' : SameStates t u) : SameStates s u := fun q =>
  ⟨(h' q).1.trans (h q).1, (h' q).2.1.trans (h q).2.1, (h' q).2.2.trans (h q).2.2⟩

/-- Nothing has changed that another part of the kernel decides by. -/
structure Kept (s t : Sched) : Prop where
  states : SameStates s t
  same : SameBut s t
  current : t.current = s.current

theorem Kept.trans (h : Kept s t) (h' : Kept t u) : Kept s u :=
  ⟨h.states.trans h'.states, h.same.trans h'.same, h'.current.trans h.current⟩

theorem Pointers.congr (h : Pointers s alive) (hst : SameStates s t) (hbut : SameBut s t)
    (hcur : alive t.current) : Pointers t alive := by
  refine ⟨hcur, hbut.idleproc ▸ h.idle, hbut.initproc ▸ h.init, fun p hp q hq => ?_⟩
  rw [(hst p).2.2] at hq
  exact h.parent p hp q hq

/-! ### Edits -/

/-- The number of processes on the list does not wrap around: the idle process is not on it. -/
theorem RunQueue.procNum_toNat (h : RunQueue s alive xs) : s.procNum.toNat = xs.length := by
  have hnd : ((s.idleproc :: xs).map BitVec.toNat).Nodup :=
    (nodup_cons.mpr ⟨h.idle, h.listed.nodup⟩).map fun _ _ => BitVec.eq_of_toNat_eq
  have hsub : (s.idleproc :: xs).map BitVec.toNat ⊆ List.range (2 ^ 32) := by
    intro n hn
    obtain ⟨p, -, rfl⟩ := mem_map.mp hn
    exact mem_range.mpr p.isLt
  have hle := (hnd.subperm hsub).length_le
  rw [length_map, length_range, length_cons] at hle
  rw [h.num, BitVec.toNat_ofNat, Nat.mod_eq_of_lt hle]

variable {q : Proc}

theorem RunQueue.setProc (h : RunQueue s alive xs) (hrq : p ∈ xs → q.rq = true) :
    RunQueue (s.setProc p q) alive xs := by
  refine ⟨h.listed, h.num, h.valid, h.idle, fun r hr => ?_⟩
  by_cases hrp : r = p
  · subst hrp
    rw [setProc_self]
    exact hrq hr
  · rw [setProc_of_ne s q hrp]
    exact h.rq r hr

theorem Pointers.setProc (h : Pointers s alive) (hparent : ∀ r, q.parent = some r → alive p → alive r) :
    Pointers (s.setProc p q) alive := by
  refine ⟨h.current, h.idle, h.init, fun r hr r' hr' => ?_⟩
  by_cases hrp : r = p
  · subst hrp
    rw [setProc_self] at hr'
    exact hparent r' hr' hr
  · rw [setProc_of_ne s q hrp] at hr'
    exact h.parent r hr r' hr'

theorem Queued.setProc (h : Queued s alive xs)
    (hstate : p = s.current ∨ p = s.idleproc ∨ q.state = (s.procs p).state) (hrq : q.rq = (s.procs p).rq)
    (hparent : ∀ r, q.parent = some r → alive p → alive r) :
    Queued (s.setProc p q) alive xs := by
  refine ⟨h.toRunQueue.setProc fun hin => hrq.trans (h.rq p hin), h.current,
    fun r hr hidle hcur => ?_, h.ptrs.setProc hparent⟩
  rw [h.mem_iff r hr hidle hcur]
  by_cases hrp : r = p
  · subst hrp
    rw [setProc_self, (hstate.resolve_left hcur).resolve_left hidle]
  · rw [setProc_of_ne s q hrp]

/-- A process is put at the end of the queue. -/
theorem RunQueue.enqueue (h : RunQueue s alive xs) (ha : alive p) (hidle : p ≠ s.idleproc)
    (hp : p ∉ xs) : s.rrEnqueue p = .ok (s.enqueued p) ∧
      RunQueue (s.enqueued p) alive (xs ++ [p]) := by
  have hempty : listEmpty s.runList (.entry p) = true := (h.listed.empty_iff ha).mpr hp
  have hxs : Listed s.runList (xs ++ []) alive := by rw [append_nil]; exact h.listed
  refine ⟨if_pos hempty, hxs.add (by rw [append_nil]; exact hp), ?_, fun r hr => ?_, ?_,
    fun r hr => ?_⟩
  · show s.procNum + 1 = _
    rw [h.num, length_append, length_singleton, BitVec.ofNat_add]
    rfl
  · rcases mem_append.mp hr with hr | hr
    · exact h.valid r hr
    · rw [mem_singleton.mp hr]
      exact ha
  · intro hin
    rcases mem_append.mp hin with hin | hin
    · exact h.idle hin
    · exact hidle (mem_singleton.mp hin).symm
  · by_cases hrp : r = p
    · subst hrp
      exact congrArg Proc.rq (Function.update_self r _ s.procs)
    · refine (congrArg Proc.rq (Function.update_of_ne hrp _ s.procs)).trans (h.rq r ?_)
      exact (mem_append.mp hr).resolve_right fun hin => hrp (mem_singleton.mp hin)

/-- The first process is taken off the queue. -/
theorem RunQueue.dequeue (h : RunQueue s alive (p :: xs)) :
    s.rrDequeue p = .ok (s.dequeued p) ∧ RunQueue (s.dequeued p) alive xs := by
  have hin : p ∈ p :: xs := mem_cons_self
  have hempty : ¬listEmpty s.runList (.entry p) = true := fun he =>
    (h.listed.empty_iff (h.valid p hin)).mp he hin
  have hlisted : Listed s.runList ([] ++ p :: xs) alive := h.listed
  refine ⟨if_pos ⟨hempty, h.rq p hin⟩, hlisted.remove, ?_,
    fun r hr => h.valid r (mem_cons_of_mem p hr),
    fun hidle => h.idle (mem_cons_of_mem p hidle),
    fun r hr => h.rq r (mem_cons_of_mem p hr)⟩
  show s.procNum - 1 = _
  rw [h.num, length_cons, BitVec.ofNat_add]
  exact BitVec.add_sub_cancel _ _

theorem RunQueue.pickNext (h : RunQueue s alive xs) : s.rrPickNext = xs.head? := by
  rw [rrPickNext, h.listed.next_head]
  cases xs with
  | nil => rfl
  | cons x xs => rfl

theorem setProc_sameStates (h : q.state = (s.procs p).state ∧
    q.waitState = (s.procs p).waitState ∧ q.parent = (s.procs p).parent) :
    SameStates s (s.setProc p q) := by
  intro r
  by_cases hrp : r = p
  · rw [hrp, setProc_self]
    exact h
  · rw [setProc_of_ne s q hrp]
    exact ⟨rfl, rfl, rfl⟩

/-- Fields that the scheduler does not decide by may change. -/
theorem Queued.touch (h : Queued s alive xs) (hstate : q.state = (s.procs p).state)
    (hwait : q.waitState = (s.procs p).waitState) (hparent : q.parent = (s.procs p).parent)
    (hrq : q.rq = (s.procs p).rq) : Queued (s.setProc p q) alive xs ∧ Kept s (s.setProc p q) :=
  ⟨h.setProc (.inr (.inr hstate)) hrq fun r hr hp => h.ptrs.parent p hp r (hparent ▸ hr),
    setProc_sameStates ⟨hstate, hwait, hparent⟩, ⟨rfl, rfl, rfl, rfl⟩, rfl⟩

theorem enqueued_sameStates (s : Sched) (p : ProcId) : SameStates s (s.enqueued p) :=
  setProc_sameStates (s := s) (p := p) ⟨rfl, rfl, rfl⟩

/-! ### `wakeup_proc` -/

/-- The process `p` has been made runnable; the others are as they were. -/
structure Woken (s t : Sched) (p : ProcId) : Prop extends SameBut s t where
  current : t.current = s.current
  state : ∀ q, (t.procs q).state = if q = p then .runnable else (s.procs q).state
  waitState : ∀ q, (t.procs q).waitState = (s.procs q).waitState ∨ (t.procs q).waitState = 0

theorem Woken.of_runnable (h : (s.procs p).state = .runnable) : Woken s s p := by
  refine ⟨.refl s, rfl, fun q => ?_, fun q => .inl rfl⟩
  split
  · next hqp => rw [hqp, h]
  · rfl

theorem madeRunnable_woken (s : Sched) (p : ProcId) : Woken s (s.madeRunnable p) p := by
  refine ⟨⟨rfl, rfl, rfl, rfl⟩, rfl, fun q => ?_, fun q => ?_⟩
  · split
    · next hqp => rw [hqp, madeRunnable, setProc_self]
    · next hqp => rw [madeRunnable, setProc_of_ne s _ hqp]
  · by_cases hqp : q = p
    · rw [hqp, madeRunnable, setProc_self]
      exact .inr rfl
    · rw [madeRunnable, setProc_of_ne s _ hqp]
      exact .inl rfl

theorem Woken.enqueued (h : Woken s t p) (q : ProcId) : Woken s (t.enqueued q) p := by
  refine ⟨⟨h.idleproc, h.initproc, h.timerList, h.timers⟩, h.current, fun r => ?_, fun r => ?_⟩
  · rw [(enqueued_sameStates t q r).1, h.state]
  · rw [(enqueued_sameStates t q r).2.1]
    exact h.waitState r

/-- `wakeup_proc` puts a process on the queue that is now missing there. -/
theorem wakeupProc_spec (h : Queued s alive xs) (ha : alive p) :
    Ensures (fun e => e = .wakeupZombie ∧ (s.procs p).state = .zombie)
      (fun t => Woken s t p ∧ ∃ ys, Queued t alive ys) (s.wakeupProc p) := by
  rw [wakeupProc]
  split
  · next hz => exact ⟨rfl, hz⟩
  split
  · next hrun =>
    have hwoken := madeRunnable_woken s p
    have hparent : ∀ r, (s.procs p).parent = some r → alive p → alive r :=
      fun r hr hp => h.ptrs.parent p hp r hr
    by_cases hcur : p = s.current
    · rw [if_neg fun hne => hne hcur]
      exact ⟨hwoken, xs, h.setProc (.inl hcur) rfl hparent⟩
    rw [if_pos hcur, schedClassEnqueue]
    by_cases hidle : p = s.idleproc
    · rw [if_neg fun hne => hne hidle]
      exact ⟨hwoken, xs, h.setProc (.inr (.inl hidle)) rfl hparent⟩
    rw [if_pos (show p ≠ (s.madeRunnable p).idleproc from hidle)]
    have hp : p ∉ xs := fun hin => hrun ((h.mem_iff p ha hidle hcur).mp hin)
    have hq : RunQueue (s.madeRunnable p) alive xs :=
      h.toRunQueue.setProc fun hin => absurd hin hp
    obtain ⟨heq, hq⟩ := hq.enqueue ha hidle hp
    rw [heq]
    have hptrs : Pointers (s.madeRunnable p) alive := h.ptrs.setProc hparent
    refine ⟨hwoken.enqueued p, xs ++ [p], hq, ?_, fun r hr hri hrc => ?_,
      hptrs.congr (enqueued_sameStates _ p) ⟨rfl, rfl, rfl, rfl⟩ h.ptrs.current⟩
    · intro hin
      rcases mem_append.mp hin with hin | hin
      · exact h.current hin
      · exact hcur (mem_singleton.mp hin).symm
    · rw [(hwoken.enqueued p).state, mem_append, mem_singleton]
      split
      · next hrp => exact ⟨fun _ => rfl, fun _ => .inr hrp⟩
      · next hrp => rw [or_iff_left hrp, h.mem_iff r hr hri hrc]
  · next hrun => exact ⟨.of_runnable (not_not.mp hrun), xs, h⟩

/-- A process with other bookkeeping of the scheduler. -/
def Alike (q r : Proc) : Prop :=
  r = { q with runs := r.runs, needResched := r.needResched, rq := r.rq, timeSlice := r.timeSlice }

theorem Alike.refl (q : Proc) : Alike q q := rfl

theorem Alike.trans {r u : Proc} (h : Alike q r) (h' : Alike r u) : Alike q u := by
  unfold Alike at h h' ⊢
  rw [h'] at ⊢
  rw [h]

theorem setProc_alike (h : Alike (s.procs p) q) (r : ProcId) :
    Alike (s.procs r) ((s.setProc p q).procs r) := by
  by_cases hrp : r = p
  · rw [hrp, setProc_self]
    exact h
  · rw [setProc_of_ne s q hrp]
    exact .refl _

theorem enqueued_alike (s : Sched) (p r : ProcId) : Alike (s.procs r) ((s.enqueued p).procs r) := by
  refine setProc_alike (s := s) (p := p) ?_ r
  rfl

/-- `wakeup_proc` changes one process, and of a process that sleeps its state and `wait_state`. -/
theorem wakeupProc_procs (h : s.wakeupProc p = .ok t) (hp : (s.procs p).state ≠ .runnable) :
    (∀ r, r ≠ p → t.procs r = s.procs r) ∧
      Alike { s.procs p with state := .runnable, waitState := 0 } (t.procs p) := by
  have hmade : (s.madeRunnable p).procs p = { s.procs p with state := .runnable, waitState := 0 } :=
    setProc_self ..
  have hdone : (∀ r, r ≠ p → (s.madeRunnable p).procs r = s.procs r) ∧
      Alike { s.procs p with state := .runnable, waitState := 0 } ((s.madeRunnable p).procs p) :=
    ⟨fun r hr => setProc_of_ne s _ hr, hmade ▸ .refl _⟩
  rw [wakeupProc] at h
  split at h
  · cases h
  split at h
  · rw [schedClassEnqueue] at h
    split at h
    · rw [rrEnqueue] at h
      split at h
      · cases h
        refine ⟨fun r hr => ?_, hdone.2.trans (enqueued_alike _ p p)⟩
        exact (setProc_of_ne (s.madeRunnable p) _ hr).trans (hdone.1 r hr)
      · cases h
    · cases h
      exact hdone
  · cases h
    exact hdone

/-- A process that is runnable is left alone. -/
theorem wakeupProc_runnable (hp : (s.procs p).state = .runnable) : s.wakeupProc p = .ok s := by
  simp [wakeupProc, hp]

theorem wakeupProc_of_ne (h : s.wakeupProc p = .ok t) {r : ProcId} (hr : r ≠ p) :
    t.procs r = s.procs r := by
  by_cases hp : (s.procs p).state = .runnable
  · rw [wakeupProc_runnable hp] at h
    rw [Except.ok.inj h]
  · exact (wakeupProc_procs h hp).1 r hr

theorem wakeupProc_same (h : s.wakeupProc p = .ok t) : t.current = s.current ∧ SameBut s t := by
  have hdone : (s.madeRunnable p).current = s.current ∧ SameBut s (s.madeRunnable p) :=
    ⟨rfl, rfl, rfl, rfl, rfl⟩
  by_cases hp : (s.procs p).state = .runnable
  · rw [wakeupProc_runnable hp] at h
    cases h
    exact ⟨rfl, .refl s⟩
  rw [wakeupProc] at h
  split at h
  · cases h
  split at h
  · rw [schedClassEnqueue] at h
    split at h
    · rw [rrEnqueue] at h
      split at h <;> cases h
      exact ⟨rfl, rfl, rfl, rfl, rfl⟩
    · cases h
      exact hdone
  · cases h
    exact hdone

/-! ### `schedule` -/

/-- After its first half, all runnable processes but the idle one are on the queue. -/
theorem requeueCurrent_spec (h : Queued s alive xs) :
    ∃ t ys, s.requeueCurrent = .ok t ∧ RunQueue t alive ys ∧ SameStates s t ∧ SameBut s t ∧
      t.current = s.current ∧ ∀ p, alive p → p ≠ s.idleproc → (p ∈ ys ↔ (s.procs p).state = .runnable) := by
  have hq : RunQueue (s.setProc s.current { s.procs s.current with needResched := false })
      alive xs := h.toRunQueue.setProc (h.rq _)
  have hsame : SameStates s
      (s.setProc s.current { s.procs s.current with needResched := false }) :=
    setProc_sameStates ⟨rfl, rfl, rfl⟩
  rw [requeueCurrent]
  rw [(hsame _).1]
  by_cases hrun : (s.procs s.current).state = .runnable ∧ s.current ≠ s.idleproc
  · obtain ⟨heq, hq'⟩ := hq.enqueue h.ptrs.current hrun.2 h.current
    refine ⟨_, xs ++ [s.current], ?_, hq', hsame.trans (enqueued_sameStates _ _),
      ⟨rfl, rfl, rfl, rfl⟩, rfl, fun p hp hidle => ?_⟩
    · exact (if_pos hrun.1).trans ((if_pos hrun.2).trans heq)
    · rw [mem_append, mem_singleton]
      by_cases hcur : p = s.current
      · rw [hcur]
        exact ⟨fun _ => hrun.1, fun _ => .inr rfl⟩
      · rw [or_iff_left hcur, h.mem_iff p hp hidle hcur]
  · refine ⟨_, xs, ?_, hq, hsame, ⟨rfl, rfl, rfl, rfl⟩, rfl, fun p hp hidle => ?_⟩
    · split
      · next hstate => exact if_neg fun hidle => hrun ⟨hstate, hidle⟩
      · rfl
    · by_cases hcur : p = s.current
      · rw [hcur] at hidle ⊢
        exact ⟨fun hin => absurd hin h.current, fun hstate => absurd ⟨hstate, hidle⟩ hrun⟩
      · exact h.mem_iff p hp hidle hcur

/-- A process that is not on the queue takes over. -/
theorem RunQueue.procRun (hq : RunQueue t alive ys) (hptrs : Pointers t alive) (ha : alive p)
    (hp : p ∉ ys) (hmem : ∀ q, alive q → q ≠ t.idleproc → q ≠ p →
      (q ∈ ys ↔ (t.procs q).state = .runnable)) :
    Queued (t.procRun p) alive ys ∧ SameStates t (t.procRun p) := by
  have hst : SameStates t (t.procRun p) := setProc_sameStates (s := t) (p := p) ⟨rfl, rfl, rfl⟩
  have hq' : RunQueue (t.setProc p { t.procs p with runs := (t.procs p).runs + 1 }) alive ys :=
    hq.setProc fun hin => absurd hin hp
  refine ⟨⟨⟨hq'.listed, hq'.num, hq'.valid, hq'.idle, hq'.rq⟩, hp, fun q hqa hidle hne => ?_,
    hptrs.congr hst ⟨rfl, rfl, rfl, rfl⟩ ha⟩, hst⟩
  rw [hmem q hqa hidle hne, (hst q).1]

/-- `schedule` comes back, in a process that is runnable or in the idle one. -/
theorem schedule_spec (h : Queued s alive xs) :
    ∃ t ys, s.schedule = .ok t ∧ Queued t alive ys ∧ SameStates s t ∧ SameBut s t ∧
      (t.current = s.idleproc ∨ (t.procs t.current).state = .runnable) := by
  obtain ⟨t, ys, heq, hq, hst, hbut, hcur, hmem⟩ := requeueCurrent_spec h
  have hptrs : Pointers t alive := h.ptrs.congr hst hbut (hcur ▸ h.ptrs.current)
  have hmem' : ∀ p, alive p → p ≠ t.idleproc → (p ∈ ys ↔ (t.procs p).state = .runnable) := by
    intro p hp hidle
    rw [(hst p).1]
    exact hmem p hp (hbut.idleproc ▸ hidle)
  rw [schedule, heq]
  dsimp only [ok_bind]
  rw [runNext, hq.pickNext]
  cases ys with
  | nil =>
    obtain ⟨hq', hst'⟩ := hq.procRun hptrs hptrs.idle not_mem_nil
      fun q hqa hidle _ => hmem' q hqa hidle
    exact ⟨_, [], rfl, hq', hst.trans hst', hbut.trans ⟨rfl, rfl, rfl, rfl⟩, .inl hbut.idleproc⟩
  | cons y zs =>
    have hyin : y ∈ y :: zs := mem_cons_self
    have hidle : y ≠ t.idleproc := fun heq => hq.idle (heq ▸ hyin)
    obtain ⟨hdeq, hqz⟩ := hq.dequeue
    have hnext : Queued ((t.dequeued y).procRun y) alive zs ∧
        SameStates (t.dequeued y) ((t.dequeued y).procRun y) := by
      refine hqz.procRun { hptrs with } (hq.valid y hyin)
        (nodup_cons.mp hq.listed.nodup).1 fun q hqa hqi hqy => ?_
      rw [← mem_cons.trans (or_iff_right hqy)]
      exact hmem' q hqa hqi
    refine ⟨(t.dequeued y).procRun y, zs, ?_, hnext.1, hst.trans hnext.2,
      hbut.trans ⟨rfl, rfl, rfl, rfl⟩, .inr ?_⟩
    · dsimp only [List.head?_cons]
      rw [hdeq]
      rfl
    · rw [(hnext.2 _).1]
      exact (hmem' y (hq.valid y hyin) hidle).mp hyin

/-- `schedule` changes nothing of a process but the bookkeeping. -/
theorem schedule_procs (h : s.schedule = .ok t) (r : ProcId) : Alike (s.procs r) (t.procs r) := by
  obtain ⟨u, hrequeue, hnext⟩ := bind_eq_ok.mp h
  have hu : Alike (s.procs r) (u.procs r) := by
    have hresched : Alike (s.procs r)
        ((s.setProc s.current { s.procs s.current with needResched := false }).procs r) :=
      setProc_alike (by rfl) r
    rw [requeueCurrent] at hrequeue
    split at hrequeue
    · rw [schedClassEnqueue] at hrequeue
      split at hrequeue
      · rw [rrEnqueue] at hrequeue
        split at hrequeue
        · cases hrequeue
          exact hresched.trans (enqueued_alike _ _ r)
        · cases hrequeue
      · cases hrequeue
        exact hresched
    · cases hrequeue
      exact hresched
  have hrun : ∀ (v : Sched) (p : ProcId), Alike (v.procs r) ((v.procRun p).procs r) :=
    fun v p => setProc_alike (s := v) (p := p) (by rfl) r
  rw [runNext] at hnext
  split at hnext
  · obtain ⟨v, hdeq, hrest⟩ := bind_eq_ok.mp hnext
    rw [rrDequeue] at hdeq
    split at hdeq
    · cases hdeq
      cases hrest
      exact hu.trans (hrun _ _)
    · cases hdeq
  · cases hnext
    exact hu.trans (hrun u u.idleproc)

end Sched

end UcoreMips.Kernel
