import UcoreMips.Kernel.Process.Tree

/-!
# UcoreMips.Kernel.Process.Reaping

**Parents and children.** The processes fork, exit, wait for their children and kill each other. The
kernel is not preempted: another process goes on only where `schedule` is called, so that `do_wait`
is made of parts (`wait`, `resume`), and everything else is one step. A process may also sleep for
another reason (`block`) and be woken from there (`wakeup`).

Beside the state of the kernel, a state records which processes exist, which are within `do_wait`
and for which `pid`, and the codes with which the processes at an address have exited and have been
reaped.
-/

namespace UcoreMips.Kernel

open UcoreMips.Lib Finset Sched
open Function (update update_of_ne update_self)

namespace Procs

/-- `list_init` on every head of `hash_list`. -/
def hashInit (l : Links (FamilyNode (BitVec 10) ProcId)) : Links (FamilyNode (BitVec 10) ProcId) where
  prev n := match n with
    | .head b => .head b
    | .entry p => l.prev (.entry p)
  next n := match n with
    | .head b => .head b
    | .entry p => l.next (.entry p)

/-- The first half of `proc_init`: the lists, and the idle process, at `idle`. -/
def idleInit (t : Procs) (idle : ProcId) : Procs :=
  { t.allocProc idle with
    toSched := t.toSched.idleInit idle
    procList := listInit t.procList .head
    hashList := hashInit t.hashList
    nrProcess := t.nrProcess + 1 }

/-- `proc_init`: the idle process forks the process at `init`. -/
def procInit (fuel : Nat) (t : Procs) (idle init : ProcId) : Except ProcStop Procs := do
  let (pid, t) ← (t.idleInit idle).doFork fuel init false
  if pid ≤ 0 then .error .initFailed
  else do
    let found ← t.findProc fuel pid
    return { t with toSched := { t.toSched with initproc := found } }

end Procs

structure ProcSys extends Procs where
  alive : Finset ProcId
  /-- The argument of the `do_wait` that a process has not returned from. -/
  inWait : ProcId → Option Int
  exited : ProcId → List Int
  reaped : ProcId → List Int

inductive ProcOp
  | fork (p : ProcId) (failed : Bool)
  | exit (errorCode : Int)
  | wait (pid : Int)
  /-- `schedule` returns to the current process in `do_wait`. -/
  | resume
  | kill (pid : Int)
  | schedule
  | block (waitState : BitVec 32)
  | wakeup (p : ProcId)
  deriving Repr, DecidableEq

namespace ProcSys

/-- The idle process only calls `schedule`, and a process that is within `do_wait` goes on there. A
new structure is none that is in use, and what is woken is alive. -/
def Legal (m : ProcSys) : ProcOp → Prop
  | .fork p _ => m.current ≠ m.idleproc ∧ m.inWait m.current = none ∧ p ∉ m.alive
  | .exit _ => m.current ≠ m.idleproc ∧ m.inWait m.current = none
  | .wait _ => m.current ≠ m.idleproc ∧ m.inWait m.current = none
  | .resume => m.current ≠ m.idleproc ∧ m.inWait m.current ≠ none
  | .kill _ => m.current ≠ m.idleproc ∧ m.inWait m.current = none
  | .schedule => m.inWait m.current = none
  | .block _ => m.current ≠ m.idleproc ∧ m.inWait m.current = none
  | .wakeup p => p ∈ m.alive

instance (m : ProcSys) (op : ProcOp) : Decidable (m.Legal op) := by
  cases op <;> unfold Legal <;> infer_instance

/-- The current process exits. -/
def exitWith (fuel : Nat) (m : ProcSys) (errorCode : Int) : Except ProcStop ProcSys := do
  let t ← m.toProcs.withSched (m.toSched.doExit fuel errorCode)
  return { m with
    toProcs := t
    inWait := update m.inWait m.current none
    exited := update m.exited m.current (m.exited m.current ++ [errorCode]) }

/-- A part of `do_wait` by the current process. -/
def waitPart (fuel : Nat) (m : ProcSys) (pid : Int) : Except ProcStop ProcSys := do
  match ← m.toProcs.doWait fuel pid with
  | (.reaped p exitCode, t) => return { m with
      toProcs := t
      alive := m.alive.erase p
      inWait := update m.inWait m.current none
      reaped := update m.reaped p (m.reaped p ++ [exitCode]) }
  | (.badProc, t) => return { m with
      toProcs := t
      inWait := update m.inWait m.current none }
  | (.asleep, t) => return { m with
      toProcs := t
      inWait := update m.inWait m.current (some pid) }

def exec (fuel : Nat) (m : ProcSys) : ProcOp → Except ProcStop ProcSys
  | .fork p failed => do
    let (pid, t) ← m.toProcs.doFork fuel p failed
    return { m with
      toProcs := t
      alive := if 0 < pid then insert p m.alive else m.alive
      inWait := update m.inWait p none }
  | .exit errorCode => m.exitWith fuel errorCode
  | .wait pid => m.waitPart fuel pid
  | .resume =>
    match m.inWait m.current with
    | none => .ok m
    | some pid =>
      if m.flags m.current &&& pfExiting ≠ 0 then m.exitWith fuel (-eKilled)
      else m.waitPart fuel pid
  | .kill pid => do
    let (_, t) ← m.toProcs.doKill fuel pid
    return { m with toProcs := t }
  | .schedule => do return { m with toProcs := ← m.toProcs.withSched m.toSched.schedule }
  | .block waitState => do
    return { m with toProcs := ← m.toProcs.withSched (m.toSched.sleep waitState).schedule }
  | .wakeup p => do return { m with toProcs := ← m.toProcs.withSched (m.toSched.wakeupProc p) }

def Step (m m' : ProcSys) (op : ProcOp) : Prop := m.Legal op ∧ ∃ fuel, m.exec fuel op = .ok m'

/-- After `sched_init` and `proc_init`. -/
def Booted (m : ProcSys) : Prop :=
  ∃ (t t' : Procs) (s : Sched) (fuel : Nat) (idle init : ProcId), init ≠ idle ∧
    t.toSched = s.schedInit ∧ t.nrProcess = 0 ∧ t.lastPid = maxPid ∧ t.nextSafe = maxPid ∧
    t.procInit fuel idle init = .ok t' ∧
    m = ⟨t', {init, idle}, fun _ => none, fun _ => [], fun _ => []⟩

inductive Reachable : ProcSys → Prop
  | booted {m : ProcSys} (h : m.Booted) : Reachable m
  | step {m m' : ProcSys} {op : ProcOp} (h : Reachable m) (hstep : m.Step m' op) : Reachable m'

/-! ### What holds between two steps -/

/-- The tree and the table hold the processes that are alive, each of them but the idle one has a
parent that has not exited, nobody sleeps in `do_wait` past a zombie, and of the codes with which
processes have exited those of the zombies alone are still to be collected. -/
structure Kept (m : ProcSys) : Prop where
  queued : ∃ ys, m.toSched.Queued (· ∈ m.alive) ys
  tree : ∃ ch, m.kin.Tree (· ∈ m.alive) ch (fun _ => none)
  registered : ∃ xs, m.toProcs.Registered xs ∧ ∀ p, p ∈ xs ↔ p ∈ m.alive ∧ p ≠ m.idleproc
  idle : m.kin.parent m.idleproc = none ∧ (m.procs m.idleproc).state ≠ .zombie
  init : ∀ i, m.initproc = some i →
    m.kin.parent i = some m.idleproc ∧ (m.procs i).state ≠ .zombie
  parent : ∀ c ∈ m.alive, c ≠ m.idleproc →
    ∃ q, m.kin.parent c = some q ∧ (m.procs q).state ≠ .zombie
  waits : ∀ p ∈ m.alive, ∀ pid, m.inWait p = some pid → (m.procs p).state = .sleeping →
    (m.procs p).waitState = wtChild ∧ ∀ c ∈ m.alive, m.kin.parent c = some p →
      pid = 0 ∨ m.pid c = pid → (m.procs c).state ≠ .zombie
  log : ∀ p, m.exited p = m.reaped p ++
    if p ∈ m.alive ∧ (m.procs p).state = .zombie then [(m.procs p).exitCode] else []

/-- Between two steps the current process is runnable, or it is the idle one. -/
structure Inv (m : ProcSys) : Prop extends Kept m where
  initproc : m.initproc ≠ none
  running : m.current = m.idleproc ∨ (m.procs m.current).state = .runnable

variable {m m' : ProcSys} {t : Procs} {s : Sched} {p q c : ProcId} {pid errorCode : Int}
  {fuel : Nat} {b : Bool} {r : Option ProcId} {op : ProcOp}

theorem Kept.ptrs (h : m.Kept) : m.toSched.Pointers (· ∈ m.alive) := by
  obtain ⟨ys, hq⟩ := h.queued
  exact hq.ptrs

theorem Inv.current_ne_zombie (h : m.Inv) : (m.procs m.current).state ≠ .zombie := by
  rcases h.running with hidle | hrun
  · rw [hidle]
    exact h.idle.2
  · simp [hrun]

/-- Processes that are not waiting leave `do_wait`. -/
theorem inWait_of_update {f : ProcId → Option Int} (h : update f q none p = some pid) :
    p ≠ q ∧ f p = some pid := by
  by_cases hpq : p = q
  · simp [hpq] at h
  · exact ⟨hpq, by simpa [hpq] using h⟩

/-- Some processes have been woken, and processes have come or gone. -/
theorem Kept.change (h : m.Kept) (hq : ∃ ys, m'.toSched.Queued (· ∈ m'.alive) ys)
    (htree : ∃ ch, m'.kin.Tree (· ∈ m'.alive) ch (fun _ => none))
    (hreg : ∃ xs, m'.toProcs.Registered xs ∧ ∀ p, p ∈ xs ↔ p ∈ m'.alive ∧ p ≠ m.idleproc)
    (hbut : m.toSched.SameBut m'.toSched) (hpid : ∀ r ∈ m.alive, m'.pid r = m.pid r)
    (hparent : ∀ r ∈ m.alive, m'.kin.parent r = m.kin.parent r)
    (hroused : ∀ r ∈ m.alive, m.toSched.Roused m'.toSched r)
    (hnew : ∀ c ∈ m'.alive, c ∉ m.alive → (m'.procs c).state ≠ .zombie ∧ m'.inWait c = none ∧
      ∃ q, m'.kin.parent c = some q ∧ (m'.procs q).state ≠ .zombie)
    (hwait : ∀ p pid, m'.inWait p = some pid → m.inWait p = some pid)
    (hlog : ∀ p, m'.exited p = m'.reaped p ++
      if p ∈ m'.alive ∧ (m'.procs p).state = .zombie then [(m'.procs p).exitCode] else []) : Kept m' where
  queued := hq
  tree := htree
  registered := hbut.idleproc ▸ hreg
  idle := by
    have hidle := h.ptrs.idle
    rw [show m'.idleproc = m.idleproc from hbut.idleproc]
    exact ⟨(hparent _ hidle).trans h.idle.1, fun hz => h.idle.2 ((hroused _ hidle).zombie_iff.mp hz)⟩
  init i hi := by
    have hi' : m.initproc = some i := hbut.initproc ▸ hi
    have hin := h.ptrs.init i hi'
    rw [show m'.idleproc = m.idleproc from hbut.idleproc]
    exact ⟨(hparent i hin).trans (h.init i hi').1,
      fun hz => (h.init i hi').2 ((hroused i hin).zombie_iff.mp hz)⟩
  parent c hc hidle := by
    by_cases hin : c ∈ m.alive
    · obtain ⟨q, hcq, hz⟩ := h.parent c hin (hbut.idleproc ▸ hidle)
      have hq := h.ptrs.parent c hin q hcq
      exact ⟨q, (hparent c hin).trans hcq, fun hz' => hz ((hroused q hq).zombie_iff.mp hz')⟩
    · exact (hnew c hc hin).2.2
  waits p hp pid hpid' hs := by
    have hin : p ∈ m.alive := by
      by_contra hnot
      simp [(hnew p hp hnot).2.1] at hpid'
    obtain ⟨hstate, hsame, -⟩ := (hroused p hin).of_sleeping hs
    obtain ⟨hchild, hnone⟩ := h.waits p hin pid (hwait p pid hpid') (hstate ▸ hs)
    refine ⟨hsame.trans hchild, fun c hc hcp hmatch hz => ?_⟩
    by_cases hcin : c ∈ m.alive
    · rw [hpid c hcin] at hmatch
      exact hnone c hcin ((hparent c hcin).symm.trans hcp) hmatch ((hroused c hcin).zombie_iff.mp hz)
    · exact (hnew c hc hcin).1 hz
  log := hlog

/-- Some processes have been woken; nothing else that counts has changed. -/
theorem Kept.rouse (h : m.Kept) (hq : ∃ ys, t.toSched.Queued (· ∈ m.alive) ys)
    (htree : ∃ ch, t.kin.Tree (· ∈ m.alive) ch (fun _ => none))
    (hreg : ∃ xs, t.Registered xs ∧ ∀ p, p ∈ xs ↔ p ∈ m.alive ∧ p ≠ m.idleproc)
    (hbut : m.toSched.SameBut t.toSched) (hpid : ∀ r ∈ m.alive, t.pid r = m.pid r)
    (hparent : ∀ r ∈ m.alive, t.kin.parent r = m.kin.parent r)
    (hroused : ∀ r ∈ m.alive, m.toSched.Roused t.toSched r) : Kept { m with toProcs := t } := by
  refine h.change hq htree hreg hbut hpid hparent hroused (fun c hc hnot => absurd hc hnot) (fun _ _ => id)
    fun p => ?_
  rw [h.log p]
  by_cases hp : p ∈ m.alive
  · have hiff := (hroused p hp).zombie_iff
    have hcode := (hroused p hp).exitCode
    simp only [hp, true_and, hiff, hcode]
  · simp [hp]

/-- A call into the scheduler that wakes processes. -/
theorem Kept.rouseSched (h : m.Kept) (hq : ∃ ys, s.Queued (· ∈ m.alive) ys) (hbut : m.toSched.SameBut s)
    (hkin : s.kin = m.kin) (hroused : ∀ r, m.toSched.Roused s r) :
    Kept { m with toProcs := { m.toProcs with toSched := s, flags := flags } } := by
  refine h.rouse hq (hkin ▸ h.tree) ?_ hbut (fun _ _ => rfl) (fun r _ => by rw [hkin])
    fun r _ => hroused r
  obtain ⟨xs, hreg, hmem⟩ := h.registered
  exact ⟨xs, hreg.congr rfl rfl rfl rfl rfl fun _ _ => rfl, hmem⟩

/-- `schedule` hands over to a process that is runnable, or to the idle one. -/
theorem Kept.schedule (h : m.Kept) (hinit : m.initproc ≠ none) (hsched : m.toSched.schedule = .ok s) :
    Inv { m with toProcs := { m.toProcs with toSched := s } } := by
  obtain ⟨ys, hq⟩ := h.queued
  obtain ⟨s', zs, hok, hq', -, hbut, hcur⟩ := schedule_spec hq
  obtain rfl : s' = s := Except.ok.inj (hok.symm.trans hsched)
  exact ⟨h.rouseSched ⟨zs, hq'⟩ hbut (schedule_kin hsched)
    fun r => .inl (schedule_sameVitals hsched r), hbut.initproc ▸ hinit,
    hbut.idleproc.symm ▸ hcur⟩

/-- A process leaves `do_wait`. -/
theorem Kept.leaveWait (h : m.Kept) (p : ProcId) :
    Kept { m with inWait := update m.inWait p none } where
  __ := h
  waits q hq pid hpid := by
    by_cases hqp : q = p
    · simp [hqp] at hpid
    · exact h.waits q hq pid (by simpa [hqp] using hpid)

/-! ### Sleeping and exiting -/

/-- The current process goes to sleep, in `do_wait` when it has no zombie to collect. -/
theorem Kept.sleep (h : m.Kept) (hcur : (m.procs m.current).state ≠ .zombie) (waitState : BitVec 32)
    (w : Option Int) (hw : ∀ pid, w = some pid → waitState = wtChild ∧
      ∀ c ∈ m.alive, m.kin.parent c = some m.current → pid = 0 ∨ m.pid c = pid →
        (m.procs c).state ≠ .zombie) :
    Kept { m with
      toProcs := { m.toProcs with toSched := m.toSched.sleep waitState }
      inWait := update m.inWait m.current w } := by
  have hkin : (m.toSched.sleep waitState).kin = m.kin :=
    kin_setProc_same ⟨rfl, rfl, rfl, rfl⟩
  have hself := sleep_self m.toSched waitState
  have hother := fun {r : ProcId} (hr : r ≠ m.current) => sleep_of_ne m.toSched waitState hr
  have hz : ∀ r, ((m.toSched.sleep waitState).procs r).state = .zombie ↔
      (m.procs r).state = .zombie := by
    intro r
    by_cases hr : r = m.current
    · simp [hr, hself, hcur]
    · rw [hother hr]
  exact {
    queued := by
      obtain ⟨ys, hq⟩ := h.queued
      exact ⟨ys, sleep_spec hq waitState⟩
    tree := hkin ▸ h.tree
    registered := by
      obtain ⟨xs, hreg, hmem⟩ := h.registered
      exact ⟨xs, hreg.congr rfl rfl rfl rfl rfl fun _ _ => rfl, hmem⟩
    idle := ⟨hkin ▸ h.idle.1, fun hzombie => h.idle.2 ((hz _).mp hzombie)⟩
    init := fun i hi => ⟨hkin ▸ (h.init i hi).1, fun hzombie => (h.init i hi).2 ((hz _).mp hzombie)⟩
    parent := fun c hc hidle => by
      obtain ⟨q, hcq, hlive⟩ := h.parent c hc hidle
      exact ⟨q, hkin ▸ hcq, fun hzombie => hlive ((hz q).mp hzombie)⟩
    waits := fun p hp pid hpid hs => by
      simp only [hkin, hz, ne_eq]
      by_cases hpc : p = m.current
      · subst hpc
        obtain ⟨hchild, hnone⟩ := hw pid (by simpa using hpid)
        exact ⟨(congrArg Proc.waitState hself).trans hchild, hnone⟩
      · rw [hother hpc] at hs ⊢
        exact h.waits p hp pid (by simpa [hpc] using hpid) hs
    log := fun p => by
      simp only [hz]
      rw [h.log p]
      by_cases hpc : p = m.current
      · simp [hpc, hcur]
      · rw [hother hpc] }

/-- The current process becomes a zombie and its children go to `initproc`. -/
theorem Kept.exit (h : m.Kept) (hinit : m.initproc ≠ none)
    (hcur : (m.procs m.current).state ≠ .zombie)
    (hexit : m.toSched.exitBegin fuel errorCode = .ok s) :
    s.initproc = m.initproc ∧ Kept { m with
      toProcs := { m.toProcs with toSched := s }
      inWait := update m.inWait m.current none
      exited := update m.exited m.current (m.exited m.current ++ [errorCode]) } := by
  obtain ⟨i, hi⟩ := Option.ne_none_iff_exists'.mp hinit
  obtain ⟨ch, htree⟩ := h.tree
  obtain ⟨ys, hq⟩ := h.queued
  have hiparent := (h.init i hi).1
  have hicur : m.kin.parent i ≠ some m.current := fun heq => by
    have hidle := Option.some.inj (hiparent.symm.trans heq)
    simp [exitBegin, hidle] at hexit
  have hx := exitBegin_effect hexit htree h.ptrs.current hi (h.ptrs.init i hi) hicur
  have hz : ∀ r, r ≠ m.current → ((s.procs r).state = .zombie ↔ (m.procs r).state = .zombie) :=
    fun r hr => (hx.roused r hr).zombie_iff
  have hidle := hx.notIdle
  refine ⟨hx.initproc, ?_⟩
  exact {
    queued := by
      obtain ⟨-, hq'⟩ := (exitBegin_spec hq fuel errorCode).of_ok hexit
      exact hq'
    tree := by
      obtain ⟨ch', htree', -⟩ := hx.tree
      exact ⟨ch', htree'⟩
    registered := by
      obtain ⟨xs, hreg, hmem⟩ := h.registered
      refine ⟨xs, hreg.congr rfl rfl rfl rfl rfl fun _ _ => rfl, fun p => ?_⟩
      rw [show ({ m.toProcs with toSched := s } : Procs).idleproc = m.idleproc from hx.idleproc]
      exact hmem p
    idle := by
      rw [show ({ m.toProcs with toSched := s } : Procs).idleproc = m.idleproc from hx.idleproc]
      refine ⟨?_, fun hzombie => h.idle.2 ((hz _ hidle.symm).mp hzombie)⟩
      rw [hx.parents _ h.ptrs.idle, h.idle.1]
      simp
    init := fun j hj => by
      obtain rfl : j = i := Option.some.inj (hj.symm.trans (hx.initproc.trans hi))
      rw [show ({ m.toProcs with toSched := s } : Procs).idleproc = m.idleproc from hx.idleproc]
      refine ⟨?_, fun hzombie => (h.init j hi).2 ((hz j hx.notInit).mp hzombie)⟩
      rw [hx.parents j (h.ptrs.init j hi), if_neg hicur, hiparent]
    parent := fun c hc hcidle => by
      obtain ⟨q, hcq, hlive⟩ := h.parent c hc (hx.idleproc ▸ hcidle)
      rw [hx.parents c hc]
      split
      · exact ⟨i, rfl, fun hzombie => (h.init i hi).2 ((hz i hx.notInit).mp hzombie)⟩
      · next hne =>
        have hqcur : q ≠ m.current := fun heq => hne (heq ▸ hcq)
        exact ⟨q, hcq, fun hzombie => hlive ((hz q hqcur).mp hzombie)⟩
    waits := fun p hp pid hpid hs => by
      have hpcur : p ≠ m.current := fun heq => by simp [heq] at hpid
      obtain ⟨hstate, hwait, -⟩ := (hx.roused p hpcur).of_sleeping hs
      obtain ⟨hchild, hnone⟩ := h.waits p hp pid (by simpa [hpcur] using hpid) (hstate ▸ hs)
      have hasleep : (s.procs p).waitState = wtChild := hwait.trans hchild
      refine ⟨hasleep, fun c hc hcp hmatch hzombie => ?_⟩
      have hcp' : s.kin.parent c = some p := hcp
      rw [hx.parents c hc] at hcp'
      split at hcp'
      · -- a child that `initproc` has got
        next hmine =>
        obtain rfl := Option.some.inj hcp'
        have hccur : c ≠ m.current := fun heq => htree.irrefl c hc (heq ▸ hmine)
        exact hx.adopted c hc hmine ((hz c hccur).mp hzombie) hs hasleep
      · by_cases hccur : c = m.current
        · exact hx.parent p (hccur ▸ hcp') hs hasleep
        · exact hnone c hc hcp' hmatch ((hz c hccur).mp hzombie)
    log := fun p => by
      have hlog := h.log p
      show update m.exited m.current _ p = m.reaped p ++
        if p ∈ m.alive ∧ (s.procs p).state = .zombie then [(s.procs p).exitCode] else []
      by_cases hpc : p = m.current
      · subst hpc
        have hin : m.current ∈ m.alive := h.ptrs.current
        simp only [hcur, and_false, if_false, List.append_nil] at hlog
        simp [hlog, hin, hx.zombie, hx.exitCode]
      · have hcode : (s.procs p).exitCode = (m.procs p).exitCode := (hx.roused p hpc).exitCode
        rw [update_of_ne hpc, hlog]
        simp only [hz p hpc, hcode] }

/-! ### Waiting -/

/-- The walk over the children finds a zombie if there is one. -/
theorem zombieFrom_spec {back first : Option ProcId} {ws : List ProcId} {haskid : Bool}
    (h : Siblings s.kin.older s.kin.younger back first ws)
    (hfrom : Procs.zombieFrom s fuel first haskid = .ok (r, b)) :
    (∀ c, r = some c → c ∈ ws ∧ (s.procs c).state = .zombie) ∧
      (r = none → ∀ c ∈ ws, (s.procs c).state ≠ .zombie) := by
  induction fuel generalizing back first ws haskid with
  | zero => cases hfrom
  | succ fuel ih =>
    cases ws with
    | nil =>
      obtain rfl : first = none := h
      cases hfrom
      simp
    | cons c ws =>
      obtain ⟨rfl, -, hrest⟩ := h
      rw [Procs.zombieFrom] at hfrom
      split at hfrom
      · next hz =>
        cases hfrom
        simp [hz]
      · next hz =>
        obtain ⟨hsome, hnone⟩ := ih hrest hfrom
        refine ⟨fun d hd => ⟨by simp [(hsome d hd).1], (hsome d hd).2⟩, fun hr d hd => ?_⟩
        rcases List.mem_cons.mp hd with rfl | hd
        · exact hz
        · exact hnone hr d hd

/-- What `do_wait` finds is a child of the current process that has exited; if it finds none, there
is none among those that are asked for. -/
theorem Kept.findZombie_spec (h : m.Kept) (hfind : m.toProcs.findZombie fuel pid = .ok (r, b)) :
    (∀ c, r = some c → c ∈ m.alive ∧ m.kin.parent c = some m.current ∧
      (m.procs c).state = .zombie) ∧
    (r = none → ∀ c ∈ m.alive, m.kin.parent c = some m.current → pid = 0 ∨ m.pid c = pid →
      (m.procs c).state ≠ .zombie) := by
  rw [Procs.findZombie] at hfind
  split at hfind
  · next hpid =>
    obtain ⟨xs, hreg, hmem⟩ := h.registered
    obtain ⟨found, hfound, hret⟩ := bind_eq_ok.mp hfind
    have hspec := (hreg.findProc_spec pid).2 fuel found hfound
    have hchild : ∀ c ∈ m.alive, m.kin.parent c = some m.current → pid = 0 ∨ m.pid c = pid →
        found = some c := by
      intro c hc hparent hmatch
      refine (hspec c).mpr ⟨(hmem c).mpr ⟨hc, fun heq => ?_⟩, hmatch.resolve_left hpid⟩
      rw [heq, h.idle.1] at hparent
      cases hparent
    cases found with
    | none =>
      cases hret
      exact ⟨nofun, fun _ c hc hp hm => nomatch hchild c hc hp hm⟩
    | some p =>
      obtain ⟨hpin, -⟩ := (hspec p).mp rfl
      dsimp only at hret
      split at hret
      · next hparent =>
        cases hret
        constructor
        · intro c hc
          split at hc
          · next hz =>
            obtain rfl := Option.some.inj hc
            exact ⟨((hmem p).mp hpin).1, hparent, hz⟩
          · cases hc
        · intro hr c hc hp hm
          obtain rfl := Option.some.inj (hchild c hc hp hm)
          intro hz
          rw [if_pos hz] at hr
          cases hr
      · next hparent =>
        cases hret
        refine ⟨nofun, fun _ c hc hp hm => ?_⟩
        obtain rfl := Option.some.inj (hchild c hc hp hm)
        exact absurd hp hparent
  · next hpid =>
    obtain ⟨ch, htree⟩ := h.tree
    have hcur := h.ptrs.current
    obtain ⟨hsome, hnone⟩ := zombieFrom_spec (htree.chain _ hcur) hfind
    refine ⟨fun c hc => ?_, fun hr c hc hp _ => hnone hr c ((htree.mem_iff _ hcur c).mpr ⟨hc, hp⟩)⟩
    obtain ⟨hin, hz⟩ := hsome c hc
    obtain ⟨halive, hparent⟩ := (htree.mem_iff _ hcur c).mp hin
    exact ⟨halive, hparent, hz⟩

/-- A zombie is collected by its parent. -/
theorem Kept.reap (h : m.Kept) (hc : c ∈ m.alive) (hparent : m.kin.parent c = some m.current)
    (hz : (m.procs c).state = .zombie) (hcur : (m.procs m.current).state ≠ .zombie)
    (hreap : m.toProcs.reap c = .ok t) :
    t.current = m.current ∧ m.toSched.SameBut t.toSched ∧ (∀ r, m.toSched.SameVitals t.toSched r) ∧
      Kept { m with
        toProcs := t
        alive := m.alive.erase c
        inWait := update m.inWait m.current none
        reaped := update m.reaped c (m.reaped c ++ [(m.procs c).exitCode]) } := by
  obtain ⟨hidle, hinit, s, hunlink, rfl⟩ := Procs.reap_eq_ok hreap
  obtain ⟨hkin, hcur', hbut, hvitals⟩ := unlinkChild_effect hunlink hparent
  have halive : (fun r => r ∈ m.alive.erase c) = fun r => r ∈ m.alive ∧ r ≠ c := by
    funext r
    simp [and_comm]
  have hparents : s.kin.parent = m.kin.parent := by rw [hkin]; rfl
  have hccur : c ≠ m.current := fun heq => hcur (heq ▸ hz)
  -- a zombie has no children
  have hchildless : ∀ r ∈ m.alive, m.kin.parent r ≠ some c := fun r hr hrc => by
    have hridle : r ≠ m.idleproc := fun heq => by simp [heq, h.idle.1] at hrc
    obtain ⟨q, hrq, hlive⟩ := h.parent r hr hridle
    exact hlive (Option.some.inj (hrq.symm.trans hrc) ▸ hz)
  refine ⟨hcur', hbut, hvitals, h.change ?_ ?_ ?_ hbut (fun _ _ => rfl) (fun r _ => congrFun hparents r)
    (fun r _ => .inl (hvitals r)) (fun d hd hnot => absurd (mem_of_mem_erase hd) hnot)
    (fun p pid hpid => (inWait_of_update hpid).2) fun p => ?_⟩
  · obtain ⟨ys, hq⟩ := h.queued
    refine ⟨ys, (unlinkChild_spec hq hunlink).restrict (fun _ => mem_of_mem_erase)
      (fun p hp => mem_erase.mpr ⟨?_, hq.valid p hp⟩) ⟨?_, ?_, fun i hi => ?_, ?_⟩⟩
    · rintro rfl
      simp [(hq.mem_iff p hc hidle hccur).mp hp] at hz
    · exact mem_erase.mpr ⟨hcur' ▸ hccur.symm, hcur' ▸ hq.ptrs.current⟩
    · exact mem_erase.mpr ⟨hbut.idleproc ▸ Ne.symm hidle, hbut.idleproc ▸ hq.ptrs.idle⟩
    · have hi' : m.initproc = some i := hbut.initproc ▸ hi
      exact mem_erase.mpr ⟨fun heq => hinit (heq ▸ hi'), hq.ptrs.init i hi'⟩
    · intro r hr q hrq
      have hrin := mem_of_mem_erase hr
      have hrq' : m.kin.parent r = some q := hparents ▸ hrq
      exact mem_erase.mpr ⟨fun heq => hchildless r hrin (heq ▸ hrq'), hq.ptrs.parent r hrin q hrq'⟩
  · obtain ⟨ch, htree⟩ := h.tree
    obtain ⟨us, ws, hch⟩ := List.append_of_mem
      ((htree.mem_iff _ h.ptrs.current c).mpr ⟨hc, hparent⟩)
    rw [halive, hkin]
    exact ⟨_, htree.unlink h.ptrs.current hch rfl⟩
  · obtain ⟨xs, hreg, hmem⟩ := h.registered
    obtain ⟨us, ws, rfl⟩ := List.append_of_mem ((hmem c).mpr ⟨hc, hidle⟩)
    refine ⟨us ++ ws, hreg.erase, fun p => ?_⟩
    have hnot : c ∉ us ++ ws := (List.nodup_cons.mp (List.nodup_middle.mp hreg.nodup)).1
    rw [mem_erase, and_assoc, ← hmem]
    by_cases hpc : p = c
    · simp [hpc, hnot]
    · simp [hpc]
  · have hlog := h.log p
    rw [hlog, (hvitals p).1, (hvitals p).2.2]
    by_cases hpc : p = c
    · subst hpc
      simp [hc, hz]
    · simp [hpc]

/-! ### Forking -/

/-- A structure that is not in use is filled in, and no more comes of it. -/
theorem Kept.newChild (h : m.Kept) (hp : p ∉ m.alive) :
    Kept { m with toProcs := m.toProcs.newChild p } := by
  have hne : ∀ r ∈ m.alive, r ≠ p := fun r hr heq => hp (heq ▸ hr)
  have hprocs : ∀ r ∈ m.alive, (m.toProcs.newChild p).procs r = m.procs r := fun r hr =>
    (setProc_of_ne _ _ (hne r hr)).trans (setProc_of_ne _ _ (hne r hr))
  have hsame : ∀ r ∈ m.alive, m.toSched.SameVitals (m.toProcs.newChild p).toSched r := fun r hr => by
    rw [SameVitals, hprocs r hr]
    exact ⟨rfl, rfl, rfl⟩
  refine h.rouse ?_ ?_ ?_ ⟨rfl, rfl, rfl, rfl⟩ (fun r hr => update_of_ne (hne r hr) ..)
    (fun r hr => congrArg Proc.parent (hprocs r hr)) fun r hr => .inl (hsame r hr)
  · obtain ⟨ys, hq⟩ := h.queued
    have hq' := setParent_spec (allocProc_spec hq hp).1 (.inl hq.ptrs.current) p
    refine ⟨ys, hq'.restrict (fun _ => .inl) hq.valid
      ⟨hq.ptrs.current, hq.ptrs.idle, hq.ptrs.init, fun r hr q hrq => ?_⟩⟩
    exact hq.ptrs.parent r hr q ((congrArg Proc.parent (hprocs r hr)).symm.trans hrq)
  · obtain ⟨ch, htree⟩ := h.tree
    exact ⟨ch, htree.congr fun r hr => ⟨congrArg Proc.parent (hprocs r hr),
      congrArg Proc.cptr (hprocs r hr), congrArg Proc.yptr (hprocs r hr),
      congrArg Proc.optr (hprocs r hr)⟩⟩
  · obtain ⟨xs, hreg, hmem⟩ := h.registered
    exact ⟨xs, hreg.congr rfl rfl rfl rfl rfl fun r hr =>
      update_of_ne (hne r ((hmem r).mp hr).1) .., hmem⟩

/-- `do_fork` makes a child of the current process, or fails and makes none. -/
theorem Kept.fork (h : m.Kept) (hcur : (m.procs m.current).state ≠ .zombie) (hp : p ∉ m.alive)
    {failed : Bool} {r : Int} (hfork : m.toProcs.doFork fuel p failed = .ok (r, t)) :
    t.current = m.current ∧ m.toSched.SameBut t.toSched ∧
      (∀ q ∈ m.alive, m.toSched.SameVitals t.toSched q) ∧
      (0 < r → t.pid p = r ∧ t.kin.parent p = some m.current ∧ (t.procs p).state ≠ .zombie) ∧
      Kept { m with
        toProcs := t
        alive := if 0 < r then insert p m.alive else m.alive
        inWait := update m.inWait p none } := by
  have hne : ∀ q ∈ m.alive, q ≠ p := fun q hq heq => hp (heq ▸ hq)
  rcases Procs.doFork_eq_ok hfork with ⟨rfl, rfl⟩ | ⟨rfl, rfl⟩ | ⟨safe, s, hget, hs, rfl⟩
  · exact ⟨rfl, .refl _, fun q _ => .refl _ q, nofun, h.leaveWait p⟩
  · refine ⟨rfl, ⟨rfl, rfl, rfl, rfl⟩, fun q hq => ?_, nofun, (h.newChild hp).leaveWait p⟩
    have hprocs : (m.toProcs.newChild p).procs q = m.procs q :=
      (setProc_of_ne _ _ (hne q hq)).trans (setProc_of_ne _ _ (hne q hq))
    rw [SameVitals, hprocs]
    exact ⟨rfl, rfl, rfl⟩
  obtain ⟨xs, hreg, hmem⟩ := (h.newChild hp).registered
  obtain ⟨ch, htree⟩ := h.tree
  obtain ⟨ys, hq⟩ := h.queued
  obtain ⟨safe', heq, hpos, hmax, hnew, hsafe⟩ := hreg.listed.getPid_spec hget
  obtain rfl : safe = safe' := congrArg Procs.nextSafe heq
  obtain ⟨⟨ch', htree'⟩, hscur, hbut, hparents, hvitals, hrun⟩ := forkProc_effect hs htree hp
    hq.ptrs.current fun c hc hcp => hp (hq.ptrs.parent c hc p hcp)
  have hmem : ∀ q, q ∈ xs ↔ q ∈ m.alive ∧ q ≠ m.idleproc := hmem
  have hpx : p ∉ xs := fun hin => hp ((hmem p).mp hin).1
  have halive : (fun r => r ∈ insert p m.alive) = fun r => r ∈ m.alive ∨ r = p := by
    funext r
    simp [or_comm]
  have hold : ∀ q ∈ m.alive, s.kin.parent q = m.kin.parent q := fun q hq => by
    rw [hparents, if_neg (hne q hq)]
  have hself : s.kin.parent p = some m.current := by rw [hparents, if_pos rfl]
  refine ⟨hscur, hbut, fun q hq => hvitals q (hne q hq),
    fun _ => ⟨update_self .., hself, fun hzombie => ?_⟩, ?_⟩
  · cases hrun.symm.trans hzombie
  rw [if_pos hpos]
  refine h.change ?_ ⟨ch', halive ▸ htree'⟩ ?_ hbut (fun q hq => ?_) hold
    (fun q hq => .inl (hvitals q (hne q hq))) (fun c hc hnot => ?_)
    (fun q pid hpid => (inWait_of_update hpid).2) fun q => ?_
  · obtain ⟨-, -, hq'⟩ := (forkProc_spec hq hp).of_ok hs
    exact halive ▸ hq'
  · have hreg' : Procs.Registered { m.toProcs.newChild p with lastPid := r, nextSafe := safe } xs :=
      { hreg with last := hpos.le, safe := hsafe }
    have hpid : update (m.toProcs.newChild p).pid p r = update m.pid p r :=
      Function.update_idem ..
    refine ⟨p :: xs, hpid ▸ hreg'.insert hpx ⟨hpos, hmax⟩ hnew hsafe, fun q => ?_⟩
    have hidle : p ≠ m.idleproc := fun heq => hp (heq ▸ hq.ptrs.idle)
    rw [List.mem_cons, hmem, mem_insert]
    by_cases hqp : q = p
    · simp [hqp, hidle]
    · simp [hqp]
  · exact update_of_ne (hne q hq) ..
  · obtain rfl := (mem_insert.mp hc).resolve_right hnot
    refine ⟨fun hzombie => (by cases hrun.symm.trans hzombie), update_self .., m.current, hself, ?_⟩
    rw [(hvitals _ (hne _ hq.ptrs.current)).1]
    exact hcur
  · rw [h.log q]
    by_cases hqp : q = p
    · simp [hqp, hp, hrun]
    · simp [hqp, (hvitals q hqp).1, (hvitals q hqp).2.2]

/-! ### Runs -/

/-- Some processes have been woken, and the current one goes on. -/
theorem Inv.rouseSched (h : m.Inv) (hq : ∃ ys, s.Queued (· ∈ m.alive) ys) (hcur : s.current = m.current)
    (hbut : m.toSched.SameBut s) (hkin : s.kin = m.kin) (hroused : ∀ r, m.toSched.Roused s r) :
    Inv { m with toProcs := { m.toProcs with toSched := s, flags := flags } } := by
  refine ⟨h.toKept.rouseSched hq hbut hkin hroused, hbut.initproc ▸ h.initproc, ?_⟩
  rw [hcur, hbut.idleproc]
  exact h.running.imp_right (hroused m.current).runnable

theorem Inv.wakeup (h : m.Inv) (hp : p ∈ m.alive) (hwake : m.toSched.wakeupProc p = .ok s) :
    Inv { m with toProcs := { m.toProcs with toSched := s, flags := flags } } := by
  obtain ⟨ys, hq⟩ := h.queued
  obtain ⟨-, hq'⟩ := (wakeupProc_spec hq hp).of_ok hwake
  obtain ⟨hcur, hbut⟩ := wakeupProc_same hwake
  exact h.rouseSched hq' hcur hbut (wakeupProc_kin hwake) (wakeupProc_roused hwake)

theorem Inv.kill (h : m.Inv) {r : Int} (hkill : m.toProcs.doKill fuel pid = .ok (r, t)) :
    Inv { m with toProcs := t } := by
  obtain ⟨found, hfound, hrest⟩ := bind_eq_ok.mp hkill
  cases found with
  | none =>
    cases hrest
    exact h
  | some p =>
    obtain ⟨xs, hreg, hmem⟩ := h.registered
    have hp := ((hmem p).mp (((hreg.findProc_spec pid).2 fuel _ hfound p).mp rfl).1).1
    dsimp only at hrest
    split at hrest
    · split at hrest
      · obtain ⟨u, hwake, hret⟩ := bind_eq_ok.mp hrest
        obtain ⟨s, hs, rfl⟩ := Procs.withSched_eq_ok.mp hwake
        cases hret
        exact h.wakeup hp hs
      · cases hrest
        exact h.rouseSched h.queued rfl (.refl _) rfl fun r => .inl (.refl _ r)
    · cases hrest
      exact h

theorem Inv.exitWith (h : m.Inv) (hexit : m.exitWith fuel errorCode = .ok m') : Inv m' := by
  obtain ⟨t, ht, hret⟩ := bind_eq_ok.mp hexit
  cases hret
  obtain ⟨u, hdo, rfl⟩ := Procs.withSched_eq_ok.mp ht
  obtain ⟨s, hbegin, hsched⟩ := doExit_eq_ok hdo
  obtain ⟨hinit, hkept⟩ := h.toKept.exit h.initproc h.current_ne_zombie hbegin
  exact hkept.schedule (hinit ▸ h.initproc) hsched

theorem Inv.waitPart (h : m.Inv) (hwait : m.waitPart fuel pid = .ok m') : Inv m' := by
  obtain ⟨⟨w, t⟩, hdo, hret⟩ := bind_eq_ok.mp hwait
  obtain ⟨⟨r, haskid⟩, hfind, hrest⟩ := bind_eq_ok.mp hdo
  obtain ⟨hsome, hnone⟩ := h.toKept.findZombie_spec hfind
  have hcur := h.current_ne_zombie
  cases r with
  | some c =>
    obtain ⟨hc, hparent, hz⟩ := hsome c rfl
    obtain ⟨u, hreap, hrest⟩ := bind_eq_ok.mp hrest
    cases hrest
    cases hret
    obtain ⟨hucur, hbut, hvitals, hkept⟩ := h.toKept.reap hc hparent hz hcur hreap
    refine ⟨hkept, hbut.initproc ▸ h.initproc, ?_⟩
    rw [hucur, hbut.idleproc, (hvitals m.current).1]
    exact h.running
  | none =>
    cases haskid with
    | true =>
      obtain ⟨u, hsched, hrest⟩ := bind_eq_ok.mp hrest
      cases hrest
      cases hret
      obtain ⟨s, hs, rfl⟩ := Procs.withSched_eq_ok.mp hsched
      exact (h.toKept.sleep hcur wtChild (some pid) fun n hn =>
        ⟨rfl, Option.some.inj hn ▸ hnone rfl⟩).schedule h.initproc hs
    | false =>
      cases hrest
      cases hret
      exact ⟨h.toKept.leaveWait m.current, h.initproc, h.running⟩

theorem Inv.step (h : m.Inv) (hstep : m.Step m' op) : Inv m' := by
  obtain ⟨hlegal, fuel, hexec⟩ := hstep
  have hcur := h.current_ne_zombie
  cases op with
  | fork p failed =>
    obtain ⟨⟨r, t⟩, hfork, hret⟩ := bind_eq_ok.mp hexec
    cases hret
    obtain ⟨htcur, hbut, hvitals, -, hkept⟩ := h.toKept.fork hcur hlegal.2.2 hfork
    refine ⟨hkept, hbut.initproc ▸ h.initproc, ?_⟩
    rw [htcur, hbut.idleproc, (hvitals m.current h.ptrs.current).1]
    exact h.running
  | exit errorCode => exact h.exitWith hexec
  | wait pid => exact h.waitPart hexec
  | resume =>
    rw [exec] at hexec
    split at hexec
    · cases hexec
      exact h
    · split at hexec
      · exact h.exitWith hexec
      · exact h.waitPart hexec
  | kill pid =>
    obtain ⟨⟨r, t⟩, hkill, hret⟩ := bind_eq_ok.mp hexec
    cases hret
    exact h.kill hkill
  | schedule =>
    obtain ⟨t, hsched, hret⟩ := bind_eq_ok.mp hexec
    cases hret
    obtain ⟨s, hs, rfl⟩ := Procs.withSched_eq_ok.mp hsched
    exact h.toKept.schedule h.initproc hs
  | block waitState =>
    obtain ⟨t, hsched, hret⟩ := bind_eq_ok.mp hexec
    cases hret
    obtain ⟨s, hs, rfl⟩ := Procs.withSched_eq_ok.mp hsched
    have hkept := (h.toKept.sleep hcur waitState none nofun).schedule h.initproc hs
    have hwait : update m.inWait m.current none = m.inWait := by
      rw [← hlegal.2, Function.update_eq_self]
    rwa [hwait] at hkept
  | wakeup p =>
    obtain ⟨t, hwake, hret⟩ := bind_eq_ok.mp hexec
    cases hret
    obtain ⟨s, hs, rfl⟩ := Procs.withSched_eq_ok.mp hwake
    exact h.wakeup hlegal hs

/-! ### The start -/

theorem Kept.setInit (h : m.Kept) (hp : p ∈ m.alive) (hparent : m.kin.parent p = some m.idleproc)
    (hz : (m.procs p).state ≠ .zombie) :
    Kept { m with toProcs := { m.toProcs with toSched := { m.toSched with initproc := some p } } } where
  __ := h
  queued := by
    obtain ⟨ys, hq⟩ := h.queued
    exact ⟨ys, { hq with
      ptrs := { hq.ptrs with init := fun i hi => Option.some.inj hi ▸ hp } }⟩
  registered := by
    obtain ⟨xs, hreg, hmem⟩ := h.registered
    exact ⟨xs, hreg.congr rfl rfl rfl rfl rfl fun _ _ => rfl, hmem⟩
  init i hi := by
    obtain rfl := Option.some.inj hi
    exact ⟨hparent, hz⟩

/-- The idle process alone. -/
theorem kept_idle {idle : ProcId} (hs : t.toSched = s.schedInit.idleInit idle)
    (hlist : Ring t.procList .head [])
    (hhash : ∀ b, t.hashList.next (.head b) = .head b ∧ t.hashList.prev (.head b) = .head b)
    (hnr : t.nrProcess = 1) (hlast : 0 ≤ t.lastPid) :
    Kept ⟨t, {idle}, fun _ => none, fun _ => [], fun _ => []⟩ := by
  have hidle : t.idleproc = idle := by rw [hs]; rfl
  have hself : t.procs idle = { Proc.zero with state := .runnable, needResched := true } := by
    rw [hs]
    exact setProc_self ..
  have halive : (fun r => r ∈ ({idle} : Finset ProcId)) = fun r => False ∨ r = idle := by
    funext r
    simp
  exact {
    queued := ⟨[], by rw [hs, halive]; exact idleInit_spec s idle⟩
    tree := by
      refine ⟨fun _ => [], fun q hq => ?_, fun q hq c => ?_, fun _ _ => List.nodup_nil, fun c hc => ?_⟩
      · obtain rfl := mem_singleton.mp hq
        exact congrArg Proc.cptr hself
      · simp only [List.not_mem_nil, false_iff, not_and]
        intro hc hparent
        obtain rfl := mem_singleton.mp hc
        exact nomatch (congrArg Proc.parent hself).symm.trans hparent
      · obtain rfl := mem_singleton.mp hc
        intro hparent
        exact nomatch (congrArg Proc.parent hself).symm.trans hparent
    registered := by
      refine ⟨[], ⟨hlist, .init hhash (by simp), hnr, by simp, by simp, hlast, by simp⟩, fun p => ?_⟩
      simp [hidle]
    idle := by
      rw [hidle]
      exact ⟨congrArg Proc.parent hself, by simp [hself]⟩
    init := fun i hi => by
      have hnone : t.initproc = none := by rw [hs]; rfl
      exact nomatch hnone.symm.trans hi
    parent := fun c hc hne => absurd ((mem_singleton.mp hc).trans hidle.symm) hne
    waits := fun p _ pid hpid => nomatch hpid
    log := fun p => by
      by_cases hp : p = idle
      · simp [hp, hself]
      · simp [hp] }

theorem Booted.inv (h : m.Booted) : m.Inv := by
  obtain ⟨t, t', s, fuel, idle, init, hne, hs, hnr, hlast, -, hinit, rfl⟩ := h
  obtain ⟨⟨r, u⟩, hfork, hrest⟩ := bind_eq_ok.mp hinit
  have hidle : (t.idleInit idle).toSched = s.schedInit.idleInit idle := congrArg (·.idleInit idle) hs
  have hpos : 0 ≤ (t.idleInit idle).lastPid := by
    rw [show (t.idleInit idle).lastPid = maxPid from hlast]
    decide
  have hkept := kept_idle hidle (Listed.init t.procList).ring (fun _ => ⟨rfl, rfl⟩)
    (by rw [show (t.idleInit idle).nrProcess = t.nrProcess + 1 from rfl, hnr]; rfl) hpos
  obtain ⟨hcur, hbut, -, hnew, hkept'⟩ := hkept.fork hkept.idle.2
    (fun hin => hne (mem_singleton.mp hin)) hfork
  dsimp only at hrest
  split at hrest
  · cases hrest
  next hr =>
  obtain ⟨found, hfound, hret⟩ := bind_eq_ok.mp hrest
  obtain ⟨hpid, hparent, hz⟩ := hnew (by omega)
  rw [if_pos (show 0 < r by omega)] at hkept'
  obtain ⟨xs, hreg, hmem⟩ := hkept'.registered
  have hidle' : u.idleproc = idle := hbut.idleproc
  obtain rfl : found = some init := ((hreg.findProc_spec r).2 fuel found hfound init).mpr
    ⟨(hmem init).mpr ⟨mem_insert_self .., hidle'.symm ▸ hne⟩, hpid⟩
  cases hret
  have hwait : update (fun _ => none : ProcId → Option Int) init none = fun _ => none := by
    simp
  rw [hwait] at hkept'
  refine ⟨hkept'.setInit (mem_insert_self ..) (hidle'.symm ▸ hparent) hz, nofun, .inl ?_⟩
  exact hcur.trans hidle'.symm

theorem Reachable.inv (h : m.Reachable) : m.Inv := by
  induction h with
  | booted h => exact h.inv
  | step _ hstep ih => exact ih.step hstep

/-- Memory before `sched_init`. -/
def blank : Procs where
  toSched := Tasks.blank.schedInit
  pid _ := 0
  flags _ := 0
  procList := ⟨fun _ => .head, fun _ => .head⟩
  hashList := ⟨fun _ => .head 0, fun _ => .head 0⟩
  nrProcess := 0
  lastPid := maxPid
  nextSafe := maxPid

/-- The idle process is at 1, `initproc` at 2. -/
def booted : ProcSys :=
  ⟨(blank.procInit 9 1 2).toOption.getD blank, {2, 1}, fun _ => none, fun _ => [], fun _ => []⟩

theorem booted_reachable : booted.Reachable :=
  .booted ⟨blank, _, Tasks.blank, 9, 1, 2, by decide, rfl, rfl, rfl, rfl, rfl, rfl⟩

/-- **The process tree.** In every state of a run, for every process: the list from `cptr` on along
`optr`, with `yptr` leading back, holds its children, each once. The processes on `proc_list` are
those that exist, but for the idle one; each is in the hash list of its `pid` once and in no other,
`find_proc` finds it there, and `nr_process` is their number plus one. -/
theorem process_tree_consistent (h : m.Reachable) :
    (∀ p ∈ m.alive, ∃ children : List ProcId,
      Siblings (fun q => (m.procs q).optr) (fun q => (m.procs q).yptr) none (m.procs p).cptr children ∧
      children.Nodup ∧ ∀ c, c ∈ children ↔ c ∈ m.alive ∧ (m.procs c).parent = some p) ∧
    ∃ xs : List ProcId, Ring m.procList .head (xs.map .entry) ∧ xs.Nodup ∧
      (∀ p, p ∈ xs ↔ p ∈ m.alive ∧ p ≠ m.idleproc) ∧
      (∃ buckets : BitVec 10 → List ProcId,
        (∀ b, Ring m.hashList (.head b) ((buckets b).map .entry) ∧ (buckets b).Nodup) ∧
        ∀ b p, p ∈ buckets b ↔ p ∈ xs ∧ b = pidHashfn (m.pid p)) ∧
      (∀ p ∈ xs, ∀ q ∈ xs, m.pid p = m.pid q → p = q) ∧
      (∀ pid, (∃ fuel r, m.toProcs.findProc fuel pid = .ok r) ∧
        ∀ fuel r, m.toProcs.findProc fuel pid = .ok r → ∀ p, r = some p ↔ p ∈ xs ∧ m.pid p = pid) ∧
      m.nrProcess = xs.length + 1 := by
  have hinv := h.inv
  obtain ⟨ch, htree⟩ := hinv.tree
  obtain ⟨xs, hreg, hmem⟩ := hinv.registered
  obtain ⟨hs, hfamily, hbucket⟩ := hreg.hash
  refine ⟨fun p hp => ⟨ch p, htree.chain p hp, htree.nodup p hp, htree.mem_iff p hp⟩, xs, hreg.list,
    hreg.nodup, hmem, ⟨hs, fun b => ⟨hfamily.ring b, hfamily.nodup b⟩, hbucket⟩, hreg.unique,
    hreg.findProc_spec, hreg.nr⟩

/-- `initproc` has a child that has two children; when it exits they come before its other ones. -/
theorem process_tree_consistent_orphans : ∃ m : ProcSys, m.Reachable ∧ m.alive = {5, 4, 3, 2, 1} ∧
    (m.procs 2).cptr = some 4 ∧ (m.procs 4).optr = some 5 ∧ (m.procs 5).optr = some 3 ∧
    ∃ xs : List ProcId, Ring m.procList .head (xs.map .entry) ∧ m.nrProcess = xs.length + 1 := by
  obtain ⟨m, hexec, hm⟩ := (Option.any_eq_true _ _).mp (show (execAll Legal (exec 9) booted
      [.schedule, .fork 3 false, .schedule, .fork 4 false, .fork 5 false, .exit 7]).any (fun m =>
        m.alive = {5, 4, 3, 2, 1} ∧ (m.procs 2).cptr = some 4 ∧ (m.procs 4).optr = some 5 ∧
          (m.procs 5).optr = some 3) = true by decide +kernel)
  obtain ⟨halive, hcptr, hfour, hfive⟩ := of_decide_eq_true hm
  have hreach := execAll_keeps (fun _ _ _ h hl hop => h.step ⟨hl, 9, hop⟩) hexec booted_reachable
  obtain ⟨-, xs, hlist, -, -, -, -, -, hnr⟩ := process_tree_consistent hreach
  exact ⟨m, hreach, halive, hcptr, hfour, hfive, xs, hlist, hnr⟩

/-! ### No exit is lost -/

/-- The step collects the zombie `c`. -/
structure Reaps (m m' : ProcSys) (c : ProcId) : Prop where
  alive : c ∈ m.alive
  zombie : (m.procs c).state = .zombie
  parent : (m.procs c).parent = some m.current
  code : m'.reaped c = m.reaped c ++ [(m.procs c).exitCode]
  gone : c ∉ m'.alive

theorem Inv.waitPart_reaped (h : m.Inv) (hwait : m.waitPart fuel pid = .ok m') (c : ProcId) :
    m'.reaped c = m.reaped c ∨ Reaps m m' c := by
  obtain ⟨⟨w, t⟩, hdo, hret⟩ := bind_eq_ok.mp hwait
  obtain ⟨⟨r, haskid⟩, hfind, hrest⟩ := bind_eq_ok.mp hdo
  cases r with
  | some d =>
    obtain ⟨hd, hparent, hz⟩ := (h.toKept.findZombie_spec hfind).1 d rfl
    obtain ⟨u, -, hrest⟩ := bind_eq_ok.mp hrest
    cases hrest
    cases hret
    by_cases hcd : c = d
    · subst hcd
      exact .inr ⟨hd, hz, hparent, update_self .., notMem_erase c m.alive⟩
    · exact .inl (update_of_ne hcd ..)
  | none =>
    cases haskid with
    | true =>
      obtain ⟨u, -, hrest⟩ := bind_eq_ok.mp hrest
      cases hrest
      cases hret
      exact .inl rfl
    | false =>
      cases hrest
      cases hret
      exact .inl rfl

theorem Inv.step_reaped (h : m.Inv) (hstep : m.Step m' op) (c : ProcId) :
    m'.reaped c = m.reaped c ∨ (op = .resume ∨ ∃ pid, op = .wait pid) ∧ Reaps m m' c := by
  obtain ⟨-, fuel, hexec⟩ := hstep
  cases op with
  | wait pid => exact (h.waitPart_reaped hexec c).imp_right fun hc => ⟨.inr ⟨pid, rfl⟩, hc⟩
  | resume =>
    rw [exec] at hexec
    split at hexec
    · cases hexec
      exact .inl rfl
    · split at hexec
      · obtain ⟨t, -, hret⟩ := bind_eq_ok.mp hexec
        cases hret
        exact .inl rfl
      · exact (h.waitPart_reaped hexec c).imp_right fun hc => ⟨.inl rfl, hc⟩
  | _ =>
    obtain ⟨t, -, hret⟩ := bind_eq_ok.mp hexec
    cases hret
    exact .inl rfl

/-- **No exit is lost.** In every state of a run: a process that sleeps in `do_wait` has no zombie
among the children it waits for; the codes with which the processes at an address have exited are
those that have been collected there, in this order, and that of the zombie there, if there is one; a
process is collected in `do_wait`, as a zombie, by its parent, which gets its code, and is then gone;
and each process but the idle one has a parent that exists and has not exited. -/
theorem no_exit_lost (h : m.Reachable) :
    (∀ p ∈ m.alive, ∀ pid, m.inWait p = some pid → (m.procs p).state = .sleeping →
      ∀ c ∈ m.alive, (m.procs c).parent = some p → pid = 0 ∨ m.pid c = pid →
        (m.procs c).state ≠ .zombie) ∧
    (∀ p, m.exited p = m.reaped p ++
      if p ∈ m.alive ∧ (m.procs p).state = .zombie then [(m.procs p).exitCode] else []) ∧
    (∀ op m', m.Step m' op → ∀ c, m'.reaped c = m.reaped c ∨
      (op = .resume ∨ ∃ pid, op = .wait pid) ∧ Reaps m m' c) ∧
    ∀ c ∈ m.alive, c ≠ m.idleproc →
      ∃ q ∈ m.alive, (m.procs c).parent = some q ∧ (m.procs q).state ≠ .zombie := by
  have hinv := h.inv
  refine ⟨fun p hp pid hpid hs => (hinv.waits p hp pid hpid hs).2, hinv.log,
    fun op m' hstep => hinv.step_reaped hstep, fun c hc hidle => ?_⟩
  obtain ⟨q, hcq, hlive⟩ := hinv.parent c hc hidle
  exact ⟨q, hinv.ptrs.parent c hc q hcq, hcq, hlive⟩

/-- `initproc` waits for a child, which exits with code 7. -/
theorem no_exit_lost_waiting : ∃ m : ProcSys, m.Reachable ∧ m.inWait 2 = some 0 ∧
    (m.procs 2).state = .runnable ∧ (m.procs 3).state = .zombie ∧
    m.exited 3 = m.reaped 3 ++ [7] := by
  obtain ⟨m, hexec, hm⟩ := (Option.any_eq_true _ _).mp (show (execAll Legal (exec 9) booted
      [.schedule, .fork 3 false, .wait 0, .exit 7]).any (fun m => m.inWait 2 = some 0 ∧
        (m.procs 2).state = .runnable ∧ (m.procs 3).state = .zombie ∧ 3 ∈ m.alive ∧
          (m.procs 3).exitCode = 7) = true by decide +kernel)
  obtain ⟨hwait, hrun, hz, halive, hcode⟩ := of_decide_eq_true hm
  have hreach := execAll_keeps (fun _ _ _ h hl hop => h.step ⟨hl, 9, hop⟩) hexec booted_reachable
  have hlog := (no_exit_lost hreach).2.1 3
  rw [if_pos ⟨halive, hz⟩, hcode] at hlog
  exact ⟨m, hreach, hwait, hrun, hz, hlog⟩

end ProcSys

end UcoreMips.Kernel
