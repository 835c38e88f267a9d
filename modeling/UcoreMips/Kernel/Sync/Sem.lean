import UcoreMips.Kernel.Sync.Wait

/-!
# UcoreMips.Kernel.Sync.Sem

**Semaphores** (`kern/sync/sem.c`). `down` is two sections with interrupts off, before and after its
call of `schedule`; `up` and `try_down` are one section each. The semaphores are named by `Q`.

`SemSys` is a system of processes that use them, in any interleaving of the sections: which process
runs next is up to `schedule`, which may be called between any two sections. `up` hands its unit to
the process that has waited longest, which finishes its `down` later (`SemSys.semaphore_safe`).
-/

namespace UcoreMips.Kernel

open UcoreMips.Lib Finset Except
open Function (update update_of_ne update_self)

/-- The semaphores, with the processes and the wait queues. -/
structure Sems (Q : Type) extends Waits Q where
  value : Q → Int

namespace Sems

variable {Q : Type} [DecidableEq Q]

/-- `sem_init`. -/
def semInit (s : Sems Q) (q : Q) (value : Int) : Sems Q :=
  { toWaits := s.waitQueueInit q, value := update s.value q value }

/-- `__up`. -/
def upWith (s : Sems Q) (q : Q) (waitState : BitVec 32) : Except SyncStop (Sems Q) :=
  match s.waitQueueFirst q with
  | none => .ok { s with value := update s.value q (s.value q + 1) }
  | some p =>
    if (s.sched.procs (s.wait p).proc).waitState ≠ waitState then .error .upWaitState
    else do
      let w ← s.toWaits.wakeupWait q p waitState
      return { s with toWaits := w }

/-- `__down` before its call of `schedule`; whether it returns 0 at once. -/
def downBegin (s : Sems Q) (q : Q) (waitState : BitVec 32) : Except SyncStop (Bool × Sems Q) :=
  if 0 < s.value q then
    .ok (true, { s with value := update s.value q (s.value q - 1) })
  else do
    let w ← s.toWaits.waitCurrentSet q waitState
    return (false, { s with toWaits := w })

/-- `__down` after its call of `schedule`, with the flags it returns. -/
def downEnd (s : Sems Q) (q : Q) (waitState : BitVec 32) :
    Except SyncStop (BitVec 32 × Sems Q) := do
  let w ← s.toWaits.waitCurrentDel q
  let flags := (w.wait w.sched.current).wakeupFlags
  return (if flags ≠ waitState then flags else 0, { s with toWaits := w })

/-- `up`. -/
def up (s : Sems Q) (q : Q) : Except SyncStop (Sems Q) := s.upWith q wtKsem

/-- The end of `down`. -/
def downFinish (s : Sems Q) (q : Q) : Except SyncStop (Sems Q) := do
  let (flags, s) ← s.downEnd q wtKsem
  if flags ≠ 0 then .error .downFlags else .ok s

/-- `try_down`. -/
def tryDown (s : Sems Q) (q : Q) : Bool × Sems Q :=
  if 0 < s.value q then (true, { s with value := update s.value q (s.value q - 1) })
  else (false, s)

end Sems

/-! ### Processes that use semaphores -/

/-- The sections, and what else processes do in between. -/
inductive SemOp (Q : Type)
  /-- `down` up to `schedule`. -/
  | down (q : Q)
  /-- The rest of the `down` in which the current process is. -/
  | finish
  | up (q : Q)
  | tryDown (q : Q)
  | schedule
  /-- Sleeping and waking for other reasons. -/
  | sleep (waitState : BitVec 32)
  | wakeup (p : ProcId)
  deriving Repr, DecidableEq

/-- The semaphores, with where the processes are and what has been done so far. -/
structure SemSys (Q : Type) extends Sems Q where
  /-- The processes that exist. -/
  alive : Finset ProcId
  /-- The semaphore in whose `down` a process is. -/
  inDown : ProcId → Option Q
  /-- The sections so far, and when a process went to sleep in `down`. -/
  clock : Nat
  since : ProcId → Nat
  ups : Q → Nat
  /-- The calls of `down` and `try_down` that have returned with a unit. -/
  returned : Q → Nat
  /-- The processes that have got a unit since their last `up`. -/
  holders : Q → Finset ProcId

namespace SemSys

variable {Q : Type} [DecidableEq Q] {v : Q → Int} {m m' m₀ : SemSys Q} {xs : Q → List ProcId}
  {p : ProcId} {q : Q} {ws : List ProcId} {op : SemOp Q}

/-- The process sleeps in `down`. -/
def Asleep (m : SemSys Q) (p : ProcId) (q : Q) : Prop := m.inDown p = some q ∧ m.waitInQueue p = true

/-- The process has been handed a unit, and has not run since. -/
def Handed (m : SemSys Q) (p : ProcId) (q : Q) : Prop := m.inDown p = some q ∧ m.waitInQueue p = false

instance (m : SemSys Q) (p : ProcId) (q : Q) : Decidable (m.Handed p q) :=
  inferInstanceAs (Decidable (_ ∧ _))

/-- The calls that have got a unit. -/
def completed (m : SemSys Q) (q : Q) : Nat :=
  m.returned q + (m.alive.filter fun p => m.Handed p q).card

/-- A process is in one `down` at a time, and one that sleeps there is resumed only by `up`. -/
def Legal (m : SemSys Q) : SemOp Q → Prop
  | .down _ | .up _ | .tryDown _ | .sleep _ => m.inDown m.sched.current = none
  | .finish => m.inDown m.sched.current ≠ none ∧ (m.sched.procs m.sched.current).state = .runnable
  | .schedule => True
  | .wakeup p => p ∈ m.alive ∧ m.inDown p = none

/-- The current process has got a unit. -/
def gain (m : SemSys Q) (q : Q) (s : Sems Q) : SemSys Q :=
  { m with
    toSems := s
    clock := m.clock + 1
    returned := update m.returned q (m.returned q + 1)
    holders := update m.holders q (insert m.sched.current (m.holders q)) }

def exec (m : SemSys Q) : SemOp Q → Except SyncStop (SemSys Q)
  | .down q => do
    match ← m.toSems.downBegin q wtKsem with
    | (true, s) => return m.gain q s
    | (false, s) =>
      return { m with
        toSems := s
        inDown := update m.inDown m.sched.current (some q)
        clock := m.clock + 1
        since := update m.since m.sched.current m.clock }
  | .finish =>
    match m.inDown m.sched.current with
    | none => .ok m
    | some q => do
      let s ← m.toSems.downFinish q
      return { m.gain q s with inDown := update m.inDown m.sched.current none }
  | .up q => do
    let s ← m.toSems.up q
    return { m with
      toSems := s
      clock := m.clock + 1
      ups := update m.ups q (m.ups q + 1)
      holders := update m.holders q ((m.holders q).erase m.sched.current) }
  | .tryDown q =>
    match m.toSems.tryDown q with
    | (true, s) => .ok (m.gain q s)
    | (false, s) => .ok { m with toSems := s, clock := m.clock + 1 }
  | .schedule => do
    let w ← m.toWaits.schedule
    return { m with toWaits := w }
  | .sleep waitState => .ok { m with sched := m.sched.sleep waitState }
  | .wakeup p => do
    let w ← m.toWaits.wakeupProc p
    return { m with toWaits := w }

/-- One call that comes back. -/
def Step (m m' : SemSys Q) : Prop := ∃ op, m.Legal op ∧ m.exec op = .ok m'

/-- The semaphore is used as a lock: only who does not have it asks for it, and only who has it
gives it back. -/
def UsesLock (q : Q) (m : SemSys Q) : SemOp Q → Prop
  | .down r | .tryDown r => r = q → m.sched.current ∉ m.holders q
  | .up r => r = q → m.sched.current ∈ m.holders q
  | _ => True

def LockStep (q : Q) (m m' : SemSys Q) : Prop :=
  ∃ op, m.Legal op ∧ m.UsesLock q op ∧ m.exec op = .ok m'

/-- The semaphores have been initialised to `v`, and no process is in `down`. -/
structure Start (v : Q → Int) (m : SemSys Q) : Prop where
  queued : ∃ ys, m.sched.Queued (· ∈ m.alive) ys
  head : ∀ q, m.links.next (.head q) = .head q ∧ m.links.prev (.head q) = .head q
  value : ∀ q, m.value q = v q
  inDown : ∀ p, m.inDown p = none
  ups : ∀ q, m.ups q = 0
  returned : ∀ q, m.returned q = 0
  holders : ∀ q, m.holders q = ∅

/-! ### What holds in every run -/

/-- The processes in `down` that are not among the sleepers. -/
def pending (m : SemSys Q) (xs : Q → List ProcId) (q : Q) : Finset ProcId :=
  m.alive.filter fun p => m.inDown p = some q ∧ p ∉ xs q

/-- `xs` are the sleepers, in the order in which they went to sleep; the other processes in `down`
have been handed a unit. -/
structure Inv (v : Q → Int) (m : SemSys Q) (xs : Q → List ProcId) : Prop where
  waiting : m.toWaits.Waiting (· ∈ m.alive) xs (fun p => m.inDown p ≠ none)
  asleep : ∀ q, ∀ p ∈ xs q, (m.sched.procs p).state = .sleeping
  inDown : ∀ q, ∀ p ∈ xs q, m.inDown p = some q
  waitState : ∀ q, ∀ p ∈ xs q, (m.sched.procs p).waitState = wtKsem
  alive : ∀ p, m.inDown p ≠ none → p ∈ m.alive
  woken : ∀ p q, m.inDown p = some q → p ∉ xs q →
    (m.sched.procs p).state = .runnable ∧ (m.wait p).wakeupFlags = wtKsem
  nonneg : ∀ q, 0 ≤ m.value q
  empty : ∀ q, 0 < m.value q → xs q = []
  count : ∀ q, (m.returned q : Int) + (m.pending xs q).card = v q + m.ups q - m.value q
  order : ∀ q, (xs q).Pairwise fun p r => m.since p < m.since r
  past : ∀ q, ∀ p ∈ xs q, m.since p < m.clock

/-- Who sleeps once the first of a queue has been woken. -/
theorem Inv.mem_tail (h : Inv v m xs) (hq : xs q = p :: ws) {r : Q} {x : ProcId} :
    x ∈ update xs q ws r ↔ x ∈ xs r ∧ x ≠ p :=
  h.waiting.family.mem_remove (show xs q = [] ++ p :: ws from hq)

theorem Inv.asleep_iff (h : Inv v m xs) : m.Asleep p q ↔ p ∈ xs q := by
  constructor
  · rintro ⟨hdown, hin⟩
    obtain ⟨r, hr⟩ := (h.waiting.in_queue_iff (by simp [hdown])).mp hin
    have heq : r = q := by simpa [h.inDown r p hr] using hdown
    exact heq ▸ hr
  · intro hp
    have hdown := h.inDown q p hp
    exact ⟨hdown, (h.waiting.in_queue_iff (by simp [hdown])).mpr ⟨q, hp⟩⟩

theorem Inv.handed_iff (h : Inv v m xs) : m.Handed p q ↔ m.inDown p = some q ∧ p ∉ xs q := by
  refine and_congr_right fun hdown => ?_
  rw [← h.asleep_iff, Asleep, and_iff_right hdown, Bool.not_eq_true]

/-- How many units have been given, by who is in `down`. -/
theorem Inv.completed_eq (h : Inv v m xs) (q : Q) :
    m.completed q = m.returned q + (m.pending xs q).card := by
  unfold completed pending
  congr 2
  ext p
  simp [h.handed_iff]

/-- At the start nobody sleeps. -/
theorem Start.inv (h : Start v m) (hv : ∀ q, 0 ≤ v q) : Inv v m fun _ => [] where
  waiting :=
    ⟨h.queued, (Family.init h.head).forget fun p hp => hp (h.inDown p), by simp, by simp, by simp,
      by simp, by simp⟩
  asleep := by simp
  inDown := by simp
  waitState := by simp
  alive p hp := absurd (h.inDown p) hp
  woken p q hp := by simp [h.inDown p] at hp
  nonneg q := h.value q ▸ hv q
  empty q _ := rfl
  count q := by
    simp [pending, h.inDown, h.ups, h.returned, h.value]
  order q := List.Pairwise.nil
  past := by simp

/-- Nothing has changed for the processes in `down`. -/
theorem Inv.reschedule (h : Inv v m xs) {s : Sched} (hq : ∃ ys, s.Queued (· ∈ m.alive) ys)
    (hsame : ∀ p, m.inDown p ≠ none → (s.procs p).state = (m.sched.procs p).state ∧
      (s.procs p).waitState = (m.sched.procs p).waitState) :
    Inv v { m with sched := s } xs where
  __ := h
  waiting :=
    ⟨hq, h.waiting.family, h.waiting.alive, h.waiting.known,
      fun q p hp => (hsame p (h.waiting.known q p hp)).1.symm ▸ h.waiting.live q p hp,
      h.waiting.proc, h.waiting.queue⟩
  asleep q p hp := (hsame p (h.waiting.known q p hp)).1.trans (h.asleep q p hp)
  waitState q p hp := (hsame p (h.waiting.known q p hp)).2.trans (h.waitState q p hp)
  woken p q hp hout := by
    obtain ⟨hstate, hflags⟩ := h.woken p q hp hout
    have hdown : m.inDown p = some q := hp
    exact ⟨(hsame p (by simp [hdown])).1.trans hstate, hflags⟩

/-- A unit that is there is taken. -/
theorem Inv.take (h : Inv v m xs) (hq : 0 < m.value q) :
    Inv v (m.gain q { m.toSems with value := update m.value q (m.value q - 1) }) xs where
  __ := h
  nonneg r := by
    show 0 ≤ update m.value q (m.value q - 1) r
    by_cases hr : r = q
    · subst hr
      simp
      omega
    · simpa [hr] using h.nonneg r
  empty r hr := by
    refine h.empty r ?_
    have hr' : 0 < update m.value q (m.value q - 1) r := hr
    by_cases hrq : r = q
    · rwa [hrq]
    · simpa [hrq] using hr'
  count r := by
    have hcount := h.count r
    show ((update m.returned q (m.returned q + 1) r : Nat) : Int) + (m.pending xs r).card =
      v r + m.ups r - update m.value q (m.value q - 1) r
    by_cases hr : r = q
    · subst hr
      simp
      omega
    · simpa [hr] using hcount
  past q p hp := Nat.lt_succ_of_lt (h.past q p hp)

/-- There is no unit, and the current process goes to sleep. -/
theorem Inv.sleep (h : Inv v m xs) (hcur : m.inDown m.sched.current = none) (hq : ¬0 < m.value q) :
    ∃ w, m.toWaits.waitCurrentSet q wtKsem = .ok w ∧
      Inv v { m with
        toWaits := w
        inDown := update m.inDown m.sched.current (some q)
        clock := m.clock + 1
        since := update m.since m.sched.current m.clock }
      (update xs q (xs q ++ [m.sched.current])) := by
  obtain ⟨w, hset, hsched, hwait, hw⟩ := h.waiting.currentSet (by simp [hcur]) q wtKsem
  have hout : ∀ r, m.sched.current ∉ xs r := fun r hin => by simp [h.inDown r _ hin] at hcur
  have hmem : ∀ r p, p ∈ update xs q (xs q ++ [m.sched.current]) r ↔
      p ∈ xs r ∨ (p = m.sched.current ∧ r = q) := fun r p => Family.mem_addLast
  have hother : ∀ r p, p ∈ xs r → p ≠ m.sched.current := fun r p hp heq => hout r (heq ▸ hp)
  have hproc : ∀ p, p ≠ m.sched.current → w.sched.procs p = m.sched.procs p := by
    intro p hp
    rw [hsched, Sched.sleep_of_ne _ _ hp]
  refine ⟨w, hset, ⟨?_, ?_, ?_, ?_, ?_, ?_, h.nonneg, ?_, ?_, ?_, ?_⟩⟩
  · refine ⟨hw.queued, hw.family.forget fun p hp => ?_, hw.alive, fun r p hp => ?_, hw.live, hw.proc,
      hw.queue⟩
    · by_cases hpc : p = m.sched.current
      · exact .inr hpc
      · exact .inl (by simpa [hpc] using hp)
    · rcases (hmem r p).mp hp with hin | ⟨rfl, -⟩
      · simpa [hother r p hin] using h.waiting.known r p hin
      · simp
  · intro r p hp
    rcases (hmem r p).mp hp with hin | ⟨rfl, -⟩
    · rw [hproc p (hother r p hin)]
      exact h.asleep r p hin
    · rw [hsched, Sched.sleep_self]
  · intro r p hp
    rcases (hmem r p).mp hp with hin | ⟨rfl, rfl⟩
    · simpa [hother r p hin] using h.inDown r p hin
    · simp
  · intro r p hp
    rcases (hmem r p).mp hp with hin | ⟨rfl, -⟩
    · rw [hproc p (hother r p hin)]
      exact h.waitState r p hin
    · rw [hsched, Sched.sleep_self]
  · intro p hp
    by_cases hpc : p = m.sched.current
    · obtain ⟨ys, hys⟩ := h.waiting.queued
      exact hpc ▸ hys.ptrs.current
    · exact h.alive p (by simpa [hpc] using hp)
  · intro p r hp hp'
    have hpc : p ≠ m.sched.current := by
      rintro rfl
      have hr : q = r := by simpa using hp
      exact hp' ((hmem r _).mpr (.inr ⟨rfl, hr.symm⟩))
    rw [hproc p hpc, hwait, update_of_ne hpc]
    exact h.woken p r (by simpa [hpc] using hp) fun hin => hp' ((hmem r p).mpr (.inl hin))
  · intro r hr
    have hrq : r ≠ q := fun heq => hq (heq ▸ hr)
    simpa [hrq] using h.empty r hr
  · intro r
    have hsame : (m.alive.filter fun p => update m.inDown m.sched.current (some q) p = some r ∧
        p ∉ update xs q (xs q ++ [m.sched.current]) r) = m.pending xs r := by
      refine filter_congr fun p _ => ?_
      rw [hmem]
      by_cases hpc : p = m.sched.current
      · subst hpc
        simp only [update_self, Option.some.injEq, hcur, true_and, reduceCtorEq, false_and,
          iff_false, not_and, not_not]
        exact fun heq => .inr heq.symm
      · simp [hpc]
    exact (congrArg (fun c : Finset ProcId => (m.returned r : Int) + c.card) hsame).trans (h.count r)
  · intro r
    have hold : (xs r).Pairwise fun a b => update m.since m.sched.current m.clock a <
        update m.since m.sched.current m.clock b := by
      refine (h.order r).imp_of_mem fun ha hb hab => ?_
      rwa [update_of_ne (hother r _ ha), update_of_ne (hother r _ hb)]
    by_cases hr : r = q
    · subst hr
      rw [update_self]
      refine List.pairwise_append.mpr ⟨hold, List.pairwise_singleton .., fun a ha b hb => ?_⟩
      simpa [List.mem_singleton.mp hb, hother r a ha] using h.past r a ha
    · rwa [update_of_ne hr]
  · intro r p hp
    show update m.since m.sched.current m.clock p < m.clock + 1
    rcases (hmem r p).mp hp with hin | ⟨rfl, -⟩
    · rw [update_of_ne (hother r p hin)]
      exact Nat.lt_succ_of_lt (h.past r p hin)
    · rw [update_self]
      exact Nat.lt_succ_self _

/-- Nobody waits, and the unit is kept. -/
theorem Inv.give (h : Inv v m xs) (hq : xs q = []) (holders : Q → Finset ProcId) :
    Inv v { m with
      value := update m.value q (m.value q + 1)
      clock := m.clock + 1
      ups := update m.ups q (m.ups q + 1)
      holders := holders } xs where
  __ := h
  nonneg r := by
    have hr := h.nonneg r
    by_cases hrq : r = q
    · subst hrq
      simp
      omega
    · simpa [hrq] using hr
  empty r hr := by
    by_cases hrq : r = q
    · rw [hrq, hq]
    · exact h.empty r (by simpa [hrq] using hr)
  count r := by
    have hcount := h.count r
    show (m.returned r : Int) + (m.pending xs r).card =
      v r + (update m.ups q (m.ups q + 1) r : Nat) - update m.value q (m.value q + 1) r
    by_cases hr : r = q
    · subst hr
      simp
      omega
    · simpa [hr] using hcount
  past q p hp := Nat.lt_succ_of_lt (h.past q p hp)

/-- The unit is handed to the first sleeper. -/
theorem Inv.hand (h : Inv v m xs) (hq : xs q = p :: ws) (holders : Q → Finset ProcId) :
    ∃ w, m.toWaits.wakeupWait q p wtKsem = .ok w ∧
      Inv v { m with
        toWaits := w
        clock := m.clock + 1
        ups := update m.ups q (m.ups q + 1)
        holders := holders }
      (update xs q ws) := by
  obtain ⟨w, hwake, hsched, hwait, hw⟩ := h.waiting.wakeup hq wtKsem
  have hin : p ∈ xs q := by simp [hq]
  have hsleep := h.asleep q p hin
  obtain ⟨hothers, halike⟩ := Sched.wakeupProc_procs hsched (by rw [hsleep]; nofun)
  have hmem := fun r x => h.mem_tail (r := r) (x := x) hq
  have hvalue : m.value q = 0 := by
    have h0 := h.nonneg q
    have hnot : ¬0 < m.value q := fun hlt => by simp [h.empty q hlt] at hq
    omega
  refine ⟨w, hwake, ⟨hw, ?_, ?_, ?_, h.alive, ?_, h.nonneg, ?_, ?_, ?_, ?_⟩⟩
  · intro r x hx
    have hx' := (hmem r x).mp hx
    exact (congrArg Proc.state (hothers x hx'.2)).trans (h.asleep r x hx'.1)
  · exact fun r x hx => h.inDown r x ((hmem r x).mp hx).1
  · intro r x hx
    have hx' := (hmem r x).mp hx
    exact (congrArg Proc.waitState (hothers x hx'.2)).trans (h.waitState r x hx'.1)
  · intro x r hx hx'
    by_cases hxp : x = p
    · subst hxp
      refine ⟨?_, by simp [hwait]⟩
      rw [halike]
    · rw [hothers x hxp, hwait, update_of_ne hxp]
      exact h.woken x r hx fun hin => hx' ((hmem r x).mpr ⟨hin, hxp⟩)
  · intro r hr
    have hrq : r ≠ q := by
      rintro rfl
      have : 0 < m.value r := hr
      omega
    rw [update_of_ne hrq]
    exact h.empty r hr
  · intro r
    have hcount := h.count r
    show (m.returned r : Int) + (m.pending (update xs q ws) r).card =
      v r + (update m.ups q (m.ups q + 1) r : Nat) - m.value r
    by_cases hr : r = q
    · subst hr
      have hpend : m.pending (update xs r ws) r = insert p (m.pending xs r) := by
        ext x
        have hself : m.inDown p = some r := h.inDown r p hin
        have halive := h.waiting.alive r p hin
        simp only [pending, mem_filter, mem_insert, hmem]
        by_cases hxp : x = p
        · subst hxp
          simp [hself, halive]
        · simp [hxp]
      have hfresh : p ∉ m.pending xs r := by simp [pending, hin]
      rw [hpend, card_insert_of_notMem hfresh]
      simp
      omega
    · have hpend : m.pending (update xs q ws) r = m.pending xs r := by
        simp [pending, hr]
      rw [hpend]
      simpa [hr] using hcount
  · intro r
    have hsub : (update xs q ws r).Sublist (xs r) := by
      by_cases hr : r = q
      · subst hr
        rw [update_self, hq]
        exact List.sublist_cons_self p ws
      · rw [update_of_ne hr]
    exact (h.order r).sublist hsub
  · exact fun r x hx => Nat.lt_succ_of_lt (h.past r x ((hmem r x).mp hx).1)

/-- The current process has been handed a unit, and finishes its `down`. -/
theorem Inv.finish (h : Inv v m xs) (hcur : m.inDown m.sched.current = some q)
    (hrun : (m.sched.procs m.sched.current).state = .runnable) :
    m.toSems.downFinish q = .ok m.toSems ∧
      Inv v { m.gain q m.toSems with inDown := update m.inDown m.sched.current none } xs := by
  have hout : ∀ r, m.sched.current ∉ xs r := by
    intro r hin
    rw [h.asleep r _ hin] at hrun
    cases hrun
  obtain ⟨-, hflags⟩ := h.woken _ q hcur (hout q)
  obtain ⟨hdel, hw⟩ := h.waiting.currentDel (by simp [hcur]) hout q
  have hother : ∀ r p, p ∈ xs r → p ≠ m.sched.current := fun r p hp heq => hout r (heq ▸ hp)
  refine ⟨?_, ⟨?_, h.asleep, ?_, h.waitState, ?_, ?_, h.nonneg, h.empty, ?_, h.order, ?_⟩⟩
  · simp [Sems.downFinish, Sems.downEnd, hdel, hflags]
  · refine ⟨hw.queued, hw.family.forget fun p hp => ?_, hw.alive, fun r p hp => ?_, hw.live, hw.proc,
      hw.queue⟩
    · by_cases hpc : p = m.sched.current
      · simp [hpc] at hp
      · exact ⟨by simpa [hpc] using hp, hpc⟩
    · simpa [hother r p hp] using h.waiting.known r p hp
  · intro r p hp
    simpa [hother r p hp] using h.inDown r p hp
  · intro p hp
    by_cases hpc : p = m.sched.current
    · simp [hpc] at hp
    · exact h.alive p (by simpa [hpc] using hp)
  · intro p r hp hp'
    have hpc : p ≠ m.sched.current := by
      rintro rfl
      simp at hp
    exact h.woken p r (by simpa [hpc] using hp) hp'
  · intro r
    have hcount := h.count r
    show ((update m.returned q (m.returned q + 1) r : Nat) : Int) +
      (m.alive.filter fun p => update m.inDown m.sched.current none p = some r ∧
        p ∉ xs r).card = v r + m.ups r - m.value r
    have hpend : (m.alive.filter fun p => update m.inDown m.sched.current none p = some r ∧
        p ∉ xs r) = (m.pending xs r).erase m.sched.current := by
      ext p
      by_cases hpc : p = m.sched.current
      · simp [pending, hpc]
      · simp [pending, hpc]
    rw [hpend]
    by_cases hr : r = q
    · subst hr
      have hmem : m.sched.current ∈ m.pending xs r := by
        simp [pending, hcur, hout r, h.alive _ (show m.inDown m.sched.current ≠ none by simp [hcur])]
      have hcard := card_erase_add_one hmem
      simp
      omega
    · have hnot : m.sched.current ∉ m.pending xs r := by
        simp [pending, hcur, Ne.symm hr]
      rw [erase_eq_of_notMem hnot]
      simpa [hr] using hcount
  · exact fun r p hp => Nat.lt_succ_of_lt (h.past r p hp)

/-! ### The sections -/

section Exec

variable (h : Inv v m xs)

include h

/-- `down` takes a unit that is there, or sleeps behind the others. -/
theorem Inv.exec_down (hcur : m.inDown m.sched.current = none) (q : Q) :
    ∃ m', m.exec (.down q) = .ok m' ∧ m'.alive = m.alive ∧ m'.ups = m.ups ∧
      ((0 < m.value q ∧ m' = m.gain q { m.toSems with value := update m.value q (m.value q - 1) } ∧
          Inv v m' xs) ∨
        (m.value q = 0 ∧ m'.value = m.value ∧ m'.inDown = update m.inDown m.sched.current (some q) ∧
          m'.returned = m.returned ∧ m'.holders = m.holders ∧
          Inv v m' (update xs q (xs q ++ [m.sched.current])))) := by
  by_cases hq : 0 < m.value q
  · refine ⟨m.gain q { m.toSems with value := update m.value q (m.value q - 1) }, ?_, rfl, rfl,
      .inl ⟨hq, rfl, h.take hq⟩⟩
    simp [exec, Sems.downBegin, hq]
  · obtain ⟨w, hset, hw⟩ := h.sleep hcur hq
    have hzero : m.value q = 0 := le_antisymm (not_lt.mp hq) (h.nonneg q)
    refine ⟨{ m with
      toWaits := w
      inDown := update m.inDown m.sched.current (some q)
      clock := m.clock + 1
      since := update m.since m.sched.current m.clock },
      ?_, rfl, rfl, .inr ⟨hzero, rfl, rfl, rfl, rfl, hw⟩⟩
    simp [exec, Sems.downBegin, hzero, hset]

/-- `up` hands its unit to the first sleeper, or keeps it. -/
theorem Inv.exec_up (q : Q) :
    ∃ m', m.exec (.up q) = .ok m' ∧ m'.alive = m.alive ∧
      m'.inDown = m.inDown ∧ m'.ups = update m.ups q (m.ups q + 1) ∧ m'.returned = m.returned ∧
      m'.holders = update m.holders q ((m.holders q).erase m.sched.current) ∧
      ((xs q = [] ∧ m'.value = update m.value q (m.value q + 1) ∧ Inv v m' xs) ∨
        (∃ p ws, xs q = p :: ws ∧ m'.value = m.value ∧ Inv v m' (update xs q ws))) := by
  have hfirst := h.waiting.first q
  cases hxs : xs q with
  | nil =>
    rw [hxs, List.head?_nil] at hfirst
    refine ⟨{ m with
      value := update m.value q (m.value q + 1)
      clock := m.clock + 1
      ups := update m.ups q (m.ups q + 1)
      holders := update m.holders q ((m.holders q).erase m.sched.current) },
      ?_, rfl, rfl, rfl, rfl, rfl, .inl ⟨rfl, rfl, h.give hxs _⟩⟩
    simp [exec, Sems.up, Sems.upWith, hfirst]
  | cons p ws =>
    rw [hxs, List.head?_cons] at hfirst
    have hin : p ∈ xs q := by simp [hxs]
    obtain ⟨w, hwake, hw⟩ := h.hand hxs (update m.holders q ((m.holders q).erase m.sched.current))
    refine ⟨{ m with
      toWaits := w
      clock := m.clock + 1
      ups := update m.ups q (m.ups q + 1)
      holders := update m.holders q ((m.holders q).erase m.sched.current) },
      ?_, rfl, rfl, rfl, rfl, rfl, .inr ⟨p, ws, rfl, rfl, hw⟩⟩
    simp [exec, Sems.up, Sems.upWith, hfirst, h.waiting.proc q p hin, h.waitState q p hin, hwake]

/-- Whoever has been handed a unit finishes its `down`. -/
theorem Inv.exec_finish (hcur : m.inDown m.sched.current = some q)
    (hrun : (m.sched.procs m.sched.current).state = .runnable) :
    ∃ m', m.exec .finish = .ok m' ∧
      m' = { m.gain q m.toSems with inDown := update m.inDown m.sched.current none } ∧
      Inv v m' xs := by
  obtain ⟨hdown, hinv⟩ := h.finish hcur hrun
  refine ⟨_, ?_, rfl, hinv⟩
  simp [exec, hcur, hdown]

/-- `try_down` takes a unit that is there. -/
theorem Inv.exec_tryDown (q : Q) :
    ∃ m', m.exec (.tryDown q) = .ok m' ∧ Inv v m' xs ∧ m'.inDown = m.inDown ∧ m'.ups = m.ups ∧
      (m' = m.gain q { m.toSems with value := update m.value q (m.value q - 1) } ∨
        (m'.returned = m.returned ∧ m'.holders = m.holders)) := by
  by_cases hq : 0 < m.value q
  · refine ⟨_, ?_, h.take hq, rfl, rfl, .inl rfl⟩
    simp [exec, Sems.tryDown, hq]
  · refine ⟨{ m with clock := m.clock + 1 }, ?_, { h with past := fun r p hp => Nat.lt_succ_of_lt (h.past r p hp) },
      rfl, rfl, .inr ⟨rfl, rfl⟩⟩
    simp [exec, Sems.tryDown, hq]

/-- `schedule` comes back. -/
theorem Inv.exec_schedule :
    ∃ s, m.exec .schedule = .ok { m with sched := s } ∧ m.sched.schedule = .ok s ∧
      Inv v { m with sched := s } xs := by
  obtain ⟨s, hrun, hsched, hw⟩ := h.waiting.schedule
  obtain ⟨ys, hys⟩ := h.waiting.queued
  obtain ⟨t, zs, hrun', -, hsame, -⟩ := Sched.schedule_spec hys
  obtain rfl : t = s := ok.inj (hrun'.symm.trans hsched)
  refine ⟨t, ?_, hsched, h.reschedule hw.queued fun p _ => ⟨(hsame p).1, (hsame p).2.1⟩⟩
  simp [exec, hrun]

theorem Inv.exec_sleep (hcur : m.inDown m.sched.current = none) (waitState : BitVec 32) :
    m.exec (.sleep waitState) = .ok { m with sched := m.sched.sleep waitState } ∧
      Inv v { m with sched := m.sched.sleep waitState } xs := by
  obtain ⟨ys, hys⟩ := h.waiting.queued
  refine ⟨rfl, h.reschedule ⟨ys, Sched.sleep_spec hys waitState⟩ fun p hp => ?_⟩
  have hne : p ≠ m.sched.current := fun heq => hp (heq ▸ hcur)
  rw [Sched.sleep_of_ne _ _ hne]
  exact ⟨rfl, rfl⟩

theorem Inv.exec_wakeup (ha : p ∈ m.alive) (hp : m.inDown p = none)
    (hexec : m.exec (.wakeup p) = .ok m') :
    ∃ s, m' = { m with sched := s } ∧ Inv v m' xs := by
  obtain ⟨ys, hys⟩ := h.waiting.queued
  have hspec := Sched.wakeupProc_spec hys ha
  rw [exec, Waits.wakeupProc] at hexec
  cases hrun : m.sched.wakeupProc p with
  | error e =>
    rw [hrun] at hexec
    cases hexec
  | ok s =>
    rw [hrun] at hexec hspec
    obtain ⟨-, hq⟩ := hspec
    refine ⟨s, (ok.inj hexec).symm, ?_⟩
    rw [← ok.inj hexec]
    refine h.reschedule hq fun r hr => ?_
    have hne : r ≠ p := fun heq => hr (heq ▸ hp)
    rw [Sched.wakeupProc_of_ne hrun hne]
    exact ⟨rfl, rfl⟩

end Exec

/-! ### Runs -/

/-- Each section but a wakeup of a zombie comes back, and keeps the accounts. -/
theorem Inv.exec (h : Inv v m xs) (hl : m.Legal op) :
    ((∀ p, op ≠ .wakeup p) → ∃ m', m.exec op = .ok m') ∧
      ∀ m', m.exec op = .ok m' → ∃ ys, Inv v m' ys := by
  have of_ok : ∀ {m' ys}, m.exec op = .ok m' → Inv v m' ys →
      ((∀ p, op ≠ .wakeup p) → ∃ m', m.exec op = .ok m') ∧
        ∀ m', m.exec op = .ok m' → ∃ ys, Inv v m' ys := by
    intro m' ys hexec hinv
    refine ⟨fun _ => ⟨m', hexec⟩, fun t ht => ?_⟩
    obtain rfl : m' = t := ok.inj (hexec.symm.trans ht)
    exact ⟨ys, hinv⟩
  cases op with
  | down q =>
    obtain ⟨m', hexec, -, -, ⟨-, -, hinv⟩ | ⟨-, -, -, -, -, hinv⟩⟩ := h.exec_down hl q
    · exact of_ok hexec hinv
    · exact of_ok hexec hinv
  | finish =>
    obtain ⟨q, hq⟩ := Option.ne_none_iff_exists'.mp hl.1
    obtain ⟨m', hexec, -, hinv⟩ := h.exec_finish hq hl.2
    exact of_ok hexec hinv
  | up q =>
    obtain ⟨m', hexec, -, -, -, -, -, ⟨-, -, hinv⟩ | ⟨p, ws, -, -, hinv⟩⟩ := h.exec_up q
    · exact of_ok hexec hinv
    · exact of_ok hexec hinv
  | tryDown q =>
    obtain ⟨m', hexec, hinv, -⟩ := h.exec_tryDown q
    exact of_ok hexec hinv
  | schedule =>
    obtain ⟨s, hexec, -, hinv⟩ := h.exec_schedule
    exact of_ok hexec hinv
  | sleep waitState =>
    obtain ⟨hexec, hinv⟩ := h.exec_sleep hl waitState
    exact of_ok hexec hinv
  | wakeup p =>
    refine ⟨fun hno => absurd rfl (hno p), fun m' hexec => ?_⟩
    obtain ⟨-, -, hinv⟩ := h.exec_wakeup hl.1 hl.2 hexec
    exact ⟨xs, hinv⟩

/-- A call of `up` keeps the unit: nobody sleeps, and nobody is woken. -/
def Keeps (q : Q) (m m' : SemSys Q) : Prop :=
  m'.value = update m.value q (m.value q + 1) ∧ (∀ p, ¬m.Asleep p q) ∧
    ∀ p r, (m'.Asleep p r ↔ m.Asleep p r) ∧ (m'.Handed p r ↔ m.Handed p r)

/-- A call of `up` hands the unit to the process that has slept longest, and to no other. -/
def HandsTo (q : Q) (m m' : SemSys Q) (p : ProcId) : Prop :=
  m'.value = m.value ∧ m.Asleep p q ∧ (∀ r, m.Asleep r q → r ≠ p → m.since p < m.since r) ∧
    m'.Handed p q ∧ (m'.sched.procs p).state = .runnable ∧
    ∀ x r, x ≠ p → (m'.Asleep x r ↔ m.Asleep x r) ∧ (m'.Handed x r ↔ m.Handed x r)

/-- What becomes of the unit that `up` gives. -/
theorem Inv.up_gives (h : Inv v m xs) {q : Q} (hexec : m.exec (.up q) = .ok m') :
    Keeps q m m' ∨ ∃ p, HandsTo q m m' p := by
  obtain ⟨t, ht, -, hdown, -, -, -, hcases⟩ := h.exec_up q
  obtain rfl : m' = t := ok.inj (hexec.symm.trans ht)
  rcases hcases with ⟨hxs, hvalue, hinv⟩ | ⟨p, ws, hxs, hvalue, hinv⟩
  · refine .inl ⟨hvalue, fun p hp => ?_, fun p r => ?_⟩
    · simpa [hxs] using h.asleep_iff.mp hp
    · simp only [hinv.asleep_iff, h.asleep_iff, hinv.handed_iff, h.handed_iff, hdown, and_self]
  · have hin : p ∈ xs q := by simp [hxs]
    have hp : p ∉ update xs q ws q := fun hp => ((h.mem_tail hxs).mp hp).2 rfl
    have hdown' : m'.inDown p = some q := hdown ▸ h.inDown q p hin
    refine .inr ⟨p, hvalue, h.asleep_iff.mpr hin, fun r hr hne => ?_,
      hinv.handed_iff.mpr ⟨hdown', hp⟩, (hinv.woken p q hdown' hp).1, fun x r hx => ?_⟩
    · have hr' := h.asleep_iff.mp hr
      have horder := h.order q
      rw [hxs] at hr' horder
      exact (List.pairwise_cons.mp horder).1 r ((List.mem_cons.mp hr').resolve_left hne)
    · have hmem : x ∈ update xs q ws r ↔ x ∈ xs r := by simp [h.mem_tail hxs, hx]
      simp only [hinv.asleep_iff, h.asleep_iff, hinv.handed_iff, h.handed_iff, hdown, hmem, and_self]

/-- Each unit that has been given and not given back is with a holder, and who is in `down` is not
one. -/
structure Locked (q : Q) (m : SemSys Q) : Prop where
  count : m.returned q = m.ups q + (m.holders q).card
  apart : ∀ p, m.inDown p = some q → p ∉ m.holders q

omit [DecidableEq Q] in
theorem Locked.congr (h : Locked q m) (hdown : m'.inDown = m.inDown) (hups : m'.ups = m.ups)
    (hret : m'.returned = m.returned) (hhold : m'.holders = m.holders) : Locked q m' :=
  ⟨by rw [hret, hups, hhold]; exact h.count, by rw [hdown, hhold]; exact h.apart⟩

/-- A unit that the current process gets is its only one. -/
theorem Locked.gain (h : Locked q m) (hcur : r = q → m.sched.current ∉ m.holders q) (s : Sems Q)
    (inDown : ProcId → Option Q)
    (hdown : ∀ p, inDown p = some q → m.inDown p = some q ∧ (r = q → p ≠ m.sched.current)) :
    Locked q { m.gain r s with inDown := inDown } := by
  by_cases hr : r = q
  · subst hr
    refine ⟨?_, fun p hp => ?_⟩
    · have hcard := card_insert_of_notMem (hcur rfl)
      have hcount := h.count
      simp only [SemSys.gain, update_self]
      omega
    · obtain ⟨hp', hne⟩ := hdown p hp
      simp [SemSys.gain, hne rfl, h.apart p hp']
  · refine ⟨?_, fun p hp => ?_⟩
    · simpa [SemSys.gain, Ne.symm hr] using h.count
    · simpa [SemSys.gain, Ne.symm hr] using h.apart p (hdown p hp).1

/-- It was not in `down`. -/
theorem Locked.gainIdle (h : Locked q m) (hidle : m.inDown m.sched.current = none)
    (hcur : r = q → m.sched.current ∉ m.holders q) (s : Sems Q) : Locked q (m.gain r s) := by
  refine h.gain hcur s m.inDown fun p hp => ⟨hp, fun _ heq => ?_⟩
  rw [heq, hidle] at hp
  cases hp

theorem Locked.exec (hlock : Locked q m) (h : Inv v m xs) (hl : m.Legal op)
    (hu : m.UsesLock q op) (hexec : m.exec op = .ok m') : Locked q m' := by
  cases op with
  | down r =>
    obtain ⟨t, ht, -, hups, ⟨-, hgain, -⟩ | ⟨-, -, hdown, hret, hhold, -⟩⟩ := h.exec_down hl r
    all_goals obtain rfl : m' = t := ok.inj (hexec.symm.trans ht)
    · rw [hgain]
      exact hlock.gainIdle hl hu _
    · refine ⟨by rw [hret, hups, hhold]; exact hlock.count, fun p hp => ?_⟩
      rw [hhold]
      rw [hdown] at hp
      by_cases hpc : p = m.sched.current
      · subst hpc
        rw [update_self] at hp
        exact hu (Option.some.inj hp)
      · rw [update_of_ne hpc] at hp
        exact hlock.apart p hp
  | finish =>
    obtain ⟨r, hr⟩ := Option.ne_none_iff_exists'.mp hl.1
    obtain ⟨t, ht, hgain, -⟩ := h.exec_finish hr hl.2
    obtain rfl : m' = t := ok.inj (hexec.symm.trans ht)
    rw [hgain]
    refine hlock.gain (fun hrq => hlock.apart _ (hrq ▸ hr)) _ _ fun p hp => ?_
    have hpc : p ≠ m.sched.current := by
      rintro rfl
      simp at hp
    exact ⟨by simpa [hpc] using hp, fun _ => hpc⟩
  | up r =>
    obtain ⟨t, ht, -, hdown, hups, hret, hhold, -⟩ := h.exec_up r
    obtain rfl : m' = t := ok.inj (hexec.symm.trans ht)
    have hcount := hlock.count
    refine ⟨?_, fun p hp => ?_⟩
    · rw [hret, hups, hhold]
      by_cases hr : r = q
      · subst hr
        have hcard := card_erase_add_one (hu rfl)
        simp only [update_self]
        omega
      · simpa [Ne.symm hr] using hcount
    · have hnot := hlock.apart p (hdown ▸ hp)
      rw [hhold]
      by_cases hr : r = q
      · subst hr
        simp [hnot]
      · simpa [Ne.symm hr] using hnot
  | tryDown r =>
    obtain ⟨t, ht, -, hdown, hups, hgain | ⟨hret, hhold⟩⟩ := h.exec_tryDown r
    all_goals obtain rfl : m' = t := ok.inj (hexec.symm.trans ht)
    · rw [hgain]
      exact hlock.gainIdle hl hu _
    · exact hlock.congr hdown hups hret hhold
  | schedule =>
    obtain ⟨s, ht, -⟩ := h.exec_schedule
    rw [← ok.inj (ht.symm.trans hexec)]
    exact ⟨hlock.count, hlock.apart⟩
  | sleep waitState =>
    rw [← ok.inj ((h.exec_sleep hl waitState).1.symm.trans hexec)]
    exact ⟨hlock.count, hlock.apart⟩
  | wakeup p =>
    obtain ⟨s, rfl, -⟩ := h.exec_wakeup hl.1 hl.2 hexec
    exact ⟨hlock.count, hlock.apart⟩

theorem Start.run (h : Start v m₀) (hv : ∀ q, 0 ≤ v q)
    (hrun : Relation.ReflTransGen Step m₀ m) : ∃ xs, Inv v m xs := by
  induction hrun with
  | refl => exact ⟨_, h.inv hv⟩
  | tail _ hstep ih =>
    obtain ⟨xs, hinv⟩ := ih
    obtain ⟨op, hl, hexec⟩ := hstep
    exact (hinv.exec hl).2 _ hexec

theorem Start.runLocked (h : Start v m₀) (hv : ∀ q, 0 ≤ v q) (q : Q)
    (hrun : Relation.ReflTransGen (LockStep q) m₀ m) : ∃ xs, Inv v m xs ∧ Locked q m := by
  induction hrun with
  | refl => exact ⟨_, h.inv hv, by simp [h.returned, h.ups, h.holders], by simp [h.inDown]⟩
  | tail _ hstep ih =>
    obtain ⟨xs, hinv, hlock⟩ := ih
    obtain ⟨op, hl, hu, hexec⟩ := hstep
    obtain ⟨ys, hinv'⟩ := (hinv.exec hl).2 _ hexec
    exact ⟨ys, hinv', hlock.exec hinv hl hu hexec⟩

/-- The semaphores are initialised when the system has come this far. -/
def start (w : Tasks) (v : Q → Int) : SemSys Q where
  sched := w.sched
  links := ⟨id, id⟩
  wait p := ⟨p, 0, none⟩
  value := v
  alive := w.alive
  inDown _ := none
  clock := 0
  since _ := 0
  ups _ := 0
  returned _ := 0
  holders _ := ∅

omit [DecidableEq Q] in
theorem start_spec {w : Tasks} (h : w.Reachable) (v : Q → Int) : Start v (start w v) := by
  obtain ⟨c, hinv⟩ := h.inv
  exact ⟨hinv.queued, fun _ => ⟨rfl, rfl⟩, fun _ => rfl, fun _ => rfl, fun _ => rfl, fun _ => rfl,
    fun _ => rfl⟩

instance (m : SemSys Q) : (op : SemOp Q) → Decidable (m.Legal op)
  | .down _ | .up _ | .tryDown _ | .sleep _ =>
    inferInstanceAs (Decidable (m.inDown m.sched.current = none))
  | .finish => inferInstanceAs (Decidable (_ ≠ _ ∧ _ = _))
  | .schedule => inferInstanceAs (Decidable True)
  | .wakeup p => inferInstanceAs (Decidable (p ∈ m.alive ∧ m.inDown p = none))

end SemSys

end UcoreMips.Kernel
