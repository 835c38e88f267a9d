import UcoreMips.Kernel.ListFamily
import UcoreMips.Kernel.Process.Lifecycle

/-!
# UcoreMips.Kernel.Process.Table

The **process table** (`kern/process/proc.c`): the list of all processes and the hash lists by which
they are found, the numbers that `get_pid` hands out, and `do_fork`, `do_wait` and `do_kill` on it.

* What `do_fork` allocates beside the structure (stack, memory, files) is not part of the state; it
  may fail, which ends `do_fork`.
* `do_wait` is modelled from one call of `schedule` to the next, without the check of the address
  at which it stores the exit code.
-/

namespace UcoreMips.Kernel

open UcoreMips.Lib
open Function (update update_of_ne update_self)
open List

def maxProcess : Int := 4096
def maxPid : Int := maxProcess * 2

def pfExiting : BitVec 32 := 0x00000001#32

/-- `pid_hashfn`; the value has `HASH_SHIFT` bits. -/
def pidHashfn (pid : Int) : BitVec 10 := (hash32 (BitVec.ofInt 32 pid) 10).setWidth 10

inductive ProcStop
  | sched (e : SchedStop)
  /-- `do_wait`: "wait idleproc or initproc.". -/
  | waitInit
  /-- `proc_init`: "create init_main failed.". -/
  | initFailed
  | nullPointer
  | outOfFuel
  deriving Repr, DecidableEq

/-- The processes, with the fields that the scheduler does not use, and the lists. -/
structure Procs extends Sched where
  pid : ProcId → Int
  flags : ProcId → BitVec 32
  /-- `proc_list` and the fields `list_link`. -/
  procList : Links (ListNode ProcId)
  /-- `hash_list` and the fields `hash_link`. -/
  hashList : Links (FamilyNode (BitVec 10) ProcId)
  nrProcess : Int
  /-- The static variables of `get_pid`. -/
  lastPid : Int
  nextSafe : Int

namespace Procs

/-- A call into the scheduler. -/
def withSched (t : Procs) (r : Except SchedStop Sched) : Except ProcStop Procs :=
  match r with
  | .ok s => .ok { t with toSched := s }
  | .error e => .error (.sched e)

theorem withSched_eq_ok {t t' : Procs} {r : Except SchedStop Sched} :
    t.withSched r = .ok t' ↔ ∃ s, r = .ok s ∧ t' = { t with toSched := s } := by
  cases r with
  | error e => simp [withSched]
  | ok s => simp [withSched, eq_comm]

/-! ### `pid`s -/

/-- The loop of `get_pid`, from the node `le` on. -/
def getPidFrom (t : Procs) : Nat → Int → Int → ListNode ProcId → Except ProcStop (Int × Int)
  | 0, _, _, _ => .error .outOfFuel
  | fuel + 1, last, safe, le =>
    match t.procList.next le with
    | .head => .ok (last, safe)
    | .entry p =>
      if t.pid p = last then
        if last + 1 ≥ safe then
          getPidFrom t fuel (if last + 1 ≥ maxPid then 1 else last + 1) maxPid .head
        else getPidFrom t fuel (last + 1) safe (.entry p)
      else if t.pid p > last ∧ safe > t.pid p then getPidFrom t fuel last (t.pid p) (.entry p)
      else getPidFrom t fuel last safe (.entry p)

/-- The values that `get_pid` gives to `last_pid` and `next_safe`. -/
def nextPid (fuel : Nat) (t : Procs) : Except ProcStop (Int × Int) :=
  let last := t.lastPid + 1
  if last ≥ maxPid then t.getPidFrom fuel 1 maxPid .head
  else if last ≥ t.nextSafe then t.getPidFrom fuel last maxPid .head
  else .ok (last, t.nextSafe)

/-- `get_pid`. -/
def getPid (fuel : Nat) (t : Procs) : Except ProcStop (Int × Procs) := do
  let (last, safe) ← t.nextPid fuel
  return (last, { t with lastPid := last, nextSafe := safe })

/-- `hash_proc`. -/
def hashProc (t : Procs) (p : ProcId) : Procs :=
  { t with hashList := listAddAfter t.hashList (.head (pidHashfn (t.pid p))) (.entry p) }

/-- `unhash_proc`. -/
def unhashProc (t : Procs) (p : ProcId) : Procs := { t with hashList := listDel t.hashList (.entry p) }

/-- `find_proc`. -/
def findProc (fuel : Nat) (t : Procs) (pid : Int) : Except ProcStop (Option ProcId) :=
  if 0 < pid ∧ pid < maxPid then
    match listFind t.hashList (fun p => t.pid p = pid) fuel (.head (pidHashfn pid)) with
    | some found => .ok found
    | none => .error .outOfFuel
  else .ok none

/-! ### Links -/

/-- `set_links`. -/
def setLinks (t : Procs) (p : ProcId) : Except ProcStop Procs :=
  match (t.procs p).parent with
  | none => .error .nullPointer
  | some parent => .ok { t with
      toSched := t.toSched.linkChild p parent
      procList := listAddAfter t.procList .head (.entry p)
      nrProcess := t.nrProcess + 1 }

/-- The relations in `remove_links`. -/
def unlinkChild (s : Sched) (p : ProcId) : Except ProcStop Sched :=
  let s := match (s.procs p).optr with
    | none => s
    | some o => s.setYptr o (s.procs p).yptr
  match (s.procs p).yptr, (s.procs p).parent with
  | some y, _ => .ok (s.setOptr y (s.procs p).optr)
  | none, some parent => .ok (s.setCptr parent (s.procs p).optr)
  | none, none => .error .nullPointer

/-- `remove_links`. -/
def removeLinks (t : Procs) (p : ProcId) : Except ProcStop Procs := do
  let s ← unlinkChild t.toSched p
  return { t with
    toSched := s
    procList := listDel t.procList (.entry p)
    nrProcess := t.nrProcess - 1 }

/-! ### `do_fork`, `do_wait`, `do_kill` -/

/-- `alloc_proc`, for a structure at `p`. -/
def allocProc (t : Procs) (p : ProcId) : Procs :=
  { t with
    toSched := t.toSched.allocProc p
    pid := update t.pid p 0
    flags := update t.flags p 0 }

/-- `do_fork`, for a structure at `p`; whether `setup_kstack`, `copy_mm` or `copy_files` fails is
given by `failed`. -/
def doFork (fuel : Nat) (t : Procs) (p : ProcId) (failed : Bool) : Except ProcStop (Int × Procs) :=
  if t.nrProcess ≥ maxProcess then .ok (-eNoFreeProc, t)
  else
    let t := t.allocProc p
    if (t.procs t.current).waitState ≠ 0 then .error (.sched .forkWaiting)
    else
      let t := { t with toSched := t.toSched.setParent p t.current }
      if failed then .ok (-eNoMem, t)
      else do
        let (pid, t) ← t.getPid fuel
        let t := { t with pid := update t.pid p pid }
        let t ← (t.hashProc p).setLinks p
        let t ← t.withSched (t.wakeupProc p)
        return (pid, t)

/-- The walk of `do_wait` over the children: the first zombie, and `haskid`. -/
def zombieFrom (s : Sched) : Nat → Option ProcId → Bool → Except ProcStop (Option ProcId × Bool)
  | 0, _, _ => .error .outOfFuel
  | _ + 1, none, haskid => .ok (none, haskid)
  | fuel + 1, some p, _ =>
    if (s.procs p).state = .zombie then .ok (some p, true) else zombieFrom s fuel (s.procs p).optr true

/-- The search of `do_wait` for a child that has exited. -/
def findZombie (fuel : Nat) (t : Procs) (pid : Int) : Except ProcStop (Option ProcId × Bool) :=
  if pid ≠ 0 then do
    match ← t.findProc fuel pid with
    | none => return (none, false)
    | some p =>
      if (t.procs p).parent = some t.current then
        return (if (t.procs p).state = .zombie then some p else none, true)
      else return (none, false)
  else zombieFrom t.toSched fuel (t.procs t.current).cptr false

/-- The end of `do_wait`, when the child `p` has been found. -/
def reap (t : Procs) (p : ProcId) : Except ProcStop Procs :=
  if p = t.idleproc ∨ t.initproc = some p then .error .waitInit else (t.unhashProc p).removeLinks p

/-- How a part of `do_wait` ends. -/
inductive Waited
  /-- It returns 0, and has stored the exit code of the child that was at `p`. -/
  | reaped (p : ProcId) (exitCode : Int)
  /-- It returns `-E_BAD_PROC`. -/
  | badProc
  /-- It has called `schedule`. -/
  | asleep
  deriving Repr, DecidableEq

/-- `do_wait` from `repeat` on, up to where it returns or another process goes on. -/
def doWait (fuel : Nat) (t : Procs) (pid : Int) : Except ProcStop (Waited × Procs) := do
  match ← t.findZombie fuel pid with
  | (some p, _) => return (.reaped p (t.procs p).exitCode, ← t.reap p)
  | (none, true) => return (.asleep, ← t.withSched (t.toSched.sleep wtChild).schedule)
  | (none, false) => return (.badProc, t)

/-- `do_kill`. -/
def doKill (fuel : Nat) (t : Procs) (pid : Int) : Except ProcStop (Int × Procs) := do
  match ← t.findProc fuel pid with
  | none => return (-eInval, t)
  | some p =>
    if t.flags p &&& pfExiting = 0 then
      let t := { t with flags := update t.flags p (t.flags p ||| pfExiting) }
      if (t.procs p).waitState &&& wtInterrupted ≠ 0 then
        return (0, ← t.withSched (t.wakeupProc p))
      else return (0, t)
    else return (-eKilled, t)

/-! ### Who is in the table -/

/-- The processes `xs` are on the list, each is on the hash list of its `pid` and on no other one,
and no two have the same `pid`. Between `last_pid` and `next_safe` no `pid` is taken. -/
structure Registered (t : Procs) (xs : List ProcId) : Prop where
  list : Ring t.procList .head (xs.map .entry)
  hash : Hashed t.hashList (· ∈ xs) (fun p => pidHashfn (t.pid p))
  nr : t.nrProcess = xs.length + 1
  range : ∀ p ∈ xs, 0 < t.pid p ∧ t.pid p < maxPid
  unique : ∀ p ∈ xs, ∀ q ∈ xs, t.pid p = t.pid q → p = q
  last : 0 ≤ t.lastPid
  safe : ∀ p ∈ xs, ¬(t.lastPid < t.pid p ∧ t.pid p < t.nextSafe)

variable {t : Procs} {xs us ws : List ProcId} {p : ProcId} {n : Int} {s : Sched}

/-- What `get_pid` uses of that. -/
structure Listed (t : Procs) (xs : List ProcId) : Prop where
  list : Ring t.procList .head (xs.map .entry)
  last : 0 ≤ t.lastPid
  safe : ∀ p ∈ xs, ¬(t.lastPid < t.pid p ∧ t.pid p < t.nextSafe)

theorem Registered.listed (h : Registered t xs) : Listed t xs := ⟨h.list, h.last, h.safe⟩

theorem Registered.nodup (h : Registered t xs) : xs.Nodup :=
  List.Nodup.of_map _ (nodup_cons.mp h.list.nodup).2

/-- The table depends on the lists and on the `pid`s of those on them. -/
theorem Registered.congr {t' : Procs} (h : Registered t xs) (hlist : t'.procList = t.procList)
    (hhash : t'.hashList = t.hashList) (hnr : t'.nrProcess = t.nrProcess)
    (hlast : t'.lastPid = t.lastPid) (hsafe : t'.nextSafe = t.nextSafe)
    (hpid : ∀ p ∈ xs, t'.pid p = t.pid p) : Registered t' xs := by
  refine ⟨hlist ▸ h.list, hhash ▸ h.hash.congr (fun _ => Iff.rfl) fun p hp => ?_, hnr ▸ h.nr,
    fun p hp => ?_, fun p hp q hq => ?_, hlast ▸ h.last, fun p hp => ?_⟩
  · rw [hpid p hp]
  · rw [hpid p hp]
    exact h.range p hp
  · rw [hpid p hp, hpid q hq]
    exact h.unique p hp q hq
  · rw [hpid p hp, hlast, hsafe]
    exact h.safe p hp

/-- The node after the processes that have been visited. -/
theorem Listed.next (h : Listed t (us ++ ws)) :
    t.procList.next ((us.map .entry).getLastD .head) = (ws.map .entry).headD .head := by
  have hring := h.list
  rw [map_append] at hring
  exact hring.next_last

/-- The loop of `get_pid` ends with a number that nobody has, and none is taken from there to
`next_safe`. Of the processes that have been visited, none has a number in between. -/
theorem Listed.getPidFrom_spec (h : Listed t (us ++ ws)) {last safe last' safe' : Int}
    {fuel : Nat} (hlast : 0 < last ∧ last < maxPid) (hlt : last < safe ∧ safe ≤ maxPid)
    (hvisited : ∀ p ∈ us, ¬(last ≤ t.pid p ∧ t.pid p < safe))
    (hget : t.getPidFrom fuel last safe ((us.map .entry).getLastD .head) = .ok (last', safe')) :
    0 < last' ∧ last' < maxPid ∧ last' < safe' ∧
      ∀ p ∈ us ++ ws, ¬(last' ≤ t.pid p ∧ t.pid p < safe') := by
  have hmax : maxPid = 8192 := rfl
  induction fuel generalizing us ws last safe with
  | zero => cases hget
  | succ fuel ih =>
    have hnext := h.next
    cases ws with
    | nil =>
      rw [getPidFrom, hnext] at hget
      cases hget
      exact ⟨hlast.1, hlast.2, hlt.1, by simpa using hvisited⟩
    | cons p ws =>
      have hlater : Listed t ((us ++ [p]) ++ ws) := by simpa using h
      have hnode : (((us ++ [p]).map ListNode.entry).getLastD ListNode.head : ListNode ProcId) =
          .entry p := by simp [getLastD_eq_getLast?]
      have hstep : ∀ {last safe : Int}, 0 < last ∧ last < maxPid → last < safe ∧ safe ≤ maxPid →
          (∀ r ∈ us, ¬(last ≤ t.pid r ∧ t.pid r < safe)) → ¬(last ≤ t.pid p ∧ t.pid p < safe) →
          t.getPidFrom fuel last safe (.entry p) = .ok (last', safe') →
          0 < last' ∧ last' < maxPid ∧ last' < safe' ∧
            ∀ r ∈ us ++ p :: ws, ¬(last' ≤ t.pid r ∧ t.pid r < safe') := by
        intro last safe hlast hlt hus hp hget
        rw [← hnode] at hget
        have hall := ih hlater hlast hlt (fun r hr => by
          rcases mem_append.mp hr with hr | hr
          · exact hus r hr
          · rw [mem_singleton.mp hr]
            exact hp) hget
        simpa using hall
      rw [getPidFrom, hnext, map_cons, headD_cons] at hget
      dsimp only at hget
      split at hget
      · next hpid =>
        split at hget
        · -- `goto repeat`
          have hfirst : Listed t ([] ++ (us ++ p :: ws)) := h
          have hnew : 0 < (if last + 1 ≥ maxPid then 1 else last + 1) ∧
              (if last + 1 ≥ maxPid then 1 else last + 1) < maxPid := by
            split <;> omega
          exact @ih [] _ hfirst _ _ hnew ⟨hnew.2, le_rfl⟩ (by simp) hget
        · refine hstep (by omega) (by omega) (fun r hr => ?_) (by omega) hget
          have hr' := hvisited r hr
          omega
      · split at hget
        · refine hstep hlast (by omega) (fun r hr => ?_) (by omega) hget
          have hr' := hvisited r hr
          omega
        · exact hstep hlast hlt hvisited (by omega) hget

/-- `get_pid` returns a number that no process has. -/
theorem Listed.getPid_spec (h : Listed t xs) {fuel : Nat} {pid : Int} {t' : Procs}
    (hget : t.getPid fuel = .ok (pid, t')) :
    ∃ safe, t' = { t with lastPid := pid, nextSafe := safe } ∧ 0 < pid ∧ pid < maxPid ∧
      (∀ p ∈ xs, t.pid p ≠ pid) ∧ ∀ p ∈ xs, ¬(pid < t.pid p ∧ t.pid p < safe) := by
  obtain ⟨⟨last, safe⟩, hfrom, hret⟩ := bind_eq_ok.mp hget
  cases hret
  have hnil : Listed t ([] ++ xs) := h
  have hmax : maxPid = 8192 := rfl
  have hspec : 0 < pid ∧ pid < maxPid ∧ pid < safe ∧
      ∀ p ∈ xs, ¬(pid ≤ t.pid p ∧ t.pid p < safe) := by
    rw [nextPid] at hfrom
    split at hfrom
    · exact hnil.getPidFrom_spec (by omega) (by omega) (by simp) hfrom
    · split at hfrom
      · have := h.last
        exact hnil.getPidFrom_spec (by omega) (by omega) (by simp) hfrom
      · cases hfrom
        have := h.last
        refine ⟨by omega, by omega, by omega, fun p hp => ?_⟩
        have hsafe := h.safe p hp
        omega
  refine ⟨safe, rfl, hspec.1, hspec.2.1, fun p hp heq => ?_, fun p hp => ?_⟩
  · have hsafe := hspec.2.2.2 p hp
    omega
  · have hsafe := hspec.2.2.2 p hp
    omega

/-! ### `get_pid` comes to its end -/

/-- The number that is tried after `n`. -/
def numberAfter (n : Int) : Int := if n + 1 ≥ maxPid then 1 else n + 1

theorem numberAfter_iterate (hn : 0 < n ∧ n < maxPid) (k : Nat) :
    numberAfter^[k] n = (n - 1 + k) % 8191 + 1 := by
  have hmax : maxPid = 8192 := rfl
  induction k with
  | zero =>
    simp only [Function.iterate_zero, id]
    omega
  | succ k ih =>
    rw [Function.iterate_succ_apply', ih, numberAfter]
    split <;> omega

/-- Some number is free, and it is tried after some turns. -/
theorem exists_free (hfew : (xs.length : Int) ≤ maxProcess) (hn : 0 < n ∧ n < maxPid) :
    ∃ k, ∀ p ∈ xs, t.pid p ≠ numberAfter^[k] n := by
  have hmax : maxPid = 8192 := rfl
  have hproc : maxProcess = 4096 := rfl
  have hcard : (xs.map t.pid).toFinset.card < (Finset.Ioo 0 maxPid).card := by
    refine (toFinset_card_le _).trans_lt ?_
    rw [length_map, Int.card_Ioo]
    omega
  obtain ⟨m, hm, hfree⟩ := Finset.exists_mem_notMem_of_card_lt_card hcard
  rw [Finset.mem_Ioo] at hm
  refine ⟨((m - n) % 8191).toNat, fun p hp heq => hfree ?_⟩
  rw [numberAfter_iterate hn] at heq
  have hm' : t.pid p = m := by omega
  rw [mem_toFinset, ← hm']
  exact mem_map_of_mem hp

/-- Each number that is taken costs at most one walk over the list. -/
theorem Listed.getPidFrom_returns (h : Listed t (us ++ ws)) {k fuel : Nat} {last safe : Int}
    (hfree : ∀ p ∈ us ++ ws, t.pid p ≠ numberAfter^[k] last) (hsafe : safe ≤ maxPid)
    (hfuel : k * ((us ++ ws).length + 1) + ws.length < fuel) :
    ∃ r, t.getPidFrom fuel last safe ((us.map .entry).getLastD .head) = .ok r := by
  induction fuel generalizing us ws last safe k with
  | zero => omega
  | succ fuel ih =>
    have hnext := h.next
    cases ws with
    | nil =>
      rw [getPidFrom, hnext]
      exact ⟨_, rfl⟩
    | cons p ws =>
      have hsplit : us ++ p :: ws = us ++ [p] ++ ws := by simp
      have hlen : (us ++ p :: ws).length = us.length + ws.length + 1 := by simp [Nat.add_assoc]
      -- the walk goes on behind `p`
      have hon : ∀ {k last safe}, (∀ q ∈ us ++ p :: ws, t.pid q ≠ numberAfter^[k] last) →
          safe ≤ maxPid → k * ((us ++ p :: ws).length + 1) + ws.length < fuel →
          ∃ r, t.getPidFrom fuel last safe (.entry p) = .ok r := by
        intro k last safe hfree hsafe hfuel
        rw [hsplit] at hfree hfuel
        have hrest := @ih (us ++ [p]) ws (hsplit ▸ h) _ _ _ hfree hsafe hfuel
        simpa [getLastD_eq_getLast?] using hrest
      rw [length_cons] at hfuel
      rw [getPidFrom, hnext, map_cons, headD_cons]
      dsimp only
      split
      · next hpid =>
        cases k with
        | zero => exact absurd hpid (hfree p (by simp))
        | succ k =>
          rw [Function.iterate_succ_apply] at hfree
          rw [Nat.succ_mul] at hfuel
          split
          · exact @ih [] (us ++ p :: ws) h _ _ _ hfree le_rfl (by simp only [nil_append]; omega)
          · next hlt =>
            have hafter : numberAfter last = last + 1 := if_neg (by omega)
            exact hon (hafter ▸ hfree) hsafe (by omega)
      · split
        · exact hon hfree (by omega) (by omega)
        · exact hon hfree hsafe (by omega)

/-- A history of `get_pid`: processes are created with the number that it returns, and removed, and the
list can be in any order. -/
inductive PidHistory : Procs → List ProcId → Prop
  | start {t : Procs} (hlist : Ring t.procList .head []) (hlast : t.lastPid = maxPid)
      (hsafe : t.nextSafe = maxPid) : PidHistory t []
  | create {t t' u : Procs} {xs ys : List ProcId} {p : ProcId} {pid : Int} {fuel : Nat}
      (h : PidHistory t xs) (hget : t.getPid fuel = .ok (pid, t')) (hp : p ∉ xs) (hys : ys.Perm (p :: xs))
      (hlist : Ring u.procList .head (ys.map .entry))
      (hpid : ∀ q ∈ ys, u.pid q = update t.pid p pid q) (hlast : u.lastPid = t'.lastPid)
      (hsafe : u.nextSafe = t'.nextSafe) : PidHistory u ys
  | remove {t u : Procs} {xs ys : List ProcId} {p : ProcId} (h : PidHistory t xs)
      (hys : xs.Perm (p :: ys)) (hlist : Ring u.procList .head (ys.map .entry))
      (hpid : ∀ q ∈ ys, u.pid q = t.pid q) (hlast : u.lastPid = t.lastPid)
      (hsafe : u.nextSafe = t.nextSafe) : PidHistory u ys

theorem PidHistory.listed (h : PidHistory t xs) : Listed t xs := by
  induction h with
  | start hlist hlast => exact ⟨hlist, by rw [hlast]; decide, by simp⟩
  | @create t t' u xs ys p pid fuel _ hget hp hys hlist hpid hlast hsafe ih =>
    obtain ⟨safe, rfl, hpos, -, -, hfree⟩ := ih.getPid_spec hget
    refine ⟨hlist, by rw [hlast]; exact hpos.le, fun q hq => ?_⟩
    rw [hpid q hq, hlast, hsafe]
    by_cases hqp : q = p
    · simp [hqp]
    · rw [update_of_ne hqp]
      exact hfree q ((mem_cons.mp (hys.mem_iff.mp hq)).resolve_left hqp)
  | remove _ hys hlist hpid hlast hsafe ih =>
    refine ⟨hlist, hlast ▸ ih.last, fun q hq => ?_⟩
    rw [hpid q hq, hlast, hsafe]
    exact ih.safe q (hys.mem_iff.mpr (mem_cons_of_mem _ hq))

/-- **`get_pid` is fresh and comes to its end.** After any history, with at most `MAX_PROCESS`
processes on the list, `get_pid` returns a number from 1 to `MAX_PID - 1` that no process on the list
has. -/
theorem get_pid_fresh (t : Procs) (xs : List ProcId) (h : PidHistory t xs)
    (hfew : (xs.length : Int) ≤ maxProcess) :
    ∃ turns, ∀ fuel, turns ≤ fuel → ∃ pid t', t.getPid fuel = .ok (pid, t') ∧
      1 ≤ pid ∧ pid < maxPid ∧ ∀ p ∈ xs, t.pid p ≠ pid := by
  have hlisted := h.listed
  have hmax : maxPid = 8192 := rfl
  -- the number from which the search starts
  have hfrom : ∀ n, 0 < n ∧ n < maxPid → ∃ turns, ∀ fuel, turns ≤ fuel →
      ∃ r, t.getPidFrom fuel n maxPid .head = .ok r := by
    intro n hn
    obtain ⟨k, hk⟩ := exists_free (t := t) hfew hn
    exact ⟨k * (xs.length + 1) + xs.length + 1, fun fuel hfuel =>
      @Listed.getPidFrom_returns t [] xs hlisted k fuel n maxPid hk le_rfl (by simp only [nil_append]; omega)⟩
  obtain ⟨turns, hnext⟩ : ∃ turns, ∀ fuel, turns ≤ fuel → ∃ r, t.nextPid fuel = .ok r := by
    have hlast := hlisted.last
    by_cases hwrap : t.lastPid + 1 ≥ maxPid
    · simpa only [nextPid, if_pos hwrap] using hfrom 1 (by omega)
    · by_cases hsafe : t.lastPid + 1 ≥ t.nextSafe
      · simpa only [nextPid, if_neg hwrap, if_pos hsafe] using hfrom _ (by omega)
      · exact ⟨0, fun _ _ => ⟨(t.lastPid + 1, t.nextSafe), by simp only [nextPid, if_neg hwrap, if_neg hsafe]⟩⟩
  refine ⟨turns, fun fuel hfuel => ?_⟩
  obtain ⟨⟨pid, safe⟩, hr⟩ := hnext fuel hfuel
  have hget : t.getPid fuel = .ok (pid, { t with lastPid := pid, nextSafe := safe }) := by
    rw [getPid, hr]
    rfl
  obtain ⟨-, -, hpos, hlt, hfree, -⟩ := hlisted.getPid_spec hget
  exact ⟨pid, _, hget, hpos, hlt, hfree⟩

/-- The first process has been created. -/
theorem get_pid_fresh_second : ∃ t : Procs, PidHistory t [7] ∧ t.pid 7 = 1 ∧
    ∃ turns, ∀ fuel, turns ≤ fuel → ∃ pid t', t.getPid fuel = .ok (pid, t') ∧
      1 ≤ pid ∧ pid < maxPid ∧ ∀ p ∈ [7], t.pid p ≠ pid := by
  let empty : Procs := ⟨Tasks.blank, fun _ => 0, fun _ => 0, ⟨fun _ => .head, fun _ => .head⟩,
    ⟨fun _ => .head 0, fun _ => .head 0⟩, 0, maxPid, maxPid⟩
  let one : Procs := { empty with
    pid := update empty.pid 7 1
    procList := listAddAfter empty.procList .head (.entry 7)
    lastPid := 1 }
  have hempty : Ring empty.procList .head ([] ++ []) := ⟨rfl, rfl, by simp⟩
  have hring : Ring one.procList .head ([] ++ [.entry 7]) := listAddAfter_ring hempty (by simp) rfl
  have hone : PidHistory one [7] := .create (p := 7) (.start hempty rfl rfl)
    (show empty.getPid 1 = .ok (1, { empty with lastPid := 1 }) from rfl) (by simp) (.refl _)
    hring (fun _ _ => rfl) rfl rfl
  exact ⟨one, hone, rfl, get_pid_fresh one [7] hone (by decide)⟩

/-- `find_proc` returns the process with that `pid`, if there is one. -/
theorem Registered.findProc_spec (h : Registered t xs) (pid : Int) :
    (∃ fuel r, t.findProc fuel pid = .ok r) ∧
      ∀ fuel r, t.findProc fuel pid = .ok r → ∀ p, r = some p ↔ p ∈ xs ∧ t.pid p = pid := by
  obtain ⟨⟨n, found, hend⟩, hwalk⟩ := h.hash.find (fun p => decide (t.pid p = pid)) (pidHashfn pid)
  unfold findProc
  split
  · refine ⟨⟨n, found, by simp [hend]⟩, fun fuel r hr p => ?_⟩
    cases hfind : listFind t.hashList (fun p => decide (t.pid p = pid)) fuel (.head (pidHashfn pid)) with
    | none =>
      rw [hfind] at hr
      cases hr
    | some found =>
      rw [hfind] at hr
      obtain rfl := Except.ok.inj hr
      obtain ⟨hsome, hnone⟩ := hwalk fuel found hfind
      constructor
      · intro hp
        obtain ⟨hin, -, hpid⟩ := hsome p hp
        exact ⟨hin, of_decide_eq_true hpid⟩
      · rintro ⟨hin, hpid⟩
        cases found with
        | none =>
          have hmiss := hnone rfl p hin (by rw [hpid])
          simp [hpid] at hmiss
        | some q =>
          obtain ⟨hq, -, hqpid⟩ := hsome q rfl
          rw [h.unique q hq p hin ((of_decide_eq_true hqpid).trans hpid.symm)]
  · next hrange =>
    refine ⟨⟨0, none, rfl⟩, fun fuel r hr p => ?_⟩
    cases hr
    refine ⟨nofun, ?_⟩
    rintro ⟨hin, rfl⟩
    exact absurd (h.range p hin) hrange

/-- A process enters the table under a new `pid`. -/
theorem Registered.insert (h : Registered t xs) (hp : p ∉ xs) (hrange : 0 < n ∧ n < maxPid)
    (hnew : ∀ q ∈ xs, t.pid q ≠ n) (hsafe : ∀ q ∈ xs, ¬(n < t.pid q ∧ t.pid q < t.nextSafe)) :
    Registered { t with
      toSched := s
      pid := update t.pid p n
      procList := listAddAfter t.procList .head (.entry p)
      hashList := listAddAfter t.hashList (.head (pidHashfn n)) (.entry p)
      nrProcess := t.nrProcess + 1
      lastPid := n } (p :: xs) := by
  have hpid : ∀ q ∈ xs, update t.pid p n q = t.pid q := by
    intro q hq
    have hne : q ≠ p := fun heq => hp (heq ▸ hq)
    exact update_of_ne hne ..
  refine ⟨?_, ?_, ?_, fun q hq => ?_, fun q hq r hr heq => ?_, hrange.1.le, fun q hq => ?_⟩
  · have hring : Ring t.procList .head ([] ++ xs.map .entry) := h.list
    exact listAddAfter_ring hring (by simpa using hp) rfl
  · exact h.hash.insert hp (fun q => mem_cons.trans or_comm)
      (fun q hq => congrArg pidHashfn (hpid q hq)) (congrArg pidHashfn (update_self ..))
  · rw [h.nr]
    simp
  · rcases mem_cons.mp hq with rfl | hq
    · simpa using hrange
    · simpa [hpid q hq] using h.range q hq
  · rcases mem_cons.mp hq with rfl | hq' <;> rcases mem_cons.mp hr with rfl | hr'
    · rfl
    · simp only [update_self, hpid r hr'] at heq
      exact absurd heq.symm (hnew r hr')
    · simp only [update_self, hpid q hq'] at heq
      exact absurd heq (hnew q hq')
    · simp only [hpid q hq', hpid r hr'] at heq
      exact h.unique q hq' r hr' heq
  · rcases mem_cons.mp hq with rfl | hq
    · simp
    · simpa [hpid q hq] using hsafe q hq

/-- A process leaves the table. -/
theorem Registered.erase (h : Registered t (us ++ p :: ws)) : Registered { t with
      toSched := s
      procList := listDel t.procList (.entry p)
      hashList := listDel t.hashList (.entry p)
      nrProcess := t.nrProcess - 1 } (us ++ ws) := by
  have hsub : ∀ q ∈ us ++ ws, q ∈ us ++ p :: ws := fun q hq => by
    simp only [mem_append, mem_cons] at hq ⊢
    tauto
  have hnot : p ∉ us ++ ws := (nodup_cons.mp (nodup_middle.mp h.nodup)).1
  refine ⟨?_, h.hash.erase (by simp) fun q => ?_, ?_, fun q hq => h.range q (hsub q hq),
    fun q hq r hr => h.unique q (hsub q hq) r (hsub r hr), h.last, fun q hq => h.safe q (hsub q hq)⟩
  · have hring := h.list
    rw [map_append, map_cons] at hring
    rw [map_append]
    exact listDel_ring hring
  · by_cases hqp : q = p
    · simp [hqp, hnot]
    · simp [hqp]
  · have hnr := h.nr
    simp only [length_append, length_cons] at hnr ⊢
    omega

end Procs

end UcoreMips.Kernel
