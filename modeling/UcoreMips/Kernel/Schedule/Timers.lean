import UcoreMips.Kernel.Schedule.RunQueue
import UcoreMips.Lib.DeltaList

/-!
# UcoreMips.Kernel.Schedule.Timers

**The list of timers is a countdown.** The timers on `timer_list` stand in the order in which
they fire, and `expires` of a timer is its distance to the one before it: a delta list
(`Lib.DeltaList`). `Timed` is the invariant of the list, and `timesLeft` the countdown it
stands for. `add_timer`, `del_timer` and `run_timer_list` are the operations of the
countdown (`addTimer_spec`, `delTimer_spec`, `runTimerList_spec`); the numbers do not wrap
around, since the last timer fires within `2 ^ 32` ticks.

The timers whose `timer_link` has been initialised are given by `inited`.
-/

namespace UcoreMips.Kernel

open UcoreMips.Lib
open Function (update update_of_ne update_self)
open List

namespace Sched

variable {s s' : Sched} {alive : ProcId → Prop} {inited : TimerId → Prop} {t : TimerId}
  {ts us ws vs zs : List TimerId} {xs : List ProcId} {fuel : Nat} {p : ProcId}

/-- What each timer adds to the time of the one before it. -/
def deltas (f : TimerId → Timer) (t : TimerId) : Nat := (f t).expires.toNat

/-- The ticks after which each timer on the list fires. -/
def timesLeft (s : Sched) (ts : List TimerId) : Countdown TimerId := countdown (deltas s.timers) ts

/-- The timers on the list are `ts`, the first of them is not due yet, and each timer has a
process. -/
structure Timed (s : Sched) (alive : ProcId → Prop) (inited : TimerId → Prop)
    (ts : List TimerId) : Prop where
  listed : Listed s.timerList ts inited
  valid : ∀ t ∈ ts, inited t
  bound : (ts.map (deltas s.timers)).sum < 2 ^ 32
  first : ∀ t ∈ ts.head?, 0 < deltas s.timers t
  set : ∀ t ∈ ts, (s.timers t).proc ≠ none
  proc : ∀ t, inited t → ∀ p, (s.timers t).proc = some p → alive p

/-- The state with other timers. -/
def withTimers (s : Sched) (l : Links (ListNode TimerId)) (f : TimerId → Timer) : Sched :=
  { s with timerList := l, timers := f }

theorem Queued.withTimers (h : Queued s alive xs) (l : Links (ListNode TimerId))
    (f : TimerId → Timer) : Queued (s.withTimers l f) alive xs :=
  { h with ptrs := { h.ptrs with } }

theorem Timed.congr (h : Timed s alive inited ts) (hl : s'.timerList = s.timerList)
    (ht : s'.timers = s.timers) : Timed s' alive inited ts := by
  exact ⟨hl ▸ h.listed, h.valid, ht ▸ h.bound, ht ▸ h.first, ht ▸ h.set, ht ▸ h.proc⟩

theorem timesLeft_congr (ht : s'.timers = s.timers) : s'.timesLeft ts = s.timesLeft ts := by
  rw [timesLeft, timesLeft, ht]

/-- A timer is on the list when its `timer_link` is in use. -/
theorem Timed.linked_iff (h : Timed s alive inited ts) (ht : inited t) :
    listEmpty s.timerList (.entry t) = false ↔ t ∈ ts := by
  rw [← Bool.not_eq_true, h.listed.empty_iff ht, not_not]

theorem Timed.nodup (h : Timed s alive inited ts) : ts.Nodup := h.listed.nodup

theorem timesLeft_ne_none_iff : s.timesLeft ts t ≠ none ↔ t ∈ ts := by
  rw [timesLeft, countdown]
  split
  · next h => exact ⟨fun _ => h, fun _ => Option.some_ne_none _⟩
  · next h => exact ⟨fun hne => absurd rfl hne, fun hin => absurd hin h⟩

/-! ### `timer_init` -/

/-- A timer that is not on the list is initialised. -/
theorem timerInit_spec (h : Timed s alive inited ts) (ht : t ∉ ts) {proc : Option ProcId}
    (hproc : ∀ p, proc = some p → alive p) (expires : BitVec 32) :
    Timed (s.timerInit t proc expires) alive (fun r => inited r ∨ r = t) ts ∧
      (s.timerInit t proc expires).timesLeft ts = s.timesLeft ts := by
  have hother : ∀ r, r ≠ t → (s.timerInit t proc expires).timers r = s.timers r :=
    fun r hr => update_of_ne hr ..
  have hmem : ∀ r ∈ ts, r ≠ t := fun r hr heq => ht (heq ▸ hr)
  have hdelta : ∀ r ∈ ts, deltas (s.timerInit t proc expires).timers r = deltas s.timers r :=
    fun r hr => by rw [deltas, deltas, hother r (hmem r hr)]
  refine ⟨⟨h.listed.know ht, fun r hr => .inl (h.valid r hr), ?_, fun r hr => ?_, fun r hr => ?_,
    fun r hr p hp => ?_⟩, ?_⟩
  · rw [map_congr_left hdelta]
    exact h.bound
  · rw [hdelta r (mem_of_mem_head? hr)]
    exact h.first r hr
  · rw [hother r (hmem r hr)]
    exact h.set r hr
  · by_cases hrt : r = t
    · rw [hrt, show (s.timerInit t proc expires).timers t = _ from update_self ..] at hp
      exact hproc p hp
    · rw [hother r hrt] at hp
      exact h.proc r (hr.resolve_right hrt) p hp
  · funext r
    rw [timesLeft, timesLeft, countdown, countdown, due_congr hdelta]

/-! ### `add_timer` -/

/-- What the loop of `add_timer` does, when it has passed `us`: it passes `vs` as well, and
the timer is added before `zs`. -/
structure AddedFrom (s s' : Sched) (inited : TimerId → Prop) (us : List TimerId) (t : TimerId)
    (vs zs : List TimerId) : Prop where
  rest : s' = s.withTimers s'.timerList s'.timers
  listed : Listed s'.timerList (us ++ vs ++ t :: zs) inited
  sum : (vs.map (deltas s.timers)).sum + deltas s'.timers t = deltas s.timers t
  other : ∀ r, r ≠ t → r ∉ zs → s'.timers r = s.timers r
  pays : Shifted (deltas s'.timers t) (deltas s'.timers) (deltas s.timers) zs
  proc : ∀ r, (s'.timers r).proc = (s.timers r).proc

theorem exists_expires (s : Sched) (w : TimerId) (x : BitVec 32) :
    ∃ f, f = update s.timers w { s.timers w with expires := x } ∧
      (∀ r, r ≠ w → f r = s.timers r) ∧ f w = { s.timers w with expires := x } ∧
      ∀ r, (f r).proc = (s.timers r).proc := by
  refine ⟨_, rfl, fun r hr => update_of_ne hr .., update_self .., fun r => ?_⟩
  by_cases hr : r = w
  · rw [hr, update_self]
  · rw [update_of_ne hr]

theorem addTimerFrom_spec (hl : Listed s.timerList (us ++ ws) inited) (ht : t ∉ us ++ ws) :
    Ensures (fun e => e = .outOfFuel ∧ fuel ≤ ws.length)
      (fun s' => ∃ vs zs, ws = vs ++ zs ∧ AddedFrom s s' inited us t vs zs)
      (addTimerFrom t fuel s ((ws.map .entry).headD .head)) := by
  induction fuel generalizing ws us s with
  | zero => exact ⟨rfl, Nat.zero_le _⟩
  | succ fuel ih =>
  cases ws with
  | nil =>
    refine ⟨[], [], rfl, rfl, ?_, ?_, fun _ _ _ => rfl, trivial, fun _ => rfl⟩
    · rw [append_nil]
      exact hl.add ht
    · rw [map_nil, sum_nil, Nat.zero_add]
  | cons w ws =>
    have hwin : w ∈ us ++ w :: ws := mem_append_right us mem_cons_self
    have hwt : w ≠ t := fun heq => ht (heq ▸ hwin)
    have hnd := (nodup_append.mp hl.nodup).2.1
    rw [map_cons, headD_cons, addTimerFrom]
    dsimp only
    split
    · next hlt =>
      -- the timer goes before `w`, which pays for it
      obtain ⟨f, hf, hother, hself, hproc⟩ :=
        s.exists_expires w ((s.timers w).expires - (s.timers t).expires)
      rw [setTimer, ← hf]
      refine ⟨[], w :: ws, rfl, rfl, ?_, ?_,
        fun r _ hr => hother r fun heq => hr (heq ▸ mem_cons_self),
        ⟨?_, fun z hz => ?_⟩, hproc⟩
      · rw [append_nil]
        exact hl.add ht
      · show _ + deltas f t = deltas s.timers t
        rw [map_nil, sum_nil, Nat.zero_add, deltas, deltas, hother t hwt.symm]
      · show deltas s.timers w = deltas f w + deltas f t
        rw [deltas, deltas, deltas, hself, hother t hwt.symm,
          BitVec.toNat_sub_of_le (BitVec.le_of_lt hlt)]
        have := BitVec.lt_def.mp hlt
        omega
      · have hzw : z ≠ w := fun heq => (nodup_cons.mp hnd).1 (heq ▸ hz)
        show deltas s.timers z = deltas f z
        rw [deltas, deltas, hother z hzw]
    · next hle =>
      -- the timer pays for `w` and goes on
      obtain ⟨f, hf, hother, hself, hproc⟩ :=
        s.exists_expires t ((s.timers t).expires - (s.timers w).expires)
      have hdelta : ∀ r, r ≠ t → deltas f r = deltas s.timers r := fun r hr => by
        rw [deltas, deltas, hother r hr]
      rw [setTimer, ← hf]
      dsimp only
      rw [hl.next_entry]
      refine (@ih { s with timers := f } (us ++ [w]) ws ?_ ?_).mono
        (fun e he => ⟨he.1, Nat.succ_le_succ he.2⟩) ?_
      · rw [append_assoc]
        exact hl
      · rw [append_assoc]
        exact ht
      rintro s' ⟨vs, zs, rfl, hrest, hl', hsum, hf', hsh, hproc'⟩
      have htv : ∀ v ∈ vs ++ zs, v ≠ t := fun v hv heq =>
        ht (heq ▸ mem_append_right us (mem_cons_of_mem w hv))
      refine ⟨w :: vs, zs, rfl, hrest, ?_, ?_, fun r hr hz => ?_, ?_,
        fun r => (hproc' r).trans (hproc r)⟩
      · rw [append_assoc us, singleton_append] at hl'
        exact hl'
      · have hvs : vs.map (deltas s.timers) = vs.map (deltas f) := map_congr_left fun v hv =>
          (hdelta v (htv v (mem_append_left zs hv))).symm
        have hle := BitVec.not_lt.mp hle
        have hsub : deltas f t = deltas s.timers t - deltas s.timers w := by
          rw [deltas, hself]
          exact BitVec.toNat_sub_of_le hle
        have hle : deltas s.timers w ≤ deltas s.timers t := hle
        rw [map_cons, sum_cons, hvs]
        dsimp only at hsum
        omega
      · exact (hf' r hr hz).trans (hother r hr)
      · exact hsh.congr fun z hz => (hdelta z (htv z (mem_append_right vs hz))).symm

theorem AddedFrom.wedged (h : AddedFrom s s' inited [] t vs zs) :
    Wedged (deltas s.timers) (deltas s'.timers) vs t zs := by
  have hnd := h.listed.nodup
  have hfresh := (nodup_cons.mp (nodup_middle.mp hnd)).1
  refine ⟨hfresh, fun x hx => ?_, h.pays⟩
  have hxt : x ≠ t := fun heq => hfresh (heq ▸ mem_append_left zs hx)
  have hxz : x ∉ zs := fun hz =>
    (nodup_append.mp hnd).2.2 x hx x (mem_cons_of_mem t hz) rfl
  rw [deltas, deltas, h.other x hxt hxz]

/-- `add_timer` starts the countdown of the timer at its `expires`. -/
theorem addTimer_spec (h : Timed s alive inited ts) (ht : inited t) (fuel : Nat) :
    Ensures (fun e => e = .timerUnset ∧ ¬((s.timers t).expires > 0 ∧ (s.timers t).proc ≠ none) ∨
        e = .timerLinked ∧ t ∈ ts ∨ e = .outOfFuel ∧ fuel ≤ ts.length)
      (fun s' => s' = s.withTimers s'.timerList s'.timers ∧ 0 < deltas s.timers t ∧
        (∀ r, (s'.timers r).proc = (s.timers r).proc) ∧ ∃ ts', Timed s' alive inited ts' ∧
          s'.timesLeft ts' = (s.timesLeft ts).start t (deltas s.timers t))
      (s.addTimer fuel t) := by
  rw [addTimer]
  split
  · next hunset => exact .inl ⟨rfl, hunset⟩
  next hset =>
  obtain ⟨hpos, hproc⟩ := not_not.mp hset
  replace hpos : 0 < deltas s.timers t := BitVec.lt_def.mp hpos
  split
  · next hlinked =>
    exact .inr (.inl ⟨rfl, (h.linked_iff ht).mp (Bool.not_eq_true _ ▸ hlinked)⟩)
  next hempty =>
  have hfresh : t ∉ ts := (h.listed.empty_iff ht).mp (not_not.mp hempty)
  rw [h.listed.next_head]
  refine (@addTimerFrom_spec s inited t [] ts fuel h.listed hfresh).mono
    (fun e he => .inr (.inr he)) ?_
  rintro s' ⟨vs, zs, rfl, hadd⟩
  have hw := hadd.wedged
  have hcount := hw.countdown_eq
  rw [hadd.sum] at hcount
  refine ⟨hadd.rest, hpos, hadd.proc, vs ++ t :: zs, ⟨hadd.listed, ?_, ?_, ?_, ?_, ?_⟩, hcount⟩
  · intro r hr
    rcases mem_cons.mp (perm_middle.mem_iff.mp hr) with rfl | hr
    · exact ht
    · exact h.valid r hr
  · refine hw.le_max.trans_lt (max_lt h.bound ?_)
    rw [hadd.sum]
    exact BitVec.isLt _
  · cases vs with
    | nil =>
      rintro r ⟨⟩
      have := hadd.sum
      rw [map_nil, sum_nil] at this
      omega
    | cons v vs =>
      rintro r ⟨⟩
      rw [hw.before v mem_cons_self]
      exact h.first v rfl
  · intro r hr
    rw [hadd.proc]
    rcases mem_cons.mp (perm_middle.mem_iff.mp hr) with rfl | hr
    · exact hproc
    · exact h.set r hr
  · intro r hr p hp
    rw [hadd.proc] at hp
    exact h.proc r hr p hp

/-! ### `del_timer` -/

/-- A timer that is due is unlinked, and nothing else changes. -/
theorem delTimer_due (hin : listEmpty s.timerList (.entry t) = false)
    (hdue : (s.timers t).expires = 0) :
    s.delTimer t = s.withTimers (listDelInit s.timerList (.entry t)) s.timers := by
  rw [delTimer, hin, if_neg Bool.false_ne_true, if_neg fun hne => hne hdue]
  rfl

/-- A timer is unlinked, and its successor pays for it. -/
theorem delTimer_linked (hl : Listed s.timerList (us ++ t :: ws) inited)
    (hb : ((us ++ t :: ws).map (deltas s.timers)).sum < 2 ^ 32)
    (hin : listEmpty s.timerList (.entry t) = false) :
    ∃ f, s.delTimer t = s.withTimers (listDelInit s.timerList (.entry t)) f ∧
      Wedged (deltas f) (deltas s.timers) us t ws ∧ ∀ r, (f r).proc = (s.timers r).proc := by
  have hnd := hl.nodup
  have hfresh := (nodup_cons.mp (nodup_middle.mp hnd)).1
  have hsame : (s.timers t).expires = 0 ∨ ws = [] →
      Wedged (deltas s.timers) (deltas s.timers) us t ws := by
    refine fun h => ⟨hfresh, fun _ _ => rfl, ?_⟩
    cases ws with
    | nil => trivial
    | cons w ws =>
      have hzero : deltas s.timers t = 0 := by
        rw [deltas, h.resolve_right (cons_ne_nil w ws)]
        rfl
      exact ⟨by rw [hzero]; rfl, fun _ _ => rfl⟩
  by_cases hdue : (s.timers t).expires = 0
  · exact ⟨s.timers, delTimer_due hin hdue, hsame (.inl hdue), fun _ => rfl⟩
  cases ws with
  | nil =>
    refine ⟨s.timers, ?_, hsame (.inr rfl), fun _ => rfl⟩
    rw [delTimer, hin, if_neg Bool.false_ne_true, if_pos hdue, hl.next_entry]
    rfl
  | cons w ws =>
    obtain ⟨f, hf, hother, hself, hproc⟩ :=
      s.exists_expires w ((s.timers w).expires + (s.timers t).expires)
    refine ⟨f, ?_, ⟨hfresh, fun x hx => ?_, ?_, fun z hz => ?_⟩, hproc⟩
    · rw [delTimer, hin, if_neg Bool.false_ne_true, if_pos hdue, hl.next_entry, hf]
      rfl
    · have hxw : x ≠ w := fun heq => (nodup_append.mp hnd).2.2 x hx w
        (mem_cons_of_mem t mem_cons_self) heq
      rw [deltas, deltas, hother x hxw]
    · have hsum : deltas s.timers w + deltas s.timers t < 2 ^ 32 := by
        rw [map_append, sum_append, map_cons, sum_cons, map_cons, sum_cons] at hb
        omega
      rw [deltas, hself]
      exact (BitVec.toNat_add ..).trans (Nat.mod_eq_of_lt hsum)
    · have hzw : z ≠ w := fun heq => by
        have hww := (nodup_cons.mp (nodup_append.mp hnd).2.1).2
        exact (nodup_cons.mp hww).1 (heq ▸ hz)
      rw [deltas, deltas, hother z hzw]

/-- `del_timer` cancels the countdown of the timer. -/
theorem delTimer_spec (h : Timed s alive inited ts) (ht : inited t) :
    s.delTimer t = s.withTimers (s.delTimer t).timerList (s.delTimer t).timers ∧
      (∀ r, ((s.delTimer t).timers r).proc = (s.timers r).proc) ∧ ∃ ts', Timed (s.delTimer t) alive inited ts' ∧
        (s.delTimer t).timesLeft ts' = (s.timesLeft ts).cancel t := by
  by_cases hin : t ∈ ts
  · have hlinked := (h.linked_iff ht).mpr hin
    obtain ⟨us, ws, rfl⟩ := append_of_mem hin
    obtain ⟨f, heq, hw, hproc⟩ := delTimer_linked h.listed h.bound hlinked
    have hmem : ∀ r ∈ us ++ ws, r ∈ us ++ t :: ws := fun r hr =>
      perm_middle.mem_iff.mpr (mem_cons_of_mem t hr)
    rw [heq]
    refine ⟨rfl, hproc, us ++ ws, ⟨h.listed.remove, fun r hr => h.valid r (hmem r hr),
      hw.sum_le.trans_lt h.bound, ?_, fun r hr => ?_, fun r hr p hp => ?_⟩,
      hw.countdown_cancel⟩
    · show ∀ r ∈ (us ++ ws).head?, 0 < deltas f r
      cases us with
      | cons u us =>
        rintro r ⟨⟩
        rw [← hw.before u mem_cons_self]
        exact h.first u rfl
      | nil =>
        cases ws with
        | nil => exact nofun
        | cons w ws =>
          rintro r ⟨⟩
          rw [hw.after.1]
          exact Nat.add_pos_right _ (h.first t rfl)
    · show (f r).proc ≠ none
      rw [hproc]
      exact h.set r (hmem r hr)
    · exact h.proc r hr p ((hproc r).symm.trans hp)
  · have hempty : listEmpty s.timerList (.entry t) = true := (h.listed.empty_iff ht).mpr hin
    have hnone : s.timesLeft ts t = none := if_neg hin
    rw [delTimer, if_pos hempty]
    refine ⟨rfl, fun _ => rfl, ts, h, ?_⟩
    rw [Countdown.cancel, ← hnone, Function.update_eq_self]

/-! ### `run_timer_list` -/

/-- A timer of this process can fire. -/
def Wakeable (s : Sched) (p : ProcId) : Prop := (s.procs p).state ≠ .zombie ∧
  ((s.procs p).waitState = 0 ∨ (s.procs p).waitState &&& wtInterrupted ≠ 0)

instance (s : Sched) (p : ProcId) : Decidable (s.Wakeable p) := inferInstanceAs (Decidable (_ ∧ _))

/-- The processes of the timers `vs` have been woken; the others are as they were. -/
structure Fired (s s' : Sched) (vs : List TimerId) : Prop where
  timers : s'.timers = s.timers
  current : s'.current = s.current
  idleproc : s'.idleproc = s.idleproc
  woken : ∀ v ∈ vs, ∀ p, (s.timers v).proc = some p → (s'.procs p).state = .runnable
  other : ∀ p, (∀ v ∈ vs, (s.timers v).proc ≠ some p) →
    (s'.procs p).state = (s.procs p).state
  state : ∀ p, (s'.procs p).state = (s.procs p).state ∨ (s'.procs p).state = .runnable
  waitState : ∀ p, (s'.procs p).waitState = (s.procs p).waitState ∨ (s'.procs p).waitState = 0

theorem Fired.refl (s : Sched) : Fired s s [] :=
  ⟨rfl, rfl, rfl, nofun, fun _ _ => rfl, fun _ => .inl rfl, fun _ => .inl rfl⟩

theorem Fired.trans {s₁ : Sched} (h : Fired s s₁ us) (h' : Fired s₁ s' vs) :
    Fired s s' (us ++ vs) := by
  refine ⟨h'.timers.trans h.timers, h'.current.trans h.current, h'.idleproc.trans h.idleproc,
    fun v hv p hp => ?_, fun p hp => ?_, fun p => ?_, fun p => ?_⟩
  · rcases mem_append.mp hv with hv | hv
    · rcases h'.state p with hst | hst
      · rw [hst, h.woken v hv p hp]
      · exact hst
    · exact h'.woken v hv p (h.timers ▸ hp)
  · rw [h'.other p fun v hv => h.timers ▸ hp v (mem_append_right us hv),
      h.other p fun v hv => hp v (mem_append_left vs hv)]
  · rcases h'.state p with hst | hst
    · rw [hst]
      exact h.state p
    · exact .inr hst
  · rcases h'.waitState p with hst | hst
    · rw [hst]
      exact h.waitState p
    · exact .inr hst

theorem Fired.wakeable (h : Fired s s' vs) (hp : s.Wakeable p) : s'.Wakeable p := by
  refine ⟨?_, ?_⟩
  · rcases h.state p with hst | hst
    · rw [hst]
      exact hp.1
    · rw [hst]
      nofun
  · rcases h.waitState p with hw | hw
    · rw [hw]
      exact hp.2
    · exact .inl hw

/-- The process of a timer cannot be woken, and the kernel stops. -/
def Stuck (s : Sched) (e : SchedStop) (t : TimerId) : Prop :=
  (e = .wakeupZombie ∨ e = .timerWait) ∧ ∃ p, (s.timers t).proc = some p ∧ ¬s.Wakeable p

/-- A timer that is due, at the front of the list, fires. -/
theorem fireTimer_spec (hl : Listed s.timerList (t :: ws) inited)
    (hq : Queued s alive xs) (hin : listEmpty s.timerList (.entry t) = false)
    (hproc : (s.timers t).proc = some p) (hp : alive p) (hdue : (s.timers t).expires = 0) :
    Ensures (fun e => s.Stuck e t)
      (fun s' => Listed s'.timerList ws inited ∧ Fired s s' [t] ∧ ∃ ys, Queued s' alive ys)
      (s.fireTimer t) := by
  rw [fireTimer, hproc]
  dsimp only
  by_cases hwait : (s.procs p).waitState ≠ 0 ∧ (s.procs p).waitState &&& wtInterrupted = 0
  · rw [if_pos hwait]
    exact ⟨.inr rfl, p, hproc, fun hw => hw.2.elim hwait.1 fun hne => hne hwait.2⟩
  rw [if_neg hwait]
  refine Ensures.bind ((wakeupProc_spec hq hp).mono
    (fun e he => ⟨.inl he.1, p, hproc, fun hw => hw.1 he.2⟩) fun _ h => h) ?_
  rintro s₁ ⟨hwoken, ys, hq₁⟩
  have hdel : s₁.delTimer t = s₁.withTimers (listDelInit s.timerList (.entry t)) s₁.timers := by
    rw [← hwoken.timerList]
    exact delTimer_due (hwoken.timerList ▸ hin) (hwoken.timers ▸ hdue)
  have hfront : Listed s.timerList ([] ++ t :: ws) inited := hl
  rw [hdel]
  refine ⟨hfront.remove, ⟨hwoken.timers, hwoken.current, hwoken.idleproc, fun v hv q hvq => ?_,
    fun q hne => ?_, fun q => ?_, hwoken.waitState⟩, ys, hq₁.withTimers _ _⟩
  · rw [mem_singleton.mp hv, hproc] at hvq
    cases hvq
    exact (hwoken.state p).trans (if_pos rfl)
  · have hqp : q ≠ p := fun heq => hne t mem_cons_self (heq ▸ hproc)
    exact (hwoken.state q).trans (if_neg hqp)
  · show (s₁.procs q).state = _ ∨ (s₁.procs q).state = _
    rw [hwoken.state]
    split
    · exact .inr rfl
    · exact .inl rfl

/-- The loop of `run_timer_list` fires the timers at the front that are due. -/
theorem fireTimersFrom_spec (hl : Listed s.timerList (t :: ws) inited)
    (hq : Queued s alive xs) (hvalid : ∀ r ∈ t :: ws, inited r)
    (hproc : ∀ r ∈ t :: ws, ∃ p, (s.timers r).proc = some p ∧ alive p) :
    Ensures (fun e => e = .outOfFuel ∧ fuel ≤ (t :: ws).length ∨
        ∃ r ∈ t :: ws, due (deltas s.timers) (t :: ws) r = 0 ∧ s.Stuck e r)
      (fun s' => ∃ vs zs, t :: ws = vs ++ zs ∧ (∀ v ∈ vs, deltas s.timers v = 0) ∧
        (∀ z ∈ zs.head?, 0 < deltas s.timers z) ∧ Listed s'.timerList zs inited ∧
        Fired s s' vs ∧ ∃ ys, Queued s' alive ys)
      (fireTimersFrom fuel s t) := by
  induction fuel generalizing s t ws xs with
  | zero => exact .inl ⟨rfl, Nat.zero_le _⟩
  | succ fuel ih =>
  rw [fireTimersFrom]
  split
  · next hdue =>
    have hzero : deltas s.timers t = 0 := congrArg BitVec.toNat hdue
    obtain ⟨p, hp, hpa⟩ := hproc t mem_cons_self
    have hin : listEmpty s.timerList (.entry t) = false := by
      rw [← Bool.not_eq_true, hl.empty_iff (hvalid t mem_cons_self)]
      exact fun hne => hne mem_cons_self
    have hfront : Listed s.timerList ([] ++ t :: ws) inited := hl
    have hnext := hfront.next_entry
    refine Ensures.bind ((fireTimer_spec hl hq hin hp hpa hdue).mono
      (fun e he => .inr ⟨t, mem_cons_self, ?_, he⟩) fun _ h => h) ?_
    · rw [due, if_pos rfl, hzero]
    rintro s₁ ⟨hl₁, hfired, ys, hq₁⟩
    rw [hnext]
    cases ws with
    | nil =>
      exact ⟨[t], [], rfl, fun v hv => mem_singleton.mp hv ▸ hzero, by rintro z ⟨⟩, hl₁, hfired, ys, hq₁⟩
    | cons w ws =>
      have htw : ∀ r ∈ w :: ws, t ≠ r := fun r hr heq =>
        (nodup_cons.mp hl.nodup).1 (heq ▸ hr)
      refine (ih hl₁ hq₁ (fun r hr => hvalid r (mem_cons_of_mem t hr))
        (fun r hr => hfired.timers ▸ hproc r (mem_cons_of_mem t hr))).mono ?_ ?_
      · rintro e (⟨rfl, hle⟩ | ⟨r, hr, hdue', hstuck⟩)
        · exact .inl ⟨rfl, Nat.succ_le_succ hle⟩
        · rw [hfired.timers] at hdue'
          refine .inr ⟨r, mem_cons_of_mem t hr, ?_, hstuck.1, ?_⟩
          · rw [due, if_neg (htw r hr), hzero, hdue']
          · obtain ⟨q, hqr, hnw⟩ := hstuck.2
            exact ⟨q, hfired.timers ▸ hqr, fun hw => hnw (hfired.wakeable hw)⟩
      · rintro s₂ ⟨vs, zs, heq, hvs, hzs, hl₂, hfired₂, hq₂⟩
        rw [hfired.timers] at hvs hzs
        refine ⟨t :: vs, zs, by rw [heq]; rfl, ?_, hzs, hl₂, hfired.trans hfired₂, hq₂⟩
        intro v hv
        rcases mem_cons.mp hv with rfl | hv
        · exact hzero
        · exact hvs v hv
  · next hdue =>
    refine ⟨[], t :: ws, rfl, forall_mem_nil _, ?_, hl, .refl s, xs, hq⟩
    rintro z ⟨⟩
    exact Nat.pos_of_ne_zero fun hz => hdue (BitVec.eq_of_toNat_eq hz)

/-- The clock tick itself only concerns the time slice of a process. -/
theorem schedClassProcTick_spec (hq : Queued s alive xs) (p : ProcId) :
    Queued (s.schedClassProcTick p) alive xs ∧ Kept s (s.schedClassProcTick p) := by
  rw [schedClassProcTick]
  split
  · rw [rrProcTick]
    split <;> split <;> exact hq.touch rfl rfl rfl rfl
  · exact hq.touch rfl rfl rfl rfl

/-- `run_timer_list` is a tick of the countdown: the timers with one tick left fire, and their
processes are woken. -/
structure Ticked (s s' : Sched) (ts ts' : List TimerId) : Prop where
  left : s'.timesLeft ts' = (s.timesLeft ts).tick
  proc : ∀ t, (s'.timers t).proc = (s.timers t).proc
  current : s'.current = s.current
  idleproc : s'.idleproc = s.idleproc
  woken : ∀ t p, s.timesLeft ts t = some 1 → (s.timers t).proc = some p →
    (s'.procs p).state = .runnable
  other : ∀ p, (∀ t, s.timesLeft ts t = some 1 → (s.timers t).proc ≠ some p) →
    (s'.procs p).state = (s.procs p).state

theorem Timed.timesLeft_pos (h : Timed s alive inited ts) {n : Nat}
    (hn : s.timesLeft ts t = some n) : 0 < n := by
  rw [timesLeft, countdown] at hn
  split at hn
  · next hin =>
    cases hn
    exact due_pos h.first hin
  · cases hn

/-- The timers that fire are those with one tick left. -/
theorem timesLeft_eq_one_iff {e : TimerId → Nat} (h : Timed s alive inited (vs ++ zs))
    (htick : countdown e zs = (s.timesLeft (vs ++ zs)).tick) :
    s.timesLeft (vs ++ zs) t = some 1 ↔ t ∈ vs := by
  have hz : (s.timesLeft (vs ++ zs)).tick t = none ↔ t ∉ zs := by
    rw [← htick, countdown]
    split
    · next hin => exact ⟨fun heq => absurd heq (Option.some_ne_none _), fun hne => absurd hin hne⟩
    · next hin => exact ⟨fun _ => hin, fun _ => rfl⟩
  constructor
  · intro h1
    have hin := timesLeft_ne_none_iff.mp (h1 ▸ Option.some_ne_none 1)
    have hnone : (s.timesLeft (vs ++ zs)).tick t = none := by
      rw [Countdown.tick, h1]
      rfl
    exact (mem_append.mp hin).resolve_right (hz.mp hnone)
  · intro hv
    obtain ⟨n, hn⟩ := Option.ne_none_iff_exists'.mp
      (timesLeft_ne_none_iff (s := s).mpr (mem_append_left zs hv))
    have hnz : t ∉ zs := fun hin => (nodup_append.mp h.nodup).2.2 t hv t hin rfl
    have hnone := hz.mpr hnz
    rw [Countdown.tick, hn] at hnone
    rw [hn, (Countdown.less_eq_none_iff (h.timesLeft_pos hn)).mp hnone]

/-- `run_timer_list` but for the time slice. -/
theorem fireTimers_spec (hq : Queued s alive xs) (h : Timed s alive inited ts) (fuel : Nat) :
    Ensures (fun e => e = .outOfFuel ∧ fuel ≤ ts.length ∨
        ∃ t, s.timesLeft ts t = some 1 ∧ s.Stuck e t)
      (fun s' => ∃ ts', Timed s' alive inited ts' ∧ Ticked s s' ts ts' ∧ ∃ ys, Queued s' alive ys)
      (s.fireTimers fuel) := by
  rw [fireTimers, h.listed.next_head]
  cases ts with
  | nil =>
    exact ⟨[], h, ⟨rfl, fun _ => rfl, rfl, rfl, nofun, fun _ _ => rfl⟩, xs, hq⟩
  | cons t ws =>
    have hpos : 0 < deltas s.timers t := h.first t rfl
    have hne : (s.timers t).expires ≠ 0 := fun heq => by
      rw [deltas, heq] at hpos
      exact absurd hpos (Nat.lt_irrefl 0)
    obtain ⟨s₀, hs₀⟩ : ∃ s₀, s₀ = s.setTimer t { s.timers t with
      expires := (s.timers t).expires - 1 } := ⟨_, rfl⟩
    have hother : ∀ r, r ≠ t → s₀.timers r = s.timers r :=
      fun r hr => hs₀ ▸ update_of_ne hr ..
    have hself : s₀.timers t = { s.timers t with expires := (s.timers t).expires - 1 } :=
      hs₀ ▸ update_self ..
    have hproc : ∀ r, (s₀.timers r).proc = (s.timers r).proc := fun r => by
      by_cases hrt : r = t
      · rw [hrt, hself]
      · rw [hother r hrt]
    have hshift : Shifted 1 (deltas s₀.timers) (deltas s.timers) (t :: ws) := by
      refine ⟨?_, fun z hz => ?_⟩
      · have hsub : deltas s₀.timers t = deltas s.timers t - 1 := by
          rw [deltas, hself]
          exact BitVec.toNat_sub_of_le (BitVec.le_def.mpr hpos)
        omega
      · have hzt : z ≠ t := fun heq => (nodup_cons.mp h.nodup).1 (heq ▸ hz)
        rw [deltas, deltas, hother z hzt]
    have hq₀ : Queued s₀ alive xs := by
      rw [hs₀]
      exact hq.withTimers _ _
    have hset : ∀ r ∈ t :: ws, ∃ p, (s₀.timers r).proc = some p ∧ alive p := fun r hr => by
      obtain ⟨p, hp⟩ := Option.ne_none_iff_exists'.mp (h.set r hr)
      exact ⟨p, (hproc r).trans hp, h.proc r (h.valid r hr) p hp⟩
    have hl₀ : Listed s₀.timerList (t :: ws) inited := by
      rw [hs₀]
      exact h.listed
    rw [map_cons, headD_cons]
    dsimp only
    rw [if_neg hne, ← hs₀]
    refine (fireTimersFrom_spec hl₀ hq₀ h.valid hset).mono ?_ ?_
    · rintro e (hfuel | ⟨r, hr, hdue, hstuck, p, hp, hnw⟩)
      · exact .inl hfuel
      · refine .inr ⟨r, (if_pos hr).trans ?_, hstuck, p, (hproc r).symm.trans hp, ?_⟩
        · rw [hshift.due_eq hr, hdue]
        · rw [hs₀] at hnw
          exact hnw
    · rintro s₁ ⟨vs, zs, heq, hvs, hzs, hl₁, hfired, hq₁⟩
      have hnd := h.nodup
      rw [heq] at h hnd hshift
      have htick := countdown_tick hnd hshift hvs hzs
      have hone : ∀ r, s.timesLeft (vs ++ zs) r = some 1 ↔ r ∈ vs := fun r =>
        timesLeft_eq_one_iff h htick
      have hsum : (zs.map (deltas s₀.timers)).sum ≤ ((vs ++ zs).map (deltas s.timers)).sum := by
        rw [hshift.sum_eq (heq ▸ cons_ne_nil t ws), map_append, sum_append]
        omega
      rw [heq]
      refine ⟨zs, ⟨hl₁, fun r hr => h.valid r (mem_append_right vs hr), ?_, ?_,
        fun r hr => ?_, fun r hr p hp => ?_⟩, ⟨?_, fun r => ?_, ?_, ?_, fun r p hr hp => ?_,
        fun p hp => ?_⟩, hq₁⟩
      · rw [hfired.timers]
        exact hsum.trans_lt h.bound
      · rw [hfired.timers]
        exact hzs
      · rw [hfired.timers, hproc]
        exact h.set r (mem_append_right vs hr)
      · rw [hfired.timers, hproc] at hp
        exact h.proc r hr p hp
      · rw [timesLeft, hfired.timers]
        exact htick
      · rw [hfired.timers, hproc]
      · rw [hfired.current, hs₀]
        rfl
      · rw [hfired.idleproc, hs₀]
        rfl
      · exact hfired.woken r ((hone r).mp hr) p ((hproc r).trans hp)
      · have hsame := hfired.other p fun v hv hvp =>
          hp v ((hone v).mpr hv) ((hproc v).symm.trans hvp)
        rw [hsame, hs₀]
        rfl

/-- `run_timer_list` stops only for a process that cannot be woken, when the timer of that
process is due; `fuel` has to cover the timers on the list. -/
theorem runTimerList_spec (hq : Queued s alive xs) (h : Timed s alive inited ts) (fuel : Nat) :
    Ensures (fun e => e = .outOfFuel ∧ fuel ≤ ts.length ∨
        ∃ t, s.timesLeft ts t = some 1 ∧ s.Stuck e t)
      (fun s' => ∃ ts', Timed s' alive inited ts' ∧ Ticked s s' ts ts' ∧ ∃ ys, Queued s' alive ys)
      (s.runTimerList fuel) := by
  refine Ensures.bind (fireTimers_spec hq h fuel) ?_
  rintro s₁ ⟨ts', htimed, hticked, ys, hq₁⟩
  obtain ⟨hq', hst, hbut, hcur⟩ := schedClassProcTick_spec hq₁ s₁.current
  refine ⟨ts', htimed.congr hbut.timerList hbut.timers, ⟨?_, fun t => ?_, ?_, ?_,
    fun t p ht hp => ?_, fun p hp => ?_⟩, ys, hq'⟩
  · rw [timesLeft_congr hbut.timers, hticked.left]
  · rw [hbut.timers, hticked.proc]
  · rw [hcur, hticked.current]
  · rw [hbut.idleproc, hticked.idleproc]
  · rw [(hst p).1, hticked.woken t p ht hp]
  · rw [(hst p).1, hticked.other p hp]

end Sched

end UcoreMips.Kernel
