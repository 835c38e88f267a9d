import UcoreMips.Lib.Kin
import UcoreMips.Kernel.Process.Table

/-!
# UcoreMips.Kernel.Process.Tree

**The process tree.** What `do_fork`, `do_exit` and `do_wait` do to the pointers between processes
(`Sched.kin`), and to the fields by which a process is waited for (`SameVitals`, `Roused`).
-/

namespace UcoreMips.Kernel

open UcoreMips.Lib Except
open Function (update update_of_ne update_self)

namespace Sched

variable {s t u : Sched} {p q r : ProcId}

/-- The pointers between the processes. -/
def kin (s : Sched) : Kin ProcId where
  parent p := (s.procs p).parent
  first p := (s.procs p).cptr
  younger p := (s.procs p).yptr
  older p := (s.procs p).optr

theorem kin_setProc (s : Sched) (p : ProcId) (q : Proc) :
    (s.setProc p q).kin =
      ⟨update s.kin.parent p q.parent, update s.kin.first p q.cptr,
        update s.kin.younger p q.yptr, update s.kin.older p q.optr⟩ := by
  have hfield : ∀ {β : Type} (f : Proc → β),
      (fun r => f ((s.setProc p q).procs r)) = update (fun r => f (s.procs r)) p (f q) := by
    intro β f
    funext r
    by_cases hr : r = p
    · simp [hr]
    · simp [setProc_of_ne s q hr, hr]
  simp only [kin, hfield]

/-- Another change of a process. -/
theorem kin_setProc_same {q : Proc} (h : q.parent = (s.procs p).parent ∧ q.cptr = (s.procs p).cptr ∧
    q.yptr = (s.procs p).yptr ∧ q.optr = (s.procs p).optr) : (s.setProc p q).kin = s.kin := by
  rw [kin_setProc, h.1, h.2.1, h.2.2.1, h.2.2.2]
  simp [kin]

@[simp] theorem kin_setParent (s : Sched) (p q : ProcId) :
    (s.setParent p q).kin = s.kin.setParent p (some q) := by
  rw [setParent, kin_setProc]
  simp [Kin.setParent, kin]

@[simp] theorem kin_setCptr (s : Sched) (p : ProcId) (c : Option ProcId) :
    (s.setCptr p c).kin = s.kin.setFirst p c := by
  rw [setCptr, kin_setProc]
  simp [Kin.setFirst, kin]

@[simp] theorem kin_setYptr (s : Sched) (p : ProcId) (y : Option ProcId) :
    (s.setYptr p y).kin = { s.kin with younger := update s.kin.younger p y } := by
  rw [setYptr, kin_setProc]
  simp [kin]

@[simp] theorem kin_setOptr (s : Sched) (p : ProcId) (o : Option ProcId) :
    (s.setOptr p o).kin = { s.kin with older := update s.kin.older p o } := by
  rw [setOptr, kin_setProc]
  simp [kin]

@[simp] theorem kin_allocProc (s : Sched) (p : ProcId) : (s.allocProc p).kin = s.kin.clear p := by
  exact kin_setProc s p .zero

theorem kin_linkChild (s : Sched) (p q : ProcId) : (s.linkChild p q).kin = s.kin.link p q := by
  have hoptr : (((s.setYptr p none).setOptr p (s.procs q).cptr).procs p).optr = (s.procs q).cptr :=
    congrArg Proc.optr (setProc_self ..)
  rw [linkChild, hoptr]
  cases hc : (s.procs q).cptr with
  | none =>
    have hfirst : s.kin.first q = none := hc
    simp [Kin.link, Kin.setFirst, hfirst, Siblings.setYounger]
  | some o =>
    have hfirst : s.kin.first q = some o := hc
    simp [Kin.link, Kin.setFirst, hfirst, Siblings.setYounger]

/-! ### What is known about a process -/

/-- The fields by which a process is waited for are as they were. -/
def SameVitals (s t : Sched) (r : ProcId) : Prop :=
  (t.procs r).state = (s.procs r).state ∧ (t.procs r).waitState = (s.procs r).waitState ∧
    (t.procs r).exitCode = (s.procs r).exitCode

/-- They are as they were, or the process has been woken. -/
def Roused (s t : Sched) (r : ProcId) : Prop :=
  SameVitals s t r ∨ (t.procs r).state = .runnable ∧
    (t.procs r).exitCode = (s.procs r).exitCode ∧ (s.procs r).state ≠ .zombie

theorem SameVitals.refl (s : Sched) (r : ProcId) : SameVitals s s r := ⟨rfl, rfl, rfl⟩

theorem SameVitals.trans (h : SameVitals s t r) (h' : SameVitals t u r) : SameVitals s u r :=
  ⟨h'.1.trans h.1, h'.2.1.trans h.2.1, h'.2.2.trans h.2.2⟩

theorem Roused.zombie_iff (h : Roused s t r) :
    (t.procs r).state = .zombie ↔ (s.procs r).state = .zombie := by
  rcases h with h | ⟨hrun, -, hz⟩
  · rw [h.1]
  · simp [hrun, hz]

theorem Roused.exitCode (h : Roused s t r) : (t.procs r).exitCode = (s.procs r).exitCode := by
  rcases h with h | h
  · exact h.2.2
  · exact h.2.1

theorem Roused.runnable (h : Roused s t r) (hr : (s.procs r).state = .runnable) :
    (t.procs r).state = .runnable := by
  rcases h with h | h
  · exact h.1.trans hr
  · exact h.1

theorem Roused.trans (h : Roused s t r) (h' : Roused t u r) : Roused s u r := by
  rcases h' with h' | ⟨hrun, hcode, hz⟩
  · rcases h with h | ⟨hrun, hcode, hz⟩
    · exact .inl (h.trans h')
    · exact .inr ⟨h'.1.trans hrun, h'.2.2.trans hcode, hz⟩
  · exact .inr ⟨hrun, hcode.trans h.exitCode, fun heq => hz (h.zombie_iff.mpr heq)⟩

/-- A process that sleeps afterwards has not been woken. -/
theorem Roused.of_sleeping (h : Roused s t r) (hs : (t.procs r).state = .sleeping) :
    SameVitals s t r := by
  rcases h with h | ⟨hrun, -⟩
  · exact h
  · rw [hs] at hrun
    cases hrun

theorem sameVitals_setProc {q : Proc} (h : q.state = (s.procs p).state ∧
    q.waitState = (s.procs p).waitState ∧ q.exitCode = (s.procs p).exitCode) (r : ProcId) :
    SameVitals s (s.setProc p q) r := by
  by_cases hr : r = p
  · rw [hr, SameVitals, setProc_self]
    exact h
  · rw [SameVitals, setProc_of_ne s q hr]
    exact ⟨rfl, rfl, rfl⟩

theorem sameVitals_setParent (s : Sched) (p q r : ProcId) : SameVitals s (s.setParent p q) r := by
  refine sameVitals_setProc ?_ r
  exact ⟨rfl, rfl, rfl⟩

theorem sameVitals_setCptr (s : Sched) (p : ProcId) (c : Option ProcId) (r : ProcId) :
    SameVitals s (s.setCptr p c) r := by
  refine sameVitals_setProc ?_ r
  exact ⟨rfl, rfl, rfl⟩

theorem sameVitals_setYptr (s : Sched) (p : ProcId) (y : Option ProcId) (r : ProcId) :
    SameVitals s (s.setYptr p y) r := by
  refine sameVitals_setProc ?_ r
  exact ⟨rfl, rfl, rfl⟩

theorem sameVitals_setOptr (s : Sched) (p : ProcId) (o : Option ProcId) (r : ProcId) :
    SameVitals s (s.setOptr p o) r := by
  refine sameVitals_setProc ?_ r
  exact ⟨rfl, rfl, rfl⟩

theorem sameVitals_linkChild (s : Sched) (p q r : ProcId) : SameVitals s (s.linkChild p q) r := by
  have hfirst := (sameVitals_setYptr s p none r).trans (sameVitals_setOptr _ p (s.procs q).cptr r)
  rw [linkChild]
  split
  · exact hfirst.trans (sameVitals_setCptr ..)
  · exact (hfirst.trans (sameVitals_setYptr ..)).trans (sameVitals_setCptr ..)

theorem linkChild_same (s : Sched) (p q : ProcId) :
    (s.linkChild p q).current = s.current ∧ SameBut s (s.linkChild p q) := by
  rw [linkChild]
  split <;> exact ⟨rfl, rfl, rfl, rfl, rfl⟩

theorem Alike.kin_eq (h : ∀ r, Alike (s.procs r) (t.procs r)) : t.kin = s.kin := by
  have hfield : ∀ {β : Type} (f : Proc → β), (∀ a b, Alike a b → f b = f a) →
      (fun r => f (t.procs r)) = fun r => f (s.procs r) := fun f hf => funext fun r => hf _ _ (h r)
  unfold kin
  congr 1 <;> exact hfield _ fun a b hab => by rw [hab]

theorem Alike.sameVitals (h : Alike (s.procs r) (t.procs r)) : SameVitals s t r := by
  refine ⟨?_, ?_, ?_⟩ <;> rw [h]

theorem schedule_kin (h : s.schedule = .ok t) : t.kin = s.kin := Alike.kin_eq (schedule_procs h)

theorem schedule_sameVitals (h : s.schedule = .ok t) (r : ProcId) : SameVitals s t r :=
  (schedule_procs h r).sameVitals

section WakeupProc

variable (h : s.wakeupProc p = .ok t)

include h

/-- `wakeup_proc` leaves the tree alone, and all processes but one. -/
theorem wakeupProc_kin : t.kin = s.kin := by
  by_cases hp : (s.procs p).state = .runnable
  · rw [wakeupProc_runnable hp] at h
    rw [ok.inj h]
  obtain ⟨hothers, halike⟩ := wakeupProc_procs h hp
  have hfield : ∀ {β : Type} (f : Proc → β),
      f (t.procs p) = f (s.procs p) → (fun r => f (t.procs r)) = fun r => f (s.procs r) := by
    intro β f hf
    funext r
    by_cases hr : r = p
    · rw [hr, hf]
    · rw [hothers r hr]
  unfold kin
  congr 1 <;> exact hfield _ (by rw [halike])

theorem wakeupProc_woken :
    (t.procs p).state = .runnable ∧ (t.procs p).exitCode = (s.procs p).exitCode ∧
      (s.procs p).state ≠ .zombie := by
  have hz : (s.procs p).state ≠ .zombie := fun hz => by simp [wakeupProc, hz] at h
  by_cases hp : (s.procs p).state = .runnable
  · rw [wakeupProc_runnable hp] at h
    obtain rfl := ok.inj h
    exact ⟨hp, rfl, hz⟩
  · obtain ⟨-, halike⟩ := wakeupProc_procs h hp
    exact ⟨by rw [halike], by rw [halike], hz⟩

theorem wakeupProc_sameVitals (hr : r ≠ p) : SameVitals s t r := by
  rw [SameVitals, wakeupProc_of_ne h hr]
  exact ⟨rfl, rfl, rfl⟩

theorem wakeupProc_roused (r : ProcId) : Roused s t r := by
  by_cases hr : r = p
  · subst hr
    exact .inr (wakeupProc_woken h)
  · exact .inl (wakeupProc_sameVitals h hr)

end WakeupProc

/-! ### `do_exit` -/

/-- The child `p` of the current process is given to `q`. -/
theorem adoptChild_effect (h : s.adoptChild p q = .ok t) :
    t.kin = ((s.kin.setFirst s.current (s.kin.older p)).setParent p (some q)).link p q ∧
      t.current = s.current ∧ SameBut s t ∧ (∀ r, Roused s t r) ∧ (∀ r, r ≠ q → SameVitals s t r) ∧
      ((s.procs p).state = .zombie → (t.procs q).state = .sleeping →
        (t.procs q).waitState ≠ wtChild) := by
  have hlink : ∀ r, SameVitals s (((s.setCptr s.current (s.procs p).optr).setParent p q).linkChild p q)
      r := fun r => ((sameVitals_setCptr ..).trans (sameVitals_setParent ..)).trans
    (sameVitals_linkChild ..)
  have hkin : (((s.setCptr s.current (s.procs p).optr).setParent p q).linkChild p q).kin =
      ((s.kin.setFirst s.current (s.kin.older p)).setParent p (some q)).link p q := by
    rw [kin_linkChild, kin_setParent, kin_setCptr]
    rfl
  obtain ⟨hcur, hlinked⟩ := linkChild_same ((s.setCptr s.current (s.procs p).optr).setParent p q) p q
  have hbut : SameBut s (((s.setCptr s.current (s.procs p).optr).setParent p q).linkChild p q) :=
    { hlinked with }
  rw [adoptChild] at h
  split at h
  · obtain ⟨hcur', hbut'⟩ := wakeupProc_same h
    refine ⟨(wakeupProc_kin h).trans hkin, hcur'.trans hcur, hbut.trans hbut',
      fun r => Roused.trans (.inl (hlink r)) (wakeupProc_roused h r),
      fun r hr => (hlink r).trans (wakeupProc_sameVitals h hr), fun _ hs => ?_⟩
    rw [(wakeupProc_woken h).1] at hs
    cases hs
  · next hz =>
    cases h
    refine ⟨hkin, hcur, hbut, fun r => .inl (hlink r), fun r _ => hlink r, fun hp _ hw => ?_⟩
    exact hz ⟨(hlink p).1.trans hp, hw⟩

section Exit

variable {mem : ProcId → Prop} {ch : ProcId → List ProcId} {back : ProcId → Option ProcId}
  {i : ProcId} {fuel : Nat} {errorCode : Int}

/-- The loop of `do_exit` gives all children of the current process to `i`. While it runs, the first
of those that are left may point back to one that has gone. -/
theorem adoptChildren_effect (h : adoptChildren fuel s = .ok t) (htree : s.kin.Tree mem ch back)
    (hback : ∀ q, q ≠ s.current → back q = none) (hcur : mem s.current)
    (hinit : s.initproc = some i) (hi : mem i) (hne : i ≠ s.current)
    (hparent : s.kin.parent i ≠ some s.current) :
    (∃ ch', t.kin.Tree mem ch' (fun _ => none) ∧ ch' s.current = []) ∧ t.current = s.current ∧
      SameBut s t ∧
      (∀ c, mem c → t.kin.parent c =
        if s.kin.parent c = some s.current then some i else s.kin.parent c) ∧
      (∀ r, Roused s t r) ∧ (∀ r, r ≠ i → SameVitals s t r) ∧
      ((∃ c, mem c ∧ s.kin.parent c = some s.current ∧ (s.procs c).state = .zombie) →
        (t.procs i).state = .sleeping → (t.procs i).waitState ≠ wtChild) := by
  induction fuel generalizing s ch back with
  | zero => cases h
  | succ fuel ih =>
    have hfirst : (s.procs s.current).cptr = (ch s.current).head? := (htree.chain _ hcur).first_eq
    rw [adoptChildren, hfirst, hinit] at h
    cases hch : ch s.current with
    | nil =>
      rw [hch] at h
      obtain rfl := ok.inj h
      have hnone : ∀ c, mem c → s.kin.parent c ≠ some s.current := fun c hc hp => by
        have hin := (htree.mem_iff _ hcur c).mpr ⟨hc, hp⟩
        simp [hch] at hin
      refine ⟨⟨ch, ⟨fun q hq => ?_, htree.mem_iff, htree.nodup, htree.irrefl⟩, hch⟩, rfl, .refl s,
        fun c hc => (if_neg (hnone c hc)).symm, fun r => .inl (.refl s r), fun r _ => .refl s r, ?_⟩
      · by_cases hq' : q = s.current
        · have hchain := htree.chain q hq
          rw [hq', hch] at hchain ⊢
          exact hchain
        · exact hback q hq' ▸ htree.chain q hq
      · rintro ⟨c, hc, hp, -⟩
        exact absurd hp (hnone c hc)
    | cons p ws =>
      rw [hch] at h
      obtain ⟨u, hadopt, hrest⟩ := bind_eq_ok.mp h
      obtain ⟨hkin, hucur, hubut, huroused, huothers, huzombie⟩ := adoptChild_effect hadopt
      obtain ⟨hp, hpparent⟩ := (htree.mem_iff _ hcur p).mp (by simp [hch])
      have hpi : p ≠ i := fun heq => hparent (heq ▸ hpparent)
      have hutree : u.kin.Tree mem (update (update ch s.current ws) i (p :: ch i))
          (update back s.current (some p)) := by
        have hpush := (htree.pop hcur hch).push hp hi hpi (update_self ..)
          (by rw [update_of_ne hne]; exact hback i hne)
        rw [update_of_ne hne] at hpush
        rw [hkin]
        simpa [Kin.setParent] using hpush
      have huparent : ∀ c, u.kin.parent c = if c = p then some i else s.kin.parent c := fun c => by
        rw [hkin]
        exact Function.update_apply ..
      obtain ⟨htree', hcur', hbut', hparents, hroused, hothers, hzombie⟩ := ih hrest hutree
        (fun q hq => by
          rw [hucur] at hq
          rw [update_of_ne hq]
          exact hback q hq)
        (hucur ▸ hcur) (hubut.initproc.trans hinit) (hucur ▸ hne)
        (by rw [huparent, if_neg (Ne.symm hpi), hucur]; exact hparent)
      rw [hucur] at htree' hcur' hparents hzombie
      refine ⟨htree', hcur', hubut.trans hbut', fun c hc => ?_, fun r => (huroused r).trans (hroused r),
        fun r hr => (huothers r hr).trans (hothers r hr), ?_⟩
      · rw [hparents c hc, huparent]
        by_cases hcp : c = p
        · simp [hcp, hpparent, hne]
        · simp [hcp]
      · rintro ⟨c, hc, hcparent, hz⟩ hs
        by_cases hcp : c = p
        · obtain ⟨hstate, hwait, -⟩ := (hroused i).of_sleeping hs
          rw [hwait]
          exact huzombie (hcp ▸ hz) (hstate ▸ hs)
        · refine hzombie ⟨c, hc, ?_, (huroused c).zombie_iff.mpr hz⟩ hs
          rw [huparent, if_neg hcp, hcparent]

theorem wakeParent_effect (h : s.wakeParent = .ok t) :
    t.kin = s.kin ∧ t.current = s.current ∧ SameBut s t ∧ (∀ r, Roused s t r) ∧
      ∃ q, s.kin.parent s.current = some q ∧
        ((t.procs q).state = .sleeping → (t.procs q).waitState ≠ wtChild) := by
  rw [wakeParent] at h
  split at h
  · cases h
  next q hq =>
  split at h
  · obtain ⟨hcur, hbut⟩ := wakeupProc_same h
    refine ⟨wakeupProc_kin h, hcur, hbut, wakeupProc_roused h, q, hq, fun hs => ?_⟩
    rw [(wakeupProc_woken h).1] at hs
    cases hs
  · next hwait =>
    obtain rfl := ok.inj h
    exact ⟨rfl, rfl, .refl s, fun r => .inl (.refl s r), q, hq, fun _ => hwait⟩

/-- What `do_exit` does before it calls `schedule`. -/
structure Exited (s t : Sched) (mem : ProcId → Prop) (i : ProcId) (errorCode : Int) : Prop
    extends SameBut s t where
  tree : ∃ ch, t.kin.Tree mem ch (fun _ => none) ∧ ch s.current = []
  current : t.current = s.current
  notIdle : s.current ≠ s.idleproc
  notInit : i ≠ s.current
  parents : ∀ c, mem c → t.kin.parent c =
    if s.kin.parent c = some s.current then some i else s.kin.parent c
  zombie : (t.procs s.current).state = .zombie
  exitCode : (t.procs s.current).exitCode = errorCode
  roused : ∀ r, r ≠ s.current → Roused s t r
  /-- The parent does not sleep on, nor does `initproc` when it gets a zombie. -/
  parent : ∀ q, s.kin.parent s.current = some q → (t.procs q).state = .sleeping →
    (t.procs q).waitState ≠ wtChild
  adopted : ∀ c, mem c → s.kin.parent c = some s.current → (s.procs c).state = .zombie →
    (t.procs i).state = .sleeping → (t.procs i).waitState ≠ wtChild

theorem exitBegin_effect (h : s.exitBegin fuel errorCode = .ok t)
    (htree : s.kin.Tree mem ch (fun _ => none)) (hcur : mem s.current)
    (hinit : s.initproc = some i) (hi : mem i) (hparent : s.kin.parent i ≠ some s.current) :
    Exited s t mem i errorCode := by
  rw [exitBegin] at h
  split at h
  · cases h
  next hidle =>
  split at h
  · cases h
  next hnot =>
  have hne : i ≠ s.current := fun heq => hnot (heq ▸ hinit)
  obtain ⟨u, hwake, hadopt⟩ := bind_eq_ok.mp h
  obtain ⟨hkin₁, hcur₁, hbut₁, hroused₁, q, hq, hsleep⟩ := wakeParent_effect hwake
  have hkin : u.kin = s.kin := hkin₁.trans (kin_setProc_same ⟨rfl, rfl, rfl, rfl⟩)
  have hucur : u.current = s.current := hcur₁
  obtain ⟨htree₂, hcur₂, hbut₂, hparents, hroused₂, -, hzombie⟩ :=
    adoptChildren_effect hadopt (hkin ▸ htree) (fun _ _ => rfl) (hucur ▸ hcur)
      (hbut₁.initproc.trans hinit) hi (hucur ▸ hne) (by rw [hkin, hucur]; exact hparent)
  rw [hucur] at htree₂ hcur₂
  rw [hkin, hucur] at hparents hzombie
  have hroused := fun r => (hroused₁ r).trans (hroused₂ r)
  have hself := setProc_self s s.current
    { s.procs s.current with state := .zombie, exitCode := errorCode }
  have hbefore : ∀ r, r ≠ s.current → SameVitals s (s.setProc s.current
      { s.procs s.current with state := .zombie, exitCode := errorCode }) r := fun r hr => by
    rw [SameVitals, setProc_of_ne s _ hr]
    exact ⟨rfl, rfl, rfl⟩
  exact {
    toSameBut := (setProc_same ..).trans (hbut₁.trans hbut₂)
    tree := htree₂
    current := hcur₂
    notIdle := hidle
    notInit := hne
    parents := hparents
    zombie := (hroused s.current).zombie_iff.mpr (by rw [hself])
    exitCode := (hroused s.current).exitCode.trans (by rw [hself])
    roused := fun r hr => Roused.trans (.inl (hbefore r hr)) (hroused r)
    parent := fun r hr hs => by
      have hrq : r = q := by
        rw [← hkin₁, hkin] at hq
        exact Option.some.inj (hr.symm.trans hq)
      obtain ⟨hstate, hwait, -⟩ := (hroused₂ r).of_sleeping hs
      rw [hwait, hrq]
      exact hsleep (by rw [← hrq, ← hstate, hs])
    adopted := fun c hc hp hz => by
      refine hzombie ⟨c, hc, hp, ?_⟩
      have hcs : c ≠ s.current := fun heq => htree.irrefl c hc (heq ▸ hp)
      rw [(hroused₁ c).zombie_iff, (hbefore c hcs).1, hz] }

theorem doExit_eq_ok (h : s.doExit fuel errorCode = .ok t) :
    ∃ u, s.exitBegin fuel errorCode = .ok u ∧ u.schedule = .ok t := by
  obtain ⟨u, hbegin, hrest⟩ := bind_eq_ok.mp h
  obtain ⟨v, hsched, hcheck⟩ := bind_eq_ok.mp hrest
  by_cases hcur : v.current = s.current
  · rw [if_pos hcur] at hcheck
    cases hcheck
  · rw [if_neg hcur] at hcheck
    obtain rfl := ok.inj hcheck
    exact ⟨u, hbegin, hsched⟩

end Exit

/-! ### `do_fork` and `do_wait` -/

/-- A new process becomes the first child of the current one. -/
theorem forkProc_effect {mem : ProcId → Prop} {ch : ProcId → List ProcId}
    (h : s.forkProc p = .ok t) (htree : s.kin.Tree mem ch (fun _ => none)) (hp : ¬mem p)
    (hcur : mem s.current) (hchild : ∀ c, mem c → s.kin.parent c ≠ some p) :
    (∃ ch', t.kin.Tree (fun r => mem r ∨ r = p) ch' (fun _ => none)) ∧ t.current = s.current ∧
      SameBut s t ∧ (∀ c, t.kin.parent c = if c = p then some s.current else s.kin.parent c) ∧
      (∀ r, r ≠ p → SameVitals s t r) ∧ (t.procs p).state = .runnable := by
  have hne : p ≠ s.current := fun heq => hp (heq ▸ hcur)
  rw [forkProc] at h
  split at h
  · cases h
  have hkin : t.kin = ((s.kin.clear p).setParent p (some s.current)).link p s.current := by
    rw [wakeupProc_kin h, kin_linkChild, kin_setParent, kin_allocProc]
    rfl
  obtain ⟨hcur₁, hbut₁⟩ := wakeupProc_same h
  obtain ⟨hcur₂, hbut₂⟩ := linkChild_same
    ((s.allocProc p).setParent p (s.allocProc p).current) p (s.allocProc p).current
  refine ⟨⟨_, hkin ▸ (htree.clear hp hchild).push (.inr rfl) (.inl hcur) hne
    (update_self ..) rfl⟩, hcur₁.trans hcur₂, ?_, fun c => ?_, fun r hr => ?_,
    (wakeupProc_woken h).1⟩
  · exact SameBut.trans ⟨hbut₂.idleproc, hbut₂.initproc, hbut₂.timerList, hbut₂.timers⟩ hbut₁
  · rw [hkin]
    by_cases hc : c = p
    · simp [Kin.link, Kin.setParent, hc]
    · simp [Kin.link, Kin.setParent, Kin.clear, hc]
  · have halloc : SameVitals s (s.allocProc p) r := by
      rw [SameVitals, show (s.allocProc p).procs r = s.procs r from setProc_of_ne s _ hr]
      exact ⟨rfl, rfl, rfl⟩
    exact (halloc.trans (sameVitals_setParent ..)).trans
      ((sameVitals_linkChild ..).trans (wakeupProc_sameVitals h hr))

/-- The pointers of `p` are not changed before they are read. -/
theorem setYptr_back (s : Sched) (p o : ProcId) :
    (s.setYptr o (s.procs p).yptr).procs p = s.procs p := by
  by_cases hpo : p = o
  · subst hpo
    exact setProc_self ..
  · exact setProc_of_ne s _ hpo

/-- The second half of the relations in `remove_links`. -/
def unlinkYounger (u : Sched) (p : ProcId) : Except ProcStop Sched :=
  match (u.procs p).yptr, (u.procs p).parent with
  | some y, _ => ok (u.setOptr y (u.procs p).optr)
  | none, some parent => ok (u.setCptr parent (u.procs p).optr)
  | none, none => error .nullPointer

/-- The relations in `remove_links` take `p` out of the children of its parent. -/
theorem unlinkChild_effect (h : Procs.unlinkChild s p = .ok t) (hq : s.kin.parent p = some q) :
    t.kin = s.kin.unlink p q ∧ t.current = s.current ∧ SameBut s t ∧ ∀ r, SameVitals s t r := by
  -- what is done for the older sibling, and what then follows
  have hrest : ∀ u : Sched, u.procs p = s.procs p →
      u.kin = { s.kin with
        younger := Siblings.setYounger s.kin.younger (s.kin.older p) (s.kin.younger p) } →
      u.current = s.current → SameBut s u → (∀ r, SameVitals s u r) →
      u.unlinkYounger p = .ok t →
      t.kin = s.kin.unlink p q ∧ t.current = s.current ∧ SameBut s t ∧ ∀ r, SameVitals s t r := by
    intro u hsame hkin hcur hbut hvitals h
    have hparent : (s.procs p).parent = some q := hq
    rw [unlinkYounger, hsame, hparent] at h
    cases hy : (s.procs p).yptr with
    | some y =>
      have hyounger : s.kin.younger p = some y := hy
      rw [hy] at h
      obtain rfl := ok.inj h
      refine ⟨?_, hcur, hbut.trans (setProc_same ..),
        fun r => (hvitals r).trans (sameVitals_setOptr ..)⟩
      rw [kin_setOptr, hkin]
      simp only [Kin.unlink, hyounger]
      rfl
    | none =>
      have hyounger : s.kin.younger p = none := hy
      rw [hy] at h
      obtain rfl := ok.inj h
      refine ⟨?_, hcur, hbut.trans (setProc_same ..),
        fun r => (hvitals r).trans (sameVitals_setCptr ..)⟩
      rw [kin_setCptr, hkin]
      simp only [Kin.unlink, Kin.setFirst, hyounger]
      rfl
  rw [Procs.unlinkChild] at h
  cases ho : (s.procs p).optr with
  | none =>
    have holder : s.kin.older p = none := ho
    rw [ho] at h
    refine hrest s rfl ?_ rfl (.refl s) (.refl s) h
    simp [holder, Siblings.setYounger]
  | some o =>
    have holder : s.kin.older p = some o := ho
    rw [ho] at h
    refine hrest _ (setYptr_back s p o) ?_ rfl (setProc_same ..) (sameVitals_setYptr s o _) h
    rw [kin_setYptr, holder]
    rfl

theorem unlinkChild_spec {alive : ProcId → Prop} {xs : List ProcId} (h : Queued s alive xs)
    (hunlink : Procs.unlinkChild s p = .ok t) : Queued t alive xs := by
  have hrest : ∀ u : Sched, Queued u alive xs → u.unlinkYounger p = .ok t → Queued t alive xs := by
    intro u hu h
    rw [unlinkYounger] at h
    split at h <;> cases h
    · exact (setOptr_spec hu _ _).1
    · exact (setCptr_spec hu _ _).1
  rw [Procs.unlinkChild] at hunlink
  cases ho : (s.procs p).optr with
  | none =>
    rw [ho] at hunlink
    exact hrest s h hunlink
  | some o =>
    rw [ho] at hunlink
    exact hrest _ (setYptr_spec h o _).1 hunlink

end Sched

namespace Procs

variable {t t' : Procs} {p : ProcId}

/-- What the end of `do_wait` does. -/
theorem reap_eq_ok (h : t.reap p = .ok t') :
    p ≠ t.idleproc ∧ t.initproc ≠ some p ∧ ∃ s, unlinkChild t.toSched p = .ok s ∧
      t' = { t with
        toSched := s
        procList := listDel t.procList (.entry p)
        hashList := listDel t.hashList (.entry p)
        nrProcess := t.nrProcess - 1 } := by
  rw [reap] at h
  split at h
  · cases h
  next hnot =>
  obtain ⟨hidle, hinit⟩ := not_or.mp hnot
  obtain ⟨s, hunlink, hret⟩ := bind_eq_ok.mp h
  exact ⟨hidle, hinit, s, hunlink, (ok.inj hret).symm⟩

/-- The new structure, before it gets its `pid`. -/
def newChild (t : Procs) (p : ProcId) : Procs :=
  { t.allocProc p with toSched := (t.toSched.allocProc p).setParent p t.current }

/-- How `do_fork` ends. -/
theorem doFork_eq_ok {fuel : Nat} {failed : Bool} {r : Int}
    (h : t.doFork fuel p failed = .ok (r, t')) :
    r = -eNoFreeProc ∧ t' = t ∨ r = -eNoMem ∧ t' = t.newChild p ∨
      ∃ safe s, (t.newChild p).getPid fuel =
          .ok (r, { t.newChild p with lastPid := r, nextSafe := safe }) ∧
        t.toSched.forkProc p = .ok s ∧ t' = { t.newChild p with
          toSched := s
          pid := update t.pid p r
          procList := listAddAfter t.procList .head (.entry p)
          hashList := listAddAfter t.hashList (.head (pidHashfn r)) (.entry p)
          nrProcess := t.nrProcess + 1
          lastPid := r
          nextSafe := safe } := by
  rw [doFork] at h
  split at h
  · cases h
    exact .inl ⟨rfl, rfl⟩
  dsimp only at h
  split at h
  · cases h
  next hwait =>
  split at h
  · cases h
    exact .inr (.inl ⟨rfl, rfl⟩)
  refine .inr (.inr ?_)
  obtain ⟨⟨pid, u⟩, hget, h⟩ := bind_eq_ok.mp h
  obtain ⟨⟨last, safe⟩, -, hret⟩ := bind_eq_ok.mp hget
  cases hret
  obtain ⟨v, hlinks, h⟩ := bind_eq_ok.mp h
  have hparent : (((t.toSched.allocProc p).setParent p t.current).procs p).parent = some t.current :=
    congrArg Proc.parent (Sched.setProc_self ..)
  have hcur : (t.toSched.allocProc p).current = t.current := rfl
  have hv : v = { t.newChild p with
      toSched := ((t.toSched.allocProc p).setParent p t.current).linkChild p t.current
      pid := update t.pid p pid
      procList := listAddAfter t.procList .head (.entry p)
      hashList := listAddAfter t.hashList (.head (pidHashfn pid)) (.entry p)
      nrProcess := t.nrProcess + 1
      lastPid := pid
      nextSafe := safe } := by
    simp only [setLinks, hashProc] at hlinks
    erw [hparent] at hlinks
    simpa [newChild, allocProc, hcur] using (ok.inj hlinks).symm
  obtain ⟨w, hwake, hret⟩ := bind_eq_ok.mp h
  cases hret
  obtain ⟨s, hs, hw⟩ := withSched_eq_ok.mp hwake
  subst hv
  refine ⟨safe, s, hget, ?_, hw⟩
  exact (if_neg hwait).trans hs

end Procs

end UcoreMips.Kernel
