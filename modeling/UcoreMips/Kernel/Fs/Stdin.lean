import UcoreMips.Kernel.Sync.Wait
import UcoreMips.Lib.Buffer

/-!
# UcoreMips.Kernel.Fs.Stdin

**The keyboard buffer** (`kern/fs/devs/dev_stdin.c`). `dev_stdin_write` is called by the interrupt
handler and stores a character in a ring; `dev_stdin_read` takes characters out of it and sleeps
while there are none.

`dev_stdin_write` stores the character before it tests whether there is room. When the ring is full
the character is not accepted, but the slot is the one of the oldest character that has not been
read. So the ring is a queue as long as no character arrives while it is full, or only one that is
already in that slot (`StdinSys.stdin_fifo_iff`).
-/

namespace UcoreMips.Kernel

open UcoreMips.Lib
open Function (update update_of_ne)
open List

def stdinBufsize : Nat := 4096

structure Stdin extends Waits Unit where
  /-- `stdin_buffer`. -/
  buffer : Nat → BitVec 8
  /-- `p_rpos` and `p_wpos`, of type `off_t`. -/
  rpos : BitVec 32
  wpos : BitVec 32

namespace Stdin

/-- The index `pos % STDIN_BUFSIZE`. -/
def slot (pos : BitVec 32) : Nat := (pos.srem (BitVec.ofNat 32 stdinBufsize)).toNat

/-- The part of `dev_stdin_write` that is on the ring. -/
def put (s : Stdin) (c : BitVec 8) : Stdin :=
  let s := { s with buffer := update s.buffer (slot s.wpos) c }
  if (s.wpos - s.rpos).slt (BitVec.ofNat 32 stdinBufsize) then { s with wpos := s.wpos + 1 } else s

/-- `dev_stdin_write`. -/
def devStdinWrite (fuel : Nat) (s : Stdin) (c : BitVec 8) : Except SyncStop Stdin :=
  if c ≠ 0 then
    let s := s.put c
    if !s.waitQueueEmpty () then do
      let w ← Waits.wakeupQueue () wtKbd fuel s.toWaits
      return { s with toWaits := w }
    else .ok s
  else .ok s

/-- The loop of `dev_stdin_read` while it does not sleep, with `n` characters still to read: the
characters that are taken, and whether it ends. -/
def take (s : Stdin) : Nat → List (BitVec 8) × Bool × Stdin
  | 0 => ([], true, s)
  | n + 1 =>
    if s.rpos.slt s.wpos then
      let c := s.buffer (slot s.rpos)
      let r := { s with rpos := s.rpos + 1 }.take n
      (c :: r.1, r.2)
    else ([], false, s)

/-- What is in the ring, in the order in which it will be read. -/
def unread (s : Stdin) : List (BitVec 8) :=
  (List.range (s.wpos - s.rpos).toNat).map fun i => s.buffer (slot (s.rpos + BitVec.ofNat 32 i))

/-- `k` characters have been taken, and `n` accepted. -/
structure At (s : Stdin) (k n : Nat) : Prop where
  rpos : s.rpos = BitVec.ofNat 32 k
  wpos : s.wpos = BitVec.ofNat 32 n
  le : k ≤ n
  room : n ≤ k + stdinBufsize
  small : n < 2 ^ 31

variable {s : Stdin} {k n : Nat} {c : BitVec 8} {xs : Unit → List ProcId}

theorem slot_ofNat (h : k < 2 ^ 31) : slot (BitVec.ofNat 32 k) = k % stdinBufsize := by
  have hnat : (BitVec.ofNat 32 k).toNat = k := by
    rw [BitVec.toNat_ofNat, Nat.mod_eq_of_lt (by omega)]
  have hk : (BitVec.ofNat 32 k).msb = false := by
    rw [BitVec.msb_eq_decide, hnat]
    simpa using h
  have hb : (BitVec.ofNat 32 stdinBufsize).msb = false := by decide
  rw [slot, BitVec.srem_eq, hk, hb]
  show ((BitVec.ofNat 32 k).umod (BitVec.ofNat 32 stdinBufsize)).toNat = k % stdinBufsize
  rw [BitVec.umod_eq, BitVec.toNat_umod, hnat]
  rfl

theorem At.sub_toNat (h : s.At k n) : (s.wpos - s.rpos).toNat = n - k := by
  have hle := h.le
  have hsmall := h.small
  rw [h.wpos, h.rpos, BitVec.toNat_sub, BitVec.toNat_ofNat, BitVec.toNat_ofNat]
  omega

theorem At.unread_eq (h : s.At k n) : s.unread = ring s.buffer stdinBufsize k (n - k) := by
  rw [unread, h.sub_toNat]
  refine map_congr_left fun i hi => ?_
  have hlt := mem_range.mp hi
  have hsmall := h.small
  rw [h.rpos, ← BitVec.ofNat_add, slot_ofNat (by omega)]

theorem At.unread_length (h : s.At k n) : s.unread.length = n - k := by
  rw [h.unread_eq, ring, length_span]

/-- The test for room in `dev_stdin_write`. -/
theorem At.room_iff (h : s.At k n) :
    (s.wpos - s.rpos).slt (BitVec.ofNat 32 stdinBufsize) = true ↔ n - k < stdinBufsize := by
  have hsub := h.sub_toNat
  have hle := h.le
  have hsmall := h.small
  rw [BitVec.slt_iff_toInt_lt, BitVec.toInt_eq_toNat_of_lt, hsub]
  · show ((n - k : Nat) : Int) < 4096 ↔ n - k < 4096
    omega
  · omega

/-- The test for characters in `dev_stdin_read`. -/
theorem At.slt_iff (h : s.At k n) : s.rpos.slt s.wpos = true ↔ k < n := by
  have hle := h.le
  have hsmall := h.small
  have hint : ∀ j, j < 2 ^ 31 → (BitVec.ofNat 32 j).toInt = j := by
    intro j hj
    have hnat : (BitVec.ofNat 32 j).toNat = j := by
      rw [BitVec.toNat_ofNat]
      omega
    rw [BitVec.toInt_eq_toNat_of_lt, hnat]
    omega
  rw [BitVec.slt_iff_toInt_lt, h.rpos, h.wpos, hint k (by omega), hint n hsmall]
  omega

/-! ### The ring -/

@[simp] theorem put_toWaits (s : Stdin) (c : BitVec 8) : (s.put c).toWaits = s.toWaits := by
  unfold put
  dsimp only
  split <;> rfl

/-- A character for which there is room. -/
theorem At.put_room (h : s.At k n) (hroom : n - k < stdinBufsize) (hsmall : n + 1 < 2 ^ 31)
    (c : BitVec 8) :
    (s.put c).At k (n + 1) ∧ (s.put c).unread = s.unread ++ [c] := by
  have hput : s.put c = { s with
      buffer := update s.buffer (slot s.wpos) c
      wpos := s.wpos + 1 } := if_pos (h.room_iff.mpr hroom)
  have hle := h.le
  have hlt : n < k + stdinBufsize := by omega
  have hat : (s.put c).At k (n + 1) := by
    rw [hput]
    refine ⟨h.rpos, ?_, by omega, by omega, hsmall⟩
    rw [h.wpos, BitVec.ofNat_add]
    rfl
  refine ⟨hat, ?_⟩
  have hbuffer : (s.put c).buffer = update s.buffer (n % stdinBufsize) c := by
    rw [hput, h.wpos, slot_ofNat h.small]
  have hadd : ring (update s.buffer ((k + (n - k)) % stdinBufsize) c) stdinBufsize k (n - k + 1) =
      ring s.buffer stdinBufsize k (n - k) ++ [c] := ring_update hroom c
  rw [Nat.add_sub_of_le hle] at hadd
  rw [hat.unread_eq, h.unread_eq, hbuffer, Nat.succ_sub hle, hadd]

/-- The ring is full: the character takes the place of the oldest one. -/
theorem At.put_full (h : s.At k n) (hfull : n - k = stdinBufsize) (c : BitVec 8) :
    (s.put c).At k n ∧ (s.put c).unread = c :: s.unread.tail := by
  have hput : s.put c = { s with buffer := update s.buffer (slot s.wpos) c } :=
    if_neg fun hroom => by
      have := h.room_iff.mp hroom
      omega
  have hat : (s.put c).At k n := by
    rw [hput]
    exact { h with }
  refine ⟨hat, ?_⟩
  have hbuffer : (s.put c).buffer = update s.buffer (n % stdinBufsize) c := by
    rw [hput, h.wpos, slot_ofNat h.small]
  have hsame : k % stdinBufsize = n % stdinBufsize := by
    have hn : n = k + stdinBufsize := by have := h.le; omega
    rw [hn, Nat.add_mod_right]
  obtain ⟨m, hlen⟩ : ∃ m, n - k = m + 1 := ⟨4095, hfull⟩
  have hm : m + 1 = 4096 := hlen.symm.trans hfull
  rw [hat.unread_eq, h.unread_eq, hlen, ring_succ, ring_succ, tail_cons, hbuffer, hsame,
    Function.update_self]
  refine congrArg (c :: ·) (span_eq_iff.mpr fun i hi => update_of_ne ?_ ..)
  rw [← hsame]
  show (k + 1 + i) % 4096 ≠ k % 4096
  omega

/-- The next character is taken. -/
theorem At.next (h : s.At k n) (hlt : k < n) :
    ({ s with rpos := s.rpos + 1 } : Stdin).At (k + 1) n ∧
      s.unread = s.buffer (slot s.rpos) :: ({ s with rpos := s.rpos + 1 } : Stdin).unread := by
  have hroom := h.room
  have hat : ({ s with rpos := s.rpos + 1 } : Stdin).At (k + 1) n := by
    refine ⟨?_, h.wpos, hlt, by omega, h.small⟩
    rw [h.rpos, BitVec.ofNat_add]
    rfl
  refine ⟨hat, ?_⟩
  have hlen : n - k = (n - (k + 1)) + 1 := by omega
  have hsmall := h.small
  rw [h.unread_eq, hat.unread_eq, h.rpos, slot_ofNat (by omega), hlen, ring_succ]

/-- The loop takes characters from the front, until it has enough or there are none. -/
theorem At.take_spec (h : s.At k n) (j : Nat) :
    ∃ s', s.take j = (s.unread.take j, decide (j ≤ s.unread.length), s') ∧
      s'.At (k + (s.unread.take j).length) n ∧ s'.unread = s.unread.drop j ∧
      s'.toWaits = s.toWaits := by
  induction j generalizing s k with
  | zero => exact ⟨s, by simp [take], by simpa using h, by simp, rfl⟩
  | succ j ih =>
    rw [take]
    by_cases hlt : k < n
    · obtain ⟨hat, hunread⟩ := h.next hlt
      obtain ⟨s', htake, hat', hrest, hwaits⟩ := ih hat
      refine ⟨s', ?_, ?_, ?_, hwaits⟩
      · rw [if_pos (h.slt_iff.mpr hlt), htake, hunread]
        simp
      · rw [hunread, take_succ_cons, length_cons, Nat.add_comm _ 1, ← Nat.add_assoc]
        exact hat'
      · rw [hunread, hrest, drop_succ_cons]
    · have hnil : s.unread = [] := length_eq_zero_iff.mp (by rw [h.unread_length]; omega)
      refine ⟨s, ?_, ?_, by simp [hnil], rfl⟩
      · rw [if_neg fun hr => hlt (h.slt_iff.mp hr), hnil]
        simp
      · simpa [hnil] using h

theorem At.wakeup (h : s.At k n) (w : Waits Unit) : ({ s with toWaits := w } : Stdin).At k n :=
  { h with }

/-- `dev_stdin_write` comes back, and has put the character into the ring. -/
theorem devStdinWrite_spec {alive : ProcId → Prop} {known : ProcId → Prop}
    (h : s.toWaits.Waiting alive xs known) (c : BitVec 8) :
    (∃ fuel s', s.devStdinWrite fuel c = .ok s') ∧
      ∀ fuel s', s.devStdinWrite fuel c = .ok s' → ∃ w ys, w.Waiting alive ys known ∧
        s' = { (if c ≠ 0 then s.put c else s) with toWaits := w } := by
  by_cases hc : c = 0
  · have hwrite : ∀ fuel, s.devStdinWrite fuel c = .ok s := fun fuel => if_neg (not_not.mpr hc)
    refine ⟨⟨0, s, hwrite 0⟩, fun fuel s' hs' => ⟨s.toWaits, xs, h, ?_⟩⟩
    rw [if_neg (not_not.mpr hc), Except.ok.inj (hs'.symm.trans (hwrite fuel))]
  have hwrite : ∀ fuel, s.devStdinWrite fuel c = if !(s.put c).waitQueueEmpty () then
      (do
        let w ← Waits.wakeupQueue () wtKbd fuel (s.put c).toWaits
        return { s.put c with toWaits := w })
      else .ok (s.put c) := fun fuel => if_pos hc
  rw [if_pos hc]
  cases hq : (s.put c).waitQueueEmpty () with
  | true =>
    simp only [hq] at hwrite
    refine ⟨⟨0, _, hwrite 0⟩, fun fuel s' hs' => ⟨s.toWaits, xs, h, ?_⟩⟩
    rw [Except.ok.inj (hs'.symm.trans (hwrite fuel)), ← put_toWaits s c]
  | false =>
    rw [put_toWaits] at hq
    simp only [put_toWaits, hq] at hwrite
    refine ⟨?_, fun fuel s' hs' => ?_⟩
    · obtain ⟨w, hw⟩ := (h.wakeupQueue () wtKbd ((xs ()).length + 1)).1 (Nat.lt_succ_self _)
      exact ⟨_, _, by rw [hwrite, if_pos Bool.not_false, hw]; rfl⟩
    · rw [hwrite, if_pos Bool.not_false] at hs'
      obtain ⟨w, hw, hs'⟩ := bind_eq_ok.mp hs'
      exact ⟨w, _, (h.wakeupQueue () wtKbd fuel).2 w hw, (Except.ok.inj hs').symm⟩

end Stdin

/-! ### Readers and the interrupt handler -/

/-- A call of `dev_stdin_read` that sleeps: its argument, and what is in `buf` so far. -/
structure Reading where
  len : Nat
  buf : List (BitVec 8)
  deriving Repr, DecidableEq

inductive StdinOp
  /-- A key has been pressed. -/
  | write (c : BitVec 8)
  /-- The current process calls `dev_stdin_read`, which runs until it sleeps or returns. -/
  | read (len : Nat)
  /-- It goes on after its call of `schedule`. -/
  | resume
  | schedule
  /-- Sleeping for other reasons. -/
  | sleep (waitState : BitVec 32)
  /-- Waking for other reasons, as `do_kill` does; also of who sleeps in `dev_stdin_read`. -/
  | wakeup (p : ProcId)
  deriving Repr, DecidableEq

/-- The device, with the processes that read from it and what has been done so far. -/
structure StdinSys extends Stdin where
  alive : Finset ProcId
  reading : ProcId → Option Reading
  /-- The characters for which `p_wpos` has been incremented. -/
  accepted : List (BitVec 8)
  /-- The characters that have been copied to a `buf`. -/
  delivered : List (BitVec 8)

namespace StdinSys

/-- The loop of `dev_stdin_read`, up to the call of `schedule` or to the end. -/
def readOn (m : StdinSys) (r : Reading) : Except SyncStop StdinSys :=
  let (cs, enough, s) := m.toStdin.take (r.len - r.buf.length)
  let m' := { m with toStdin := s, delivered := m.delivered ++ cs }
  if enough then .ok { m' with reading := update m.reading m.sched.current none }
  else do
    let w ← m'.toWaits.waitCurrentSet () wtKbd
    return { m' with
      toWaits := w
      reading := update m.reading m.sched.current (some { r with buf := r.buf ++ cs }) }

def exec (fuel : Nat) (m : StdinSys) : StdinOp → Except SyncStop StdinSys
  | .write c => do
    let s ← m.toStdin.devStdinWrite fuel c
    return { m with
      toStdin := s
      accepted := if s.wpos = m.wpos then m.accepted else m.accepted ++ [c] }
  | .read len => m.readOn ⟨len, []⟩
  | .resume =>
    match m.reading m.sched.current with
    | none => .ok m
    | some r => do
      let w ← m.toWaits.waitCurrentDel ()
      let m := { m with toWaits := w }
      if (w.wait w.sched.current).wakeupFlags = wtKbd then m.readOn r
      else return { m with reading := update m.reading m.sched.current none }
  | .schedule => do
    let w ← m.toWaits.schedule
    return { m with toWaits := w }
  | .sleep waitState => .ok { m with sched := m.sched.sleep waitState }
  | .wakeup p => do
    let w ← m.toWaits.wakeupProc p
    return { m with toWaits := w }

/-- A process is in one call of `dev_stdin_read` at a time, and does nothing while it sleeps. -/
def Legal (m : StdinSys) : StdinOp → Prop
  | .write _ | .schedule => True
  | .read _ | .sleep _ => m.reading m.sched.current = none
  | .resume => m.reading m.sched.current ≠ none ∧
      (m.sched.procs m.sched.current).state = .runnable
  | .wakeup p => p ∈ m.alive

def Step (m : StdinSys) (op : StdinOp) (m' : StdinSys) : Prop :=
  m.Legal op ∧ ∃ fuel, m.exec fuel op = .ok m'

/-- `stdin_device_init` has been called. -/
structure Start (m : StdinSys) : Prop where
  queued : ∃ ys, m.sched.Queued (· ∈ m.alive) ys
  head : m.links.next (.head ()) = .head () ∧ m.links.prev (.head ()) = .head ()
  rpos : m.rpos = 0
  wpos : m.wpos = 0
  reading : ∀ p, m.reading p = none
  accepted : m.accepted = []
  delivered : m.delivered = []

/-- What has been delivered and what is still in the ring is what has been accepted. -/
def Fifo (m : StdinSys) : Prop := m.delivered ++ m.unread = m.accepted

/-- A character that arrives while the ring is full is the one that is already in its slot. -/
def Harmless (m : StdinSys) : StdinOp → Prop
  | .write c => c ≠ 0 → m.unread.length = stdinBufsize → m.unread.head? = some c
  | _ => True

/-- The positions count the characters, and the queue holds calls of `dev_stdin_read`. -/
structure Inv (m : StdinSys) : Prop where
  positions : m.toStdin.At m.delivered.length m.accepted.length
  waiting : ∃ xs, m.toWaits.Waiting (· ∈ m.alive) xs fun p => m.reading p ≠ none

variable {m m' : StdinSys} {op : StdinOp} {c : BitVec 8} {i : Nat}

/-- What the characters have to do with one another before and after a step. -/
inductive Moved (m : StdinSys) (op : StdinOp) (m' : StdinSys) : Prop
  | accepts (c : BitVec 8) (write : op = .write c) (room : m.unread.length < stdinBufsize)
    (unread : m'.unread = m.unread ++ [c]) (accepted : m'.accepted = m.accepted ++ [c])
    (delivered : m'.delivered = m.delivered)
  | rejects (c : BitVec 8) (write : op = .write c) (nonzero : c ≠ 0)
    (full : m.unread.length = stdinBufsize)
    (unread : m'.unread = c :: m.unread.tail) (accepted : m'.accepted = m.accepted)
    (delivered : m'.delivered = m.delivered)
  | takes (j : Nat) (other : ∀ c, op = .write c → c = 0) (unread : m'.unread = m.unread.drop j)
    (accepted : m'.accepted = m.accepted) (delivered : m'.delivered = m.delivered ++ m.unread.take j)

theorem Moved.same (hop : ∀ c, op = .write c → c = 0) (hunread : m'.unread = m.unread)
    (haccepted : m'.accepted = m.accepted) (hdelivered : m'.delivered = m.delivered) :
    Moved m op m' :=
  .takes 0 hop (by simpa using hunread) haccepted (by simpa using hdelivered)

/-- A key: the character is accepted when there is room for it. -/
theorem Inv.write (h : Inv m) (c : BitVec 8) :
    (∃ fuel m', m.exec fuel (.write c) = .ok m') ∧
      ∀ fuel m', m.exec fuel (.write c) = .ok m' → m'.accepted.length < 2 ^ 31 →
        Inv m' ∧ Moved m (.write c) m' := by
  obtain ⟨xs, hxs⟩ := h.waiting
  obtain ⟨⟨fuel, s, hs⟩, hspec⟩ := Stdin.devStdinWrite_spec hxs c
  refine ⟨⟨fuel, _, by rw [exec, hs]; rfl⟩, fun fuel m' hm' hsmall => ?_⟩
  obtain ⟨s, hs, hm'⟩ := bind_eq_ok.mp hm'
  obtain ⟨w, ys, hw, rfl⟩ := hspec fuel s hs
  have hlen := h.positions.unread_length
  have hle := h.positions.le
  have hroom := h.positions.room
  have hm' := (Except.ok.inj hm').symm
  by_cases hc : c = 0
  · rw [if_neg (not_not.mpr hc), if_pos rfl] at hm'
    rw [hm']
    exact ⟨⟨h.positions.wakeup w, ys, hw⟩, .same (fun d hd => (StdinOp.write.inj hd) ▸ hc) rfl rfl rfl⟩
  rw [if_pos hc] at hm'
  by_cases hfull : m.unread.length = stdinBufsize
  · obtain ⟨hat, hunread⟩ := h.positions.put_full (hlen.symm.trans hfull) c
    have hwpos : (m.put c).wpos = m.wpos := hat.wpos.trans h.positions.wpos.symm
    rw [if_pos hwpos] at hm'
    rw [hm']
    exact ⟨⟨hat.wakeup w, ys, hw⟩, .rejects c rfl hc hfull hunread rfl rfl⟩
  · have hroom' : m.accepted.length - m.delivered.length < stdinBufsize := by omega
    have hput : (m.put c).wpos = m.wpos + 1 := by
      rw [Stdin.put]
      rw [if_pos (h.positions.room_iff.mpr hroom')]
    have hwpos : (m.put c).wpos ≠ m.wpos := by
      bv_omega
    rw [if_neg hwpos] at hm'
    have haccepted : m'.accepted = m.accepted ++ [c] := by rw [hm']
    have hnext : m.accepted.length + 1 < 2 ^ 31 := by simpa [haccepted] using hsmall
    obtain ⟨hat, hunread⟩ := h.positions.put_room hroom' hnext c
    rw [hm']
    refine ⟨⟨?_, ys, hw⟩, .accepts c rfl (by omega) hunread rfl rfl⟩
    simpa using hat.wakeup w

/-- The loop of `dev_stdin_read`, in a process that is on no queue. -/
theorem Inv.readOn (h : m.toStdin.At m.delivered.length m.accepted.length)
    (hxs : m.toWaits.Waiting (· ∈ m.alive) xs fun p => m.reading p ≠ none ∧ p ≠ m.sched.current)
    (r : Reading) :
    ∃ m', m.readOn r = .ok m' ∧ Inv m' ∧ m'.accepted = m.accepted ∧
      ∃ j, m'.delivered = m.delivered ++ m.unread.take j ∧ m'.unread = m.unread.drop j := by
  obtain ⟨s, htake, hat, hunread, hwaits⟩ := h.take_spec (r.len - r.buf.length)
  have hat' : s.At (m.delivered ++ m.unread.take (r.len - r.buf.length)).length m.accepted.length := by
    rwa [length_append]
  have hcur : s.toWaits.sched.current = m.sched.current := by rw [hwaits]
  rw [← hwaits] at hxs
  rw [StdinSys.readOn, htake]
  dsimp only
  split
  · refine ⟨_, rfl, ⟨hat', xs, hxs.congr fun p => ?_⟩, rfl, _, rfl, hunread⟩
    by_cases hp : p = m.sched.current
    · simp [hp, hcur]
    · simp [hp, hcur]
  · obtain ⟨w, hset, -, -, hw⟩ := hxs.currentSet (by simp [hcur]) () wtKbd
    rw [hset]
    refine ⟨_, rfl, ⟨hat'.wakeup w, _, hw.congr fun p => ?_⟩, rfl, _, rfl, hunread⟩
    by_cases hp : p = m.sched.current
    · simp [hp, hcur]
    · simp [hp, hcur]

/-- Processes have been scheduled, or made runnable. -/
theorem Inv.reschedule (h : Inv m) {s : Sched} (hq : ∃ ys, s.Queued (· ∈ m.alive) ys)
    (hlive : ∀ p, m.reading p ≠ none → (m.sched.procs p).state ≠ .zombie →
      (s.procs p).state ≠ .zombie) : Inv { m with sched := s } := by
  obtain ⟨xs, hxs⟩ := h.waiting
  exact ⟨h.positions.wakeup _, xs, hxs.reschedule hq hlive⟩

/-- Each step but the wakeup of a zombie comes back. -/
theorem Inv.step (h : Inv m) (hl : m.Legal op) :
    ((∀ p, op ≠ .wakeup p) → ∃ fuel m', m.exec fuel op = .ok m') ∧
      ∀ fuel m', m.exec fuel op = .ok m' → m'.accepted.length < 2 ^ 31 →
        Inv m' ∧ Moved m op m' := by
  obtain ⟨xs, hxs⟩ := h.waiting
  obtain ⟨ys, hys⟩ := hxs.queued
  have of_ok : (∃ m', (∀ fuel, m.exec fuel op = .ok m') ∧ Inv m' ∧ Moved m op m') →
      ((∀ p, op ≠ .wakeup p) → ∃ fuel m', m.exec fuel op = .ok m') ∧
        ∀ fuel m', m.exec fuel op = .ok m' → m'.accepted.length < 2 ^ 31 →
          Inv m' ∧ Moved m op m' := by
    rintro ⟨m', hexec, hinv⟩
    refine ⟨fun _ => ⟨0, m', hexec 0⟩, fun fuel t ht _ => ?_⟩
    obtain rfl : m' = t := Except.ok.inj ((hexec fuel).symm.trans ht)
    exact hinv
  cases op with
  | write c => exact ⟨fun _ => (h.write c).1, (h.write c).2⟩
  | read len =>
    have hcur : m.reading m.sched.current = none := hl
    obtain ⟨m', hread, hinv, haccepted, j, hdelivered, hunread⟩ := Inv.readOn h.positions
      (hxs.congr fun p => ⟨fun hp => ⟨hp, fun heq => hp (heq ▸ hcur)⟩, And.left⟩) ⟨len, []⟩
    exact of_ok ⟨m', fun _ => hread, hinv, .takes j nofun hunread haccepted hdelivered⟩
  | resume =>
    obtain ⟨r, hr⟩ := Option.ne_none_iff_exists'.mp hl.1
    obtain ⟨w, zs, hdel, hsched, hw⟩ := hxs.currentLeave hl.1 () fun _ _ => rfl
    have hcur : w.sched.current = m.sched.current := by rw [hsched]
    refine of_ok ?_
    simp only [exec, hr, hdel, ok_bind]
    split
    · obtain ⟨m', hread, hinv, haccepted, j, hdelivered, hunread⟩ :=
        Inv.readOn (m := { m with toWaits := w }) (h.positions.wakeup w) (hcur.symm ▸ hw) r
      exact ⟨m', fun _ => hread, hinv, .takes j nofun hunread haccepted hdelivered⟩
    · refine ⟨_, fun _ => rfl, ⟨h.positions.wakeup w, zs, hw.congr fun p => ?_⟩, .same nofun rfl rfl rfl⟩
      by_cases hp : p = m.sched.current
      · simp [hp, hcur]
      · simp [hp, hcur]
  | schedule =>
    obtain ⟨s, hrun, -, hw⟩ := hxs.schedule
    exact of_ok ⟨{ m with sched := s }, fun _ => by rw [exec, hrun]; rfl,
      ⟨h.positions.wakeup _, xs, hw⟩, .same nofun rfl rfl rfl⟩
  | sleep waitState =>
    refine of_ok ⟨_, fun _ => rfl, h.reschedule ⟨ys, Sched.sleep_spec hys waitState⟩ fun p hp hz => ?_,
      .same nofun rfl rfl rfl⟩
    have hne : p ≠ m.sched.current := fun heq => hp (heq ▸ hl)
    rwa [Sched.sleep_of_ne _ _ hne]
  | wakeup p =>
    refine ⟨fun hno => absurd rfl (hno p), fun fuel m' hexec _ => ?_⟩
    have hspec := Sched.wakeupProc_spec hys hl
    rw [exec, Waits.wakeupProc] at hexec
    cases hrun : m.sched.wakeupProc p with
    | error e =>
      rw [hrun] at hexec
      cases hexec
    | ok s =>
      rw [hrun] at hexec hspec
      rw [← Except.ok.inj hexec]
      refine ⟨h.reschedule hspec.2 fun r _ hz => ?_, .same (by rintro c ⟨⟩) rfl rfl rfl⟩
      rw [hspec.1.state]
      split
      · rintro ⟨⟩
      · exact hz

/-- A step keeps the queue when it is harmless, and only then. -/
theorem Moved.fifo_iff (h : Moved m op m') (hfifo : m.Fifo) : m'.Fifo ↔ m.Harmless op := by
  unfold Fifo at *
  cases h with
  | accepts c hop hroom hunread haccepted hdelivered =>
    rw [hunread, haccepted, hdelivered, ← append_assoc, hfifo, hop]
    simp only [Harmless, true_iff]
    omega
  | rejects c hop hc hfull hunread haccepted hdelivered =>
    rw [hunread, haccepted, hdelivered, ← hfifo, append_cancel_left_eq, hop]
    cases hold : m.unread with
    | nil => simp [hold, stdinBufsize] at hfull
    | cons d ds =>
      rw [hold] at hfull
      have hne : ¬c = 0 := hc
      simp only [Harmless, hold, tail_cons, List.head?_cons, hfull, List.cons.injEq, and_true,
        Option.some.injEq]
      exact ⟨fun heq _ _ => heq.symm, fun heq => (heq hne trivial).symm⟩
  | takes j hop hunread haccepted hdelivered =>
    rw [hunread, haccepted, hdelivered, append_assoc, take_append_drop, hfifo]
    refine ⟨fun _ => ?_, fun _ => rfl⟩
    cases op with
    | write c => exact fun hc => absurd (hop c rfl) hc
    | _ => trivial

theorem Start.inv (h : Start m) : Inv m where
  positions := by
    rw [h.delivered, h.accepted]
    exact ⟨h.rpos, h.wpos, le_rfl, Nat.zero_le _, by simp⟩
  waiting := ⟨fun _ => [], h.queued, (Family.init fun _ => h.head).forget fun p hp => hp (h.reading p),
    by simp, by simp, by simp, by simp, by simp⟩

/-- **Keyboard input is a queue as long as the ring is not written while it is full.** In every run in
which fewer than `2^31` characters are accepted: a character is accepted if and only if fewer than
`STDIN_BUFSIZE` characters are unread; the characters delivered and then those unread are the
accepted ones in every state of the run if and only if each character that arrives while the ring
is full is the one that is already in its slot, the oldest unread one; and every call comes back. -/
theorem stdin_fifo_iff (n : Nat) (ms : Nat → StdinSys) (ops : Nat → StdinOp) (hstart : Start (ms 0))
    (hsteps : ∀ i < n, Step (ms i) (ops i) (ms (i + 1)))
    (hsmall : ∀ i ≤ n, (ms i).accepted.length < 2 ^ 31) :
    (∀ i < n, ∀ c, ops i = .write c → c ≠ 0 →
      ((ms (i + 1)).accepted = (ms i).accepted ++ [c] ∧ (ms i).unread.length < stdinBufsize ∨
        (ms (i + 1)).accepted = (ms i).accepted ∧ ¬(ms i).unread.length < stdinBufsize)) ∧
    ((∀ i ≤ n, (ms i).Fifo) ↔ ∀ i < n, (ms i).Harmless (ops i)) ∧
    ∀ i ≤ n, ∀ op, (ms i).Legal op → (∀ p, op ≠ .wakeup p) →
      ∃ fuel m', (ms i).exec fuel op = .ok m' := by
  have hinv : ∀ i ≤ n, Inv (ms i) := by
    intro i
    induction i with
    | zero => exact fun _ => hstart.inv
    | succ i ih =>
      intro hi
      obtain ⟨hl, fuel, hexec⟩ := hsteps i hi
      exact (((ih (by omega)).step hl).2 fuel _ hexec (hsmall _ hi)).1
  have hmoved : ∀ i < n, Moved (ms i) (ops i) (ms (i + 1)) := by
    intro i hi
    obtain ⟨hl, fuel, hexec⟩ := hsteps i hi
    exact (((hinv i hi.le).step hl).2 fuel _ hexec (hsmall _ hi)).2
  refine ⟨fun i hi c hop hc => ?_, ⟨fun hfifo i hi => ?_, fun hharmless i => ?_⟩, fun i hi op hl hno => ?_⟩
  · cases hmoved i hi with
    | accepts d hd hroom _ haccepted _ =>
      obtain rfl := StdinOp.write.inj (hop.symm.trans hd)
      exact .inl ⟨haccepted, hroom⟩
    | rejects d hd _ hfull _ haccepted _ => exact .inr ⟨haccepted, by omega⟩
    | takes j hother => exact absurd (hother c hop) hc
  · exact ((hmoved i hi).fifo_iff (hfifo i hi.le)).mp (hfifo (i + 1) hi)
  · induction i with
    | zero =>
      intro _
      have hunread : (ms 0).unread = [] := length_eq_zero_iff.mp (by
        rw [hstart.inv.positions.unread_length, hstart.accepted]
        simp)
      rw [Fifo, hunread, hstart.delivered, hstart.accepted]
      rfl
    | succ i ih =>
      intro hi
      exact ((hmoved i hi).fifo_iff (ih (by omega))).mpr (hharmless i hi)
  · exact ((hinv i hi).step hl).1 hno

/-! ### A ring that is full -/

/-- After `i` times the key `a`; nobody reads. -/
def pressed (i : Nat) : StdinSys where
  sched := Tasks.booted.sched
  links := ⟨id, id⟩
  wait p := ⟨p, 0, none⟩
  buffer j := if j < i then 0x61 else 0
  rpos := 0
  wpos := BitVec.ofNat 32 i
  alive := Tasks.booted.alive
  reading _ := none
  accepted := replicate i 0x61
  delivered := []

theorem pressed_start : Start (pressed 0) := by
  obtain ⟨c, hinv⟩ := Tasks.Reachable.inv ⟨_, Tasks.booted_booted, [], rfl⟩
  exact ⟨hinv.queued, ⟨rfl, rfl⟩, rfl, rfl, fun _ => rfl, rfl, rfl⟩

theorem pressed_at (hi : i ≤ stdinBufsize) : (pressed i).toStdin.At 0 i := by
  have hsize : i ≤ 4096 := hi
  exact ⟨rfl, rfl, Nat.zero_le i, by omega, by omega⟩

/-- Nobody waits, so a key only changes the ring. -/
theorem pressed_write (i : Nat) {c : BitVec 8} (hc : c ≠ 0) :
    (pressed i).devStdinWrite 0 c = .ok ((pressed i).toStdin.put c) := by
  have hempty : ((pressed i).toStdin.put c).waitQueueEmpty () = true := by
    rw [Stdin.put_toWaits]
    rfl
  rw [Stdin.devStdinWrite, if_pos hc]
  simp only [hempty]
  rfl

theorem pressed_step (hi : i < stdinBufsize) :
    Step (pressed i) (.write 0x61) (pressed (i + 1)) := by
  have hat := pressed_at hi.le
  have hsize : i < 4096 := hi
  have hslot : Stdin.slot (pressed i).wpos = i := by
    rw [hat.wpos, Stdin.slot_ofNat (by omega)]
    exact Nat.mod_eq_of_lt hsize
  have hwpos : (pressed i).wpos + 1 = BitVec.ofNat 32 (i + 1) := by
    rw [hat.wpos, BitVec.ofNat_add]
    rfl
  have hput : (pressed i).toStdin.put 0x61 = (pressed (i + 1)).toStdin := by
    rw [Stdin.put]
    rw [if_pos (hat.room_iff.mpr hi), hslot, hwpos]
    have hbuffer : update (pressed i).buffer i 0x61 = (pressed (i + 1)).buffer := by
      funext j
      by_cases hj : j = i
      · simp [hj, pressed]
      · have hiff : j < i + 1 ↔ j < i := by omega
        simp only [pressed, update_of_ne hj, hiff]
    rw [hbuffer]
    rfl
  have hne : (pressed (i + 1)).wpos ≠ (pressed i).wpos := by
    rw [← show (pressed i).wpos + 1 = (pressed (i + 1)).wpos from hwpos]
    bv_omega
  refine ⟨trivial, 0, ?_⟩
  rw [exec, pressed_write i (by decide), hput]
  simp only [ok_bind, pure_eq_ok, hne, if_false]
  simp [pressed, replicate_succ']

/-- The 4096 keys fill the ring, and all are still there in order. -/
theorem stdin_fifo_iff_pressed :
    (pressed stdinBufsize).unread.length = stdinBufsize ∧ (pressed stdinBufsize).Fifo := by
  refine ⟨(pressed_at le_rfl).unread_length, (stdin_fifo_iff stdinBufsize pressed
    (fun _ => .write 0x61) pressed_start (fun i hi => pressed_step hi) fun i hi => ?_).2.1.mpr
    (fun i hi _ hfull => ?_) stdinBufsize le_rfl⟩
  · have hsize : i ≤ 4096 := hi
    show (replicate i (0x61 : BitVec 8)).length < 2 ^ 31
    rw [length_replicate]
    omega
  · rw [(pressed_at hi.le).unread_length] at hfull
    omega

/-- The key `b` is pressed when the ring is full: it is not accepted, but it is what is read next in
place of the first `a`. -/
theorem full_ring_is_overwritten : ∃ (ms : Nat → StdinSys) (ops : Nat → StdinOp), Start (ms 0) ∧
    (∀ i < stdinBufsize + 1, Step (ms i) (ops i) (ms (i + 1))) ∧
    (ms (stdinBufsize + 1)).accepted = replicate stdinBufsize 0x61 ∧
    (ms (stdinBufsize + 1)).delivered = [] ∧
    (ms (stdinBufsize + 1)).unread.head? = some 0x62 ∧ ¬(ms (stdinBufsize + 1)).Fifo := by
  have hat := pressed_at le_rfl
  obtain ⟨-, hunread⟩ := hat.put_full rfl 0x62
  let last : StdinSys := { pressed stdinBufsize with
    toStdin := (pressed stdinBufsize).toStdin.put 0x62 }
  have hlast : Step (pressed stdinBufsize) (.write 0x62) last := by
    refine ⟨trivial, 0, ?_⟩
    rw [exec, pressed_write stdinBufsize (by decide)]
    rfl
  have hfifo : ¬last.Fifo := by
    show ¬[] ++ ((pressed stdinBufsize).toStdin.put 0x62).unread = replicate stdinBufsize 0x61
    rw [hunread, nil_append, show stdinBufsize = 4095 + 1 from rfl, replicate_succ]
    intro heq
    exact absurd (List.cons.inj heq).1 (by decide)
  refine ⟨fun i => if i ≤ stdinBufsize then pressed i else last,
    fun i => if i < stdinBufsize then .write 0x61 else .write 0x62, pressed_start, fun i hi => ?_, rfl, rfl,
    ?_, hfifo⟩
  · by_cases hlt : i < stdinBufsize
    · simpa [hlt, hlt.le, Nat.succ_le_of_lt hlt] using pressed_step hlt
    · obtain rfl : i = stdinBufsize := by omega
      simpa [Nat.not_succ_le_self stdinBufsize] using hlast
  · show ((pressed stdinBufsize).toStdin.put 0x62).unread.head? = some 0x62
    rw [hunread]
    rfl

end StdinSys

end UcoreMips.Kernel
