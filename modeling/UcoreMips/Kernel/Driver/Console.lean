import UcoreMips.Lib.Buffer

/-!
# UcoreMips.Kernel.Driver.Console

**The input buffer of the console** (`kern/driver/console.c`). `cons_intr` stores what the serial port
has received in a ring, and `cons_getc` takes a character out of it.

The writer does not look at `rpos`. The ring is a queue of at most `CONSBUFSIZE - 1` characters; one
more makes `wpos` equal to `rpos`, and all of them are lost (`console_fifo_iff`). The serial port is there
(`serial_exists`).
-/

namespace UcoreMips.Kernel

open UcoreMips.Lib
open Function (update)
open List

def consBufsize : Nat := 512

structure Cons where
  buf : Nat → BitVec 8
  rpos : Nat
  wpos : Nat

/-- A position behind the last one is the first one again. -/
def wrap (pos : Nat) : Nat := if pos = consBufsize then 0 else pos

/-- `serial_proc_data`, for a character that has been received. -/
def serialProcData (c : BitVec 8) : BitVec 8 := if c = 127 then 8 else c

namespace Cons

/-- One turn of the loop of `cons_intr`. -/
def receive (s : Cons) (c : BitVec 8) : Cons :=
  if serialProcData c ≠ 0 then
    { s with buf := update s.buf s.wpos (serialProcData c), wpos := wrap (s.wpos + 1) }
  else s

/-- `cons_intr(serial_proc_data)`, with the characters that the port has received. -/
def consIntr (s : Cons) (burst : List (BitVec 8)) : Cons := burst.foldl receive s

/-- `cons_getc`. -/
def consGetc (s : Cons) (burst : List (BitVec 8)) : BitVec 8 × Cons :=
  let s := s.consIntr burst
  if s.rpos ≠ s.wpos then (s.buf s.rpos, { s with rpos := wrap (s.rpos + 1) }) else (0, s)

end Cons

inductive ConsOp
  | serialIntr (burst : List (BitVec 8))
  | consGetc (burst : List (BitVec 8))

def ConsOp.burst : ConsOp → List (BitVec 8)
  | .serialIntr burst | .consGetc burst => burst

namespace Cons

def exec (s : Cons) : ConsOp → Cons
  | .serialIntr burst => s.consIntr burst
  | .consGetc burst => (s.consGetc burst).2

/-- What has not been read yet. -/
def unread (s : Cons) : List (BitVec 8) :=
  ring s.buf consBufsize s.rpos ((s.wpos + consBufsize - s.rpos) % consBufsize)

/-- A character arrives at a queue. It can drop characters when it is full, but not all of them. -/
def Queued (q : List (BitVec 8)) (c : BitVec 8) (q' : List (BitVec 8)) : Prop :=
  q' = q ++ [c] ∨ consBufsize - 1 ≤ q.length ∧ q' <+ q ++ [c] ∧ q' ≠ []

/-- A character that arrives is queued. -/
def Keeps (s : Cons) (c : BitVec 8) : Prop :=
  c ≠ 0 → Queued s.unread (serialProcData c) (s.receive c).unread

/-- There is room for the character. -/
def Fits (s : Cons) (c : BitVec 8) : Prop := c ≠ 0 → s.unread.length ≠ consBufsize - 1

/-- What holds for each character of a burst, in the state in which it arrives. -/
def Each (P : Cons → BitVec 8 → Prop) : Cons → List (BitVec 8) → Prop
  | _, [] => True
  | s, c :: burst => P s c ∧ Each P (s.receive c) burst

/-- What holds for each character in a run. -/
def EachRun (P : Cons → BitVec 8 → Prop) : Cons → List ConsOp → Prop
  | _, [] => True
  | s, op :: ops => Each P s op.burst ∧ EachRun P (s.exec op) ops

/-- The positions are in the buffer. -/
structure Inv (s : Cons) : Prop where
  rpos : s.rpos < consBufsize
  wpos : s.wpos < consBufsize

variable {s : Cons} {c : BitVec 8} {burst : List (BitVec 8)}

theorem wrap_succ {pos : Nat} (h : pos < consBufsize) : wrap (pos + 1) = (pos + 1) % consBufsize := by
  rw [wrap]
  split
  · next heq => rw [heq, Nat.mod_self]
  · next hne => exact (Nat.mod_eq_of_lt (lt_of_le_of_ne h hne)).symm

theorem wrap_lt {pos : Nat} (h : pos < consBufsize) : wrap (pos + 1) < consBufsize :=
  wrap_succ h ▸ Nat.mod_lt _ (by decide)

theorem unread_eq {buf : Nat → BitVec 8} {rpos wpos n : Nat} (hr : rpos < consBufsize) (hn : n < consBufsize)
    (hw : wpos = (rpos + n) % consBufsize) : unread ⟨buf, rpos, wpos⟩ = ring buf consBufsize rpos n := by
  have hcount : (wpos + consBufsize - rpos) % consBufsize = n := by
    unfold consBufsize at *
    omega
  rw [unread, hcount]

/-- How many characters there are. -/
theorem Inv.exists_count (h : s.Inv) : ∃ n < consBufsize, s.wpos = (s.rpos + n) % consBufsize ∧
    s.unread = ring s.buf consBufsize s.rpos n := by
  refine ⟨_, Nat.mod_lt _ (by decide), ?_, rfl⟩
  have hr := h.rpos
  have hw := h.wpos
  unfold consBufsize at *
  omega

theorem receive_eq (hc : c ≠ 0) : s.receive c =
    ⟨update s.buf s.wpos (serialProcData c), s.rpos, wrap (s.wpos + 1)⟩ := by
  refine if_pos ?_
  rw [serialProcData]
  split
  · decide
  · exact hc

theorem Inv.receive (h : s.Inv) (c : BitVec 8) : (s.receive c).Inv := by
  rw [Cons.receive]
  split
  · exact ⟨h.rpos, wrap_lt h.wpos⟩
  · exact h

/-- The ring keeps a character just when there is room for it. -/
theorem Inv.keeps_iff (h : s.Inv) : s.Keeps c ↔ s.Fits c := by
  refine forall_congr' fun hc => ?_
  obtain ⟨n, hn, hw, hunread⟩ := h.exists_count
  have hwpos : wrap (s.wpos + 1) = (s.rpos + (n + 1)) % consBufsize := by
    rw [wrap_succ h.wpos, hw, Nat.mod_add_mod, Nat.add_assoc]
  rw [receive_eq hc, hunread, show (ring ..).length = n from length_span]
  rcases Nat.lt_or_ge (n + 1) consBufsize with hroom | hfull
  · refine iff_of_true (.inl ?_) (by omega)
    rw [unread_eq h.rpos hroom hwpos, hw]
    exact ring_update hn _
  · obtain rfl : n = consBufsize - 1 := by omega
    refine iff_of_false ?_ (absurd rfl)
    rw [unread_eq (n := 0) h.rpos (by decide) (hwpos.trans (Nat.add_mod_right ..))]
    rintro (happend | ⟨-, -, hne⟩)
    · exact append_ne_nil_of_right_ne_nil _ (cons_ne_nil _ _) happend.symm
    · exact hne rfl

/-- `cons_getc` takes the first character out of the queue. -/
theorem Inv.getc (h : s.Inv) : (s.consGetc []).1 = s.unread.headD 0 ∧
    (s.consGetc []).2.unread = s.unread.tail ∧ (s.consGetc []).2.Inv := by
  obtain ⟨n, hn, hw, hunread⟩ := h.exists_count
  rw [Cons.consGetc, consIntr, foldl_nil, hunread]
  cases n with
  | zero =>
    have heq : s.wpos = s.rpos := hw.trans (Nat.mod_eq_of_lt h.rpos)
    rw [if_neg (not_not.mpr heq.symm)]
    exact ⟨rfl, hunread, h⟩
  | succ n =>
    have hr := h.rpos
    have hne : s.rpos ≠ s.wpos := by
      unfold consBufsize at *
      omega
    rw [if_pos hne, ring_succ, Nat.mod_eq_of_lt hr]
    refine ⟨rfl, ?_, wrap_lt hr, h.wpos⟩
    rw [unread_eq (n := n) (wrap_lt hr) (by omega)]
    · rw [wrap_succ hr, ring_mod]
      rfl
    · rw [wrap_succ hr, Nat.mod_add_mod, hw]
      congr 1
      omega

theorem Inv.consIntr (h : s.Inv) : (s.consIntr burst).Inv := by
  induction burst generalizing s with
  | nil => exact h
  | cons c burst ih => exact ih (h.receive c)

theorem Inv.exec (h : s.Inv) (op : ConsOp) : (s.exec op).Inv := by
  cases op with
  | serialIntr burst => exact h.consIntr
  | consGetc burst => exact h.consIntr.getc.2.2

theorem Inv.each_iff (h : s.Inv) : Each Keeps s burst ↔ Each Fits s burst := by
  induction burst generalizing s with
  | nil => rfl
  | cons c burst ih => exact and_congr h.keeps_iff (ih (h.receive c))

/-- **The console is a queue as long as there is room.** Each character that is received is queued if
and only if none arrives while `CONSBUFSIZE - 1` are unread, and `cons_getc` always takes the first one. -/
theorem console_fifo_iff (buf : Nat → BitVec 8) (ops : List ConsOp) :
    (EachRun Keeps ⟨buf, 0, 0⟩ ops ↔ EachRun Fits ⟨buf, 0, 0⟩ ops) ∧
    ∀ burst, let s := (ops.foldl exec ⟨buf, 0, 0⟩).consIntr burst
      let r := (ops.foldl exec ⟨buf, 0, 0⟩).consGetc burst
      r.1 = s.unread.headD 0 ∧ r.2.unread = s.unread.tail := by
  have hstart : Inv ⟨buf, 0, 0⟩ := ⟨show 0 < 512 by decide, show 0 < 512 by decide⟩
  generalize (⟨buf, 0, 0⟩ : Cons) = s at hstart ⊢
  induction ops generalizing s with
  | nil =>
    refine ⟨Iff.rfl, fun burst => ?_⟩
    have hburst : (s.consIntr burst).Inv := hstart.consIntr
    obtain ⟨hget, hrest, -⟩ := hburst.getc
    exact ⟨hget, hrest⟩
  | cons op ops ih =>
    obtain ⟨hrun, hget⟩ := ih _ (hstart.exec op)
    exact ⟨and_congr hstart.each_iff hrun, hget⟩

/-- One character more than `CONSBUFSIZE - 1`: nothing is left. -/
theorem full_console_is_empty :
    (consIntr ⟨fun _ => 0, 0, 0⟩ (replicate 511 0x61)).unread = replicate 511 0x61 ∧
      (consIntr ⟨fun _ => 0, 0, 0⟩ (replicate 512 0x61)).unread = [] := by
  decide +kernel

end Cons

end UcoreMips.Kernel
