import Mathlib

/-!
# UcoreMips.Kernel.Debug.Kmonitor

**The command lines of the kernel monitor** (`kern/debug/kmonitor.c`): `parse` cuts a line into words
and stores where they begin in `argv`, which has `MAXARGS` elements.

The words are those between the blanks (`parse_spec`). One word too many is reported, but stored all
the same, so `parse` is right for the lines with at most `MAXARGS` words (`parse_inside_argv_iff`).
-/

namespace UcoreMips.Kernel

open List

def maxArgs : Nat := 16

/-- `strchr(WHITESPACE, c) != NULL`. -/
def isSpace (c : BitVec 8) : Bool := [0x20, 0x09, 0x0a, 0x0d].contains c

structure Parsed where
  /-- The line as it is afterwards. -/
  buf : List (BitVec 8)
  /-- The stores to `argv`: the index, and the place in the line. -/
  argv : List (Nat × Nat)
  argc : Nat
  output : List String

/-- `parse` at the place `pos` of the line; `inWord` tells which of the inner loops it is in. -/
def parseFrom (inWord : Bool) (argc pos : Nat) : List (BitVec 8) → Parsed
  | [] => ⟨[], [], argc, []⟩
  | c :: buf =>
    if isSpace c then
      let r := parseFrom false argc (pos + 1) buf
      { r with buf := 0 :: r.buf }
    else if inWord then
      let r := parseFrom true argc (pos + 1) buf
      { r with buf := c :: r.buf }
    else
      let r := parseFrom true (argc + 1) (pos + 1) buf
      { r with
        buf := c :: r.buf
        argv := (argc, pos) :: r.argv
        output := if argc = maxArgs - 1 then "Too many arguments (max 16).\n" :: r.output else r.output }

def parse (buf : List (BitVec 8)) : Parsed := parseFrom false 0 0 buf

/-- The string at a place of a line, which ends with a NUL. -/
def stringAt (buf : List (BitVec 8)) (pos : Nat) : List (BitVec 8) := ((buf ++ [0]).drop pos).takeWhile (· != 0)

/-- The words of a line. -/
def words (line : List (BitVec 8)) : List (List (BitVec 8)) := (line.splitOnP isSpace).filter (· ≠ [])

/-- What `parse` is for: it stores the first words, all of them if there is room. -/
structure InsideArgv (line : List (BitVec 8)) (r : Parsed) : Prop where
  stores : ∀ a ∈ r.argv, a.1 < maxArgs
  argc_le : r.argc ≤ maxArgs
  indices : r.argv.map Prod.fst = List.range r.argc
  strings : r.argv.map (fun a => stringAt r.buf a.2) <+: words line
  all : (words line).length ≤ maxArgs → r.argc = (words line).length

variable {w : Bool} {k i : Nat} {buf line u : List (BitVec 8)}

theorem splitOnP_eq_cons (buf : List (BitVec 8)) :
    ∃ ws, buf.splitOnP isSpace = buf.takeWhile (!isSpace ·) :: ws := by
  induction buf with
  | nil => exact ⟨[], rfl⟩
  | cons c buf ih =>
    obtain ⟨ws, hsplit⟩ := ih
    rw [splitOnP_cons_eq_if_modifyHead, hsplit, takeWhile_cons]
    cases isSpace c with
    | true => exact ⟨_, rfl⟩
    | false => exact ⟨ws, rfl⟩

/-- What becomes of a character. -/
def blank (c : BitVec 8) : BitVec 8 := if isSpace c then 0 else c

theorem parseFrom_buf : (parseFrom w k i buf).buf = buf.map blank := by
  induction buf generalizing w k i with
  | nil => rfl
  | cons c buf ih =>
    rw [parseFrom, map_cons, blank]
    split
    · exact congrArg (0 :: ·) ih
    · split <;> exact congrArg (c :: ·) ih

theorem parseFrom_argv : (parseFrom w k i buf).argv.map Prod.fst =
      List.range' k (parseFrom w k i buf).argv.length ∧
    (parseFrom w k i buf).argc = k + (parseFrom w k i buf).argv.length := by
  induction buf generalizing w k i with
  | nil => exact ⟨rfl, rfl⟩
  | cons c buf ih =>
    rw [parseFrom]
    split
    · exact ih
    split
    · exact ih
    · obtain ⟨hindices, hargc⟩ := ih (w := true) (k := k + 1) (i := i + 1)
      simp only [map_cons, length_cons, range'_succ, hindices, hargc]
      exact ⟨trivial, by omega⟩

/-- The string at a place ends with the word. -/
theorem stringAt_blank (hbuf : 0 ∉ buf) :
    stringAt ((u ++ buf).map blank) u.length = buf.takeWhile (!isSpace ·) := by
  rw [stringAt, map_append, append_assoc, drop_left' (length_map _)]
  induction buf with
  | nil => rfl
  | cons c buf ih =>
    rw [mem_cons, not_or] at hbuf
    rw [map_cons, cons_append, takeWhile_cons, takeWhile_cons, blank]
    cases hc : isSpace c with
    | true => simp
    | false =>
      rw [if_neg Bool.false_ne_true, if_pos (bne_iff_ne.mpr (Ne.symm hbuf.1)), ih hbuf.2]
      rfl

/-- From any place on: within a word, the rest of that word has been dealt with. -/
theorem parseFrom_strings (hbuf : 0 ∉ buf) :
    (parseFrom w k u.length buf).argv.map (fun a => stringAt ((u ++ buf).map blank) a.2) =
      ((buf.splitOnP isSpace).drop (if w then 1 else 0)).filter (· ≠ []) := by
  induction buf generalizing w k u with
  | nil => cases w <;> rfl
  | cons c buf ih =>
    have hself := stringAt_blank (u := u) hbuf
    have hrest := fun w k => ih (w := w) (k := k) (u := u ++ [c]) (not_mem_of_not_mem_cons hbuf)
    simp only [append_assoc, singleton_append, length_append, length_singleton] at hrest
    rw [parseFrom, splitOnP_cons_eq_if_modifyHead]
    cases hc : isSpace c with
    | true =>
      refine (hrest false k).trans ?_
      cases w <;> simp
    | false =>
      cases w with
      | true =>
        refine (hrest true k).trans ?_
        simp
      | false =>
        obtain ⟨ws, hsplit⟩ := splitOnP_eq_cons buf
        refine (congrArg₂ cons hself (hrest true (k + 1))).trans ?_
        simp [hsplit, hc]

theorem parse_spec (hline : 0 ∉ line) :
    (parse line).argv.map (fun a => stringAt (parse line).buf a.2) = words line ∧
      (parse line).argv.map Prod.fst = List.range (words line).length ∧
      (parse line).argc = (words line).length := by
  have hstrings := parseFrom_strings (w := false) (k := 0) (u := []) hline
  rw [nil_append, ← parseFrom_buf (w := false) (k := 0) (i := 0)] at hstrings
  have hlen : (parse line).argv.length = (words line).length := by
    exact (length_map _).symm.trans (congrArg _ hstrings)
  obtain ⟨hindices, hargc⟩ : _ ∧ (parse line).argc = _ := parseFrom_argv
  rw [← hlen, range_eq_range']
  exact ⟨hstrings, hindices, hargc.trans (Nat.zero_add _)⟩

/-- **`parse` stays inside `argv`** just for the lines with at most `MAXARGS` words. -/
theorem parse_inside_argv_iff (hline : 0 ∉ line) :
    InsideArgv line (parse line) ↔ (words line).length ≤ maxArgs := by
  obtain ⟨hstrings, hindices, hargc⟩ := parse_spec hline
  refine ⟨fun h => hargc ▸ h.argc_le, fun hfew => ⟨fun a ha => ?_, ?_, ?_, ?_, fun _ => hargc⟩⟩
  · have hlt := mem_range.mp (hindices ▸ mem_map_of_mem ha)
    exact Nat.lt_of_lt_of_le hlt hfew
  · rwa [hargc]
  · rw [hindices, hargc]
  · exact hstrings ▸ prefix_rfl

theorem parse_inside_argv_iff_help : InsideArgv [0x68, 0x65, 0x6c, 0x70] (parse [0x68, 0x65, 0x6c, 0x70]) :=
  (parse_inside_argv_iff (by decide)).mpr (by decide)

/-- The line `a a a …` with 17 words: the last one is stored behind `argv`. -/
theorem parse_overruns_argv : ¬InsideArgv (replicate 17 [0x61, 0x20]).flatten
    (parse (replicate 17 [0x61, 0x20]).flatten) :=
  fun h => absurd (h.stores (maxArgs, 32) (by decide)) (by decide)

end UcoreMips.Kernel
