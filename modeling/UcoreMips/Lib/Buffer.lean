import UcoreMips.Lib.Bytes

/-!
# UcoreMips.Lib.Buffer

**Buffers of bytes** of a fixed size, as blocks of a disk are: reading and writing a part of
a buffer, and little-endian words in it.

A buffer is determined by its bytes (`ext_get`). Words at multiples of their size do not
overlap, so storing one is an update of the words (`word_patch`).
-/

namespace UcoreMips.Lib

open List Nat

/-- A buffer of `n` bytes. -/
def Buffer (n : Nat) : Type := Fin n → BitVec 8

/-! ### The values of a function on an interval -/

section Span

variable {α : Type} {f g : Nat → α} {off m n : Nat}

/-- The values of `f` at `n` places from `off` on. -/
def span (f : Nat → α) (off n : Nat) : List α := (List.range n).map fun i => f (off + i)

@[simp] theorem length_span : (span f off n).length = n := by simp [span]

theorem getElem?_span (hm : m < n) : (span f off n)[m]? = some (f (off + m)) := by simp [span, hm]

theorem span_add (f : Nat → α) (off m n : Nat) :
    span f off (m + n) = span f off m ++ span f (off + m) n := by
  simp only [span, range_add, map_append, map_map]
  simp [Function.comp_def, add_assoc]

theorem take_span : (span f off n).take m = span f off (min m n) := by
  rw [span, ← map_take, take_range, span]

theorem drop_span : (span f off n).drop m = span f (off + m) (n - m) := by
  by_cases hm : m ≤ n
  · obtain ⟨k, rfl⟩ := Nat.exists_eq_add_of_le hm
    rw [span_add, drop_left' length_span, Nat.add_sub_cancel_left]
  · rw [drop_eq_nil_of_le (by rw [length_span]; omega), Nat.sub_eq_zero_of_le (by omega)]
    rfl

theorem span_eq_iff : span f off n = span g off n ↔ ∀ i < n, f (off + i) = g (off + i) := by
  simp [span, map_inj_left]

/-- The values on a ring: `n` of them, from the place `off` on. -/
def ring (f : Nat → α) (size off n : Nat) : List α := span (fun i => f (i % size)) off n

theorem ring_succ (f : Nat → α) (size off n : Nat) :
    ring f size off (n + 1) = f (off % size) :: ring f size (off + 1) n := by
  rw [ring, add_comm n, span_add]
  rfl

theorem ring_mod (f : Nat → α) (size off n : Nat) : ring f size (off % size) n = ring f size off n := by
  simp [ring, span]

/-- A value is added at the end. -/
theorem ring_update {size : Nat} (hn : n < size) (x : α) :
    ring (Function.update f ((off + n) % size) x) size off (n + 1) = ring f size off n ++ [x] := by
  have hold : ring (Function.update f ((off + n) % size) x) size off n = ring f size off n :=
    span_eq_iff.mpr fun i hi => Function.update_of_ne (fun heq => by
      have hzero := sub_mod_eq_zero_of_mod_eq heq.symm
      rw [Nat.add_sub_add_left, mod_eq_of_lt (by omega)] at hzero
      omega) ..
  rw [ring, span_add]
  exact congrArg₂ _ hold (congrArg (fun y => [y]) (Function.update_self ..))

end Span

/-- Four bytes as a word, the least significant first. -/
def ofBytes (f : Nat → BitVec 8) : BitVec 32 :=
  (f 0).setWidth 32 ||| (f 1).setWidth 32 <<< 8 ||| (f 2).setWidth 32 <<< 16
    ||| (f 3).setWidth 32 <<< 24

variable {f : Nat → BitVec 8} {i k : Nat}

theorem byteAt_ofBytes (hi : i < 4) : byteAt (ofBytes f) i = f i :=
  byteAt_join_four hi

theorem ofBytes_byteAt (w : BitVec 32) : ofBytes (byteAt w) = w :=
  eq_of_bytes (n := 4) (by decide) fun _ hi => byteAt_ofBytes hi

theorem ofBytes_congr {g : Nat → BitVec 8} (h : ∀ i < 4, f i = g i) : ofBytes f = ofBytes g := by
  refine eq_of_bytes (n := 4) (by decide) fun i hi => ?_
  rw [byteAt_ofBytes hi, byteAt_ofBytes hi, h i hi]

/-- The bytes of a word. -/
def wordBytes (w : BitVec 32) : List (BitVec 8) := (List.range 4).map (byteAt w)

@[simp] theorem length_wordBytes (w : BitVec 32) : (wordBytes w).length = 4 := by
  simp [wordBytes]

theorem getD_wordBytes (w : BitVec 32) (hi : i < 4) (x : BitVec 8) :
    (wordBytes w).getD i x = byteAt w i := by
  simp [wordBytes, getD_eq_getElem?_getD, hi]

theorem length_flatMap_wordBytes (ws : List (BitVec 32)) :
    (ws.flatMap wordBytes).length = 4 * ws.length := by
  induction ws with
  | nil => rfl
  | cons w ws ih =>
    rw [flatMap_cons, length_append, ih, length_wordBytes, length_cons]
    omega

theorem getD_flatMap_wordBytes (ws : List (BitVec 32)) (rest : List (BitVec 8))
    (hk : k < ws.length) (hi : i < 4) (x : BitVec 8) :
    (ws.flatMap wordBytes ++ rest).getD (4 * k + i) x = byteAt ws[k] i := by
  induction ws generalizing k with
  | nil => cases hk
  | cons w ws ih =>
    rw [flatMap_cons, append_assoc]
    cases k with
    | zero =>
      rw [mul_zero, zero_add, getD_append _ _ _ _ (by rw [length_wordBytes]; exact hi),
        getD_wordBytes w hi]
      rfl
    | succ k =>
      rw [getD_append_right _ _ _ _ (by rw [length_wordBytes]; omega), length_wordBytes,
        show 4 * (k + 1) + i - 4 = 4 * k + i by omega]
      exact ih (lt_of_succ_lt_succ hk)

/-- The word at the beginning of a list of bytes. -/
def leWord (bs : List (BitVec 8)) : BitVec 32 := ofBytes fun i => bs.getD i 0

namespace Buffer

variable {n : Nat}

/-- The byte at an index, 0 outside the buffer. -/
def get (b : Buffer n) (i : Nat) : BitVec 8 := if h : i < n then b ⟨i, h⟩ else 0

/-- A buffer of zeros. -/
def zero : Buffer n := fun _ => 0

/-- `len` bytes from `off` on. -/
def slice (b : Buffer n) (off len : Nat) : List (BitVec 8) :=
  (List.range len).map fun i => b.get (off + i)

/-- The bytes from `off` on replaced. -/
def patch (b : Buffer n) (off : Nat) (bs : List (BitVec 8)) : Buffer n :=
  fun i => if off ≤ i.val then bs.getD (i.val - off) (b i) else b i

/-- A buffer that begins with the given bytes. -/
def ofList (bs : List (BitVec 8)) : Buffer n := fun i => bs.getD i.val 0

/-- Word `k` of the buffer. -/
def word (b : Buffer n) (k : Nat) : BitVec 32 := ofBytes fun i => b.get (4 * k + i)

/-- A buffer with the given words. -/
def ofWords (f : Nat → BitVec 32) : Buffer n := fun i => byteAt (f (i.val / 4)) (i.val % 4)

variable {i off : Nat} {bs : List (BitVec 8)}

theorem get_of_lt (b : Buffer n) (hi : i < n) : b.get i = b ⟨i, hi⟩ := dif_pos hi

theorem ext_get {a b : Buffer n} (h : ∀ i < n, a.get i = b.get i) : a = b := by
  funext ⟨i, hi⟩
  have heq := h i hi
  rwa [get_of_lt a hi, get_of_lt b hi] at heq

@[simp] theorem get_zero (i : Nat) : (zero : Buffer n).get i = 0 := by
  unfold get
  split <;> rfl

@[simp] theorem length_slice (b : Buffer n) (off len : Nat) : (b.slice off len).length = len := by
  simp [slice]

theorem getD_slice (b : Buffer n) (off : Nat) {len : Nat} (hi : i < len) (x : BitVec 8) :
    (b.slice off len).getD i x = b.get (off + i) := by
  simp [slice, getD_eq_getElem?_getD, hi]

theorem get_patch_inside (b : Buffer n) (hi : i < n) (hle : off ≤ i)
    (hlt : i < off + bs.length) (x : BitVec 8) :
    (b.patch off bs).get i = bs.getD (i - off) x := by
  have hlt' : i - off < bs.length := by omega
  simp [get_of_lt _ hi, patch, hle, getD_eq_getElem?_getD, hlt']

theorem get_patch_outside (b : Buffer n)
    (h : i < off ∨ off + bs.length ≤ i) : (b.patch off bs).get i = b.get i := by
  by_cases hi : i < n
  · rw [get_of_lt _ hi, get_of_lt _ hi, patch]
    split
    · rename_i hle
      have hle' : off ≤ i := hle
      have hlen : bs.length ≤ i - off := by omega
      simp [getD_eq_getElem?_getD, List.getElem?_eq_none hlen]
    · rfl
  · rw [get, get, dif_neg hi, dif_neg hi]

theorem get_ofList (bs : List (BitVec 8)) (hi : i < n) :
    (ofList bs : Buffer n).get i = bs.getD i 0 := by
  rw [get_of_lt _ hi, ofList]

/-- A list that fills the buffer replaces all of it. -/
theorem ofList_eq_patch (b : Buffer n) (h : n ≤ bs.length) :
    (ofList bs : Buffer n) = b.patch 0 (bs.take n) := by
  have hlen : (bs.take n).length = n := by rw [length_take, min_eq_left h]
  refine ext_get fun i hi => ?_
  rw [get_ofList _ hi, get_patch_inside _ hi (zero_le i) (by rw [hlen, zero_add]; exact hi) 0,
    Nat.sub_zero, getD_eq_getElem?_getD, getD_eq_getElem?_getD, List.getElem?_take_of_lt hi]

theorem ofList_slice (b : Buffer n) : (ofList (b.slice 0 n) : Buffer n) = b := by
  refine ext_get fun i hi => ?_
  rw [get_ofList _ hi, getD_slice b 0 hi, zero_add]

/-- Buffers one after the other: byte `i` is in buffer `i / n`. -/
theorem flatMap_slice (hn : 0 < n) (f : Nat → Buffer n) (m : Nat) :
    ((List.range m).flatMap fun k => (f k).slice 0 n) =
      span (fun i => (f (i / n)).get (i % n)) 0 (m * n) := by
  induction m with
  | zero => simp [span]
  | succ m ih =>
    rw [range_succ, flatMap_append, ih, succ_mul, span_add, flatMap_singleton, zero_add]
    congr 1
    refine map_congr_left fun i hi => ?_
    have hlt : i < n := mem_range.mp hi
    dsimp only
    rw [zero_add, mul_comm, mul_add_div hn, div_eq_of_lt hlt, mul_add_mod,
      mod_eq_of_lt hlt, add_zero]

theorem get_ofWords (f : Nat → BitVec 32) (hi : i < n) :
    (ofWords f : Buffer n).get i = byteAt (f (i / 4)) (i % 4) := by
  rw [get_of_lt _ hi, ofWords]

/-! ### Words -/

theorem leWord_slice (b : Buffer n) (k : Nat) : leWord (b.slice (4 * k) 4) = b.word k :=
  ofBytes_congr fun _ hi => getD_slice b _ hi 0

@[simp] theorem word_zero (k : Nat) : (zero : Buffer n).word k = 0 := by
  have hzero : (fun i => (zero : Buffer n).get (4 * k + i)) = byteAt (0 : BitVec 32) := by
    funext
    simp [byteAt]
  rw [word, hzero, ofBytes_byteAt]

theorem word_ofWords (f : Nat → BitVec 32) (hk : 4 * k + 4 ≤ n) :
    (ofWords f : Buffer n).word k = f k := by
  rw [word, ofBytes_congr (g := byteAt (f k)) fun i hi => ?_, ofBytes_byteAt]
  rw [get_ofWords f (by omega), show (4 * k + i) / 4 = k by omega,
    show (4 * k + i) % 4 = i by omega]

theorem word_ofList (ws : List (BitVec 32)) (rest : List (BitVec 8)) (hk : k < ws.length)
    (hn : 4 * k + 4 ≤ n) : (ofList (ws.flatMap wordBytes ++ rest) : Buffer n).word k = ws[k] := by
  rw [word, ofBytes_congr (g := byteAt ws[k]) fun i hi => ?_, ofBytes_byteAt]
  rw [get_ofList _ (by omega), getD_flatMap_wordBytes ws rest hk hi]

theorem word_patch_self (b : Buffer n) (hk : 4 * k + 4 ≤ n) (w : BitVec 32) :
    (b.patch (4 * k) (wordBytes w)).word k = w := by
  rw [word, ofBytes_congr (g := byteAt w) fun i hi => ?_, ofBytes_byteAt]
  rw [get_patch_inside b (by omega) (by omega) (by rw [length_wordBytes]; omega) 0,
    Nat.add_sub_cancel_left, getD_wordBytes w hi]

theorem word_patch_of_ne (b : Buffer n) {j : Nat} (hjk : j ≠ k) (w : BitVec 32) :
    (b.patch (4 * k) (wordBytes w)).word j = b.word j := by
  refine ofBytes_congr fun i hi => get_patch_outside b ?_
  rw [length_wordBytes]
  omega

end Buffer

end UcoreMips.Lib
