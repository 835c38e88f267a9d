import UcoreMips.Emulator.Cpu
import UcoreMips.Kernel.Base

/-!
# UcoreMips.Kernel.Fs.Bitmap

**Bitmaps** (`kern/fs/sfs/bitmap.c`): a fixed number of bits in an array of words. A bit is 1
where the thing it stands for is free.

A bitmap is the set of its bits (`Bitmap.bits`): `bitmap_alloc` removes the least one
(`alloc_spec`), `bitmap_free` adds one (`free_spec`).
-/

namespace UcoreMips.Kernel

open UcoreMips.Lib Finset
open Emulator (Word)

/-- `struct bitmap`. -/
structure Bitmap where
  nbits : Nat
  nwords : Nat
  map : Nat → Word

namespace Bitmap

/-- `WORD_BITS`. -/
def wordBits : Nat := 32

/-- `bitmap_create`, with the memory for it. -/
def create (nbits : Nat) : Except Stop Bitmap :=
  if ¬(nbits ≠ 0 ∧ (nbits + wordBits) % 2 ^ 32 > nbits) then .error .assertion
  else
    let nwords := (nbits + wordBits - 1) / wordBits
    let bitmap : Bitmap := ⟨nbits, nwords, fun _ => 0xffffffff#32⟩
    if nbits = nwords * wordBits then .ok bitmap
    else
      let ix := nwords - 1
      let overbits := nbits - ix * wordBits
      if ¬(nbits / wordBits = ix) then .error .assertion
      else if ¬(0 < overbits ∧ overbits < wordBits) then .error .assertion
      else
        -- the bits that are left over at the end are marked in use
        let last := (List.range' overbits (wordBits - overbits)).foldl
          (fun w k => w ^^^ (1#32 <<< k)) (bitmap.map ix)
        .ok { bitmap with map := Function.update bitmap.map ix last }

/-- `bitmap_alloc`: the index of a bit that was set, or `none` for `-E_NO_MEM`. -/
def alloc (bitmap : Bitmap) : Except Stop (Option (Nat × Bitmap)) :=
  match (List.range bitmap.nwords).find? fun ix => bitmap.map ix ≠ 0 with
  | none => .ok none
  | some ix =>
    match (List.range wordBits).find? fun offset => bitmap.map ix &&& (1#32 <<< offset) ≠ 0 with
    | none => .error .assertion
    | some offset =>
      let map := Function.update bitmap.map ix (bitmap.map ix ^^^ (1#32 <<< offset))
      .ok (some (ix * wordBits + offset, { bitmap with map := map }))

/-- `bitmap_test`. -/
def test (bitmap : Bitmap) (index : Nat) : Except Stop Bool :=
  if ¬index < bitmap.nbits then .error .assertion
  else .ok (bitmap.map (index / wordBits) &&& (1#32 <<< (index % wordBits)) ≠ 0)

/-- `bitmap_free`. -/
def free (bitmap : Bitmap) (index : Nat) : Except Stop Bitmap :=
  if ¬index < bitmap.nbits then .error .assertion
  else if bitmap.map (index / wordBits) &&& (1#32 <<< (index % wordBits)) ≠ 0 then
    .error .assertion
  else
    let word := bitmap.map (index / wordBits) ||| (1#32 <<< (index % wordBits))
    .ok { bitmap with map := Function.update bitmap.map (index / wordBits) word }

/-! ### The set of the bits -/

/-- Bit `i`. -/
def bit (b : Bitmap) (i : Nat) : Bool := (b.map (i / 32)).getLsbD (i % 32)

/-- The bits that are set. -/
def bits (b : Bitmap) : Finset Nat := (range b.nbits).filter fun i => b.bit i

/-- There is a word for each bit, and the bits that are left over are not set. -/
structure Wf (b : Bitmap) : Prop where
  le : b.nbits ≤ 32 * b.nwords
  beyond : ∀ i, b.nbits ≤ i → i < 32 * b.nwords → b.bit i = false

variable {b : Bitmap} {i k lo hi : Nat} {w : Word}

theorem mem_bits : i ∈ b.bits ↔ i < b.nbits ∧ b.bit i = true := by
  simp [bits]

theorem mask_eq : 1#32 <<< k = BitVec.twoPow 32 k := BitVec.twoPow_eq 32 k ▸ rfl

theorem getLsbD_mask {j : Nat} (hj : j < 32) : (1#32 <<< k).getLsbD j = decide (j = k) := by
  rw [mask_eq, BitVec.getLsbD_twoPow]
  by_cases hjk : j = k
  · simp [hjk ▸ hj, hjk]
  · simp [hjk, Ne.symm hjk]

theorem and_mask_ne_zero (hk : k < 32) : w &&& (1#32 <<< k) ≠ 0 ↔ w.getLsbD k = true := by
  exact and_twoPow_ne_zero hk w

/-- The bits after one word was changed. -/
theorem bit_update {ix : Nat} (i : Nat) :
    ({ b with map := Function.update b.map ix w } : Bitmap).bit i =
      if i / 32 = ix then w.getLsbD (i % 32) else b.bit i := by
  unfold bit
  dsimp only
  rw [Function.update_apply]
  split <;> rfl

theorem test_eq (hi : i < b.nbits) : b.test i = .ok (b.bit i) := by
  rw [test, if_neg (not_not.mpr hi)]
  congr 1
  rw [Bool.eq_iff_iff, decide_eq_true_iff]
  exact and_mask_ne_zero (Nat.mod_lt i (by decide))

theorem exists_bit_of_ne_zero (h : w ≠ 0) : ∃ k < 32, w.getLsbD k = true := by
  by_contra hno
  refine h (BitVec.eq_of_getLsbD_eq fun k hk => ?_)
  rw [show (0 : Word).getLsbD k = false from BitVec.getLsbD_zero, ← Bool.not_eq_true]
  exact fun hbit => hno ⟨k, hk, hbit⟩

/-- `bitmap_alloc` takes the least bit that is set. -/
theorem alloc_spec (b : Bitmap) :
    (b.alloc = .ok none ∧ ∀ i < 32 * b.nwords, b.bit i = false) ∨
    ∃ i b', b.alloc = .ok (some (i, b')) ∧ i < 32 * b.nwords ∧ b.bit i = true ∧
      (∀ j < i, b.bit j = false) ∧ b'.nbits = b.nbits ∧ b'.nwords = b.nwords ∧
      ∀ j, b'.bit j = if j = i then false else b.bit j := by
  unfold alloc
  cases hix : (List.range b.nwords).find? fun ix => b.map ix ≠ 0 with
  | none =>
    refine .inl ⟨rfl, fun i hi => ?_⟩
    have hzero := List.find?_eq_none.mp hix (i / 32) (List.mem_range.mpr (by omega))
    simp only [ne_eq, decide_not, Bool.not_eq_true', decide_eq_false_iff_not, not_not] at hzero
    rw [bit, hzero]
    exact BitVec.getLsbD_zero
  | some ix =>
    right
    obtain ⟨hne, hmem, hbefore⟩ := List.find?_range_eq_some.mp hix
    have hlt := List.mem_range.mp hmem
    obtain ⟨k, hk, hbit⟩ := exists_bit_of_ne_zero (of_decide_eq_true hne)
    dsimp only
    cases hoff : (List.range wordBits).find? fun offset => b.map ix &&& (1#32 <<< offset) ≠ 0 with
    | none =>
      have hno := List.find?_eq_none.mp hoff k (List.mem_range.mpr hk)
      exact absurd (decide_eq_true ((and_mask_ne_zero hk).mpr hbit)) hno
    | some offset =>
      obtain ⟨hset, hmem', hbefore'⟩ := List.find?_range_eq_some.mp hoff
      have hoff32 : offset < 32 := List.mem_range.mp hmem'
      have hbit' : (b.map ix).getLsbD offset = true :=
        (and_mask_ne_zero hoff32).mp (of_decide_eq_true hset)
      have hdiv : (ix * 32 + offset) / 32 = ix := by omega
      have hmod : (ix * 32 + offset) % 32 = offset := by omega
      refine ⟨ix * 32 + offset, _, rfl, by omega, ?_, fun j hj => ?_, rfl, rfl, fun j => ?_⟩
      · rw [bit, hdiv, hmod, hbit']
      · -- a word before the first that is not 0, or a bit before the first that is set
        by_cases hw : j / 32 = ix
        · have hj' := hbefore' (j % 32) (by omega)
          simp only [Bool.not_eq_true', decide_eq_false_iff_not] at hj'
          rw [bit, hw, ← Bool.not_eq_true]
          exact fun hb => hj' ((and_mask_ne_zero (by omega)).mpr hb)
        · have hj' := hbefore (j / 32) (by omega)
          simp only [Bool.not_eq_true', decide_eq_false_iff_not, not_not] at hj'
          rw [bit, hj']
          exact BitVec.getLsbD_zero
      · rw [bit_update]
        by_cases hw : j / 32 = ix
        · rw [if_pos hw, BitVec.getLsbD_xor, getLsbD_mask (by omega)]
          by_cases hk : j % 32 = offset
          · rw [if_pos (by omega), hk, hbit']
            simp
          · rw [if_neg (by omega), bit, hw]
            simp [hk]
        · rw [if_neg hw, if_neg (by omega)]

/-- `bitmap_free` sets a bit that is not set. -/
theorem free_spec (hi : i < b.nbits) (hbit : b.bit i = false) :
    ∃ b', b.free i = .ok b' ∧ b'.nbits = b.nbits ∧ b'.nwords = b.nwords ∧
      ∀ j, b'.bit j = if j = i then true else b.bit j := by
  have hmod : i % 32 < 32 := Nat.mod_lt i (by decide)
  have hclear : ¬(b.map (i / wordBits) &&& (1#32 <<< (i % wordBits)) ≠ 0) := by
    rw [show wordBits = 32 from rfl, and_mask_ne_zero hmod, Bool.not_eq_true]
    exact hbit
  unfold free
  rw [if_neg (not_not.mpr hi), if_neg hclear]
  refine ⟨_, rfl, rfl, rfl, fun j => ?_⟩
  rw [bit_update]
  by_cases hw : j / 32 = i / wordBits
  · rw [if_pos hw, BitVec.getLsbD_or, getLsbD_mask (by omega)]
    have hw' : j / 32 = i / 32 := hw
    by_cases hk : j % 32 = i % wordBits
    · have hk' : j % 32 = i % 32 := hk
      rw [if_pos (by omega)]
      simp [hk]
    · have hk' : ¬j % 32 = i % 32 := hk
      rw [if_neg (by omega), bit, hw]
      simp [hk]
  · have hw' : ¬j / 32 = i / 32 := hw
    rw [if_neg hw, if_neg (by omega)]

/-- Where no bits are left over, all bits are set. -/
theorem create_of_dvd {n : Nat} (hpos : 0 < n) (hdvd : n % 32 = 0) (hlt : n + 32 < 2 ^ 32) :
    create n = .ok ⟨n, n / 32, fun _ => 0xffffffff#32⟩ := by
  have hwords : (n + wordBits - 1) / wordBits = n / 32 := by
    show (n + 32 - 1) / 32 = n / 32
    omega
  have hall : n = n / 32 * wordBits := by
    show n = n / 32 * 32
    omega
  have hassert : n ≠ 0 ∧ (n + wordBits) % 2 ^ 32 > n := by
    refine ⟨Nat.ne_of_gt hpos, ?_⟩
    show (n + 32) % 2 ^ 32 > n
    omega
  rw [create, if_neg (not_not.mpr hassert), hwords]
  exact if_pos hall

/-! ### What the operations do to the set -/

theorem Wf.alloc (h : b.Wf) :
    (b.alloc = .ok none ∧ b.bits = ∅) ∨
    ∃ i b', b.alloc = .ok (some (i, b')) ∧ b'.Wf ∧ b'.nbits = b.nbits ∧ i ∈ b.bits ∧
      (∀ j ∈ b.bits, i ≤ j) ∧ b'.bits = b.bits.erase i := by
  rcases b.alloc_spec with ⟨heq, hnone⟩ | ⟨i, b', heq, hlt, hset, hleast, hnbits, hnwords, hbit⟩
  · refine .inl ⟨heq, eq_empty_of_forall_notMem fun j hj => ?_⟩
    obtain ⟨hj, hset⟩ := mem_bits.mp hj
    rw [hnone j (by have := h.le; omega)] at hset
    cases hset
  · have hi : i < b.nbits := by
      by_contra hge
      rw [h.beyond i (by omega) hlt] at hset
      cases hset
    refine .inr ⟨i, b', heq, ⟨?_, fun j hj hj' => ?_⟩, hnbits, mem_bits.mpr ⟨hi, hset⟩,
      fun j hj => ?_, ?_⟩
    · rw [hnbits, hnwords]
      exact h.le
    · rw [hbit j]
      split
      · rfl
      · exact h.beyond j (hnbits ▸ hj) (hnwords ▸ hj')
    · by_contra hji
      have hj' := (mem_bits.mp hj).2
      rw [hleast j (by omega)] at hj'
      cases hj'
    · ext j
      rw [mem_erase, mem_bits, mem_bits, hnbits, hbit j]
      by_cases hji : j = i <;> simp [hji]

theorem Wf.free (h : b.Wf) (hi : i < b.nbits) (hbit : i ∉ b.bits) :
    ∃ b', b.free i = .ok b' ∧ b'.Wf ∧ b'.nbits = b.nbits ∧ b'.bits = insert i b.bits := by
  have hclear : b.bit i = false := by
    rw [← Bool.not_eq_true]
    exact fun hset => hbit (mem_bits.mpr ⟨hi, hset⟩)
  obtain ⟨b', heq, hnbits, hnwords, hbits⟩ := free_spec hi hclear
  refine ⟨b', heq, ⟨?_, fun j hj hj' => ?_⟩, hnbits, ?_⟩
  · rw [hnbits, hnwords]
    exact h.le
  · rw [hbits j, if_neg (by omega)]
    exact h.beyond j (hnbits ▸ hj) (hnwords ▸ hj')
  · ext j
    rw [mem_insert, mem_bits, mem_bits, hnbits, hbits j]
    by_cases hji : j = i <;> simp [hji, hi]

/-! ### Any number of bits -/

/-- The loop that marks the bits left over in use. -/
theorem foldl_xor_mask {j : Nat} (hj : j < 32) (n : Nat) :
    ((List.range' lo n).foldl (fun w k => w ^^^ (1#32 <<< k)) w).getLsbD j =
      (w.getLsbD j ^^ decide (lo ≤ j ∧ j < lo + n)) := by
  induction n generalizing lo w with
  | zero =>
    have hno : ¬(lo ≤ j ∧ j < lo + 0) := by omega
    rw [decide_eq_false hno, Bool.xor_false]
    rfl
  | succ n ih =>
    rw [List.range'_succ, List.foldl_cons, ih, BitVec.getLsbD_xor, getLsbD_mask hj, Bool.xor_assoc]
    congr 1
    by_cases hlo : j = lo
    · simp [hlo]
    · have hiff : lo + 1 ≤ j ∧ j < lo + 1 + n ↔ lo ≤ j ∧ j < lo + (n + 1) := by omega
      simp only [hlo, hiff, decide_false, Bool.false_xor]

/-- After `bitmap_create` just the bits below `nbits` are set. -/
theorem create_spec {n : Nat} (hpos : 0 < n) (hlt : n + wordBits < 2 ^ 32) :
    ∃ b, create n = .ok b ∧ b.Wf ∧ b.nbits = n ∧ b.bits = range n := by
  have hlt' : n + 32 < 2 ^ 32 := hlt
  suffices h : ∃ b, create n = .ok b ∧ b.nbits = n ∧ n ≤ 32 * b.nwords ∧
      ∀ i < 32 * b.nwords, b.bit i = decide (i < n) by
    obtain ⟨b, heq, hnbits, hle, hbit⟩ := h
    refine ⟨b, heq, ⟨hnbits ▸ hle, fun i hi hi' => ?_⟩, hnbits, ?_⟩
    · rw [hbit i hi', decide_eq_false_iff_not]
      omega
    · ext i
      rw [mem_bits, mem_range, hnbits, and_iff_left_iff_imp]
      exact fun hi => (hbit i (by omega)).trans (decide_eq_true hi)
  have hones : ∀ j < 32, (0xffffffff#32).getLsbD j = true := by decide
  by_cases hdvd : n % 32 = 0
  · refine ⟨_, create_of_dvd hpos hdvd hlt', rfl, by dsimp only; omega, fun i hi => ?_⟩
    dsimp only at hi
    exact (hones _ (Nat.mod_lt i (by decide))).trans (decide_eq_true (by omega)).symm
  · have hwords : (n + 32 - 1) / 32 = n / 32 + 1 := by omega
    have hover : n - n / 32 * 32 = n % 32 := by omega
    rw [create, show wordBits = 32 from rfl]
    dsimp only
    rw [if_neg (not_not.mpr ⟨hpos.ne', by omega⟩), hwords, Nat.add_sub_cancel, hover, if_neg (by omega),
      if_neg (not_not.mpr rfl), if_neg (not_not.mpr ⟨by omega, Nat.mod_lt n (by decide)⟩)]
    refine ⟨_, rfl, rfl, by dsimp only; omega, fun i hi => ?_⟩
    dsimp only at hi
    refine (bit_update (b := ⟨n, _, fun _ => 0xffffffff#32⟩) i).trans ?_
    split
    · next hlast =>
      rw [foldl_xor_mask (Nat.mod_lt i (by decide)), hones _ (Nat.mod_lt i (by decide)), Bool.true_xor,
        ← decide_not]
      exact decide_eq_decide.mpr (by omega)
    · next hfull =>
      exact (hones _ (Nat.mod_lt i (by decide))).trans (decide_eq_true (by omega)).symm

/-- Calls after `bitmap_create`: indices are taken, and those in use may be given back. -/
inductive Used (nbits : Nat) : Bitmap → Finset Nat → Prop
  | create {b : Bitmap} : create nbits = .ok b → Used nbits b ∅
  | alloc {b b' : Bitmap} {used : Finset Nat} {i : Nat} : Used nbits b used →
      b.alloc = .ok (some (i, b')) → Used nbits b' (insert i used)
  | free {b b' : Bitmap} {used : Finset Nat} {i : Nat} : Used nbits b used → i ∈ used →
      b.free i = .ok b' → Used nbits b' (used.erase i)

/-- The bits that are set are those of the indices that are not in use. -/
theorem Used.inv {nbits : Nat} {used : Finset Nat} (h : Used nbits b used) (hpos : 0 < nbits)
    (hlt : nbits + wordBits < 2 ^ 32) :
    b.Wf ∧ b.nbits = nbits ∧ used ⊆ range nbits ∧ b.bits = range nbits \ used := by
  induction h with
  | create hrun =>
    obtain ⟨b, heq, hwf, hnbits, hbits⟩ := create_spec hpos hlt
    cases heq.symm.trans hrun
    exact ⟨hwf, hnbits, empty_subset _, by rw [hbits, sdiff_empty]⟩
  | alloc _ hrun ih =>
    obtain ⟨hwf, hnbits, hsub, hbits⟩ := ih
    rcases hwf.alloc with ⟨heq, -⟩ | ⟨j, map, heq, hwf', hnbits', hj, -, hbits'⟩
    · cases heq.symm.trans hrun
    · cases heq.symm.trans hrun
      have hlt := mem_sdiff.mp (hbits ▸ hj)
      exact ⟨hwf', hnbits'.trans hnbits, insert_subset hlt.1 hsub,
        by rw [hbits', hbits, sdiff_insert]⟩
  | @free b b' used i _ hi hrun ih =>
    obtain ⟨hwf, hnbits, hsub, hbits⟩ := ih
    have hin : i < b.nbits := hnbits ▸ mem_range.mp (hsub hi)
    have hnot : i ∉ b.bits := by
      rw [hbits]
      exact fun hmem => (mem_sdiff.mp hmem).2 hi
    obtain ⟨map, heq, hwf', hnbits', hbits'⟩ := hwf.free hin hnot
    cases heq.symm.trans hrun
    refine ⟨hwf', hnbits'.trans hnbits, (erase_subset i used).trans hsub, ?_⟩
    rw [hbits', hbits, sdiff_erase (hsub hi)]

/-- **The bitmap is a faithful set.** For every number of bits that `bitmap_create` accepts, and after
all calls of `bitmap_alloc` and of `bitmap_free` for indices in use: `bitmap_alloc` returns the least
index that is free and marks it alone, and finds none just when all are in use; `bitmap_free` and
`bitmap_test` do not stop, and the latter tells whether an index is free; the bits behind the last
index are 0. -/
theorem bitmap_faithful_set (nbits : Nat) (hpos : 0 < nbits) (hlt : nbits + wordBits < 2 ^ 32) :
    (∃ b, create nbits = .ok b) ∧ ∀ b used, Used nbits b used →
      (b.alloc = .ok none ∧ used = range nbits ∨
        ∃ i b', b.alloc = .ok (some (i, b')) ∧ i < nbits ∧ i ∉ used ∧
          (∀ j < nbits, j ∉ used → i ≤ j) ∧ b'.bits = b.bits.erase i) ∧
      (∀ i ∈ used, ∃ b', b.free i = .ok b' ∧ b'.bits = insert i b.bits) ∧
      (∀ i < nbits, b.test i = .ok (decide (i ∉ used))) ∧
      ∀ i, nbits ≤ i → i < wordBits * b.nwords → b.bit i = false := by
  obtain ⟨b₀, hcreate, -⟩ := create_spec hpos hlt
  refine ⟨⟨b₀, hcreate⟩, fun b used h => ?_⟩
  obtain ⟨hwf, hnbits, hsub, hbits⟩ := h.inv hpos hlt
  have hmem : ∀ i, i ∈ b.bits ↔ i < nbits ∧ i ∉ used := by simp [hbits]
  refine ⟨?_, fun i hi => ?_, fun i hi => ?_, hnbits ▸ hwf.beyond⟩
  · rcases hwf.alloc with ⟨heq, hnone⟩ | ⟨i, b', heq, -, -, hi, hleast, hmark⟩
    · refine .inl ⟨heq, hsub.antisymm ?_⟩
      rwa [← sdiff_eq_empty_iff_subset, ← hbits]
    · obtain ⟨hi, hfree⟩ := (hmem i).mp hi
      exact .inr ⟨i, b', heq, hi, hfree, fun j hj hj' => hleast j ((hmem j).mpr ⟨hj, hj'⟩), hmark⟩
  · obtain ⟨b', heq, -, -, hmark⟩ :=
      hwf.free (hnbits ▸ mem_range.mp (hsub hi)) fun hset => ((hmem i).mp hset).2 hi
    exact ⟨b', heq, hmark⟩
  · have hiff := hmem i
    rw [mem_bits, hnbits, and_congr_right_iff] at hiff
    rw [test_eq (hnbits ▸ hi)]
    congr 1
    rw [Bool.eq_iff_iff, decide_eq_true_iff, hiff hi]

theorem bitmap_faithful_set_odd : ∃ b i b', create 33 = .ok b ∧ b.alloc = .ok (some (i, b')) ∧ i < 33 ∧
    b.test 32 = .ok true := by
  obtain ⟨⟨b, hcreate⟩, hall⟩ := bitmap_faithful_set 33 (by decide) (by decide)
  obtain ⟨halloc, -, htest, -⟩ := hall b ∅ (.create hcreate)
  rcases halloc with ⟨-, hfull⟩ | ⟨i, b', heq, hi, -⟩
  · exact absurd hfull (by decide)
  · exact ⟨b, i, b', hcreate, heq, hi, htest 32 (by decide)⟩

/-- For the largest numbers of bits, `bitmap_create` stops at its assertion. -/
theorem bitmap_create_stops : 0 < 2 ^ 32 - 1 ∧ create (2 ^ 32 - 1) = .error .assertion :=
  ⟨by decide, rfl⟩

/-- Use of a bitmap: indices are taken, and those between `lo` and `hi` may be given back. -/
inductive Use (lo hi : Nat) : Bitmap → Bitmap → Prop
  | alloc {b b' : Bitmap} {i : Nat} : b.alloc = .ok (some (i, b')) → Use lo hi b b'
  | free {b b' : Bitmap} {i : Nat} : lo ≤ i → i < hi → b.free i = .ok b' → Use lo hi b b'

/-- Only indices from `lo` to `hi` are set. -/
structure Between (lo hi : Nat) (b : Bitmap) : Prop where
  wf : b.Wf
  between : ∀ i ∈ b.bits, lo ≤ i ∧ i < hi

theorem Between.alloc {b' : Bitmap} (h : Between lo hi b)
    (hrun : b.alloc = .ok (some (i, b'))) : (lo ≤ i ∧ i < hi) ∧ Between lo hi b' := by
  rcases h.wf.alloc with ⟨heq, -⟩ | ⟨j, map, heq, hwf, -, hj, -, hbits⟩
  · rw [heq] at hrun
    cases hrun
  · rw [heq] at hrun
    cases hrun
    exact ⟨h.between i hj, hwf, fun k hk => h.between k (mem_of_mem_erase (hbits ▸ hk))⟩

theorem Between.use {b' : Bitmap} (h : Between lo hi b) (hstep : Use lo hi b b') :
    Between lo hi b' := by
  cases hstep with
  | alloc hrun => exact (h.alloc hrun).2
  | @free i hlo hhi hrun =>
    by_cases hi' : i < b.nbits
    · by_cases hset : i ∈ b.bits
      · have hmask : b.map (i / wordBits) &&& (1#32 <<< (i % wordBits)) ≠ 0 :=
          (and_mask_ne_zero (Nat.mod_lt i (by decide))).mpr (mem_bits.mp hset).2
        rw [Bitmap.free, if_neg (not_not.mpr hi'), if_pos hmask] at hrun
        cases hrun
      · obtain ⟨map, heq, hwf, -, hbits⟩ := h.wf.free hi' hset
        rw [heq] at hrun
        cases hrun
        refine ⟨hwf, fun j hj => ?_⟩
        rcases mem_insert.mp (hbits ▸ hj) with rfl | hj
        · exact ⟨hlo, hhi⟩
        · exact h.between j hj
    · rw [Bitmap.free, if_pos hi'] at hrun
      cases hrun

/-- Whatever was taken and given back, only such indices are returned. -/
theorem Between.run {b' : Bitmap} (h : Between lo hi b)
    (hrun : Relation.ReflTransGen (Use lo hi) b b') : Between lo hi b' := by
  induction hrun with
  | refl => exact h
  | tail _ hstep ih => exact ih.use hstep

end Bitmap

end UcoreMips.Kernel
