import UcoreMips.Kernel.Fs.Truncate
import UcoreMips.Kernel.Fs.Vop

/-!
# UcoreMips.Kernel.Fs.ZeroFill

**What a file reads as where nothing was written.** A file gets longer by writing at or behind its
end, by `sfs_truncfile` and by `sfs_tryseek`. The blocks that are added are clear. But the last block
may have bytes behind the end of the file: shrinking the file inside a block leaves them there, and
when the file gets longer again they are in it.

A run of such calls is followed with a note, for each position, whether it was written since the
file last ended at or before it. All the positions that were not read as 0, in every state of the
run, just if every call that makes the file longer finds zeros between the old end and the new one.
-/

namespace UcoreMips.Kernel

open UcoreMips.Lib Nat List
open Emulator (Word)

namespace Sfs

variable {s t u : Sfs} {sin sin' sin'' : SfsInode} {b : Ino} {index off : Nat}
  {data : List (BitVec 8)}

/-! ### Writing at any place -/

/-- A block that was looked up is one of the file, which may have one block more. -/
theorem Orderly.load_ok (h : Orderly s sin) (hrun : s.bmapLoad sin index = .ok (.ok b, t, sin')) :
    Resized s sin t sin' ∧ t.mapped sin' index = b ∧
      sin'.din.blocks.toNat = max sin.din.blocks.toNat (index + 1) := by
  by_cases hle : index ≤ sin.din.blocks.toNat
  · by_cases hlast : index = sin.din.blocks.toNat
    · subst hlast
      by_cases hi : sin.din.blocks.toNat < nDirect + blkNentry
      · rcases h.load_next hi with ⟨-, _, _, _, hrun', hres, hmap, hblocks, -⟩ | ⟨-, _, _, hrun', -⟩
        · rw [hrun'] at hrun
          cases hrun
          exact ⟨hres, hmap, by omega⟩
        · rw [hrun'] at hrun
          cases hrun
      · rw [bmapLoad_panic (not_lt.mp hi)] at hrun
        cases hrun
    · obtain ⟨u, hsame, hrun'⟩ :=
        bmapLoad_read h.filed.toMapped h.io (lt_of_le_of_ne hle hlast)
      rw [hrun'] at hrun
      cases hrun
      exact ⟨(hsame.abandoned h.filed.healthy.sound).resized h, by rw [hsame.mapped], by omega⟩
  · rw [bmapLoad, if_pos hle] at hrun
    cases hrun

/-- The bytes from `off` on are replaced. Blocks may have been added, and are clear otherwise. -/
structure Patched (s : Sfs) (sin : SfsInode) (off : Nat) (data : List (BitVec 8)) (t : Sfs)
    (sin' : SfsInode) : Prop extends Orderly t sin' where
  grown : sin.din.blocks.toNat ≤ sin'.din.blocks.toNat
  inside : ∀ i, off ≤ i → i < off + data.length → i < sin'.din.blocks.toNat * blkSize
  byte_eq : ∀ i < sin'.din.blocks.toNat * blkSize, t.fileByte sin' i =
    if off ≤ i ∧ i < off + data.length then data.getD (i - off) 0
    else if i < sin.din.blocks.toNat * blkSize then s.fileByte sin i else 0
  size_eq : sin'.din.size = sin.din.size
  type_eq : sin'.din.type = sin.din.type

theorem Resized.patched (h : Resized s sin t sin') (hle : sin.din.blocks.toNat ≤ sin'.din.blocks.toNat)
    (off : Nat) : Patched s sin off [] t sin' where
  __ := h
  grown := hle
  inside _ h1 h2 := absurd h1 (not_le.mpr h2)
  byte_eq i hi := by
    rw [if_neg fun hin => absurd hin.1 (not_le.mpr hin.2)]
    exact h.byte_eq i hi

/-- The next bytes are replaced. -/
theorem Patched.trans {data' : List (BitVec 8)} (h : Patched s sin off data t sin')
    (h' : Patched t sin' (off + data.length) data' u sin'') :
    Patched s sin off (data ++ data') u sin'' where
  toOrderly := h'.toOrderly
  grown := h.grown.trans h'.grown
  inside i h1 h2 := by
    rw [length_append] at h2
    by_cases hfst : i < off + data.length
    · exact (h.inside i h1 hfst).trans_le (mul_le_mul_right _ h'.grown)
    · exact h'.inside i (not_lt.mp hfst) (by omega)
  byte_eq i hi := by
    rw [h'.byte_eq i hi, length_append]
    by_cases hsnd : off + data.length ≤ i ∧ i < off + data.length + data'.length
    · rw [if_pos hsnd, if_pos (by omega), getD_append_right _ _ _ _ (by omega), Nat.sub_sub]
    · rw [if_neg hsnd]
      by_cases hmid : i < sin'.din.blocks.toNat * blkSize
      · rw [if_pos hmid, h.byte_eq i hmid]
        by_cases hfst : off ≤ i ∧ i < off + data.length
        · rw [if_pos hfst, if_pos (by omega), getD_append _ _ _ _ (by omega)]
        · have hboth : ¬(off ≤ i ∧ i < off + (data.length + data'.length)) := by omega
          rw [if_neg hfst, if_neg hboth]
      · have hfst : ¬(off ≤ i ∧ i < off + data.length) := fun hin => hmid (h.inside i hin.1 hin.2)
        rw [if_neg hmid, if_neg (by omega), if_neg fun hold => hmid ?_]
        exact hold.trans_le (mul_le_mul_right _ h.grown)
  size_eq := h'.size_eq.trans h.size_eq
  type_eq := h'.type_eq.trans h.type_eq

/-- What is written may follow a block that was added for it. -/
theorem Resized.patch (h : Resized s sin t sin')
    (hle : sin.din.blocks.toNat ≤ sin'.din.blocks.toNat) (h' : Patched t sin' off data u sin'') :
    Patched s sin off data u sin'' :=
  (h.patched hle off).trans h'

/-- A part of a block of the file is written. -/
theorem Stored.patched (h : Orderly s sin) (hk : index < sin.din.blocks.toNat)
    (hend : off + data.length ≤ blkSize)
    (hst : Stored s (s.mapped sin index) ((s.disk (s.mapped sin index)).patch off data) t) :
    Patched s sin (index * blkSize + off) data t sin := by
  have hover := hst.overwritten h.filed h.io hk hend
  refine ⟨⟨hover.filed, fun p n hp hne => ?_, hover.io⟩, le_refl _, fun i _ hi => ?_,
    fun i hi => ?_, rfl, rfl⟩
  · rw [hst.slot_of_mapped h.filed hk] at hne
    exact h.bounded p n hp hne
  · calc i < index * blkSize + off + data.length := hi
      _ ≤ (index + 1) * blkSize := by rw [Nat.succ_mul, Nat.add_assoc]; exact Nat.add_le_add_left hend _
      _ ≤ sin.din.blocks.toNat * blkSize := mul_le_mul_right _ hk
  · rw [hover.byte_eq i (.inl hi), if_pos hi]

/-- The first `pos` bytes of the buffer have been written. -/
structure Laid (s : Sfs) (sin : SfsInode) (buf : List (BitVec 8)) (offset : Nat) (x : Transfer) :
    Prop where
  buf_eq : x.buf = buf
  le : x.pos ≤ buf.length
  patched : Patched s sin offset (buf.take x.pos) x.sfs x.sin

section Laid

variable {buf : List (BitVec 8)} {offset endpos len : Nat} {x y : Transfer}

section Laid

variable (h : Laid s sin buf offset x)

include h

theorem Laid.extend (hlen : x.pos + len ≤ buf.length)
    (hp : Patched x.sfs x.sin (offset + x.pos) ((buf.drop x.pos).take len) t sin') :
    Laid s sin buf offset ⟨t, sin', buf, x.pos + len⟩ := by
  refine ⟨rfl, hlen, ?_⟩
  rw [take_add]
  refine h.patched.trans ?_
  rw [length_take, min_eq_left h.le]
  exact hp

/-- The block that is loaded for a part is one of the file. -/
theorem Laid.load (hload : x.load index = .ok (b, y)) :
    ∃ t sin', y = { x with sfs := t, sin := sin' } ∧ Resized x.sfs x.sin t sin' ∧ t.mapped sin' index = b ∧
      x.sin.din.blocks.toNat ≤ sin'.din.blocks.toNat ∧ index < sin'.din.blocks.toNat := by
  obtain ⟨⟨ret, t, sin'⟩, hrun, hrest⟩ := bind_eq_ok.mp hload
  cases ret with
  | error e => cases hrest
  | ok b' =>
    cases hrest
    obtain ⟨hres, hmap, hblocks⟩ := h.patched.toOrderly.load_ok hrun
    exact ⟨t, sin', rfl, hres, hmap, by omega, by omega⟩

theorem Laid.part (hat : offset + x.pos = index * blkSize + off) (hoff : off < blkSize) (hend : off + len ≤ blkSize)
    (hlen : x.pos + len ≤ buf.length) (hrun : x.part true index off len = .ok y) :
    Laid s sin buf offset y ∧ y.pos = x.pos + len := by
  obtain ⟨⟨b, x'⟩, hload, hrest⟩ := bind_eq_ok.mp hrun
  obtain ⟨t, sin', rfl, hres, rfl, hle, hk⟩ := h.load hload
  obtain ⟨u, ⟨hst, hwrite⟩ | ⟨-, hio, -⟩⟩ := wbuf_spec (hres.filed.toMapped.mapped index hk).1
    ((buf.drop x.pos).take len) hoff (by rw [length_chunk hlen]; exact hend)
  · dsimp only at hrest
    rw [h.buf_eq, bufOp, if_pos rfl, hwrite] at hrest
    cases hrest
    refine ⟨h.extend hlen ?_, rfl⟩
    rw [hat]
    exact hres.patch hle (hst.patched hres.toOrderly hk (by rw [length_chunk hlen]; exact hend))
  · exact absurd hres.io hio

theorem Laid.whole (hat : offset + x.pos = index * blkSize)
    (hlen : x.pos + blkSize ≤ buf.length) (hrun : x.whole true index 1 = .ok y) :
    Laid s sin buf offset y ∧ y.pos = x.pos + blkSize := by
  obtain ⟨⟨b, x'⟩, hload, hrest⟩ := bind_eq_ok.mp hrun
  obtain ⟨t, sin', rfl, hres, rfl, hle, hk⟩ := h.load hload
  have hdata := length_chunk hlen
  obtain ⟨u, ⟨hst, hwrite⟩ | ⟨-, hio, -⟩⟩ :=
    rwblockNolock_write (hres.filed.toMapped.mapped index hk).1 (.ofList (buf.drop x.pos))
  · dsimp only at hrest
    rw [h.buf_eq, rwblock, hwrite] at hrest
    cases hrest
    refine ⟨?_, by rw [one_mul]⟩
    refine h.extend hlen ?_
    rw [Buffer.ofList_eq_patch (t.disk _) (hdata.ge.trans (length_take_le' _ _))] at hst
    have hpatch : Patched t sin' (index * blkSize + 0) ((buf.drop x.pos).take blkSize) u sin' :=
      hst.patched hres.toOrderly hk (by rw [hdata, zero_add])
    rw [add_zero, ← hat] at hpatch
    exact hres.patch hle hpatch
  · exact absurd hres.io hio

end Laid

/-- A transfer of at most one block that comes back has written its bytes. -/
theorem run_laid (h : Orderly s sin) (hlt : offset < endpos) (hend : endpos ≤ offset + buf.length)
    (hshort : endpos ≤ offset + blkSize)
    (hrun : (⟨s, sin, buf, 0⟩ : Transfer).run true offset endpos = .ok y) :
    Patched s sin offset (buf.take (endpos - offset)) y.sfs y.sin ∧ y.pos = endpos - offset := by
  have hstart : Laid s sin buf offset ⟨s, sin, buf, 0⟩ :=
    ⟨rfl, zero_le _, h.resized.patched (le_refl _) _⟩
  have hpart : PartsEnsure (fun _ => True) (Laid s sin buf offset) true offset endpos :=
    fun x index off len h hat hoff _ hin hle _ => .of_forall fun y => h.part hat hoff hin (by omega)
  have hwhole : WholeEnsures (fun _ => True) (Laid s sin buf offset) true offset endpos := by
    refine fun hsome x h hat => .of_forall fun y hy => ?_
    -- there is at most one whole block
    have hone : wholeBlocks offset endpos = 1 := by
      have := wholeBlocks_le_one hshort
      omega
    have hfull : firstWhole offset < endpos / blkSize := Nat.lt_of_sub_pos hsome
    have hdiv := (mul_le_mul_right blkSize (succ_le_of_lt hfull)).trans (div_mul_le_self endpos blkSize)
    rw [succ_mul] at hdiv
    rw [hone] at hy ⊢
    exact h.whole hat (by omega) hy
  obtain ⟨hy, hpos⟩ := (run_ensures hlt hpart hwhole hstart rfl).of_ok hrun
  exact ⟨hpos ▸ hy.patched, hpos⟩

end Laid

/-! ### The calls -/

/-- Another size is another size only. -/
theorem Orderly.setSize (h : Orderly s sin) (n : Nat) : Orderly s (sin.setSize n) := by
  have hslot : s.slot (sin.setSize n) = s.slot sin := by
    funext p
    cases p <;> rfl
  refine ⟨h.filed.congr h.filed.healthy.sound hslot rfl rfl rfl, fun p k hp hne => ?_, h.io⟩
  exact h.bounded p k hp hne

theorem finish_eq (y : Transfer) (offset : Nat) : (y.finish offset).sfs = y.sfs ∧
    (y.finish offset).sin =
      if y.sin.din.size.toNat < offset + y.pos then y.sin.setSize (offset + y.pos) else y.sin := by
  unfold Transfer.finish
  split
  · exact ⟨rfl, rfl⟩
  · exact ⟨rfl, rfl⟩

variable {offset : Word}

/-- A write that comes back has changed nothing, or written its bytes up to the largest size. -/
theorem write_cases {ret : Except Err Nat} {x : Transfer} (h : Orderly s sin)
    (htype : sin.din.type = typeFile) (hshort : data.length ≤ blkSize)
    (hrun : s.ioNolock sin true data offset (BitVec.ofNat 32 data.length) = .ok (ret, x)) :
    (¬(data ≠ [] ∧ offset.toNat < maxFileSize) ∧ (ret = .error .inval ∨ ret = .ok 0) ∧
      x.sfs = s ∧ x.sin = sin) ∨
    (data ≠ [] ∧ offset.toNat < maxFileSize) ∧ ∃ endpos,
      endpos = min (offset.toNat + data.length) maxFileSize ∧ ret = .ok (endpos - offset.toNat) ∧
      ∃ sin', Patched s sin offset.toNat (data.take (endpos - offset.toNat)) x.sfs sin' ∧
        x.sin = if sin.din.size.toNat < endpos then sin'.setSize endpos else sin' := by
  have hlen : (BitVec.ofNat 32 data.length).toNat = data.length :=
    mod_eq_of_lt (hshort.trans_lt (by decide))
  by_cases hoff : offset.toNat < maxFileSize
  · have hover : offset.toNat + (BitVec.ofNat 32 data.length).toNat < 2 ^ 31 := by
      rw [hlen]
      exact (add_lt_add_of_lt_of_le hoff hshort).trans_le (by decide)
    rw [ioNolock_eq htype hoff hover] at hrun
    by_cases hnil : data = []
    · subst hnil
      cases hrun
      exact .inl ⟨fun hne => hne.1 rfl, .inr rfl, rfl, rfl⟩
    · have hpos : 0 < data.length := length_pos_iff.mpr hnil
      rw [if_neg] at hrun
      · obtain ⟨y, hy, heq⟩ := bind_eq_ok.mp hrun
        rw [if_pos rfl, hlen] at hy
        obtain ⟨hpatch, hypos⟩ := run_laid h (by omega) (by omega) (by omega) hy
        cases heq
        refine .inr ⟨⟨hnil, hoff⟩, _, rfl, by rw [hypos], y.sin, ?_, ?_⟩
        · rw [(finish_eq y _).1]
          exact hpatch
        · rw [(finish_eq y _).2, hpatch.size_eq, hypos, Nat.add_sub_cancel' (by omega)]
      · rintro (hzero | ⟨hread, -⟩)
        · rw [← BitVec.toNat_inj, hlen] at hzero
          exact absurd hzero (pos_iff_ne_zero.mp hpos)
        · cases hread
  · refine .inl ⟨fun hne => hoff hne.2, ?_⟩
    unfold ioNolock at hrun
    rw [if_neg (by rw [htype]; decide)] at hrun
    rw [if_pos (.inr (.inl (not_lt.mp hoff)))] at hrun
    cases hrun
    exact ⟨.inl rfl, rfl, rfl⟩

/-- The byte at a position, as it is read. -/
theorem read_byte (h : Orderly s sin) (htype : sin.din.type = typeFile)
    (hsize : sin.din.size.toNat ≤ sin.din.blocks.toNat * blkSize) {p : Nat}
    (hp : p < sin.din.size.toNat) (c : BitVec 8) :
    ∃ x, s.ioNolock sin false [c] (BitVec.ofNat 32 p) 1 = .ok (.ok 1, x) ∧ x.buf = [s.fileByte sin p] := by
  have hword : (BitVec.ofNat 32 p).toNat = p := mod_eq_of_lt (hp.trans sin.din.size.isLt)
  have hmax : sin.din.blocks.toNat * blkSize ≤ maxFileSize :=
    (mul_le_mul_right _ h.filed.few).trans (by decide)
  have hend : p + 1 = min ((BitVec.ofNat 32 p).toNat + (1 : Word).toNat) sin.din.size.toNat := by
    rw [hword, show (1 : Word).toNat = 1 from rfl]
    omega
  have hover : (BitVec.ofNat 32 p).toNat + (1 : Word).toNat < 2 ^ 31 := by
    rw [hword]
    exact (show p + 1 ≤ maxFileSize by omega).trans_lt (by decide)
  have hwhole : wholeBlocks p (p + 1) = 0 := by
    show (p + 1) / 4096 - (p + 4096 - 1) / 4096 = 0
    omega
  have hread : s.readByte sin p (p + 1) p = s.fileByte sin p := by
    refine if_neg ?_
    show ¬((p + 4096 - 1) / 4096 ≤ p / 4096 ∧ p / 4096 < (p + 1) / 4096)
    omega
  obtain ⟨x, hrun, -, -, hbuf⟩ := ioNolock_read h.filed.toMapped h.io htype hsize
    (by rw [hword]; omega) hover hend (by rw [hword]; omega) [c]
    (by rw [hword, hwhole]; intro k hk; exact absurd hk (not_lt_zero k))
  rw [hword, Nat.add_sub_cancel_left] at hrun hbuf
  refine ⟨x, hrun, hbuf.trans ?_⟩
  show [s.readByte sin p (p + 1) p] = _
  rw [hread]

end Sfs

/-! ### Runs -/

/-- The calls that change a file. -/
inductive FileOp
  | write (data : List (BitVec 8)) (offset : Word)
  | truncate (len : Int)
  | seek (pos : Word)

namespace FileOp

/-- A call: how many bytes it has written, and the file. -/
def exec (op : FileOp) (s : Sfs) (sin : SfsInode) : Except Stop (Except Err Nat × Sfs × SfsInode) :=
  match op with
  | .write data offset => do
    let (ret, x) ← s.ioNolock sin true data offset (BitVec.ofNat 32 data.length)
    return (ret, x.sfs, x.sin)
  | .truncate len => do
    let (ret, s, sin) ← s.truncfile sin len
    return (ret.map fun _ => 0, s, sin)
  | .seek pos => do
    let (ret, s, sin) ← s.tryseek sin pos
    return (ret.map fun _ => 0, s, sin)

/-- The position is among those that the call has written. -/
def wrote : FileOp → Except Err Nat → Nat → Bool
  | .write _ offset, .ok n, p => decide (offset.toNat ≤ p ∧ p < offset.toNat + n)
  | _, _, _ => false

/-- The position is among those that the call is to write. -/
def covers : FileOp → Nat → Prop
  | .write data offset, p => offset.toNat ≤ p ∧ p < offset.toNat + data.length
  | _, _ => False

/-- At most a block is written at a time. -/
def Short : FileOp → Prop
  | .write data _ => data.length ≤ blkSize
  | _ => True

end FileOp

/-- A file, with a note of the positions that were not written since the file last ended at or
before them. -/
structure Tracked where
  sfs : Sfs
  sin : SfsInode
  fresh : Nat → Bool

namespace Tracked

def size (x : Tracked) : Nat := x.sin.din.size.toNat
def blocks (x : Tracked) : Nat := x.sin.din.blocks.toNat
def byte (x : Tracked) (p : Nat) : BitVec 8 := x.sfs.fileByte x.sin p

def start (s : Sfs) (sin : SfsInode) : Tracked := ⟨s, sin, fun p => decide (sin.din.size.toNat ≤ p)⟩

def step (x : Tracked) (op : FileOp) : Except Stop Tracked := do
  let (ret, s, sin) ← op.exec x.sfs x.sin
  return ⟨s, sin, fun p => decide (sin.din.size.toNat ≤ p) || x.fresh p && !op.wrote ret p⟩

/-- The states of a run, up to a call that does not return. -/
def states (x : Tracked) : List FileOp → List Tracked
  | [] => [x]
  | op :: ops =>
    match x.step op with
    | .error _ => [x]
    | .ok y => x :: y.states ops

/-- The calls that return, with the states they are made in. -/
def steps (x : Tracked) : List FileOp → List (Tracked × FileOp)
  | [] => []
  | op :: ops =>
    match x.step op with
    | .error _ => []
    | .ok y => (x, op) :: y.steps ops

/-- What was not written reads as 0. -/
def ReadsZero (x : Tracked) : Prop :=
  ∀ p < x.size, x.fresh p = true → ∀ c, ∃ y,
    x.sfs.ioNolock x.sin false [c] (BitVec.ofNat 32 p) 1 = .ok (.ok 1, y) ∧ y.buf = [0]

/-- The end that a call gives to the file, if it has the blocks for it. -/
def Reaches (x : Tracked) : FileOp → Nat → Prop
  | .write data offset, n =>
    (data ≠ [] ∧ offset.toNat < maxFileSize) ∧ n = min (offset.toNat + data.length) maxFileSize
  | .truncate len, n =>
    (0 ≤ len ∧ len.toNat ≤ maxFileSize) ∧ x.sfs.Fits x.sin len.toNat ∧ n = len.toNat
  | .seek pos, n => pos.toNat < maxFileSize ∧ x.sfs.Fits x.sin pos.toNat ∧ n = pos.toNat

/-- In the blocks that the file has, there are zeros between its end and the end that the call gives
to it, but where the call writes. -/
def FindsZeros (x : Tracked) (op : FileOp) : Prop :=
  ∀ n, x.Reaches op n → ∀ p, x.size ≤ p → p < n → ¬op.covers p → p < x.blocks * blkSize →
    x.byte p = 0

/-- There are zeros behind the end of the file. -/
def ZeroTail (x : Tracked) : Prop := ∀ p, x.size ≤ p → p < x.blocks * blkSize → x.byte p = 0

/-- The call does not cut the file inside a block. -/
def Aligned (x : Tracked) : FileOp → Prop
  | .truncate len => x.size ≤ len.toNat ∨ blkSize ∣ len.toNat
  | _ => True

/-- What every call keeps. -/
structure Kept (x : Tracked) : Prop where
  orderly : x.sfs.Orderly x.sin
  type : x.sin.din.type = typeFile
  size_le : x.size ≤ x.blocks * blkSize
  fresh : ∀ p, x.size ≤ p → x.fresh p = true

/-- What a call does, where `W` are the positions it writes. -/
structure Effect (x : Tracked) (W : Nat → Bool) (y : Tracked) : Prop where
  kept : Kept y
  fresh : ∀ p, y.fresh p = (decide (y.size ≤ p) || x.fresh p && !W p)
  inside : ∀ p, W p = true → p < y.size
  byte_eq : ∀ p < y.blocks * blkSize, W p = false →
    y.byte p = if p < x.blocks * blkSize then x.byte p else 0

variable {x y : Tracked} {W : Nat → Bool}

theorem Kept.readsZero_iff (h : Kept x) :
    x.ReadsZero ↔ ∀ p < x.size, x.fresh p = true → x.byte p = 0 := by
  refine forall₃_congr fun p hp _ => ?_
  have hread := Sfs.read_byte h.orderly h.type h.size_le hp
  constructor
  · intro hzero
    obtain ⟨y, hrun, hbuf⟩ := hzero 0
    obtain ⟨y', hrun', hbuf'⟩ := hread 0
    rw [hrun] at hrun'
    cases hrun'
    exact head_eq_of_cons_eq (hbuf'.symm.trans hbuf)
  · intro hzero c
    obtain ⟨y, hrun, hbuf⟩ := hread c
    exact ⟨y, hrun, hbuf.trans (congrArg (fun d => [d]) hzero)⟩

/-- A call keeps the zeros just if it finds zeros where the file gets longer. -/
theorem Effect.readsZero_iff (h : Effect x W y) (hx : Kept x) (hz : x.ReadsZero) :
    y.ReadsZero ↔ ∀ p, x.size ≤ p → p < y.size → W p = false → p < x.blocks * blkSize →
      x.byte p = 0 := by
  rw [hx.readsZero_iff] at hz
  rw [h.kept.readsZero_iff]
  constructor
  · intro hy p hle hlt hW hblock
    have hfresh : y.fresh p = true := by
      rw [h.fresh, hx.fresh p hle, hW, Bool.not_false, Bool.and_true, Bool.or_true]
    have hbyte := hy p hlt hfresh
    rwa [h.byte_eq p (hlt.trans_le h.kept.size_le) hW, if_pos hblock] at hbyte
  · intro hzero p hlt hfresh
    rw [h.fresh, decide_eq_false (not_le.mpr hlt), Bool.false_or, Bool.and_eq_true,
      Bool.not_eq_true'] at hfresh
    rw [h.byte_eq p (hlt.trans_le h.kept.size_le) hfresh.2]
    by_cases hblock : p < x.blocks * blkSize
    · rw [if_pos hblock]
      by_cases hle : x.size ≤ p
      · exact hzero p hle hlt hfresh.2 hblock
      · exact hz p (not_le.mp hle) hfresh.1
    · rw [if_neg hblock]

/-- There are zeros behind the end unless the file was cut inside a block. -/
theorem Effect.zeroTail (h : Effect x W y) (hz : x.ZeroTail)
    (hcut : y.size < x.size → y.blocks * blkSize ≤ y.size) : y.ZeroTail := by
  intro p hp hblock
  have hW : W p = false := Bool.eq_false_iff.mpr fun hW => not_lt.mpr hp (h.inside p hW)
  rw [h.byte_eq p hblock hW]
  split
  · next hold =>
    refine hz p (not_lt.mp fun hlt => ?_) hold
    exact absurd (hblock.trans_le (hcut (hp.trans_lt hlt))) (not_lt.mpr hp)
  · rfl

/-! ### One call -/

section Call

variable {op : FileOp} {ret : Except Err Nat} {t : Sfs} {sin' : SfsInode} {n : Nat}
  {r : Except Err Unit}

/-- The state after a call. -/
def after (x : Tracked) (op : FileOp) (ret : Except Err Nat) (t : Sfs) (sin' : SfsInode) : Tracked :=
  ⟨t, sin', fun p => decide (sin'.din.size.toNat ≤ p) || x.fresh p && !op.wrote ret p⟩

/-- The call keeps what has to be kept, and the zeros if it finds zeros. -/
structure Fine (x : Tracked) (op : FileOp) (y : Tracked) : Prop where
  kept : Kept y
  readsZero_iff : x.ReadsZero → (y.ReadsZero ↔ x.FindsZeros op)
  zeroTail : x.Aligned op → x.ZeroTail → y.ZeroTail

/-- What a call has to do: the file ends at `n` now, which is where the call puts the end unless the
file does not get longer. -/
theorem Kept.fine (h : Kept x) (ho : Sfs.Orderly t sin') (htype : sin'.din.type = typeFile)
    (hsize : sin'.din.size.toNat = n) (hle : n ≤ sin'.din.blocks.toNat * blkSize)
    (hbyte : ∀ p < sin'.din.blocks.toNat * blkSize, op.wrote ret p = false →
      t.fileByte sin' p = if p < x.blocks * blkSize then x.byte p else 0)
    (hin : ∀ p, op.wrote ret p = true → p < n)
    (hcut : x.Aligned op → n < x.size → sin'.din.blocks.toNat * blkSize ≤ n)
    (hreach : ∀ m, x.Reaches op m → m ≤ x.size ∨ m = n) (hend : n ≤ x.size ∨ x.Reaches op n)
    (hcovers : ∀ p < n, x.size ≤ p → (op.wrote ret p = true ↔ op.covers p)) :
    Fine x op (x.after op ret t sin') := by
  have heffect : Effect x (op.wrote ret) (x.after op ret t sin') := by
    refine ⟨⟨ho, htype, hsize.le.trans hle, fun p hp => ?_⟩, fun _ => rfl, fun p hW => ?_, hbyte⟩
    · exact Bool.or_eq_true_iff.mpr (.inl (decide_eq_true hp))
    · exact lt_of_lt_of_eq (hin p hW) hsize.symm
  have hafter : (x.after op ret t sin').size = n := hsize
  refine ⟨heffect.kept, fun hz => (heffect.readsZero_iff h hz).trans ?_, fun ha hz =>
    heffect.zeroTail hz ?_⟩
  · rw [hafter]
    constructor
    · intro hzero m hm p hp hlt hc hblock
      rcases hreach m hm with hle | rfl
      · omega
      · exact hzero p hp hlt (Bool.eq_false_iff.mpr (mt (hcovers p hlt hp).mp hc)) hblock
    · intro hzero p hp hlt hW hblock
      rcases hend with hle | hn
      · omega
      · refine hzero n hn p hp hlt (fun hc => ?_) hblock
        rw [(hcovers p hlt hp).mpr hc] at hW
        cases hW
  · rw [hafter]
    exact hcut ha

/-- A call that leaves the size, and does not write. -/
theorem Kept.fine_of_size_eq (h : Kept x) (hres : Sfs.Resized x.sfs x.sin t sin')
    (hgrown : x.blocks ≤ sin'.din.blocks.toNat) (hW : ∀ p, op.wrote ret p = false)
    (hreach : ∀ m, x.Reaches op m → m ≤ x.size) : Fine x op (x.after op ret t sin') := by
  have hsize : sin'.din.size.toNat = x.size := congrArg BitVec.toNat hres.size_eq
  have hle : x.size ≤ sin'.din.blocks.toNat * blkSize :=
    h.size_le.trans (mul_le_mul_right _ hgrown)
  refine h.fine hres.toOrderly (hres.type_eq.trans h.type) hsize hle (fun p hp _ => hres.byte_eq p hp)
    (fun p hp => ?_) (fun _ hlt => absurd hlt (lt_irrefl _)) (fun m hm => .inl (hreach m hm))
    (.inl le_rfl) fun p hp hp' => absurd hp (not_lt.mpr hp')
  rw [hW p] at hp
  cases hp

/-- `sfs_truncfile`, for a call that writes nothing. -/
theorem Kept.fine_truncfile (h : Kept x) {len : Int} (hW : ∀ p, op.wrote ret p = false)
    (hcovers : ∀ p, ¬op.covers p) (hreach : ∀ m, x.Reaches op m ↔ x.Reaches (.truncate len) m)
    (haligned : x.Aligned op → x.Aligned (.truncate len))
    (hrun : x.sfs.truncfile x.sin len = .ok (r, t, sin')) : Fine x op (x.after op ret t sin') := by
  have hspec := Sfs.truncfile_spec h.orderly len
  rw [hrun] at hspec
  generalize hr : (Except.ok (r, t, sin') : Except Stop _) = result at hspec
  cases hspec with
  | refused hout =>
    cases hr
    exact h.fine_of_size_eq h.orderly.resized le_rfl hW fun m hm => absurd ((hreach m).mp hm).1 hout
  | same hsize _ =>
    cases hr
    refine h.fine_of_size_eq h.orderly.resized le_rfl hW fun m hm => ?_
    rw [((hreach m).mp hm).2.2]
    exact hsize.ge
  | @done _ sin₁ hin hfits hres hblocks =>
    cases hr
    have hn : len.toNat ≤ _ * blkSize := hblocks ▸ Sfs.le_blocksFor len.toNat
    refine h.fine (hres.toOrderly.setSize _) (hres.type_eq.trans h.type)
      (mod_eq_of_lt (hin.2.trans_lt (by decide))) hn (fun p hp _ => hres.byte_eq p hp)
      (fun p hp => ?_) (fun ha hlt => ?_) (fun m hm => .inr ((hreach m).mp hm).2.2)
      (.inr ((hreach _).mpr ⟨hin, hfits, rfl⟩))
      fun p _ _ => iff_of_false (by rw [hW]; exact Bool.false_ne_true) (hcovers p)
    · rw [hW p] at hp
      cases hp
    · rcases haligned ha with hle | ⟨k, hk⟩
      · exact absurd hlt (not_lt.mpr hle)
      · show sin₁.din.blocks.toNat * blkSize ≤ len.toNat
        rw [hblocks, hk, mul_comm blkSize k, Sfs.blocksFor_mul]
  | full hfits _ hres hblocks =>
    cases hr
    exact h.fine_of_size_eq hres (hblocks.ge.trans' (le_add_right _ _)) hW fun m hm =>
      absurd ((hreach m).mp hm).2.1 hfits
  | panic _ => cases hr

theorem Kept.fine_seek (h : Kept x) {pos : Word}
    (hrun : x.sfs.tryseek x.sin pos = .ok (r, t, sin')) :
    Fine x (.seek pos) (x.after (.seek pos) ret t sin') := by
  unfold Sfs.tryseek at hrun
  split at hrun
  · next hout =>
    cases hrun
    refine h.fine_of_size_eq h.orderly.resized le_rfl (fun _ => rfl) fun m hm => ?_
    have hlt : pos.toNat < 2 ^ 27 := hm.1
    rcases hout with hneg | hmax
    · rw [Sfs.slt_iff_of_lt (by omega) (by decide)] at hneg
      exact absurd hneg (not_lt_zero _)
    · exact absurd hm.1 (not_lt.mpr hmax)
  · next hin =>
    rw [not_or, not_le] at hin
    split at hrun
    · next hlonger =>
      have hlt : pos.toNat < 2 ^ 27 := hin.2
      have hint : pos.toInt = pos.toNat := BitVec.toInt_eq_toNat_of_lt (by omega)
      refine h.fine_truncfile (fun _ => rfl) (fun _ => id) (fun m => and_congr ?_ ?_) (fun _ => ?_) hrun
      · refine iff_of_true hin.2 ?_
        rw [hint, Int.toNat_natCast]
        exact ⟨Int.natCast_nonneg _, hin.2.le⟩
      · rw [hint, Int.toNat_natCast]
      · refine .inl ?_
        rw [hint, Int.toNat_natCast]
        exact hlonger.le
    · next hle =>
      cases hrun
      refine h.fine_of_size_eq h.orderly.resized le_rfl (fun _ => rfl) fun m hm => ?_
      rw [hm.2.2]
      exact not_lt.mp hle

theorem Kept.fine_write (h : Kept x) {data : List (BitVec 8)} {y : Transfer}
    (hshort : data.length ≤ blkSize) (hrun : x.sfs.ioNolock x.sin true data offset
      (BitVec.ofNat 32 data.length) = .ok (ret, y)) :
    Fine x (.write data offset) (x.after (.write data offset) ret y.sfs y.sin) := by
  rcases Sfs.write_cases h.orderly h.type hshort hrun with
    ⟨hout, hret, hsfs, hsin⟩ | ⟨hin, endpos, hendpos, rfl, sin₁, hpatch, hsin⟩
  · rw [hsfs, hsin]
    refine h.fine_of_size_eq h.orderly.resized le_rfl (fun p => ?_) fun m hm => absurd hm.1 hout
    rcases hret with rfl | rfl
    · rfl
    · exact decide_eq_false (by omega)
  · have hpos : 0 < data.length := length_pos_iff.mpr hin.1
    have hlen : (data.take (endpos - offset.toNat)).length = endpos - offset.toNat := by
      rw [length_take]
      omega
    have hback : offset.toNat + (endpos - offset.toNat) = endpos := by omega
    have hwrote : ∀ p, (FileOp.write data offset).wrote (.ok (endpos - offset.toNat)) p = true ↔
        offset.toNat ≤ p ∧ p < endpos := by
      intro p
      rw [FileOp.wrote, decide_eq_true_iff, hback]
    have hbyte : ∀ p < sin₁.din.blocks.toNat * blkSize,
        (FileOp.write data offset).wrote (.ok (endpos - offset.toNat)) p = false →
          y.sfs.fileByte sin₁ p = if p < x.blocks * blkSize then x.byte p else 0 := by
      intro p hp hW
      rw [hpatch.byte_eq p hp, hlen, hback, if_neg]
      · rfl
      · exact fun hc => Bool.false_ne_true (hW.symm.trans ((hwrote p).mpr hc))
    have hinside : endpos ≤ sin₁.din.blocks.toNat * blkSize := by
      have := hpatch.inside (endpos - 1) (by omega) (by rw [hlen]; omega)
      omega
    have hcovers : ∀ p < endpos,
        ((FileOp.write data offset).wrote (.ok (endpos - offset.toNat)) p = true ↔
          (FileOp.write data offset).covers p) := by
      intro p hp
      rw [hwrote]
      show _ ↔ offset.toNat ≤ p ∧ p < offset.toNat + data.length
      omega
    have hold : x.size ≤ sin₁.din.blocks.toNat * blkSize :=
      h.size_le.trans (mul_le_mul_right _ hpatch.grown)
    have htype := hpatch.type_eq.trans h.type
    rw [hsin]
    split
    · next hlonger =>
      refine h.fine (hpatch.toOrderly.setSize _) htype
        (mod_eq_of_lt ((hendpos.le.trans (min_le_right _ _)).trans_lt (by decide)))
        hinside hbyte (fun p hp => ((hwrote p).mp hp).2) (fun _ hlt => ?_) (fun m hm => .inr (hm.2.trans hendpos.symm)) (.inr ⟨hin, hendpos⟩)
        fun p hp _ => hcovers p hp
      exact absurd hlt (not_lt.mpr hlonger.le)
    · next hle =>
      refine h.fine hpatch.toOrderly htype (congrArg BitVec.toNat hpatch.size_eq) hold
        hbyte (fun p hp => lt_of_lt_of_le ((hwrote p).mp hp).2 (not_lt.mp hle))
        (fun _ hlt => absurd hlt (lt_irrefl _)) (fun m hm => .inl (hm.2.le.trans (hendpos.ge.trans (not_lt.mp hle))))
        (.inl le_rfl) fun p hp hp' => ?_
      exact absurd hp (not_lt.mpr hp')

/-- **One call.** -/
theorem Kept.step (h : Kept x) (hshort : op.Short) (hrun : x.step op = .ok y) : Fine x op y := by
  obtain ⟨⟨ret, t, sin'⟩, hexec, hy⟩ := bind_eq_ok.mp hrun
  obtain rfl : x.after op ret t sin' = y := Except.ok.inj hy
  cases op with
  | write data offset =>
    obtain ⟨⟨r, z⟩, hio, heq⟩ := bind_eq_ok.mp hexec
    cases heq
    exact h.fine_write hshort hio
  | truncate len =>
    obtain ⟨⟨r, u, sin₁⟩, htrunc, heq⟩ := bind_eq_ok.mp hexec
    cases heq
    exact h.fine_truncfile (fun _ => rfl) (fun _ => id) (fun _ => Iff.rfl) id htrunc
  | seek pos =>
    obtain ⟨⟨r, u, sin₁⟩, hseek, heq⟩ := bind_eq_ok.mp hexec
    cases heq
    exact h.fine_seek hseek

end Call

/-! ### All of them -/

/-- In a run all states read as 0 where nothing was written, just if the first does and every call
finds zeros. -/
theorem Kept.states_iff (ops : List FileOp) : ∀ {x : Tracked}, Kept x → (∀ op ∈ ops, op.Short) →
    ((∀ y ∈ x.states ops, y.ReadsZero) ↔
      x.ReadsZero ∧ ∀ z op, (z, op) ∈ x.steps ops → z.FindsZeros op) := by
  induction ops with
  | nil =>
    intro x _ _
    simp [states, steps]
  | cons op ops ih =>
    intro x h hshort
    rw [forall_mem_cons] at hshort
    rw [states, steps]
    cases hrun : x.step op with
    | error e => simp
    | ok y =>
      have hfine := h.step hshort.1 hrun
      have hrest := ih hfine.kept hshort.2
      rw [forall_mem_cons, hrest]
      refine and_congr_right fun hz => ?_
      rw [hfine.readsZero_iff hz]
      constructor
      · rintro ⟨hzeros, hsteps⟩ z op' hmem
        rcases mem_cons.mp hmem with heq | hmem
        · cases heq
          exact hzeros
        · exact hsteps z op' hmem
      · intro hsteps
        exact ⟨hsteps x op (mem_cons_self ..), fun z op' hmem =>
          hsteps z op' (mem_cons_of_mem _ hmem)⟩

theorem start_kept {s : Sfs} {sin : SfsInode} (h : s.Orderly sin) (htype : sin.din.type = typeFile)
    (hblocks : sin.din.blocks.toNat = blocksFor sin.din.size.toNat) : Kept (start s sin) where
  orderly := h
  type := htype
  size_le := (Sfs.le_blocksFor _).trans (mul_le_mul_right _ hblocks.ge)
  fresh _ hp := decide_eq_true hp

/-- **A file reads as 0 where it was not written** since it last ended there or before, in all the
states of a run, just if every call that makes it longer finds zeros between the ends. -/
theorem extended_file_reads_zero_iff {s : Sfs} {sin : SfsInode} (h : s.Orderly sin)
    (htype : sin.din.type = typeFile) (hblocks : sin.din.blocks.toNat = blocksFor sin.din.size.toNat)
    (ops : List FileOp) (hshort : ∀ op ∈ ops, op.Short) :
    (∀ y ∈ (start s sin).states ops, y.ReadsZero) ↔
      ∀ z op, (z, op) ∈ (start s sin).steps ops → z.FindsZeros op := by
  rw [(start_kept h htype hblocks).states_iff ops hshort, and_iff_right]
  intro p hp hfresh
  exact absurd (of_decide_eq_true hfresh) (not_le.mpr hp)

/-- A third block for the file with two. -/
theorem extended_file_reads_zero_block :
    ((start Sfs.scattered Sfs.scatteredFile).states [.truncate 12288]).length = 2 ∧
      ∀ y ∈ (start Sfs.scattered Sfs.scatteredFile).states [.truncate 12288], y.ReadsZero := by
  refine ⟨rfl, ?_⟩
  refine (extended_file_reads_zero_iff Sfs.scattered_orderly rfl (by decide) [.truncate 12288]
    (forall_mem_singleton.mpr trivial)).mpr fun z op hmem => ?_
  obtain ⟨rfl, rfl⟩ := Prod.mk.inj (mem_singleton.mp hmem)
  intro n _ p hp _ _ hblock
  exact absurd hblock (not_lt.mpr hp)

/-- A file of two blocks is cut to one byte of the second, and gets one byte longer again: that byte is
what the block had there. -/
theorem shrunk_file_keeps_bytes : ∃ y,
    y ∈ (start Sfs.scattered Sfs.scatteredFile).states [.truncate 4097, .truncate 4098] ∧
      y.size = 4098 ∧ y.fresh 4097 = true ∧ y.byte 4097 = 1 ∧ ¬y.ReadsZero := by
  have hkept := start_kept Sfs.scattered_orderly rfl (by decide)
  have h₁ : Fine _ (.truncate 4097) _ := hkept.step trivial rfl
  have h₂ : Fine _ (.truncate 4098) _ := h₁.kept.step trivial rfl
  refine ⟨_, mem_cons_of_mem _ (mem_cons_of_mem _ (mem_singleton.mpr rfl)), rfl, rfl,
    rfl, fun hz => ?_⟩
  have hzero := h₂.kept.readsZero_iff.mp hz 4097 (by decide) rfl
  exact absurd hzero (by decide)

end Tracked

end UcoreMips.Kernel
