import UcoreMips.Kernel.Fs.FileCalls
import UcoreMips.Kernel.Fs.WriteRuns
import UcoreMips.Kernel.Mm.UserMem

/-!
# UcoreMips.Kernel.Fs.Sysfile

**The system calls that read and write** (`kern/fs/sysfile.c`): the bytes go through a buffer of the
kernel, a block of them at a time, between the memory of the process and an open file.

Each turn of the loops is one transfer of `FileCalls` and one copy of `UserMem`. For a file of the
volume the turns make up one transfer: the pieces that are read follow each other in the file and in
the memory, and two writes that follow each other are one write (`Written.trans`).
-/

namespace UcoreMips.Kernel

open UcoreMips.Lib
open Emulator (Word)
open List Nat Files UserSpace

/-- A process with its memory and its files. -/
structure Task extends Files where
  user : UserSpace

/-- `IOBUF_SIZE`. -/
def iobufSize : Nat := 4096

/-- The label `out`: the number of bytes if there are some, and else the code. -/
def ioResult (copied : Nat) (ret : Int) : Int :=
  if copied ≠ 0 then (BitVec.ofNat 32 copied).toInt else ret

namespace Task

/-- The loop of `sysfile_read`. -/
def readLoop (t : Task) (fd : Int) (buffer : List (BitVec 8)) (base : Word) (len copied : Nat) :
    Except VfsStop (Int × Task) :=
  if len = 0 then .ok (ioResult copied 0, t)
  else do
    let (ret, alen, bytes, files) ← t.fileRead fd (buffer.take (min iobufSize len))
    let buffer := putAt buffer 0 bytes
    if alen = 0 then return (ioResult copied ret, { t with toFiles := files })
    else
      match t.user.copyToUser base (buffer.take alen) with
      | (false, user) => return (ioResult copied (if ret = 0 then -eInval else ret), ⟨files, user⟩)
      | (true, user) =>
        if len < alen then throw .alen
        else if ret ≠ 0 then return (ioResult (copied + alen) ret, ⟨files, user⟩)
        else readLoop ⟨files, user⟩ fd buffer (base + BitVec.ofNat 32 alen) (len - alen) (copied + alen)
termination_by len

/-- `sysfile_read`, with the buffer that `kmalloc` returns. -/
def sysfileRead (t : Task) (buffer : Option (List (BitVec 8))) (fd : Int) (base : Word) (len : Nat) :
    Except VfsStop (Int × Task) :=
  if len = 0 then .ok (0, t)
  else if t.fileTestfd fd true false = false then .ok (-eInval, t)
  else
    match buffer with
    | none => .ok (-eNoMem, t)
    | some buffer => t.readLoop fd buffer base len 0

/-- The loop of `sysfile_write`. -/
def writeLoop (t : Task) (fd : Int) (buffer : List (BitVec 8)) (base : Word) (len copied : Nat) :
    Except VfsStop (Int × Task) :=
  if len = 0 then .ok (ioResult copied 0, t)
  else
    match t.user.copyFromUser base (min iobufSize len) false with
    | (none, user) => .ok (ioResult copied (-eInval), { t with user := user })
    | (some data, user) => do
      let buffer := putAt buffer 0 data
      let (ret, alen, bytes, files) ← t.fileWrite fd (buffer.take (min iobufSize len))
      let buffer := putAt buffer 0 bytes
      if len < alen then throw .alen
      else if ret ≠ 0 ∨ alen = 0 then return (ioResult (copied + alen) ret, ⟨files, user⟩)
      else writeLoop ⟨files, user⟩ fd buffer (base + BitVec.ofNat 32 alen) (len - alen) (copied + alen)
termination_by len

/-- `sysfile_write`, with the buffer that `kmalloc` returns. -/
def sysfileWrite (t : Task) (buffer : Option (List (BitVec 8))) (fd : Int) (base : Word) (len : Nat) :
    Except VfsStop (Int × Task) :=
  if len = 0 then .ok (0, t)
  else if t.fileTestfd fd false true = false then .ok (-eInval, t)
  else
    match buffer with
    | none => .ok (-eNoMem, t)
    | some buffer => t.writeLoop fd buffer base len 0

/-- `sysfile_seek`. -/
def sysfileSeek (t : Task) (fd : Int) (pos : Word) (whence : Int) : Except VfsStop (Int × Task) := do
  let (ret, files) ← t.fileSeek fd pos whence
  return (ret, { t with toFiles := files })

end Task

/-! ### Two writes are one -/

theorem putAt_putAt {buf a b : List (BitVec 8)} {off : Nat} (hoff : off ≤ buf.length) :
    putAt (putAt buf off a) (off + a.length) b = putAt buf off (a ++ b) := by
  have htake : (buf.take off).length = off := length_take_of_le hoff
  unfold putAt
  rw [take_left' (by rw [length_append, htake]), drop_append, length_append, htake,
    drop_eq_nil_of_le (by rw [length_append, htake]; omega), drop_drop, length_append]
  simp only [append_assoc, nil_append]
  congr 4
  omega

namespace Sfs

/-- A regular file with the blocks its size takes, on a device that stores what is written. -/
structure Intact (s : Sfs) (sin : SfsInode) : Prop where
  filed : Filed s sin
  reliable : s.Reliable
  type_eq : sin.din.type = typeFile
  blocks_eq : sin.din.blocks.toNat = blocksFor sin.din.size.toNat

variable {s t u : Sfs} {sin sin' sin'' : SfsInode} {off : Nat} {a b : List (BitVec 8)}

theorem Intact.size_le (h : s.Intact sin) : sin.din.size.toNat ≤ sin.din.blocks.toNat * blkSize := by
  rw [h.blocks_eq]
  exact le_blocksFor _

theorem Intact.length_content (h : s.Intact sin) : (s.content sin).length = sin.din.size.toNat := by
  rw [content_eq h.size_le, length_span]

theorem Written.intact (h : Written s sin off a t sin') (htype : sin.din.type = typeFile) : t.Intact sin' :=
  ⟨h.filed, h.io, h.type_eq.trans htype, h.blocks_eq⟩

section Content

variable (hs : s.Intact sin) (hoff : off ≤ sin.din.size.toNat)

include hs hoff

/-- What was written is in the file. -/
theorem Written.drop_take_content (h : Written s sin off a t sin') : ((t.content sin').drop off).take a.length = a := by
  have htake : ((s.content sin).take off).length = off :=
    length_take_of_le (by rw [hs.length_content]; exact hoff)
  rw [h.content_eq, putAt, append_assoc, drop_left' htake, take_left]

/-- Nothing is written. -/
theorem Written.nil : Written s sin off [] s sin where
  __ := hs
  slot_eq _ _ := rfl
  content_eq := by rw [putAt, append_nil, length_nil, add_zero, take_append_drop]
  size_eq := (max_eq_left hoff).symm
  frame _ _ := rfl
  room _ _ hroom := hroom
  io := hs.reliable
  type_eq := rfl

theorem Written.trans (h : Written s sin off a t sin')
    (h' : Written t sin' (off + a.length) b u sin'') : Written s sin off (a ++ b) u sin'' where
  filed := h'.filed
  slot_eq p hne := by
    have hslot := h.slot_eq p hne
    exact (h'.slot_eq p (hslot.symm ▸ hne)).trans hslot
  content_eq := by
    rw [h'.content_eq, h.content_eq, putAt_putAt (by rw [hs.length_content]; exact hoff)]
  size_eq := by
    rw [h'.size_eq, h.size_eq, length_append]
    omega
  blocks_eq := h'.blocks_eq
  frame c hc := (h'.frame c hc).trans (h.frame c fun howns => hc (owns_of_slot h'.slot_eq howns))
  room n hn hroom := by
    rw [length_append, ← add_assoc] at hn
    exact h'.room n hn (h.room n ((blocksFor_mono (Nat.le_add_right ..)).trans hn) hroom)
  io := h'.io
  type_eq := h'.type_eq.trans h.type_eq

end Content

end Sfs

/-! ### Reading -/

namespace Task

variable {t t' t'' : Task} {fd : Int} {f : FdIndex} {n : NodeId} {sin sin' : SfsInode} {base : Word}
  {data more buffer : List (BitVec 8)} {len : Nat}

/-- Bytes were read from the file into the memory of the process, and the position is behind them. -/
structure Received (t : Task) (f : FdIndex) (n : NodeId) (sin : SfsInode) (base : Word)
    (data : List (BitVec 8)) (t' : Task) : Prop where
  files : ∃ s, Sfs.Same t.vfs.sfs s ∧
    t'.toFiles = t.moved f n s sin ((t.fdArray f).pos + BitVec.ofNat 32 data.length)
  mem : t'.user.mem = (t.user.put base data).mem
  kept : Kept t.user t'.user

theorem Received.nil {s : Sfs} (hsame : Sfs.Same t.vfs.sfs s) (huser : t.user.InOrder) :
    Received t f n sin base [] { t with toFiles := t.moved f n s sin ((t.fdArray f).pos + BitVec.ofNat 32 0) } :=
  ⟨⟨s, hsame, rfl⟩, rfl, rfl, huser⟩

theorem Received.trans (hlen : data.length + more.length < 2 ^ 32) (h : Received t f n sin base data t')
    (h' : Received t' f n sin (base + BitVec.ofNat 32 data.length) more t'') :
    Received t f n sin base (data ++ more) t'' := by
  obtain ⟨s, hsame, hfiles⟩ := h.files
  obtain ⟨s', hsame', hfiles'⟩ := h'.files
  refine ⟨⟨s', ?_, ?_⟩, ?_, h.kept.trans h'.kept⟩
  · rw [hfiles] at hsame'
    exact hsame.trans hsame'
  · rw [hfiles', hfiles, moved_moved, length_append, BitVec.ofNat_add, ← BitVec.add_assoc]
    simp only [moved, placed, Function.update_self]
  · rw [← put_put hlen, h'.mem]
    funext a
    simp only [put, h.mem]

/-- The descriptor is open on a file for reading, at a position in it. -/
structure ReadyToRead (t : Task) (fd : Int) (f : FdIndex) (n : NodeId) (sin : SfsInode) : Prop where
  openOn : t.OpenOn fd f n sin
  mapped : Sfs.Mapped t.vfs.sfs sin
  reliable : t.vfs.sfs.Reliable
  type_eq : sin.din.type = typeFile
  size_le : sin.din.size.toNat ≤ sin.din.blocks.toNat * blkSize
  mode : (t.fdArray f).readable = true
  pos_le : (t.fdArray f).pos.toNat ≤ sin.din.size.toNat
  inOrder : t.user.InOrder

/-- How many bytes there are to read. -/
def left (t : Task) (f : FdIndex) (sin : SfsInode) : Nat := sin.din.size.toNat - (t.fdArray f).pos.toNat

/-- The bytes that are read from the position on. -/
def ahead (t : Task) (f : FdIndex) (sin : SfsInode) (len : Nat) : List (BitVec 8) :=
  ((t.vfs.sfs.content sin).drop (t.fdArray f).pos.toNat).take len

section Ready

variable (h : ReadyToRead t fd f n sin)

include h

theorem ReadyToRead.ahead_eq (len : Nat) : t.ahead f sin len =
    span (t.vfs.sfs.fileByte sin) (t.fdArray f).pos.toNat (min len (t.left f sin)) :=
  Sfs.drop_take_content h.size_le _ _

theorem ReadyToRead.length_ahead (len : Nat) :
    (t.ahead f sin len).length = min len (t.left f sin) := by
  rw [h.ahead_eq, length_span]

/-- After a piece has been read, what is ahead is the rest of it. -/
theorem ReadyToRead.received (hdata : data.length ≤ t.left f sin)
    (hrec : Received t f n sin base data t') : ReadyToRead t' fd f n sin ∧
      t'.left f sin = t.left f sin - data.length ∧
      ∀ len, t.ahead f sin (data.length + len) = t.ahead f sin data.length ++ t'.ahead f sin len := by
  obtain ⟨s, hsame, hfiles⟩ := hrec.files
  have hle := h.pos_le
  have hdata' : data.length ≤ sin.din.size.toNat - (t.fdArray f).pos.toNat := hdata
  have hpos : (t'.fdArray f).pos.toNat = (t.fdArray f).pos.toNat + data.length := by
    rw [hfiles]
    simp only [moved, placed, Function.update_self]
    rw [BitVec.toNat_add, BitVec.toNat_ofNat, mod_eq_of_lt (by omega), mod_eq_of_lt (by omega)]
  have hsfs : t'.vfs.sfs = s := by rw [hfiles]; rfl
  have hready : ReadyToRead t' fd f n sin := by
    refine ⟨?_, ?_, ?_, h.type_eq, h.size_le, ?_, by omega, hrec.kept.inOrder⟩
    · rw [hfiles]
      exact h.openOn.moved
    · rw [hsfs]
      exact hsame.filed h.mapped
    · rw [hsfs]
      exact hsame.io h.reliable
    · rw [hfiles]
      simpa [moved, placed] using h.mode
  refine ⟨hready, ?_, fun len => ?_⟩
  · rw [left, left, hpos]
    omega
  · have hsplit : min (data.length + len) (t.left f sin) = data.length + min len (t'.left f sin) := by
      rw [left, left, hpos]
      omega
    rw [h.ahead_eq, h.ahead_eq, hready.ahead_eq, hsplit, span_add, min_eq_left hdata, hpos, hsfs,
      hsame.fileByte]

/-- One transfer of the loop. -/
theorem ReadyToRead.chunk {chunk : List (BitVec 8)} (hchunk : chunk.length ≤ blkSize) : ∃ s, Sfs.Same t.vfs.sfs s ∧
      t.fileRead fd chunk = .ok (0, min chunk.length (t.left f sin),
        t.ahead f sin chunk.length ++ chunk.drop (min chunk.length (t.left f sin)),
        t.moved f n s sin ((t.fdArray f).pos + BitVec.ofNat 32 (min chunk.length (t.left f sin)))) := by
  obtain ⟨s, iob, hio, hsame, hused, hbytes⟩ :=
    Sfs.sfsIo_read h.mapped h.reliable h.type_eq h.size_le hchunk h.pos_le
  refine ⟨s, hsame, ?_⟩
  have hcall := h.openOn.fileIo_eq (by simpa using h.mode) hio
  rwa [hbytes, hused] at hcall

/-- The loop reads the rest of the file, as far as there is room. -/
theorem ReadyToRead.readLoop_eq (copied : Nat)
    (hbase : 0 < len → t.user.Accessible base len true) (hbuffer : buffer.length = iobufSize) :
    ∃ t', t.readLoop fd buffer base len copied = .ok (ioResult (copied + min len (t.left f sin)) 0, t') ∧
      Received t f n sin base (t.ahead f sin len) t' := by
  induction len using Nat.strong_induction_on generalizing t base buffer copied with
  | _ len ih =>
  rw [readLoop]
  by_cases hlen : len = 0
  · subst hlen
    refine ⟨t, by rw [if_pos rfl, zero_min, add_zero], ?_⟩
    have hnil : Received t f n sin base [] _ := Received.nil (Sfs.Same.refl t.vfs.sfs) h.inOrder
    rw [BitVec.add_zero, h.openOn.moved_self] at hnil
    exact hnil
  · obtain ⟨chunk, hchunk⟩ : ∃ chunk, buffer.take (min iobufSize len) = chunk := ⟨_, rfl⟩
    have hchunklen : chunk.length = min iobufSize len := by
      rw [← hchunk, length_take, hbuffer]
      omega
    obtain ⟨s, hsame, hread⟩ := h.chunk (show chunk.length ≤ iobufSize by omega)
    obtain ⟨piece, hpiece⟩ : ∃ piece, t.ahead f sin chunk.length = piece := ⟨_, rfl⟩
    have hpiecelen : piece.length = min chunk.length (t.left f sin) := by rw [← hpiece, h.length_ahead]
    rw [hpiece, ← hpiecelen] at hread
    rw [if_neg hlen, hchunk]
    simp only [ok_bind, hread]
    have hiobuf : iobufSize = 4096 := rfl
    by_cases hpiece0 : piece.length = 0
    · -- the end of the file
      have hleft : t.left f sin = 0 := by omega
      have hahead : t.ahead f sin len = [] := eq_nil_of_length_eq_zero (by rw [h.length_ahead, hleft, min_zero])
      rw [if_pos hpiece0, hleft, min_zero, add_zero, hahead, hpiece0]
      exact ⟨_, rfl, Received.nil hsame h.inOrder⟩
    · have htake : (putAt buffer 0 (piece ++ chunk.drop piece.length)).take piece.length = piece := by
        rw [putAt, take_zero, nil_append, append_assoc, take_left]
      have hbase := hbase (pos_of_ne_zero hlen)
      have hsub : t.user.Accessible base piece.length true := by
        have hsub := hbase.sub (m := 0) (n := piece.length) (pos_of_ne_zero hpiece0) (by omega)
        rwa [BitVec.add_zero] at hsub
      obtain ⟨user, hcopy, hmem, hkept⟩ := copyToUser_eq h.inOrder hsub
      have hrec : Received t f n sin base piece
          ⟨t.moved f n s sin ((t.fdArray f).pos + BitVec.ofNat 32 piece.length), user⟩ :=
        ⟨⟨s, hsame, rfl⟩, hmem, hkept⟩
      obtain ⟨hready, hleft, hahead⟩ := h.received (by omega) hrec
      obtain ⟨t', hloop, hrec'⟩ := @ih (len - piece.length) (by omega) _
        (base + BitVec.ofNat 32 piece.length) (putAt buffer 0 (piece ++ chunk.drop piece.length)) hready
        (copied + piece.length) (fun hpos => hkept.accessible (hbase.sub hpos (by omega))) (by
          simp only [putAt, length_append, length_drop, take_zero, nil_append]
          omega)
      refine ⟨t', ?_, ?_⟩
      · rw [if_neg hpiece0, htake, hcopy]
        simp only [not_lt.mpr (show piece.length ≤ len by omega), if_false, ne_eq, not_true_eq_false]
        rw [hloop, hleft]
        congr 3
        omega
      · have hsplit := hahead (len - piece.length)
        rw [Nat.add_sub_cancel' (show piece.length ≤ len by omega)] at hsplit
        have hfirst : t.ahead f sin piece.length = piece := by
          rw [h.ahead_eq, min_eq_left (by omega), hpiecelen, ← h.ahead_eq, hpiece]
        rw [hsplit, hfirst]
        refine hrec.trans ?_ hrec'
        have hbound := hbase.bound
        rw [hready.length_ahead]
        omega

end Ready

/-! ### Writing -/

/-- The descriptor is open on a file for writing, at a position in it or at its end. -/
structure ReadyToWrite (t : Task) (fd : Int) (f : FdIndex) (n : NodeId) (sin : SfsInode) : Prop where
  openOn : t.OpenOn fd f n sin
  intact : t.vfs.sfs.Intact sin
  mode : (t.fdArray f).writable = true
  pos_le : (t.fdArray f).pos.toNat ≤ sin.din.size.toNat
  inOrder : t.user.InOrder

/-- Bytes were written to the file, and the position is behind them. -/
structure Sent (t : Task) (f : FdIndex) (n : NodeId) (sin : SfsInode) (data : List (BitVec 8)) (t' : Task)
    (sin' : SfsInode) : Prop where
  files : ∃ s, Sfs.Written t.vfs.sfs sin (t.fdArray f).pos.toNat data s sin' ∧
    t'.toFiles = t.moved f n s sin' ((t.fdArray f).pos + BitVec.ofNat 32 data.length)
  mem : t'.user.mem = t.user.mem
  kept : Kept t.user t'.user

/-- The position after a piece has been written. -/
theorem Sent.pos_eq (h : Sent t f n sin data t' sin') (hmax : (t.fdArray f).pos.toNat + data.length < 2 ^ 32) :
    (t'.fdArray f).pos.toNat = (t.fdArray f).pos.toNat + data.length := by
  obtain ⟨s, -, hfiles⟩ := h.files
  rw [hfiles]
  simp only [moved, placed, Function.update_self]
  rw [BitVec.toNat_add, BitVec.toNat_ofNat, mod_eq_of_lt (by omega), mod_eq_of_lt (by omega)]

section Sent

variable (h : ReadyToWrite t fd f n sin) (hmax : (t.fdArray f).pos.toNat + data.length < 2 ^ 32)
  (hsent : Sent t f n sin data t' sin')

include h hmax hsent

theorem ReadyToWrite.sent : ReadyToWrite t' fd f n sin' := by
  have hpos := hsent.pos_eq hmax
  obtain ⟨s, hwritten, hfiles⟩ := hsent.files
  refine ⟨?_, ?_, ?_, ?_, hsent.kept.inOrder⟩
  · rw [hfiles]
    exact h.openOn.moved
  · rw [hfiles]
    exact hwritten.intact h.intact.type_eq
  · rw [hfiles]
    simpa [moved, placed] using h.mode
  · rw [hpos, hwritten.size_eq]
    exact le_max_right ..

theorem Sent.trans {sin'' : SfsInode} (hsent' : Sent t' f n sin' more t'' sin'') : Sent t f n sin (data ++ more) t'' sin'' := by
  have hpos := hsent.pos_eq hmax
  obtain ⟨s, hwritten, hfiles⟩ := hsent.files
  obtain ⟨s', hwritten', hfiles'⟩ := hsent'.files
  refine ⟨⟨s', ?_, ?_⟩, hsent'.mem.trans hsent.mem, hsent.kept.trans hsent'.kept⟩
  · rw [hpos, hfiles] at hwritten'
    exact hwritten.trans h.intact h.pos_le hwritten'
  · rw [hfiles', hfiles, moved_moved, length_append, BitVec.ofNat_add, ← BitVec.add_assoc]
    simp only [moved, placed, Function.update_self]

end Sent

/-- One transfer of the loop. -/
theorem ReadyToWrite.chunk {user : UserSpace} (h : ReadyToWrite t fd f n sin) (hdata : data.length ≤ blkSize)
    (hmax : (t.fdArray f).pos.toNat + data.length ≤ (nDirect + blkNentry) * blkSize)
    (hroom : sin.needed (blocksFor ((t.fdArray f).pos.toNat + data.length)) ≤ t.vfs.sfs.freemap.bits.card)
    (hmem : user.mem = t.user.mem) (hkept : Kept t.user user) :
    ∃ bytes files sin', t.fileWrite fd data = .ok (0, data.length, bytes, files) ∧
      Sent t f n sin data ⟨files, user⟩ sin' := by
  obtain ⟨s, sin', iob, hio, hused, hwritten⟩ := Sfs.sfsIo_write h.intact.filed h.intact.reliable
    h.intact.type_eq h.intact.blocks_eq h.pos_le hdata hmax hroom
  have hcall := h.openOn.fileIo_eq (by simpa using h.mode) hio
  rw [hused] at hcall
  exact ⟨iob.bytes, _, sin', hcall, ⟨s, hwritten, rfl⟩, hmem, hkept⟩

/-- The loop writes the bytes of the process one piece after the other. -/
theorem ReadyToWrite.writeLoop_eq (h : ReadyToWrite t fd f n sin) (copied : Nat)
    (hbase : 0 < len → t.user.Accessible base len false)
    (hmax : (t.fdArray f).pos.toNat + len ≤ (nDirect + blkNentry) * blkSize)
    (hroom : sin.needed (blocksFor ((t.fdArray f).pos.toNat + len)) ≤ t.vfs.sfs.freemap.bits.card) :
    ∃ t' sin', t.writeLoop fd buffer base len copied = .ok (ioResult (copied + len) 0, t') ∧
      Sent t f n sin (t.user.bytes base len) t' sin' := by
  induction len using Nat.strong_induction_on generalizing t sin base buffer copied with
  | _ len ih =>
  rw [writeLoop]
  by_cases hlen : len = 0
  · subst hlen
    refine ⟨t, sin, if_pos rfl, ⟨t.vfs.sfs, .nil h.intact h.pos_le, ?_⟩, rfl, rfl, h.inOrder⟩
    exact (h.openOn.moved_self.symm.trans (by rw [length_bytes, BitVec.add_zero]))
  · have hmax' : (t.fdArray f).pos.toNat + len ≤ 4243456 := hmax
    have hiobuf : iobufSize = 4096 := rfl
    have hbase := hbase (pos_of_ne_zero hlen)
    obtain ⟨alen, halen⟩ : ∃ alen, min iobufSize len = alen := ⟨_, rfl⟩
    have hsub : t.user.Accessible base alen false := by
      have hsub := hbase.sub (m := 0) (n := alen) (by omega) (by omega)
      rwa [BitVec.add_zero] at hsub
    obtain ⟨user, hcopy, hmem, hkept⟩ := copyFromUser_eq h.inOrder hsub
    obtain ⟨data, hdata⟩ : ∃ data, t.user.bytes base alen = data := ⟨_, rfl⟩
    have hdatalen : data.length = alen := by rw [← hdata, length_bytes]
    have hfits : blocksFor ((t.fdArray f).pos.toNat + data.length) ≤ blocksFor ((t.fdArray f).pos.toNat + len) :=
      Sfs.blocksFor_mono (by omega)
    obtain ⟨bytes, files, sin', hwrite, hsent⟩ := h.chunk (show data.length ≤ 4096 by omega)
      (show _ ≤ 4243456 by omega) ((sin.needed_mono hfits).trans hroom) hmem hkept
    have hready := h.sent (by omega) hsent
    have hpos := hsent.pos_eq (by omega)
    obtain ⟨s, hwritten, hfiles⟩ := hsent.files
    have hend : (t.fdArray f).pos.toNat + data.length + (len - data.length) = (t.fdArray f).pos.toNat + len := by
      omega
    obtain ⟨t', sin'', hloop, hsent'⟩ := @ih (len - data.length) (by omega) ⟨files, user⟩ sin'
      (base + BitVec.ofNat 32 data.length) (putAt (putAt buffer 0 data) 0 bytes) hready (copied + data.length)
      (fun hrest => hkept.accessible (hbase.sub hrest (by omega))) (by rw [hpos, hend]; exact hmax) (by
        rw [hpos, hend, hfiles]
        exact hwritten.room _ hfits hroom)
    have htake : (putAt buffer 0 data).take alen = data := by
      rw [putAt, take_zero, nil_append, take_left' hdatalen]
    refine ⟨t', sin'', ?_, ?_⟩
    · rw [if_neg hlen, halen, hcopy, hdata]
      simp only [htake, ok_bind, hwrite]
      rw [if_neg (by omega), if_neg (by rw [not_or]; exact ⟨not_not_intro rfl, by omega⟩), hloop]
      congr 3
      omega
    · have hbytes : t.user.bytes base len = data ++
          user.bytes (base + BitVec.ofNat 32 data.length) (len - data.length) := by
        rw [← Nat.add_sub_cancel' (show data.length ≤ len by omega), bytes_add, hdatalen, hdata,
          Nat.add_sub_cancel_left]
        simp only [UserSpace.bytes, hmem]
      rw [hbytes]
      exact hsent.trans h (by omega) hsent'

/-! ### The calls -/

theorem ioResult_zero {copied : Nat} (h : copied < 2 ^ 31) : ioResult copied 0 = copied := by
  unfold ioResult
  split
  · rw [BitVec.toInt_eq_toNat_of_lt (by rw [BitVec.toNat_ofNat]; omega), BitVec.toNat_ofNat,
      mod_eq_of_lt (by omega)]
  · next hzero => rw [not_not.mp hzero, Int.ofNat_zero]

theorem ReadyToRead.sysfileRead_eq (h : ReadyToRead t fd f n sin) (hbase : t.user.Accessible base len true)
    (hbuffer : buffer.length = iobufSize) : ∃ t',
      t.sysfileRead (some buffer) fd base len = .ok ((min len (t.left f sin) : Nat), t') ∧
        Received t f n sin base (t.ahead f sin len) t' := by
  have hfew : sin.din.blocks.toNat ≤ 1036 := h.mapped.few
  have hsize : sin.din.size.toNat ≤ sin.din.blocks.toNat * 4096 := h.size_le
  have hleft : t.left f sin ≤ sin.din.size.toNat := sub_le ..
  have htest : t.fileTestfd fd true false = true := by
    simp only [fileTestfd, h.openOn.found, h.mode]
    rfl
  obtain ⟨t', hloop, hrec⟩ := h.readLoop_eq 0 (fun _ => hbase) hbuffer
  refine ⟨t', ?_, hrec⟩
  rw [ioResult_zero (by omega), zero_add] at hloop
  simpa only [sysfileRead, if_neg hbase.pos.ne', htest, Bool.true_eq_false, if_false] using hloop

theorem ReadyToWrite.sysfileWrite_eq (h : ReadyToWrite t fd f n sin) (hbase : t.user.Accessible base len false)
    (hmax : (t.fdArray f).pos.toNat + len ≤ (nDirect + blkNentry) * blkSize)
    (hroom : sin.needed (blocksFor ((t.fdArray f).pos.toNat + len)) ≤ t.vfs.sfs.freemap.bits.card) :
    ∃ t' sin', t.sysfileWrite (some buffer) fd base len = .ok ((len : Nat), t') ∧
      Sent t f n sin (t.user.bytes base len) t' sin' := by
  have hmax' : (t.fdArray f).pos.toNat + len ≤ 4243456 := hmax
  have htest : t.fileTestfd fd false true = true := by
    simp only [fileTestfd, h.openOn.found, h.mode]
    rfl
  obtain ⟨t', sin', hloop, hsent⟩ := h.writeLoop_eq 0 (fun _ => hbase) hmax hroom
  refine ⟨t', sin', ?_, hsent⟩
  rw [ioResult_zero (by omega), zero_add] at hloop
  simpa only [sysfileWrite, if_neg hbase.pos.ne', htest, Bool.true_eq_false, if_false] using hloop

/-- A position of a file that is not behind its end can be gone to, and the file stays as it is. -/
theorem sysfileSeek_eq {pos : Word} (h : t.OpenOn fd f n sin) (hs : t.vfs.sfs.Intact sin)
    (hpos : pos.toNat ≤ sin.din.size.toNat) : t.sysfileSeek fd pos lseekSet =
      .ok (0, { t with toFiles := t.moved f n t.vfs.sfs sin pos }) := by
  have hfew : sin.din.blocks.toNat ≤ 1036 := hs.filed.few
  have hsize : sin.din.size.toNat ≤ sin.din.blocks.toNat * 4096 := hs.size_le
  have hseek : t.vfs.sfs.tryseek sin pos = .ok (.ok (), t.vfs.sfs, sin) := by
    rw [Sfs.tryseek, if_neg, if_neg (not_lt.mpr hpos)]
    rw [Sfs.slt_iff_of_lt (by omega) (by decide)]
    show ¬(pos.toNat < 0 ∨ 134217728 ≤ pos.toNat)
    omega
  have hcall := h.fileSeek_eq hs.type_eq (show seekPos _ _ pos lseekSet = some pos from if_pos rfl) hseek
  rw [sysfileSeek, hcall]
  rfl

/-- What was written is read again from the same position. -/
theorem Sent.read_back {dst pos : Word} (h : ReadyToWrite t fd f n sin) (hpos : (t.fdArray f).pos = pos)
    (hmode : (t.fdArray f).readable = true) (hsent : Sent t f n sin data t' sin')
    (hdst : t.user.Accessible dst data.length true) (hbuffer : buffer.length = iobufSize) :
    ∃ t₁ t₂, t'.sysfileSeek fd pos lseekSet = .ok (0, t₁) ∧
      t₁.sysfileRead (some buffer) fd dst data.length = .ok ((data.length : Nat), t₂) ∧
      t₂.user.bytes dst data.length = data := by
  have hbound := hdst.bound
  obtain ⟨s, hwritten, hfiles⟩ := hsent.files
  have hintact : t'.vfs.sfs.Intact sin' := by
    rw [hfiles]
    exact hwritten.intact h.intact.type_eq
  have hopen : t'.OpenOn fd f n sin' := by
    rw [hfiles]
    exact h.openOn.moved
  have hsize := hwritten.size_eq
  have hle : pos.toNat ≤ sin'.din.size.toNat := by
    have hle := h.pos_le
    rw [hpos] at hle
    omega
  obtain ⟨t₁, ht₁⟩ : ∃ t₁ : Task, { t' with toFiles := t'.moved f n t'.vfs.sfs sin' pos } = t₁ := ⟨_, rfl⟩
  have hpos₁ : (t₁.fdArray f).pos = pos := by
    rw [← ht₁]
    simp [moved, placed]
  have hready : ReadyToRead t₁ fd f n sin' := by
    refine ⟨?_, ?_, ?_, hintact.type_eq, hintact.size_le, ?_, by rw [hpos₁]; exact hle, ?_⟩
    · rw [← ht₁]
      exact hopen.moved
    · rw [← ht₁]
      exact hintact.filed.toMapped
    · rw [← ht₁]
      exact hintact.reliable
    · rw [← ht₁]
      simp only [moved, placed, Function.update_self, hfiles]
      exact hmode
    · rw [← ht₁]
      exact hsent.kept.inOrder
  have hahead : t₁.ahead f sin' data.length = data := by
    rw [ahead, hpos₁, ← ht₁, ← hpos]
    simp only [moved, placed, hfiles]
    exact hwritten.drop_take_content h.intact h.pos_le
  have hleft : data.length ≤ t₁.left f sin' := by
    rw [left, hpos₁, hsize, hpos]
    omega
  have hdst' : t₁.user.Accessible dst data.length true := by
    rw [← ht₁]
    exact hsent.kept.accessible hdst
  obtain ⟨t₂, hread, hrec⟩ := hready.sysfileRead_eq hdst' hbuffer
  rw [min_eq_left hleft] at hread
  refine ⟨t₁, t₂, ht₁ ▸ sysfileSeek_eq hopen hintact hle, hread, ?_⟩
  rw [hahead] at hrec
  calc t₂.user.bytes dst data.length = (t₁.user.put dst data).bytes dst data.length := by
        simp only [bytes, hrec.mem]
    _ = data := bytes_put (by omega)

/-- `sysfile_read` and `sysfile_write`, which go through a buffer of one block, do what one transfer
would do, wherever the blocks of the file are. -/
theorem sysfile_chunks_compose (h : t.OpenOn fd f n sin) (hs : t.vfs.sfs.Intact sin)
    (hpos : (t.fdArray f).pos.toNat ≤ sin.din.size.toNat) (huser : t.user.InOrder)
    (hmax : (t.fdArray f).pos.toNat + len ≤ (nDirect + blkNentry) * blkSize)
    (hbuffer : buffer.length = iobufSize) :
    ((t.fdArray f).readable = true → t.user.Accessible base len true → ∃ t',
      t.sysfileRead (some buffer) fd base len =
          .ok ((min len (sin.din.size.toNat - (t.fdArray f).pos.toNat) : Nat), t') ∧
        Received t f n sin base (((t.vfs.sfs.content sin).drop (t.fdArray f).pos.toNat).take len) t') ∧
    ((t.fdArray f).writable = true → t.user.Accessible base len false →
      sin.needed (blocksFor ((t.fdArray f).pos.toNat + len)) ≤ t.vfs.sfs.freemap.bits.card → ∃ t' sin',
      t.sysfileWrite (some buffer) fd base len = .ok ((len : Nat), t') ∧
        Sent t f n sin (t.user.bytes base len) t' sin' ∧
        ((t.fdArray f).readable = true → ∀ dst, t.user.Accessible dst len true → ∃ t₁ t₂,
          t'.sysfileSeek fd (t.fdArray f).pos lseekSet = .ok (0, t₁) ∧
          t₁.sysfileRead (some buffer) fd dst len = .ok ((len : Nat), t₂) ∧
          t₂.user.bytes dst len = t.user.bytes base len)) := by
  constructor
  · intro hmode hbase
    have hready : ReadyToRead t fd f n sin :=
      ⟨h, hs.filed.toMapped, hs.reliable, hs.type_eq, hs.size_le, hmode, hpos, huser⟩
    exact hready.sysfileRead_eq hbase hbuffer
  · intro hmode hbase hroom
    have hready : ReadyToWrite t fd f n sin := ⟨h, hs, hmode, hpos, huser⟩
    obtain ⟨t', sin', hwrite, hsent⟩ := hready.sysfileWrite_eq hbase hmax hroom
    refine ⟨t', sin', hwrite, hsent, fun hread dst hdst => ?_⟩
    have hlen : (t.user.bytes base len).length = len := length_bytes
    have hback := hsent.read_back hready rfl hread (hlen.symm ▸ hdst) hbuffer
    rwa [hlen] at hback

/-- A process with the file of two blocks that do not follow each other, at position 100 of it. -/
def scatteredTask : Task where
  vfs := ⟨Sfs.scattered, fun n => if n = 1 then some ⟨.file Sfs.scatteredFile, 1, 1⟩ else none, [], []⟩
  fdArray f := if f = 0 then ⟨.opened, true, true, 0, 100, some 1, 1⟩ else ⟨.none, false, false, f, 0, none, 0⟩
  user := ⟨some ⟨[⟨0x800000, 0x900000, vmRead ||| vmWrite⟩], none, 5, false⟩, fun _ => 7⟩

theorem scatteredTask_openOn : scatteredTask.OpenOn 0 0 1 Sfs.scatteredFile :=
  ⟨⟨by decide, rfl, by decide⟩, _, rfl, rfl, rfl⟩

theorem scatteredTask_intact : scatteredTask.vfs.sfs.Intact Sfs.scatteredFile :=
  ⟨Sfs.scattered_filed, fun _ => rfl, rfl, by decide⟩

theorem scatteredTask_inOrder : scatteredTask.user.InOrder := by
  intro mm hmm
  obtain rfl := Option.some.inj hmm
  exact ⟨⟨by simp, by decide⟩, by decide⟩

theorem scatteredTask_accessible (write : Bool) : scatteredTask.user.Accessible 0x800000 9000 write := by
  refine ⟨by decide, by decide, by decide, fun i hi => ⟨_, mem_singleton_self _, ?_, ?_, ?_⟩⟩
  · have hadd : (0x800000 + BitVec.ofNat 32 i : Word).toNat = 0x800000 + i := by
      rw [BitVec.toNat_add, BitVec.toNat_ofNat, mod_eq_of_lt (show i < 2 ^ 32 by omega)]
      exact mod_eq_of_lt (show 0x800000 + i < 2 ^ 32 by omega)
    constructor
    · rw [BitVec.le_def, hadd]
      exact Nat.le_add_right ..
    · rw [BitVec.lt_def, hadd]
      show 0x800000 + i < 0x900000
      omega
  · cases write <;> decide
  · intro _ hstack
    exact absurd rfl hstack

/-- The file ends before the buffer does, and is made longer by the write. -/
theorem sysfile_chunks_compose_scattered :
    (∃ t', scatteredTask.sysfileRead (some (replicate 4096 0)) 0 0x800000 9000 = .ok (8092, t')) ∧
      ∃ t', scatteredTask.sysfileWrite (some (replicate 4096 0)) 0 0x800000 9000 = .ok (9000, t') := by
  obtain ⟨hread, hwrite⟩ := @sysfile_chunks_compose scatteredTask 0 0 1 Sfs.scatteredFile 0x800000
    (replicate 4096 0) 9000 scatteredTask_openOn scatteredTask_intact (by decide) scatteredTask_inOrder
    (by decide) length_replicate
  constructor
  · obtain ⟨t', hread, -⟩ := hread rfl (scatteredTask_accessible true)
    exact ⟨t', hread⟩
  · obtain ⟨t', -, hwrite, -⟩ := hwrite rfl (scatteredTask_accessible false) (by decide)
    exact ⟨t', hwrite⟩

end Task

end UcoreMips.Kernel
