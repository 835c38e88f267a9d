import UcoreMips.Kernel.Fs.FileWrite

/-!
# UcoreMips.Kernel.Fs.WriteRuns

**Which writes are right, whatever is in the buffer.** `sfs_io_nolock` looks up the first whole
block of a write only, and writes the others behind it on the disk. That is right where the file
has all these blocks and they follow each other (`RunWritable`).

Otherwise there is a buffer for which it is wrong. If the file is to get more than one whole block,
its number of blocks is too small afterwards. If a block of the file is not where it would have to be,
it does not get its bytes; the buffer is zero, up to one byte at the end of that block. It may be that the
indirect block of the file is overwritten: with zeros, blocks of the file are gone.
-/

namespace UcoreMips.Kernel

open UcoreMips.Lib Nat List Transfer
open Emulator (Word)
open Function (update_of_ne update_self)

namespace Sfs

variable {s t u : Sfs} {sin sin' : SfsInode} {b : Ino} {j index len : Nat} {blocks : Nat → Block}
  {x z : Transfer}

/-- The bytes of the file from `offset` on are replaced by the buffer, the file is as long as they
make it, and what does not belong to it stays as it is. -/
def WritesFile (s : Sfs) (sin : SfsInode) (buf : List (BitVec 8)) (offset len : Word) : Prop :=
  ∃ x, s.ioNolock sin true buf offset len = .ok (.ok len.toNat, x) ∧
    (∀ k < x.sin.din.blocks.toNat, x.sfs.mapped x.sin k ≠ 0) ∧
    x.sfs.content x.sin = putAt (s.content sin) offset.toNat buf ∧
    x.sin.din.size.toNat = max sin.din.size.toNat (offset.toNat + len.toNat) ∧
    x.sin.din.blocks.toNat = blocksFor x.sin.din.size.toNat ∧
    ∀ c, ¬x.sfs.Owns x.sin c → x.sfs.disk c = s.disk c

/-! ### Blocks that are written behind each other -/

/-- Blocks of the disk have been written, and nothing else has changed. -/
structure Flooded (s : Sfs) (b : Ino) (n : Nat) (blocks : Nat → Block) (t : Sfs) : Prop where
  blocks_eq : t.blocks = s.blocks
  unused : t.unusedBlocks = s.unusedBlocks
  freemap : t.freemap = s.freemap
  io : t.Reliable
  inside : ∀ j < n, t.disk (b + BitVec.ofNat 32 j) = blocks j
  outside : ∀ c, (∀ j < n, c ≠ b + BitVec.ofNat 32 j) → t.disk c = s.disk c

theorem add_ofNat_inj {k : Nat} (hj : j < 2 ^ 32) (hk : k < 2 ^ 32)
    (h : b + BitVec.ofNat 32 j = b + BitVec.ofNat 32 k) : j = k := by
  have hnat := congrArg BitVec.toNat ((BitVec.add_right_inj b).mp h)
  rwa [BitVec.toNat_ofNat, BitVec.toNat_ofNat, mod_eq_of_lt hj, mod_eq_of_lt hk] at hnat

theorem rwblock_flooded (buf : List (BitVec 8)) {n : Nat} (hn : n < 2 ^ 32) :
    ∀ {s : Sfs} {b : Ino} {pos : Nat}, s.Reliable → (∀ k < n, s.Valid (b + BitVec.ofNat 32 k)) →
      ∃ t, rwblock true n s buf pos b = .ok (.ok buf, t) ∧
        Flooded s b n (fun j => .ofList (buf.drop (pos + j * blkSize))) t := by
  induction n with
  | zero =>
    intro s b pos hr _
    exact ⟨s, rfl, rfl, rfl, rfl, hr, fun j hj => absurd hj (not_lt_zero j), fun _ _ => rfl⟩
  | succ n ih =>
    intro s b pos hr hvalid
    obtain ⟨hb, hrest⟩ := valid_run_succ.mp hvalid
    obtain ⟨t, ⟨hst, hwrite⟩ | ⟨-, hio, -⟩⟩ := rwblockNolock_write hb (.ofList (buf.drop pos))
    · have hvalid' : ∀ k < n, t.Valid (b + 1 + BitVec.ofNat 32 k) := fun k hk =>
        ⟨(hrest k hk).1, hst.blocks.symm ▸ (hrest k hk).2⟩
      obtain ⟨u, hrun, hu⟩ := @ih (by omega) t (b + 1) (pos + blkSize) (hst.io hr) hvalid'
      refine ⟨u, ?_, hu.blocks_eq.trans hst.blocks, hu.unused.trans hst.unused,
        hu.freemap.trans hst.freemap, hu.io, fun j hj => ?_, fun c hc => ?_⟩
      · rw [rwblock, hwrite]
        exact hrun
      · cases j with
        | zero =>
          have hne : ∀ j < n, b + BitVec.ofNat 32 0 ≠ b + 1 + BitVec.ofNat 32 j := fun j hj heq => by
            rw [add_ofNat_succ] at heq
            have := add_ofNat_inj (by omega) (by omega) heq
            omega
          rw [hu.outside _ hne, hst.disk, add_ofNat_zero, update_self, zero_mul, add_zero]
        | succ j =>
          rw [← add_ofNat_succ, hu.inside j (by omega), succ_mul, add_assoc, add_comm blkSize]
      · have hcb : c ≠ b := add_ofNat_zero b ▸ hc 0 (succ_pos n)
        rw [hu.outside c fun j hj => by rw [add_ofNat_succ]; exact hc (j + 1) (by omega), hst.disk,
          update_of_ne hcb]
    · exact absurd hr hio

theorem Flooded.sound {n : Nat} (h : Flooded s b n blocks t) (hs : s.Sound) :
    t.Sound := hs.congr h.blocks_eq h.unused h.freemap

theorem Flooded.inUse {n : Nat} (h : Flooded s b n blocks t) {c : Ino}
    (hc : s.InUse c) : t.InUse c := hc.congr h.blocks_eq h.freemap

/-! ### The last part of a write -/

theorem Got.io {create : Bool} {ret : Except Err Ino}
    (h : Got s sin index create ret t sin') (hr : s.Reliable) : t.Reliable := by
  cases h with
  | found hsame _ => exact hsame.io hr
  | direct _ _ _ hb => exact hb.io hr
  | entry _ _ _ _ _ hb hst => exact hst.io (hb.io hr)
  | both _ _ _ _ hent hb hst => exact hst.io (hb.io (hent.io hr))
  | failed hab _ => exact hab.io hr

theorem part_index_le {off : Nat}
    (h : x.part true index off len = .ok z) : index ≤ x.sin.din.blocks.toNat := by
  refine Classical.byContradiction fun hgt => ?_
  rw [part, load, bmapLoad, if_pos hgt] at h
  cases h

/-- The beginning of a block has been written: the block was looked up or made before. -/
theorem part_eq_ok (hs : x.sfs.Sound) (hr : x.sfs.Reliable)
    (hind : x.sin.din.indirect ≠ 0 → x.sfs.InUse x.sin.din.indirect)
    (hmap : x.sfs.mapped x.sin index ≠ 0 → x.sfs.InUse (x.sfs.mapped x.sin index))
    (hi : index < nDirect + blkNentry) (hlen : len ≤ blkSize)
    (h : x.part true index 0 len = .ok z) :
    ∃ d v sin',
      Got x.sfs x.sin index (decide (index = x.sin.din.blocks.toNat)) (.ok d) v sin' ∧ d ≠ 0 ∧
      Stored v d ((v.disk d).patch 0 ((x.buf.drop x.pos).take len)) z.sfs ∧
      z.sin = if index = x.sin.din.blocks.toNat then sin'.addBlock else sin' := by
  have hle := part_index_le h
  obtain ⟨ret, v, sin', hgot, hload⟩ := bmapLoad_spec hs hind hmap hle hi
  rw [part, load, hload] at h
  cases ret with
  | error e => cases h
  | ok d =>
    dsimp only at h
    by_cases hd : d = 0
    · rw [if_pos hd] at h
      cases h
    · rw [if_neg hd] at h
      obtain ⟨w, ⟨hst, hwrite⟩ | ⟨-, hio, -⟩⟩ := wbuf_spec (hgot.inUse hs hmap hd).1
        ((x.buf.drop x.pos).take len) (succ_pos 4095) (by
          rw [zero_add]
          exact (length_take_le _ _).trans hlen)
      · simp only [ok_bind, pure_eq_ok, Sfs.bufOp, hwrite, if_true, Except.map] at h
        obtain rfl := Except.ok.inj h
        exact ⟨d, v, sin', hgot, hd, hst, rfl⟩
      · exact absurd (hgot.io hr) hio

/-- The direct blocks are those of the inode. -/
theorem mapped_direct (s t : Sfs) {k : Nat} (h : k < nDirect) : t.mapped sin k = s.mapped sin k := by
  rw [mapped, mapped, dif_pos h, dif_pos h]

section Tail

variable {n offset endpos : Nat} {blocks : Nat → Block} {y z : Transfer} (hf : Filed s sin)
  (hfl : Flooded s b n blocks y.sfs) (hsin : y.sin = sin)
  (hmax : endpos ≤ (nDirect + blkNentry) * blkSize) (htail : y.tail true offset endpos = .ok z)

include hf hfl hsin hmax htail

/-- What there is to say about the tail of a write: nothing is done, or the beginning of the last
block is written. -/
theorem tail_cases
    (hmap : endpos / blkSize ≤ sin.din.blocks.toNat → endpos / blkSize < nDirect + blkNentry →
      y.sfs.mapped sin (endpos / blkSize) ≠ 0 → y.sfs.InUse (y.sfs.mapped sin (endpos / blkSize))) :
    z = y ∨ ∃ d v sin' data, endpos / blkSize < nDirect + blkNentry ∧
      Got y.sfs sin (endpos / blkSize) (decide (endpos / blkSize = sin.din.blocks.toNat)) (.ok d) v
        sin' ∧ d ≠ 0 ∧ data.length ≤ 4095 ∧ Stored v d ((v.disk d).patch 0 data) z.sfs ∧
      z.sin = if endpos / blkSize = sin.din.blocks.toNat then sin'.addBlock else sin' := by
  unfold Transfer.tail at htail
  split at htail
  · next hlast =>
    have hlast' : 0 < endpos % 4096 := hlast.2
    have hmax' : endpos ≤ 1036 * 4096 := hmax
    have hi : endpos / blkSize < nDirect + blkNentry := by
      show endpos / 4096 < 1036
      omega
    have hle := part_index_le htail
    rw [hsin] at hle
    obtain ⟨d, v, sin', hgot, hd, hst, heq⟩ := part_eq_ok (hfl.sound hf.healthy.sound) hfl.io
      (by rw [hsin]; exact fun hne => hfl.inUse (hf.toMapped.indirect hne))
      (by rw [hsin]; exact hmap hle hi) hi (le_of_lt (mod_lt _ (by decide))) htail
    rw [hsin] at hgot heq
    refine .inr ⟨d, v, sin', _, hi, hgot, hd, ?_, hst, heq⟩
    exact (length_take_le _ _).trans (show endpos % 4096 ≤ 4095 by omega)
  · exact .inl (Except.ok.inj htail).symm

/-- With zeros in the indirect block the blocks behind the direct ones are gone. -/
theorem tail_lost (hne : sin.din.indirect ≠ 0) (hzero : y.sfs.disk sin.din.indirect = .zero)
    (hlong : nDirect < sin.din.blocks.toNat) : z.sfs.mapped z.sin nDirect = 0 := by
  have hentry : ∀ k, y.sfs.entry sin.din.indirect k = 0 := fun k => by
    rw [entry_of_ne hne, hzero, Buffer.word_zero]
  have hmapped : ∀ k, nDirect ≤ k → y.sfs.mapped sin k = 0 := fun k hk => by
    rw [mapped, dif_neg (Nat.not_lt_of_le hk), hentry]
  have hcases := tail_cases hf hfl hsin hmax htail fun hle _ hne' => by
    by_cases hdir : endpos / blkSize < nDirect
    · rw [mapped_direct s _ hdir]
      exact hfl.inUse (hf.toMapped.mapped _ (hdir.trans hlong))
    · exact absurd (hmapped _ (Nat.le_of_not_lt hdir)) hne'
  rcases hcases with rfl | ⟨d, v, sin', data, -, hgot, hd, -, hst, heq⟩
  · rw [hsin]
    exact hmapped _ (Nat.le_refl _)
  · have hused : y.sfs.InUse sin.din.indirect := hfl.inUse (hf.toMapped.indirect hne)
    have hgoal : sin'.din.indirect = sin.din.indirect → d ≠ sin.din.indirect →
        (v.disk sin.din.indirect).word 0 = 0 → z.sfs.mapped z.sin nDirect = 0 := by
      intro hind hdne hword
      have hzind : z.sin.din.indirect = sin.din.indirect := by
        rw [heq]
        split <;> exact hind
      rw [mapped, dif_neg (Nat.lt_irrefl _), Nat.sub_self, hzind, entry_of_ne hne, hst.disk,
        update_of_ne hdne.symm]
      exact hword
    cases hgot with
    | found hsame _ =>
      have hdir : endpos / blkSize < nDirect :=
        Nat.lt_of_not_le fun hle => hd (hmapped _ hle)
      refine hgoal rfl ?_ (by rw [hsame.disk, hzero, Buffer.word_zero])
      rw [mapped_direct s _ hdir]
      exact hf.mapped_ne_indirect (hdir.trans hlong)
    | @direct k _ _ hk hnew =>
      have := of_decide_eq_true hnew
      omega
    | @entry k _ w _ hk hlt hnew _ _ hb hst' =>
      have hlast := of_decide_eq_true hnew
      have hdne : d ≠ sin.din.indirect := by
        rintro rfl
        exact hused.2 hb.free
      refine hgoal rfl hdne ?_
      rw [hst'.disk, update_self, Buffer.word_patch_of_ne _ (by omega), hb.disk,
        update_of_ne hdne.symm, hzero, Buffer.word_zero]
    | both _ _ _ hnone => exact absurd hnone hne

/-- The tail does not touch the end of another block, and the file keeps the block. -/
theorem tail_kept {k : Nat} (hk : k < sin.din.blocks.toNat) (hlast : k ≠ endpos / blkSize)
    (hsafe : (∃ j < n, sin.din.indirect = b + BitVec.ofNat 32 j) →
      sin.din.blocks.toNat ≤ nDirect ∧ (y.sfs.disk sin.din.indirect).word 0 = 0) :
    (z.sfs.disk (s.mapped sin k)).get 4095 = (y.sfs.disk (s.mapped sin k)).get 4095 ∧
      z.sfs.mapped z.sin k = s.mapped sin k := by
  -- the block map is as before, where the file has blocks behind the direct ones
  have hslot : nDirect < sin.din.blocks.toNat → y.sfs.slot sin = s.slot sin := fun hlong =>
    slot_congr fun _ => hfl.outside _ fun j hj heq => by
      have := (hsafe ⟨j, hj, heq⟩).1
      omega
  have hmapped : ∀ i < sin.din.blocks.toNat, y.sfs.mapped sin i = s.mapped sin i := by
    intro i hi
    by_cases hdir : i < nDirect
    · exact mapped_direct s _ hdir
    · exact mapped_of_slot (fun p _ => by rw [hslot (by omega)]) (hi.trans_le hf.few)
        (hf.mapped i hi)
  have hused : y.sfs.InUse (s.mapped sin k) := hfl.inUse (hf.toMapped.mapped k hk)
  have hcases := tail_cases hf hfl hsin hmax htail fun hle hi hne => by
    by_cases hdir : endpos / blkSize < nDirect
    · rw [mapped_direct s _ hdir] at hne ⊢
      exact hfl.inUse (hf.healthy.mapped_inUse hi hne)
    · by_cases hhit : ∃ j < n, sin.din.indirect = b + BitVec.ofNat 32 j
      · obtain ⟨hshort, hword⟩ := hsafe hhit
        have hzero : y.sfs.mapped sin (endpos / blkSize) = 0 := by
          rw [mapped, dif_neg hdir, show endpos / blkSize - nDirect = 0 by omega, entry]
          split
          · rfl
          · exact hword
        exact absurd hzero hne
      · have heq : y.sfs.slot sin = s.slot sin := slot_congr fun _ =>
          hfl.outside _ fun j hj heq => hhit ⟨j, hj, heq⟩
        obtain ⟨p, hp⟩ := exists_part hi
        rw [mapped_eq_slot hp, heq] at hne ⊢
        exact hfl.inUse (hf.healthy.inUse hne)
  rcases hcases with rfl | ⟨d, v, sin', data, hi, hgot, hd, hdata, hst, heq⟩
  · exact ⟨rfl, by rw [hsin]; exact hmapped k hk⟩
  · have hdirect : ∀ i, i.val ≠ endpos / blkSize → z.sin.din.direct i = sin.din.direct i := by
      intro i hi
      have hd : sin'.din.direct i = sin.din.direct i := by
        cases hgot with
        | @direct j _ _ hj =>
          refine update_of_ne (fun hij => hi ?_) _ _
          rw [hij, hj]
        | found | entry | both => rfl
      rw [heq]
      split <;> exact hd
    refine ⟨?_, ?_⟩
    · have hv : v.disk (s.mapped sin k) = y.sfs.disk (s.mapped sin k) :=
        hgot.disk_eq hused (hf.mapped_ne_indirect hk)
      rw [hst.disk, ← hv]
      by_cases hkd : s.mapped sin k = d
      · rw [hkd, update_self, Buffer.get_patch_outside _ (.inr (by omega))]
      · rw [update_of_ne hkd]
    · by_cases hdir : k < nDirect
      · rw [mapped, mapped, dif_pos hdir, dif_pos hdir]
        exact hdirect ⟨k, hdir⟩ hlast
      · have hy : Filed y.sfs sin := by
          refine hf.congr (hfl.sound hf.healthy.sound) (hslot (by omega)) ?_ hfl.blocks_eq rfl
          unfold free
          rw [hfl.freemap]
        have hh' := hy.healthy.worked (hgot.worked hy.healthy)
        have hdne : d ≠ sin'.din.indirect := by
          obtain ⟨p, hp⟩ := exists_part hi
          have hpd : v.slot sin' p = d := (mapped_eq_slot hp v sin').symm.trans (hgot.mapped_eq hy.healthy)
          have hpi : p ≠ .indirect := by
            rintro rfl
            cases hp
          rw [← hpd]
          exact hh'.ne_of_slot_ne (q := .indirect) hpi (hpd ▸ hd)
        have hzslot : z.sfs.slot z.sin = v.slot sin' := by
          have hsame : z.sfs.slot sin' = v.slot sin' := slot_congr fun _ => by
            rw [hst.disk, update_of_ne hdne.symm]
          rw [heq, ← hsame]
          split
          · exact slot_addBlock _ _
          · rfl
        refine mapped_of_slot (fun p hp => ?_) (hk.trans_le hf.few) (hf.mapped k hk)
        rw [hzslot, hgot.slot_eq hy.healthy (by rw [hslot (by omega)]; exact hp), hslot (by omega)]

end Tail

/-! ### A write step by step -/

theorem whole_eq_ok {y w : Transfer} {m : Nat} (hload : x.load index = .ok (b, w))
    (h : x.whole true index m = .ok y) : ∃ buf t,
      rwblock true m w.sfs w.buf w.pos b = .ok (.ok buf, t) ∧
        y = ⟨t, w.sin, buf, w.pos + m * blkSize⟩ := by
  obtain ⟨⟨_, _⟩, hload', h⟩ := bind_eq_ok.mp h
  obtain ⟨rfl, rfl⟩ := Prod.mk.inj (Except.ok.inj (hload.symm.trans hload'))
  obtain ⟨⟨ret, t⟩, hrun, heq⟩ := bind_eq_ok.mp h
  cases ret with
  | error e => cases heq
  | ok buf => exact ⟨buf, t, hrun, (Except.ok.inj heq).symm⟩

theorem finish_sfs (x : Transfer) (off : Nat) : (x.finish off).sfs = x.sfs := by
  unfold finish
  split <;> rfl

theorem finish_blocks (x : Transfer) (off : Nat) :
    (x.finish off).sin.din.blocks = x.sin.din.blocks := by
  unfold finish
  split <;> rfl

theorem finish_mapped (x : Transfer) (off : Nat) :
    (x.finish off).sfs.mapped (x.finish off).sin = x.sfs.mapped x.sin := by
  unfold finish
  split <;> rfl

theorem getElem?_putAt {l data : List (BitVec 8)} {pos i : Nat} (hpos : pos ≤ l.length)
    (hi : i < data.length) : (putAt l pos data)[pos + i]? = data[i]? := by
  rw [putAt, append_assoc, List.getElem?_append_right (by rw [length_take]; omega),
    length_take, Nat.min_eq_left hpos, Nat.add_sub_cancel_left, List.getElem?_append_left hi]

/-- A file with blocks behind the direct ones has an indirect block. -/
theorem Filed.indirect_ne_zero (hf : Filed s sin) (hlong : nDirect < sin.din.blocks.toNat) :
    sin.din.indirect ≠ 0 := by
  intro hzero
  refine hf.mapped nDirect hlong ?_
  rw [Sfs.mapped, dif_neg (lt_irrefl _), hzero, entry_zero]

/-- The buffer that is zero up to one byte. -/
theorem getD_set_replicate {n i : Nat} (c : BitVec 8) (hj : j < n) :
    ((replicate n (0 : BitVec 8)).set j c).getD i 0 = if i = j then c else 0 := by
  rw [getD_eq_getElem?_getD, List.getElem?_set]
  by_cases hij : j = i
  · subst hij
    rw [if_pos rfl, length_replicate, if_pos hj, if_pos rfl]
    rfl
  · rw [if_neg hij, if_neg (Ne.symm hij), List.getElem?_replicate]
    split <;> rfl

section Steps

variable {buf : List (BitVec 8)} {offset len : Word} {o endpos : Nat} (hf : Filed s sin)
  (hr : s.Reliable) (htype : sin.din.type = typeFile)
  (hblocks : sin.din.blocks.toNat = blocksFor sin.din.size.toNat) (hoff : o ≤ sin.din.size.toNat)
  (hmax : endpos ≤ (nDirect + blkNentry) * blkSize)
  (hroom : sin.needed (blocksFor endpos) ≤ s.freemap.bits.card) (hend : endpos = o + len.toNat)
  (hpos : 0 < len.toNat)

include hf hr htype hblocks hoff hmax hroom hend hpos

/-- A write that is right: what is true of its parts. -/
theorem WritesFile.parts (ho : offset.toNat = o) (hbuf : buf.length = len.toNat)
    (h : WritesFile s sin buf offset len) :
    ∃ x y z, Put s sin buf o x ∧ x.pos = headLen o endpos ∧
      x.middle true o endpos = .ok y ∧ y.tail true o endpos = .ok z ∧
      (∀ k < z.sin.din.blocks.toNat, z.sfs.mapped z.sin k ≠ 0) ∧
      z.sin.din.blocks.toNat = blocksFor (max sin.din.size.toNat endpos) ∧
      ∀ i < len.toNat, z.sfs.fileByte z.sin (o + i) = buf.getD i 0 := by
  have hmax' : endpos ≤ 4243456 := hmax
  have hsize : sin.din.size.toNat ≤ sin.din.blocks.toNat * blkSize := by
    rw [hblocks]
    exact le_blocksFor _
  rw [WritesFile, ho] at h
  obtain ⟨w, hrun, hmapped, hcontent, hwsize, hwblocks, -⟩ := h
  have hlt : o < endpos := by omega
  have hstart : Put s sin buf o ⟨s, sin, buf, 0⟩ :=
    ⟨rfl, zero_le _, by rw [take_zero]; exact .nil hf hr (hoff.trans hsize)⟩
  obtain ⟨x, hhead, hx, hxpos⟩ := ((Put.parts (by rw [hbuf]; exact hend) (blocksFor_le hmax) hroom).head
    hlt hstart rfl).exists_ok fun _ => id
  have hlen : len ≠ 0 := by
    rintro rfl
    exact lt_irrefl 0 hpos
  have hmin : min (o + len.toNat) maxFileSize = endpos := by
    rw [← hend]
    exact min_eq_left (show _ ≤ 134217728 by omega)
  rw [ioNolock_eq htype (show _ < 134217728 by omega) (by omega),
    if_neg fun h => h.elim hlen fun h => Bool.noConfusion h.1] at hrun
  simp only [if_true, ho, hmin, run_eq _ _ (le_of_lt hlt), hhead] at hrun
  obtain ⟨z, hz, heq⟩ := bind_eq_ok.mp hrun
  obtain ⟨y, hmid, htail⟩ := bind_eq_ok.mp hz
  obtain ⟨-, rfl⟩ := Prod.mk.inj (Except.ok.inj heq)
  rw [finish_blocks, finish_mapped] at hmapped
  rw [finish_blocks, hwsize, ← hend] at hwblocks
  refine ⟨x, y, z, hx, hxpos, hmid, htail, hmapped, hwblocks, fun i hi => ?_⟩
  have hbyte : (z.finish o).sfs.fileByte (z.finish o).sin =
      z.sfs.fileByte z.sin := by
    funext j
    unfold fileByte
    rw [finish_mapped, finish_sfs]
  rw [Sfs.content_eq (by rw [finish_blocks, hwblocks, hwsize, ← hend]; exact le_blocksFor _), hwsize,
    hbyte] at hcontent
  have hget := congrArg (fun l => l[o + i]?) hcontent
  rw [getElem?_span (by omega), getElem?_putAt _ (by rw [hbuf]; exact hi), zero_add] at hget
  · rw [getD_eq_getElem?_getD, ← hget]
    rfl
  · rw [Sfs.content_eq hsize, length_span]
    exact hoff

omit hf hr htype hmax hroom in
/-- After the end of the first block the file has as many blocks as before. -/
theorem blocks_of_put (hx : Put s sin buf o x)
    (hwhole : 0 < wholeBlocks o endpos) (hxpos : x.pos = headLen o endpos) :
    x.sin.din.blocks.toNat = sin.din.blocks.toNat ∧ o + x.pos = firstWhole o * blkSize := by
  have hlt : o < endpos := by omega
  have hfull : firstWhole o < endpos / blkSize := Nat.lt_of_sub_pos hwhole
  have hat := ((parts_of_transfer hlt).2.1 (le_of_lt hfull)).1
  have hfirst : firstWhole o ≤ sin.din.blocks.toNat := by
    rw [hblocks]
    exact blocksFor_mono hoff
  refine ⟨?_, hxpos.symm ▸ hat⟩
  rw [hx.written.blocks_eq, length_take, min_eq_left hx.le, hxpos, hat, blocksFor_mul]
  exact max_eq_left hfirst

/-- More than one whole block cannot be added. -/
theorem not_writesFile_new (ho : offset.toNat = o) (hbuf : buf.length = len.toNat)
    (htwo : 2 ≤ wholeBlocks o endpos)
    (hnew : sin.din.blocks.toNat < firstWhole o + wholeBlocks o endpos) :
    ¬WritesFile s sin buf offset len := by
  intro h
  obtain ⟨x, y, z, hx, hxpos, hmid, htail, -, hzblocks, -⟩ :=
    h.parts hf hr htype hblocks hoff hmax hroom hend hpos ho hbuf
  obtain ⟨hxblocks, hat⟩ :=
    blocks_of_put hblocks hoff hend hpos hx (by omega) hxpos
  have hn : wholeBlocks o endpos = endpos / blkSize - firstWhole o := rfl
  have hceil : endpos / blkSize ≤ blocksFor endpos := Nat.div_le_div_right (by
    show endpos ≤ endpos + 4096 - 1
    omega)
  rw [middle, if_pos (by omega)] at hmid
  obtain ⟨b, t, sin', hload, hl⟩ := hx.load (hat.trans (add_zero _).symm) (succ_pos 4095)
    (show firstWhole o < blocksFor endpos by omega) (blocksFor_le hmax) hroom
  obtain ⟨buf', u, -, rfl⟩ := whole_eq_ok hload hmid
  have hyblocks := hl.blocks_eq
  unfold Transfer.tail at htail
  split at htail
  · have hle := part_index_le htail
    change endpos / blkSize ≤ sin'.din.blocks.toNat at hle
    omega
  · obtain rfl := Except.ok.inj htail
    change sin'.din.blocks.toNat = _ at hzblocks
    have hmono := blocksFor_mono (le_max_right sin.din.size.toNat endpos)
    omega

omit hr htype hmax hroom in
/-- Blocks that are there are written where they are taken to be. -/
theorem flooded_of_middle {y : Transfer} (hx : Put s sin buf o x)
    (hwhole : 0 < wholeBlocks o endpos) (hxpos : x.pos = headLen o endpos)
    (hold : firstWhole o + wholeBlocks o endpos ≤ sin.din.blocks.toNat)
    (hmid : x.middle true o endpos = .ok y) :
    y.sin = x.sin ∧ Flooded x.sfs (s.mapped sin (firstWhole o)) (wholeBlocks o endpos)
      (fun j => .ofList (buf.drop (x.pos + j * blkSize))) y.sfs := by
  obtain ⟨hxblocks, -⟩ :=
    blocks_of_put hblocks hoff hend hpos hx hwhole hxpos
  have hk : firstWhole o < sin.din.blocks.toNat := by omega
  have hmapped := mapped_of_slot hx.written.slot_eq (hk.trans_le hf.few) (hf.mapped _ hk)
  obtain ⟨t, hsame, hrun⟩ := bmapLoad_read hx.written.filed.toMapped hx.written.io
    (show firstWhole o < _ by rw [hxblocks]; exact hk)
  have hload : x.load (firstWhole o) =
      .ok (s.mapped sin (firstWhole o), { x with sfs := t }) := by
    rw [load, hrun, hmapped]
    rfl
  rw [middle, if_pos hwhole] at hmid
  obtain ⟨buf', u, hwrite, rfl⟩ := whole_eq_ok hload hmid
  rw [hx.buf_eq] at hwrite
  have hr' : t.Reliable := hsame.io hx.written.io
  have hvalid : ∀ k < wholeBlocks o endpos,
      t.Valid (s.mapped sin (firstWhole o) + BitVec.ofNat 32 k) := by
    refine Classical.byContradiction fun hinvalid => ?_
    rw [rwblock_invalid true buf x.pos hr' hinvalid] at hwrite
    cases hwrite
  have hsmall : wholeBlocks o endpos < 2 ^ 32 := by
    have := hf.few
    have : nDirect + blkNentry < 2 ^ 32 := by decide
    omega
  obtain ⟨v, hrun', hv⟩ := @rwblock_flooded buf _ hsmall t _ x.pos hr' hvalid
  rw [hrun'] at hwrite
  obtain ⟨-, rfl⟩ := Prod.mk.inj (Except.ok.inj hwrite)
  exact ⟨rfl, hv.blocks_eq.trans hsame.blocks, hv.unused.trans hsame.unused,
    hv.freemap.trans hsame.freemap, hv.io, hv.inside,
    fun c hc => (hv.outside c hc).trans (by rw [hsame.disk])⟩

section Indirect

variable (ho : offset.toNat = o) (hold : firstWhole o + wholeBlocks o endpos ≤ sin.din.blocks.toNat)

include ho hold

/-- The indirect block of the file is among the blocks that are written: zeros make blocks
of the file go away. -/
theorem not_writesFile_indirect (hlong : nDirect < sin.din.blocks.toNat) (hj : j < wholeBlocks o endpos)
    (hhit : sin.din.indirect = s.runBlock sin o j) :
    ¬WritesFile s sin (replicate len.toNat 0) offset len := by
  intro h
  obtain ⟨x, y, z, hx, hxpos, hmid, htail, hmapped, hzblocks, -⟩ :=
    h.parts hf hr htype hblocks hoff hmax hroom hend hpos ho length_replicate
  obtain ⟨hxblocks, -⟩ := blocks_of_put hblocks hoff hend hpos hx (by omega) hxpos
  obtain ⟨hsin, hfl⟩ := flooded_of_middle hf hblocks hoff hend hpos hx (by omega) hxpos hold hmid
  have hne := hf.indirect_ne_zero hlong
  have hind : x.sin.din.indirect = sin.din.indirect := hx.written.slot_eq .indirect hne
  have hzero : y.sfs.disk x.sin.din.indirect = .zero := by
    rw [hind, hhit, runBlock, hfl.inside j hj]
    refine Buffer.ext_get fun i hi => ?_
    rw [Buffer.get_ofList _ hi, Buffer.get_zero, drop_replicate, getD_eq_getElem?_getD,
      List.getElem?_replicate]
    split <;> rfl
  refine hmapped nDirect ?_ (tail_lost hx.written.filed hfl hsin hmax htail (hind ▸ hne) hzero
    (by rw [hxblocks]; exact hlong))
  rw [hzblocks]
  refine lt_of_lt_of_le ?_ (blocksFor_mono (le_max_left _ _))
  rw [← hblocks]
  exact hlong

/-- A block of the file is not where it is taken to be: its last byte is not written. -/
theorem not_writesFile_scattered (hsafe : nDirect < sin.din.blocks.toNat → ∀ j < wholeBlocks o endpos,
      sin.din.indirect ≠ s.runBlock sin o j)
    {k p : Nat} (hk : k < wholeBlocks o endpos)
    (hne : s.mapped sin (firstWhole o + k) ≠ s.runBlock sin o k)
    (hp : p = headLen o endpos + k * blkSize + 4095) {c : BitVec 8} (hc0 : c ≠ 0)
    (hcold : c ≠ s.fileByte sin (o + p)) :
    ¬WritesFile s sin ((replicate len.toNat 0).set p c) offset len := by
  have hlt : o < endpos := by omega
  have hwhole : 0 < wholeBlocks o endpos := by omega
  have hkb : firstWhole o + k < sin.din.blocks.toNat := by omega
  obtain ⟨hat, hafter⟩ :=
    (parts_of_transfer hlt).2.1 (Nat.le_of_lt (Nat.lt_of_sub_pos hwhole))
  have hat' : o + headLen o endpos = firstWhole o * 4096 := hat
  have hafter' : o + (headLen o endpos + wholeBlocks o endpos * 4096) =
    endpos / 4096 * 4096 := hafter
  -- the last byte of the block, in the buffer and in the file
  have hp' : p = headLen o endpos + k * 4096 + 4095 := hp
  have hplen : p < len.toNat := by omega
  have hpfile : o + p = (firstWhole o + k) * 4096 + 4095 := by omega
  intro h
  obtain ⟨x, y, z, hx, hxpos, hmid, htail, -, -, hbytes⟩ := h.parts hf hr htype hblocks hoff hmax hroom
    hend hpos ho (by rw [length_set, length_replicate])
  obtain ⟨hxblocks, -⟩ := blocks_of_put hblocks hoff hend hpos hx hwhole hxpos
  obtain ⟨hsin, hfl⟩ := flooded_of_middle hf hblocks hoff hend hpos hx hwhole hxpos hold hmid
  have hmapk : x.sfs.mapped x.sin (firstWhole o + k) =
      s.mapped sin (firstWhole o + k) :=
    mapped_of_slot hx.written.slot_eq (hkb.trans_le hf.few) (hf.mapped _ hkb)
  have hblock : ∀ j i, i < 4096 → (Buffer.ofList (((replicate len.toNat 0).set p c).drop
      (x.pos + j * blkSize)) : Block).get i = if x.pos + j * 4096 + i = p then c else 0 := by
    intro j i hi
    rw [Buffer.get_ofList _ hi, getD_eq_getElem?_getD, List.getElem?_drop,
      ← getD_eq_getElem?_getD, getD_set_replicate c hplen]
  have hdiv : (o + p) / blkSize = firstWhole o + k := by
    show (o + p) / 4096 = _
    omega
  have hmod : (o + p) % blkSize = 4095 := by
    show (o + p) % 4096 = _
    omega
  obtain ⟨hkept, hzmap⟩ := tail_kept hx.written.filed hfl hsin hmax htail
    (hxblocks.symm ▸ hkb) (by show _ ≠ endpos / 4096; omega) (by
      rintro ⟨j, hj, hhit⟩
      constructor
      · refine Nat.le_of_not_lt fun hlong => ?_
        rw [hxblocks] at hlong
        have hind := hx.written.slot_eq .indirect (hf.indirect_ne_zero hlong)
        exact hsafe hlong j hj (hind.symm.trans hhit)
      · rw [hhit, hfl.inside j hj, Buffer.word, ofBytes_congr (g := byteAt 0) fun i hi => ?_,
          ofBytes_byteAt]
        rw [hblock j _ (by omega), if_neg (by omega)]
        simp [byteAt])
  have hz := hbytes p hplen
  rw [getD_set_replicate c hplen, if_pos rfl, fileByte, hdiv, hmod, hzmap, hkept, hmapk] at hz
  by_cases hin : ∃ j < wholeBlocks o endpos,
      s.mapped sin (firstWhole o + k) = s.runBlock sin o j
  · obtain ⟨j, hj, heq⟩ := hin
    have hjk : j ≠ k := by
      rintro rfl
      exact hne heq
    rw [heq, runBlock, hfl.inside j hj, hblock j _ (by decide), if_neg (by omega)] at hz
    exact hc0 hz.symm
  · rw [hfl.outside _ fun j hj heq => hin ⟨j, hj, heq⟩] at hz
    refine hcold (hz.symm.trans ?_)
    have hbyte := hx.written.byte_eq (o + p) (.inl (by
      show _ < sin.din.blocks.toNat * 4096
      omega))
    rw [if_neg (by rw [length_take, Nat.min_eq_left hx.le]; omega)] at hbyte
    rw [← hbyte, fileByte, hdiv, hmod, hmapk]

end Indirect

end Steps

/-- A byte that is neither 0 nor the given one. -/
theorem exists_byte_ne (a : BitVec 8) : ∃ c : BitVec 8, c ≠ 0 ∧ c ≠ a := by
  by_cases hone : a = 1
  · exact ⟨2, by decide, by rw [hone]; decide⟩
  · exact ⟨1, by decide, Ne.symm hone⟩

/-- `sfs_io_nolock` writes whatever is in the buffer to the file exactly where the transfer has at
most one whole block, or the file has all of them and they follow each other on the disk. -/
theorem sfs_io_writes_file_iff (hf : Filed s sin) (hr : s.Reliable) (htype : sin.din.type = typeFile)
    (hblocks : sin.din.blocks.toNat = blocksFor sin.din.size.toNat) (offset len : Word)
    (hoff : offset.toNat ≤ sin.din.size.toNat)
    (hmax : offset.toNat + len.toNat ≤ (nDirect + blkNentry) * blkSize)
    (hroom : sin.needed (blocksFor (offset.toNat + len.toNat)) ≤ s.freemap.bits.card) :
    (∀ buf, buf.length = len.toNat → WritesFile s sin buf offset len) ↔
      s.RunWritable sin offset.toNat (offset.toNat + len.toNat) := by
  constructor
  · intro h
    by_cases hone : wholeBlocks offset.toNat (offset.toNat + len.toNat) ≤ 1
    · exact .inl hone
    have hpos : 0 < len.toNat := by
      refine pos_of_ne_zero fun hzero => hone ?_
      rw [hzero, add_zero]
      show offset.toNat / 4096 - (offset.toNat + 4096 - 1) / 4096 ≤ 1
      omega
    refine .inr ?_
    by_cases hold : firstWhole offset.toNat + wholeBlocks offset.toNat (offset.toNat + len.toNat) ≤
        sin.din.blocks.toNat
    · refine ⟨hold, fun k hk => Classical.byContradiction fun hne => ?_⟩
      by_cases hhit : nDirect < sin.din.blocks.toNat ∧
          ∃ j < wholeBlocks offset.toNat (offset.toNat + len.toNat),
            sin.din.indirect = s.runBlock sin offset.toNat j
      · obtain ⟨hlong, j, hj, heq⟩ := hhit
        exact not_writesFile_indirect hf hr htype hblocks hoff hmax hroom rfl hpos rfl hold hlong hj heq
          (h _ length_replicate)
      · obtain ⟨c, hc0, hcold⟩ := exists_byte_ne (s.fileByte sin (offset.toNat +
          (headLen offset.toNat (offset.toNat + len.toNat) + k * blkSize + 4095)))
        refine not_writesFile_scattered hf hr htype hblocks hoff hmax hroom rfl hpos rfl hold
          (fun hlong j hj heq => hhit ⟨hlong, j, hj, heq⟩) hk hne rfl hc0 hcold (h _ ?_)
        rw [length_set, length_replicate]
    · exact absurd (h (replicate len.toNat 0) length_replicate) (not_writesFile_new hf hr htype hblocks hoff hmax hroom
        rfl hpos rfl length_replicate (by omega) (by omega))
  · intro hrun buf hbuf
    obtain ⟨x, hio, hw⟩ := ioNolock_write hf hr htype hblocks hoff hmax hroom hbuf hrun
    exact ⟨x, hio, hw.filed.mapped, hw.content_eq, hbuf ▸ hw.size_eq, hw.blocks_eq, hw.frame⟩

theorem scattered_slot {p : Part} (hne : scattered.slot scatteredFile p ≠ 0) :
    p = .self ∧ scattered.slot scatteredFile p = 3 ∨
      p = .direct 0 ∧ scattered.slot scatteredFile p = 4 ∨
      p = .direct 1 ∧ scattered.slot scatteredFile p = 6 := by
  cases p with
  | self => exact .inl ⟨rfl, rfl⟩
  | direct k =>
    by_cases hzero : k = 0
    · subst hzero
      exact .inr (.inl ⟨rfl, rfl⟩)
    · by_cases hone : k = 1
      · subst hone
        exact .inr (.inr ⟨rfl, rfl⟩)
      · exact absurd ((if_neg hzero).trans (if_neg hone)) hne
  | indirect => exact absurd rfl hne
  | entry k => exact absurd (entry_zero _ _) hne

theorem scattered_filed : Filed scattered scatteredFile := by
  refine ⟨⟨scattered_sound, ⟨fun p b hp hb => ?_, fun p q b hp hq => ?_⟩, fun p hp => ?_⟩,
    fun k hk => (scattered_mapped.mapped k hk).1.1, by decide⟩
  · obtain ⟨rfl, hne⟩ := holding_own_some.mp hp
    change (scattered.slot scatteredFile p).toNat ∈ scattered.freemap.bits at hb
    rcases scattered_slot hne with ⟨-, heq⟩ | ⟨-, heq⟩ | ⟨-, heq⟩ <;>
      · rw [heq] at hb
        revert hb
        decide
  · obtain ⟨hpb, hne⟩ := holding_own_some.mp hp
    obtain ⟨hqb, -⟩ := holding_own_some.mp hq
    have hne' := hpb ▸ hne
    have heq := hpb.trans hqb.symm
    rcases scattered_slot hne' with ⟨rfl, h⟩ | ⟨rfl, h⟩ | ⟨rfl, h⟩ <;>
      rcases scattered_slot (heq ▸ hne') with ⟨rfl, h'⟩ | ⟨rfl, h'⟩ | ⟨rfl, h'⟩ <;>
      first | rfl | (rw [h, h'] at heq; cases heq)
  · rcases scattered_slot hp with ⟨-, h⟩ | ⟨-, h⟩ | ⟨-, h⟩ <;> rw [h] <;> decide

theorem sfs_io_writes_file_iff_block :
    WritesFile scattered scatteredFile (replicate 4096 7) 0 4096 :=
  (sfs_io_writes_file_iff scattered_filed (fun _ => rfl) rfl (by decide) 0 4096 (by decide) (by decide)
    (by decide)).mpr (.inl (by decide)) _ length_replicate

/-- The second of two blocks is not written: block 5, which is not the file's, is. -/
theorem sfs_io_writes_other_block :
    Filed scattered scatteredFile ∧ scattered.Reliable ∧ scatteredFile.din.type = typeFile ∧
      scatteredFile.din.blocks.toNat = blocksFor scatteredFile.din.size.toNat ∧
      ¬WritesFile scattered scatteredFile ((replicate 8192 0).set 8191 2) 0 8192 := by
  refine ⟨scattered_filed, fun _ => rfl, rfl, by decide, ?_⟩
  exact @not_writesFile_scattered _ _ 0 8192 0 8192 scattered_filed (fun _ => rfl) rfl (by decide)
    (by decide) (by decide) (by decide) (by decide) (by decide) rfl (by decide)
    (fun hlong => absurd hlong (by decide)) 1 8191 (by decide) (by decide) (by decide) 2 (by decide)
    (by decide)

end Sfs

end UcoreMips.Kernel
