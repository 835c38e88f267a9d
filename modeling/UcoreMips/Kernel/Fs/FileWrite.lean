import UcoreMips.Kernel.Fs.FileRead
import UcoreMips.Kernel.Fs.Owners

/-!
# UcoreMips.Kernel.Fs.FileWrite

**Writing a file** (`sfs_io_nolock`). A write replaces bytes of the file, and adds blocks at its end
(`Overwritten`); what it does not touch are the blocks that are not the file's afterwards. Two writes,
the second where the first has ended, are one (`Overwritten.trans`), so this says it for a part of a block,
for a transfer and for the chunks of a system call.

The whole blocks of a transfer are the exception: only the first of them is looked up, or made, and
the others are written behind it on the disk. They are the blocks of the file when these are there
and follow each other (`RunWritable`).
-/

namespace UcoreMips.Kernel

open UcoreMips.Lib Nat List
open Emulator (Word)
open Function (update_of_ne update_self)

/-- How many blocks a file of a size has. -/
def blocksFor (size : Nat) : Nat := (size + blkSize - 1) / blkSize

/-- How many blocks it takes for a file to have `n` blocks. -/
def SfsInode.needed (sin : SfsInode) (n : Nat) : Nat :=
  (n - sin.din.blocks.toNat) + if sin.din.indirect = 0 ∧ nDirect < n then 1 else 0

variable {m n : Nat}

theorem SfsInode.needed_mono (sin : SfsInode) (h : m ≤ n) : sin.needed m ≤ sin.needed n := by
  unfold needed
  by_cases hind : sin.din.indirect = 0 ∧ nDirect < m
  · rw [if_pos hind, if_pos ⟨hind.1, hind.2.trans_le h⟩]
    omega
  · rw [if_neg hind]
    omega

namespace Sfs

variable {s t u : Sfs} {sin sin' sin'' : SfsInode} {b : Ino}

/-- The block is a block of the file, or its indirect block. -/
def Owns (s : Sfs) (sin : SfsInode) (b : Ino) : Prop := b ≠ 0 ∧ ∃ p ≠ Part.self, s.slot sin p = b

/-- A file: its blocks exist and are in use, each is there once, and none is missing. -/
structure Filed (s : Sfs) (sin : SfsInode) : Prop where
  healthy : Healthy s sin
  mapped : ∀ k < sin.din.blocks.toNat, s.mapped sin k ≠ 0
  few : sin.din.blocks.toNat ≤ nDirect + blkNentry

theorem Filed.toMapped (h : Filed s sin) : Mapped s sin where
  sound := h.healthy.sound
  indirect hne := h.healthy.inUse (p := .indirect) hne
  mapped k hk := h.healthy.mapped_inUse (hk.trans_le h.few) (h.mapped k hk)
  few := h.few

/-! ### Making a block -/

section Got

variable {index : Nat} {create : Bool} {q : Part} {ret : Except Err Ino} {c : Ino}

/-- What the inode refers to already stays as it is. -/
theorem Got.slot_eq (hh : Healthy s sin) (h : Got s sin index create (.ok b) t sin')
    (hq : s.slot sin q ≠ 0) : t.slot sin' q = s.slot sin q := by
  cases h with
  | found hsame _ => rw [hsame.slot]
  | @direct k _ _ _ _ hnone hb =>
    have hqk : q ≠ .direct k := by
      rintro rfl
      exact hq hnone
    rw [slot_newDirect hb hh, update_of_ne hqk]
  | @entry k _ _ _ _ hk _ hne hnone hb hst =>
    have hqk : q ≠ .entry ⟨k, hk⟩ := by
      rintro rfl
      exact hq hnone
    rw [slot_newEntry hk hne hb hst hh, update_of_ne hqk]
  | @both k ent _ _ _ _ _ hk _ hnone hent hb hst =>
    have hwork := worked_newIndirect hnone hent hh
    have hqk : q ≠ .entry ⟨k, hk⟩ := by
      rintro rfl
      exact hq (show s.entry sin.din.indirect k = 0 by rw [hnone, entry_zero])
    have hqi : q ≠ .indirect := by
      rintro rfl
      exact hq hnone
    rw [slot_newEntry hk (hent.inUse hh.sound).1.1 hb hst (hh.worked hwork),
      slot_newIndirect hnone hent hh, update_of_ne hqk, update_of_ne hqi]

/-- The block is the one with the index afterwards. -/
theorem Got.mapped_eq (hh : Healthy s sin) (h : Got s sin index create (.ok b) t sin') :
    t.mapped sin' index = b := by
  cases h with
  | found hsame _ => rw [hsame.mapped]
  | @direct k _ _ hk _ _ hb =>
    rw [mapped_eq_slot (p := .direct k) (congrArg some hk), slot_newDirect hb hh, update_self]
  | @entry k _ _ _ hi hk _ hne _ hb hst =>
    rw [mapped_eq_slot (p := .entry ⟨k, hk⟩) (congrArg some hi), slot_newEntry hk hne hb hst hh,
      update_self]
  | @both k ent _ _ _ _ hi hk _ hnone hent hb hst =>
    have hwork := worked_newIndirect hnone hent hh
    rw [mapped_eq_slot (p := .entry ⟨k, hk⟩) (congrArg some hi),
      slot_newEntry hk (hent.inUse hh.sound).1.1 hb hst (hh.worked hwork), update_self]

/-- A block that is in use and not the indirect block of the file is not written to. -/
theorem Got.disk_eq (h : Got s sin index create ret t sin')
    (hc : s.InUse c) (hne : c ≠ sin.din.indirect) : t.disk c = s.disk c := by
  have hnew : ∀ {u v : Sfs} {d : Ino}, Allotted u d v → u.InUse c → c ≠ d := by
    rintro u v d hd huse rfl
    exact huse.2 hd.free
  cases h with
  | found hsame _ => rw [hsame.disk]
  | direct _ _ _ hb => rw [hb.disk, update_of_ne (hnew hb hc)]
  | entry _ _ _ _ _ hb hst =>
    rw [hst.disk, update_of_ne hne, hb.disk, update_of_ne (hnew hb hc)]
  | both _ _ _ _ hent hb hst =>
    rw [hst.disk, update_of_ne (hnew hent hc), hb.disk,
      update_of_ne (hnew hb (hent.inUse_of hc)), hent.disk,
      update_of_ne (hnew hent hc)]
  | failed hab _ => exact hab.disk c hc.2

/-- What is written to belongs to the file afterwards. -/
theorem Got.disk_of_not_owns (hh : Healthy s sin) (h : Got s sin index create (.ok b) t sin')
    (hc : ¬t.Owns sin' c) : t.disk c = s.disk c := by
  have hfree : ∀ {u v : Sfs} {d : Ino}, Allotted u d v → u.Sound → d ≠ 0 := fun hd hs =>
    (hs.valid_of_free hd.free).1
  cases h with
  | found hsame _ => rw [hsame.disk]
  | @direct k _ _ _ _ _ hb =>
    have hcb : c ≠ b := by
      rintro rfl
      refine hc ⟨hfree hb hh.sound, .direct k, Part.noConfusion, ?_⟩
      rw [slot_newDirect hb hh, update_self]
    rw [hb.disk, update_of_ne hcb]
  | @entry k _ _ _ _ hk _ hne _ hb hst =>
    have hcb : c ≠ b := by
      rintro rfl
      refine hc ⟨hfree hb hh.sound, .entry ⟨k, hk⟩, Part.noConfusion, ?_⟩
      rw [slot_newEntry hk hne hb hst hh, update_self]
    have hci : c ≠ sin.din.indirect := by
      rintro rfl
      exact hc ⟨hne, .indirect, Part.noConfusion, rfl⟩
    rw [hst.disk, update_of_ne hci, hb.disk, update_of_ne hcb]
  | @both k ent _ _ _ _ _ hk _ hnone hent hb hst =>
    have hwork := worked_newIndirect hnone hent hh
    have hent0 := (hent.inUse hh.sound).1.1
    have hcb : c ≠ b := by
      rintro rfl
      refine hc ⟨hfree hb hent.sound, .entry ⟨k, hk⟩, Part.noConfusion, ?_⟩
      rw [slot_newEntry hk hent0 hb hst (hh.worked hwork), update_self]
    have hce : c ≠ ent := by
      rintro rfl
      exact hc ⟨hent0, .indirect, Part.noConfusion, rfl⟩
    rw [hst.disk, update_of_ne hce, hb.disk, update_of_ne hcb, hent.disk, update_of_ne hce]

theorem Allotted.card (h : Allotted s b t) : t.freemap.bits.card + 1 = s.freemap.bits.card := by
  rw [h.bits]
  exact Finset.card_erase_add_one (mem_free.mp h.free)

/-- The block was there, or it had to be made. -/
theorem Got.fresh (h : Got s sin index create (.ok b) t sin') :
    Same s t ∧ sin' = sin ∨ create = true ∧ s.mapped sin index = 0 := by
  cases h with
  | found hsame _ => exact .inl ⟨hsame, rfl⟩
  | @direct k _ _ hk hnew hnone _ =>
    exact .inr ⟨hnew, (mapped_eq_slot (p := .direct k) (congrArg some hk) s sin).trans hnone⟩
  | @entry k _ _ _ hi hk hnew _ hnone _ _ =>
    exact .inr ⟨hnew, (mapped_eq_slot (p := .entry ⟨k, hk⟩) (congrArg some hi) s sin).trans hnone⟩
  | @both k _ _ _ _ _ hi hk hnew hnone _ _ _ =>
    refine .inr ⟨hnew, (mapped_eq_slot (p := .entry ⟨k, hk⟩) (congrArg some hi) s sin).trans ?_⟩
    show s.entry sin.din.indirect k = 0
    rw [hnone, entry_zero]

theorem toNat_addBlock {sin : SfsInode} (hsmall : sin.din.blocks.toNat < nDirect + blkNentry) :
    sin.addBlock.din.blocks.toNat = sin.din.blocks.toNat + 1 := by
  show (sin.din.blocks + 1).toNat = sin.din.blocks.toNat + 1
  have hlt : sin.din.blocks.toNat < 1036 := hsmall
  rw [BitVec.toNat_add, show (1 : Word).toNat = 1 from rfl, mod_eq_of_lt (by omega)]

/-- A block that had to be made is one block less to be made. -/
theorem Got.needed_eq (hs : s.Sound) (h : Got s sin index create (.ok b) t sin')
    (hnew : create = true) (hnone : s.mapped sin index = 0)
    (hi : sin.din.blocks.toNat = index) (hn : index < n) (hsmall : index < nDirect + blkNentry) :
    sin'.addBlock.needed n + s.freemap.bits.card = sin.needed n + t.freemap.bits.card := by
  have hadd : sin'.addBlock.din.blocks.toNat = index + 1 := by
    rw [toNat_addBlock (by rw [h.blocks_eq, hi]; exact hsmall), h.blocks_eq, hi]
  unfold SfsInode.needed
  cases h with
  | found _ hzero =>
    rw [hnew] at hzero
    cases hzero hnone
  | @direct k _ _ _ _ _ hb =>
    have hcard := hb.card
    rw [show (sin.setDirect k b).addBlock.din.indirect = sin.din.indirect from rfl]
    omega
  | entry _ _ _ _ _ hb hst =>
    have hcard := hb.card
    rw [hst.freemap, show sin.addBlock.din.indirect = sin.din.indirect from rfl]
    omega
  | @both k ent _ _ _ _ hik _ _ hzero hent hb hst =>
    have hcard := hb.card
    have hcard' := hent.card
    have hent0 : (sin.setIndirect ent).addBlock.din.indirect ≠ 0 := (hent.inUse hs).1.1
    rw [hst.freemap, if_neg fun h => hent0 h.1, if_pos ⟨hzero, by omega⟩]
    omega

/-- There are blocks enough for the rest when there were enough before. -/
theorem Got.room (hs : s.Sound) (h : Got s sin index create (.ok b) t sin')
    (hi : sin.din.blocks.toNat = index) (hn : index < n) (hsmall : index < nDirect + blkNentry)
    (hroom : sin.needed n ≤ s.freemap.bits.card) : sin'.addBlock.needed n ≤ t.freemap.bits.card := by
  rcases h.fresh with ⟨hsame, rfl⟩ | ⟨hnew, hnone⟩
  · unfold SfsInode.needed at hroom ⊢
    rw [toNat_addBlock (hi ▸ hsmall), hsame.freemap,
      show sin'.addBlock.din.indirect = sin'.din.indirect from rfl]
    omega
  · have hcount := h.needed_eq hs hnew hnone hi hn hsmall
    omega

end Got

/-! ### The blocks of a file -/

variable {k : Nat}

theorem Filed.mapped_inj (hf : Filed s sin) {j : Nat} (hj : j < sin.din.blocks.toNat)
    (hk : k < sin.din.blocks.toNat) (heq : s.mapped sin j = s.mapped sin k) : j = k := by
  obtain ⟨p, hp⟩ := exists_part (hj.trans_le hf.few)
  obtain ⟨q, hq⟩ := exists_part (hk.trans_le hf.few)
  have hne := hf.mapped j hj
  rw [mapped_eq_slot hp] at hne heq
  rw [mapped_eq_slot hq] at heq
  have hpq : p = q := Classical.byContradiction fun hpq => hf.healthy.ne_of_slot_ne hpq hne heq
  rw [hpq, hq] at hp
  exact (Option.some.inj hp).symm

section Slots

variable (hf : Filed s sin) (hk : k < sin.din.blocks.toNat)

include hf hk

/-- What else the inode refers to is not a block of the file. -/
theorem Filed.mapped_ne_slot (hq : q.index = none) : s.mapped sin k ≠ s.slot sin q := by
  obtain ⟨p, hp⟩ := exists_part (hk.trans_le hf.few)
  have hne := hf.mapped k hk
  rw [mapped_eq_slot hp] at hne ⊢
  have hpq : p ≠ q := by
    rintro rfl
    rw [hq] at hp
    cases hp
  exact hf.healthy.ne_of_slot_ne hpq hne

theorem Filed.mapped_ne_indirect :
    s.mapped sin k ≠ sin.din.indirect := hf.mapped_ne_slot hk (q := .indirect) rfl

theorem Filed.owns_mapped : s.Owns sin (s.mapped sin k) := by
  obtain ⟨p, hp⟩ := exists_part (hk.trans_le hf.few)
  refine ⟨hf.mapped k hk, p, ?_, (mapped_eq_slot hp s sin).symm⟩
  rintro rfl
  cases hp

end Slots

/-- The blocks that there are stay where they are. -/
theorem mapped_of_slot (hslot : ∀ p, s.slot sin p ≠ 0 → t.slot sin' p = s.slot sin p)
    (hk : k < nDirect + blkNentry) (hne : s.mapped sin k ≠ 0) :
    t.mapped sin' k = s.mapped sin k := by
  obtain ⟨p, hp⟩ := exists_part hk
  rw [mapped_eq_slot hp] at hne ⊢
  rw [mapped_eq_slot hp]
  exact hslot p hne

/-- What a file is depends on what it refers to. -/
theorem Filed.congr (hf : Filed s sin) (hs : t.Sound) (hslot : t.slot sin' = s.slot sin)
    (hfree : t.free = s.free) (hblocks : t.blocks = s.blocks)
    (hcount : sin'.din.blocks = sin.din.blocks) : Filed t sin' where
  healthy := by
    have hholding : t.holding sin' = s.holding sin := by
      unfold holding
      rw [hslot, hfree]
    refine ⟨hs, hholding ▸ hf.healthy.excl, fun p hp => ?_⟩
    rw [hslot] at hp ⊢
    rw [hblocks]
    exact hf.healthy.within p hp
  mapped k hk := by
    rw [hcount] at hk
    rw [mapped_of_slot (fun p _ => by rw [hslot]) (hk.trans_le hf.few) (hf.mapped k hk)]
    exact hf.mapped k hk
  few := by
    rw [hcount]
    exact hf.few

theorem owns_of_slot (hslot : ∀ p, s.slot sin p ≠ 0 → t.slot sin' p = s.slot sin p)
    (h : s.Owns sin b) : t.Owns sin' b := by
  obtain ⟨hb, p, hp, rfl⟩ := h
  exact ⟨hb, p, hp, hslot p hb⟩

/-- A block was looked up, or it was made behind the last one. -/
structure Loaded (s : Sfs) (sin : SfsInode) (index : Nat) (b : Ino) (t : Sfs) (sin' : SfsInode) :
    Prop where
  before : Filed s sin
  filed : Filed t sin'
  mapped_eq : t.mapped sin' index = b
  slot_eq : ∀ p, s.slot sin p ≠ 0 → t.slot sin' p = s.slot sin p
  disk_eq : ∀ k < sin.din.blocks.toNat, t.disk (s.mapped sin k) = s.disk (s.mapped sin k)
  frame : ∀ c, ¬t.Owns sin' c → t.disk c = s.disk c
  blocks_eq : sin'.din.blocks.toNat = max sin.din.blocks.toNat (index + 1)
  room : ∀ n, index < n → sin.needed n ≤ s.freemap.bits.card → sin'.needed n ≤ t.freemap.bits.card
  io : t.Reliable
  size_eq : sin'.din.size = sin.din.size
  type_eq : sin'.din.type = sin.din.type

variable {index : Nat} {create : Bool}

theorem Got.size_eq (h : Got s sin index create ret t sin') : sin'.din.size = sin.din.size := by
  cases h <;> rfl

theorem Got.type_eq (h : Got s sin index create ret t sin') : sin'.din.type = sin.din.type := by
  cases h <;> rfl

theorem Got.ne_zero (hs : s.Sound) (h : Got s sin index true (.ok b) t sin') : b ≠ 0 := by
  cases h with
  | found _ hzero => exact fun heq => absurd (hzero heq) (by decide)
  | direct _ _ _ hnew => exact (hnew.inUse hs).1.1
  | entry _ _ _ _ _ hnew _ => exact (hnew.inUse hs).1.1
  | both _ _ _ _ hent hnew _ => exact (hnew.inUse hent.sound).1.1

section LoadLast

variable (hf : Filed s sin) (hr : s.Reliable) (hlast : index = sin.din.blocks.toNat)
  (hi : index < nDirect + blkNentry)

include hf hr hlast hi

/-- The block behind the last one can be made. -/
theorem Filed.load_last (hroom : sin.needed (index + 1) ≤ s.freemap.bits.card) :
    ∃ b t sin', s.bmapLoad sin index = .ok (.ok b, t, sin'.addBlock) ∧
      Got s sin index true (.ok b) t sin' := by
  obtain ⟨ret, t, sin', hgot, hrun⟩ := bmapLoad_spec hf.healthy.sound hf.toMapped.indirect
    (hf.healthy.mapped_inUse hi) (le_of_eq hlast) hi
  rw [decide_eq_true hlast] at hgot
  cases ret with
  | error e =>
    cases hgot with
    | failed _ hfail =>
      have hfew := (hfail hr).2.2
      unfold SfsInode.newBlocks at hfew
      unfold SfsInode.needed at hroom
      split at hfew
      · omega
      · next hboth =>
        rw [if_pos ⟨not_not.mp fun h => hboth (.inr h), by omega⟩] at hroom
        omega
  | ok b =>
    dsimp only at hrun
    rw [if_neg (hgot.ne_zero hf.healthy.sound), if_pos hlast] at hrun
    exact ⟨b, t, sin', hrun, hgot⟩

/-- The file with the block that was made. -/
theorem Got.loaded (hrun : s.bmapLoad sin index = .ok (.ok b, t, sin'.addBlock))
    (hgot : Got s sin index true (.ok b) t sin') : Loaded s sin index b t sin'.addBlock := by
  have hh := hf.healthy
  have hslot : ∀ p, s.slot sin p ≠ 0 → t.slot sin'.addBlock p = s.slot sin p := fun p hp => by
    rw [slot_addBlock]
    exact hgot.slot_eq hh hp
  have hmapped : t.mapped sin'.addBlock index = b :=
    (show _ = t.mapped sin' index from rfl).trans (hgot.mapped_eq hh)
  have hblocks : sin'.addBlock.din.blocks.toNat = index + 1 := by
    rw [toNat_addBlock (by rw [hgot.blocks_eq, ← hlast]; exact hi), hgot.blocks_eq, hlast]
  have htend := bmapLoad_tended hh hrun
  refine ⟨hf, ⟨hh.worked htend.toWorked, fun k hk => ?_, ?_⟩, hmapped, hslot, fun k hk => ?_,
    fun c hc => ?_, ?_, fun n hn hroom => ?_, htend.io hr, hgot.size_eq, hgot.type_eq⟩
  · by_cases hk' : k < sin.din.blocks.toNat
    · rw [mapped_of_slot hslot (hk'.trans_le hf.few) (hf.mapped k hk')]
      exact hf.mapped k hk'
    · rw [show k = index by omega, hmapped]
      exact hgot.ne_zero hh.sound
  · omega
  · exact hgot.disk_eq (hf.toMapped.mapped k hk) (hf.mapped_ne_indirect hk)
  · refine hgot.disk_of_not_owns hh fun howns => hc ?_
    obtain ⟨hne, p, hp, heq⟩ := howns
    exact ⟨hne, p, hp, (congrFun (slot_addBlock t sin') p).trans heq⟩
  · omega
  · exact hgot.room hh.sound hlast.symm hn hi hroom

end LoadLast

theorem Filed.load (hf : Filed s sin) (hr : s.Reliable) (hle : index ≤ sin.din.blocks.toNat)
    (hi : index < nDirect + blkNentry) (hroom : sin.needed (index + 1) ≤ s.freemap.bits.card) :
    ∃ b t sin', s.bmapLoad sin index = .ok (.ok b, t, sin') ∧ Loaded s sin index b t sin' := by
  by_cases hlast : index = sin.din.blocks.toNat
  · obtain ⟨b, t, sin', hrun, hgot⟩ := hf.load_last hr hlast hi hroom
    exact ⟨b, t, sin'.addBlock, hrun, hgot.loaded hf hr hlast hi hrun⟩
  · have hh := hf.healthy
    obtain ⟨t, hsame, hrun⟩ := bmapLoad_read hf.toMapped hr (lt_of_le_of_ne hle hlast)
    refine ⟨s.mapped sin index, t, sin, hrun, hf, ⟨hh.worked (hsame.worked hh.sound sin), fun k hk => ?_,
      hf.few⟩, by rw [hsame.mapped], fun p _ => by rw [hsame.slot], fun k _ => by rw [hsame.disk],
      fun c _ => by rw [hsame.disk], by omega, fun n _ hroom => by rw [hsame.freemap]; exact hroom,
      hsame.io hr, rfl, rfl⟩
    rw [hsame.mapped]
    exact hf.mapped k hk

/-! ### Bytes of a file are replaced -/

/-- The bytes from `off` on are replaced, and blocks are added for those behind the last block. -/
structure Overwritten (s : Sfs) (sin : SfsInode) (off : Nat) (data : List (BitVec 8)) (t : Sfs)
    (sin' : SfsInode) : Prop where
  filed : Filed t sin'
  slot_eq : ∀ p, s.slot sin p ≠ 0 → t.slot sin' p = s.slot sin p
  byte_eq : ∀ i, i < sin.din.blocks.toNat * blkSize ∨ off ≤ i ∧ i < off + data.length →
    t.fileByte sin' i =
      if off ≤ i ∧ i < off + data.length then data.getD (i - off) 0 else s.fileByte sin i
  frame : ∀ c, ¬t.Owns sin' c → t.disk c = s.disk c
  blocks_eq : sin'.din.blocks.toNat = max sin.din.blocks.toNat (blocksFor (off + data.length))
  room : ∀ n, blocksFor (off + data.length) ≤ n → sin.needed n ≤ s.freemap.bits.card →
    sin'.needed n ≤ t.freemap.bits.card
  io : t.Reliable
  size_eq : sin'.din.size = sin.din.size
  type_eq : sin'.din.type = sin.din.type

theorem le_blocksFor (n : Nat) : n ≤ blocksFor n * blkSize := by
  show n ≤ (n + 4096 - 1) / 4096 * 4096
  omega

theorem blocksFor_mono (h : m ≤ n) : blocksFor m ≤ blocksFor n :=
  Nat.div_le_div_right (by omega)

variable {data : List (BitVec 8)} {off len : Nat}

theorem Overwritten.trans {data' : List (BitVec 8)} (h : Overwritten s sin off data t sin')
    (h' : Overwritten t sin' (off + data.length) data' u sin'') :
    Overwritten s sin off (data ++ data') u sin'' := by
  have hlen : off + (data ++ data').length = off + data.length + data'.length := by
    rw [length_append, add_assoc]
  have hslot : ∀ p, s.slot sin p ≠ 0 → u.slot sin'' p = s.slot sin p := fun p hp => by
    have heq := h.slot_eq p hp
    rw [← heq]
    exact h'.slot_eq p (heq ▸ hp)
  have hmono : blocksFor (off + data.length) ≤ blocksFor (off + data.length + data'.length) :=
    blocksFor_mono (le_add_right _ _)
  have hold : sin.din.blocks.toNat * blkSize ≤ sin'.din.blocks.toNat * blkSize :=
    mul_le_mul_right _ (h.blocks_eq ▸ le_max_left _ _)
  have hnew : off + data.length ≤ sin'.din.blocks.toNat * blkSize :=
    (le_blocksFor _).trans (mul_le_mul_right _ (h.blocks_eq ▸ le_max_right _ _))
  refine ⟨h'.filed, hslot, fun i hi => ?_, fun c hc => ?_, ?_, fun n hn hroom => ?_, h'.io,
    h'.size_eq.trans h.size_eq, h'.type_eq.trans h.type_eq⟩
  · rw [hlen] at hi ⊢
    by_cases hsnd : off + data.length ≤ i ∧ i < off + data.length + data'.length
    · rw [h'.byte_eq i (.inr hsnd), if_pos hsnd, if_pos ⟨(le_add_right _ _).trans hsnd.1, hsnd.2⟩,
        getD_append_right _ _ _ _ (Nat.le_sub_of_add_le' hsnd.1), Nat.sub_add_eq]
    · have hfst : i < sin.din.blocks.toNat * blkSize ∨ off ≤ i ∧ i < off + data.length :=
        hi.imp_right fun hi => ⟨hi.1, Nat.lt_of_not_le fun hle => hsnd ⟨hle, hi.2⟩⟩
      have hin : i < sin'.din.blocks.toNat * blkSize :=
        hfst.elim (lt_of_lt_of_le · hold) fun hi => hi.2.trans_le hnew
      rw [h'.byte_eq i (.inl hin), if_neg hsnd, h.byte_eq i hfst]
      by_cases hfst : off ≤ i ∧ i < off + data.length
      · rw [if_pos hfst, if_pos ⟨hfst.1, by omega⟩, getD_append _ _ _ _ (by omega)]
      · rw [if_neg hfst, if_neg (by omega)]
  · exact (h'.frame c hc).trans (h.frame c fun howns => hc (owns_of_slot h'.slot_eq howns))
  · rw [hlen, h'.blocks_eq, h.blocks_eq]
    omega
  · rw [hlen] at hn
    exact h'.room n hn (h.room n (hmono.trans hn) hroom)

/-- The block that is written to was loaded before. -/
theorem Loaded.overwritten (h : Loaded s sin index b t sin') (h' : Overwritten t sin' off data u sin'')
    (hidx : index < blocksFor (off + data.length)) :
    Overwritten s sin off data u sin'' := by
  have hslot : ∀ p, s.slot sin p ≠ 0 → u.slot sin'' p = s.slot sin p := fun p hp => by
    have heq := h.slot_eq p hp
    rw [← heq]
    exact h'.slot_eq p (heq ▸ hp)
  have hold : sin.din.blocks.toNat * blkSize ≤ sin'.din.blocks.toNat * blkSize :=
    mul_le_mul_right _ (h.blocks_eq ▸ le_max_left _ _)
  have hbyte : ∀ i, i < sin.din.blocks.toNat * blkSize → t.fileByte sin' i = s.fileByte sin i := by
    intro i hi
    have hk : i / blkSize < sin.din.blocks.toNat := (div_lt_iff_lt_mul (by decide)).mpr hi
    unfold fileByte
    rw [mapped_of_slot h.slot_eq (hk.trans_le h.before.few) (h.before.mapped _ hk), h.disk_eq _ hk]
  refine ⟨h'.filed, hslot, fun i hi => ?_, fun c hc => ?_, ?_, fun n hn hroom => ?_, h'.io,
    h'.size_eq.trans h.size_eq, h'.type_eq.trans h.type_eq⟩
  · rw [h'.byte_eq i (hi.imp_left (lt_of_lt_of_le · hold))]
    split
    · rfl
    · next hout => exact hbyte i (hi.resolve_right hout)
  · exact (h'.frame c hc).trans (h.frame c fun howns => hc (owns_of_slot h'.slot_eq howns))
  · rw [h'.blocks_eq, h.blocks_eq]
    omega
  · exact h'.room n hn (h.room n (hidx.trans_le hn) hroom)

/-- A position in a part of a block. -/
theorem in_part_iff (hend : off + len ≤ blkSize) (i : Nat) :
    (index * blkSize + off ≤ i ∧ i < index * blkSize + off + len) ↔
      i / blkSize = index ∧ off ≤ i % blkSize ∧ i % blkSize < off + len := by
  have hend' : off + len ≤ 4096 := hend
  show (index * 4096 + off ≤ i ∧ i < index * 4096 + off + len) ↔
    i / 4096 = index ∧ off ≤ i % 4096 ∧ i % 4096 < off + len
  omega

/-- What a file refers to does not depend on what is in its blocks. -/
theorem Stored.slot_of_mapped {block : Block} (hf : Filed s sin) (hk : index < sin.din.blocks.toNat)
    (h : Stored s (s.mapped sin index) block t) :
    t.slot sin = s.slot sin :=
  slot_congr fun _ => by rw [h.disk, update_of_ne (hf.mapped_ne_indirect hk).symm]

/-- A part of a block of the file is written. -/
theorem Stored.overwritten (hf : Filed s sin) (hr : s.Reliable) (hk : index < sin.din.blocks.toNat)
    (hend : off + data.length ≤ blkSize)
    (h : Stored s (s.mapped sin index) ((s.disk (s.mapped sin index)).patch off data) t) :
    Overwritten s sin (index * blkSize + off) data t sin := by
  have hslot := h.slot_of_mapped hf hk
  have hmapped : ∀ k < sin.din.blocks.toNat, t.mapped sin k = s.mapped sin k := fun k hk =>
    mapped_of_slot (fun p _ => by rw [hslot]) (hk.trans_le hf.few) (hf.mapped k hk)
  refine ⟨hf.congr (h.sound hf.healthy.sound) hslot h.free_eq h.blocks rfl, fun p _ => by rw [hslot],
    fun i hi => ?_, fun c hc => ?_, ?_, fun n _ hroom => ?_, h.io hr, rfl, rfl⟩
  · have hin := @in_part_iff index off data.length hend i
    have hi' : i / blkSize < sin.din.blocks.toNat := by
      rcases hi with hlt | hpart
      · exact (div_lt_iff_lt_mul (by decide)).mpr hlt
      · rw [(hin.mp hpart).1]
        exact hk
    unfold fileByte
    rw [hmapped _ hi', h.disk]
    by_cases hidx : i / blkSize = index
    · rw [hidx, update_self]
      split
      · next hpart =>
        obtain ⟨-, hge, hlt⟩ := hin.mp hpart
        rw [Buffer.get_patch_inside _ (mod_lt _ (by decide)) hge hlt 0]
        congr 1
        have := div_add_mod' i blkSize
        rw [hidx] at this
        omega
      · next hpart =>
        refine Buffer.get_patch_outside _ ?_
        have hout : ¬(off ≤ i % blkSize ∧ i % blkSize < off + data.length) := fun hr =>
          hpart (hin.mpr ⟨hidx, hr⟩)
        omega
    · have hne : s.mapped sin (i / blkSize) ≠ s.mapped sin index := fun heq =>
        hidx (hf.mapped_inj hi' hk heq)
      rw [update_of_ne hne, if_neg fun hpart => hidx (hin.mp hpart).1]
  · have howns : ¬s.Owns sin c := fun howns => hc (owns_of_slot (fun p _ => by rw [hslot]) howns)
    have hne : c ≠ s.mapped sin index := by
      rintro rfl
      exact howns (hf.owns_mapped hk)
    rw [h.disk, update_of_ne hne]
  · have hle : blocksFor (index * blkSize + off + data.length) ≤ sin.din.blocks.toNat := by
      have hend' : off + data.length ≤ 4096 := hend
      show (index * 4096 + off + data.length + 4096 - 1) / 4096 ≤ _
      omega
    omega
  · rw [h.freemap]
    exact hroom

theorem blocksFor_le (h : n ≤ k * blkSize) : blocksFor n ≤ k := by
  have h' : n ≤ k * 4096 := h
  show (n + 4096 - 1) / 4096 ≤ k
  omega

theorem blocksFor_mul (k : Nat) : blocksFor (k * blkSize) = k := by
  show (k * 4096 + 4096 - 1) / 4096 = k
  omega

/-- Nothing is written. -/
theorem Overwritten.nil (hf : Filed s sin) (hr : s.Reliable) (hoff : off ≤ sin.din.blocks.toNat * blkSize) :
    Overwritten s sin off [] s sin where
  filed := hf
  slot_eq _ _ := rfl
  byte_eq _ _ := (if_neg fun h => Nat.not_lt_of_le h.1 h.2).symm
  frame _ _ := rfl
  blocks_eq := (max_eq_left (blocksFor_le hoff)).symm
  room _ _ hroom := hroom
  io := hr
  size_eq := rfl
  type_eq := rfl

/-! ### The parts of a write -/

/-- The first `pos` bytes of the buffer have been written. -/
structure Put (s : Sfs) (sin : SfsInode) (buf : List (BitVec 8)) (offset : Nat) (x : Transfer) :
    Prop where
  buf_eq : x.buf = buf
  le : x.pos ≤ buf.length
  written : Overwritten s sin offset (buf.take x.pos) x.sfs x.sin

section Put

variable {buf : List (BitVec 8)} {offset n off : Nat} {x : Transfer}

/-- The next block of the file is there, or can be made. -/
theorem Put.load (h : Put s sin buf offset x) (hat : offset + x.pos = index * blkSize + off)
    (hoff : off < blkSize) (hn : index < n) (hmax : n ≤ nDirect + blkNentry)
    (hroom : sin.needed n ≤ s.freemap.bits.card) :
    ∃ b t sin', x.load index = .ok (b, { x with sfs := t, sin := sin' }) ∧
      Loaded x.sfs x.sin index b t sin' := by
  have hend : offset + (buf.take x.pos).length = index * blkSize + off := by
    rw [length_take, min_eq_left h.le, hat]
  have hle : index ≤ x.sin.din.blocks.toNat := by
    rw [h.written.blocks_eq, hend]
    calc index = blocksFor (index * blkSize) := (blocksFor_mul index).symm
      _ ≤ blocksFor (index * blkSize + off) := blocksFor_mono (le_add_right _ _)
      _ ≤ _ := le_max_right _ _
  have hlast : blocksFor (offset + (buf.take x.pos).length) ≤ index + 1 := by
    refine blocksFor_le ?_
    rw [succ_mul]
    omega
  obtain ⟨b, t, sin', hrun, hload⟩ := h.written.filed.load h.written.io hle (hn.trans_le hmax)
    (h.written.room _ hlast ((sin.needed_mono hn).trans hroom))
  refine ⟨b, t, sin', ?_, hload⟩
  rw [Transfer.load, hrun]
  rfl

theorem length_chunk {buf : List (BitVec 8)} {pos : Nat} (h : pos + len ≤ buf.length) :
    ((buf.drop pos).take len).length = len := by
  rw [length_take, length_drop]
  omega

theorem Put.extend (h : Put s sin buf offset x) (hlen : x.pos + len ≤ buf.length)
    (hw : Overwritten x.sfs x.sin (offset + x.pos) ((buf.drop x.pos).take len) t sin') :
    Put s sin buf offset ⟨t, sin', buf, x.pos + len⟩ := by
  refine ⟨rfl, hlen, ?_⟩
  have htake : (buf.take x.pos).length = x.pos := by
    rw [length_take, min_eq_left h.le]
  rw [take_add]
  refine h.written.trans ?_
  rw [htake]
  exact hw

theorem Put.part (h : Put s sin buf offset x) (hat : offset + x.pos = index * blkSize + off)
    (hoff : off < blkSize) (hpos : 0 < len) (hend : off + len ≤ blkSize) (hlen : x.pos + len ≤ buf.length)
    (hn : index < n) (hmax : n ≤ nDirect + blkNentry) (hroom : sin.needed n ≤ s.freemap.bits.card) :
    ∃ y, x.part true index off len = .ok y ∧ Put s sin buf offset y ∧ y.pos = x.pos + len := by
  obtain ⟨b, t, sin', hrun, hload⟩ := h.load hat hoff hn hmax hroom
  have hdata := length_chunk hlen
  have hk : index < sin'.din.blocks.toNat := by
    rw [hload.blocks_eq]
    omega
  have hvalid := (hload.filed.toMapped.mapped index hk).1
  rw [hload.mapped_eq] at hvalid
  obtain ⟨u, ⟨hst, hwrite⟩ | ⟨-, hio, -⟩⟩ :=
    wbuf_spec hvalid ((buf.drop x.pos).take len) hoff (by rw [hdata]; exact hend)
  · have hover := Stored.overwritten hload.filed hload.io hk (by rw [hdata]; exact hend)
      (hload.mapped_eq.symm ▸ hst)
    have hidx : index < blocksFor (index * blkSize + off + ((buf.drop x.pos).take len).length) := by
      rw [hdata]
      show index < (index * 4096 + off + len + 4096 - 1) / 4096
      omega
    refine ⟨_, ?_, h.extend hlen (hat ▸ hload.overwritten hover hidx), rfl⟩
    rw [Transfer.part, hrun]
    simp only [ok_bind, Sfs.bufOp, h.buf_eq, hwrite, if_true]
    rfl
  · exact absurd hload.io hio

/-- Blocks of the file that follow each other on the disk are written. -/
theorem rwblock_write (buf : List (BitVec 8)) :
    ∀ {s : Sfs} {b : Ino} {index pos : Nat}, Filed s sin → s.Reliable →
      index + n ≤ sin.din.blocks.toNat →
      (∀ k < n, s.mapped sin (index + k) = b + BitVec.ofNat 32 k) →
      pos + n * blkSize ≤ buf.length →
      ∃ t, rwblock true n s buf pos b = .ok (.ok buf, t) ∧
        Overwritten s sin (index * blkSize) ((buf.drop pos).take (n * blkSize)) t sin := by
  induction n with
  | zero =>
    intro s b index pos hf hr hle _ _
    refine ⟨s, rfl, ?_⟩
    exact .nil hf hr (mul_le_mul_right _ hle)
  | succ n ih =>
    intro s b index pos hf hr hle hmap hlen
    rw [succ_mul] at hlen
    have hk : index < sin.din.blocks.toNat := by omega
    have hb : s.mapped sin index = b := by
      rw [← add_ofNat_zero b]
      exact hmap 0 (succ_pos n)
    have hdata := length_chunk ((Nat.add_le_add_left (Nat.le_add_left blkSize _) pos).trans hlen)
    have hblock : (Buffer.ofList (buf.drop pos) : Block) =
        (s.disk b).patch 0 ((buf.drop pos).take blkSize) :=
      Buffer.ofList_eq_patch _ (hdata.ge.trans (length_take_le' _ _))
    obtain ⟨t, ⟨hst, hwrite⟩ | ⟨-, hio, -⟩⟩ :=
      rwblockNolock_write (hb ▸ (hf.toMapped.mapped index hk).1) (.ofList (buf.drop pos))
    · have hfst := Stored.overwritten hf hr hk (by rw [hdata, zero_add]) (by
        rw [hb, ← hblock]
        exact hst)
      rw [add_zero] at hfst
      have hmap' : ∀ k < n, t.mapped sin (index + 1 + k) = b + 1 + BitVec.ofNat 32 k := by
        intro k hkn
        have hlt : index + 1 + k < sin.din.blocks.toNat := by omega
        rw [mapped_of_slot hfst.slot_eq (hlt.trans_le hf.few) (hf.mapped _ hlt),
          add_ofNat_succ, add_assoc, add_comm 1 k]
        exact hmap (k + 1) (by omega)
      obtain ⟨u, hrun, hsnd⟩ := @ih t (b + 1) (index + 1) (pos + blkSize) hfst.filed hfst.io (by omega) hmap' (by omega)
      refine ⟨u, ?_, ?_⟩
      · rw [rwblock, hwrite]
        exact hrun
      · rw [succ_mul, add_comm (n * blkSize), take_add, drop_drop]
        refine hfst.trans ?_
        rw [hdata, ← succ_mul]
        exact hsnd
    · exact absurd hr hio

theorem Put.whole (h : Put s sin buf offset x) (hat : offset + x.pos = index * blkSize)
    (hpos : 0 < m) (hlen : x.pos + m * blkSize ≤ buf.length)
    (hrun : m = 1 ∨ index + m ≤ x.sin.din.blocks.toNat ∧
      ∀ k < m, x.sfs.mapped x.sin (index + k) = x.sfs.mapped x.sin index + BitVec.ofNat 32 k) (hn : index < n)
    (hmax : n ≤ nDirect + blkNentry) (hroom : sin.needed n ≤ s.freemap.bits.card) :
    ∃ y, x.whole true index m = .ok y ∧ Put s sin buf offset y ∧ y.pos = x.pos + m * blkSize := by
  obtain ⟨b, t, sin', hload, hl⟩ := h.load (hat.trans (add_zero _).symm)
    (succ_pos 4095) hn hmax hroom
  have hle : index + m ≤ sin'.din.blocks.toNat := by
    rw [hl.blocks_eq]
    omega
  have hmap : ∀ k < m, t.mapped sin' (index + k) = b + BitVec.ofNat 32 k := by
    intro k hkm
    rcases hrun with rfl | ⟨hin, hseq⟩
    · rw [lt_one_iff.mp hkm, add_zero, add_ofNat_zero]
      exact hl.mapped_eq
    · have hold : ∀ j < m, t.mapped sin' (index + j) = x.sfs.mapped x.sin (index + j) := fun j hj =>
        mapped_of_slot hl.slot_eq (lt_of_lt_of_le (by omega) hl.before.few)
          (hl.before.mapped _ (by omega))
      rw [hold k hkm, hseq k hkm, ← add_zero index, ← hold 0 hpos, add_zero, hl.mapped_eq]
  obtain ⟨u, hwrite, hover⟩ := rwblock_write buf hl.filed hl.io hle hmap hlen
  have hdata := length_chunk hlen
  have hidx : index < blocksFor (index * blkSize + ((buf.drop x.pos).take (m * blkSize)).length) := by
    rw [hdata, ← add_mul, blocksFor_mul]
    omega
  refine ⟨_, ?_, h.extend hlen (by rw [hat]; exact hl.overwritten hover hidx), rfl⟩
  rw [Transfer.whole, hload]
  simp only [ok_bind, h.buf_eq, hwrite]
  rfl

variable {endpos : Nat}

theorem Put.parts (hend : endpos = offset + buf.length) (hmax : blocksFor endpos ≤ nDirect + blkNentry)
    (hroom : sin.needed (blocksFor endpos) ≤ s.freemap.bits.card) :
    PartsEnsure (fun _ => False) (Put s sin buf offset) true offset endpos := by
  intro x index off len h hat hoff hlen hin hle _
  have hn : index < blocksFor endpos := by
    change _ = index * 4096 + off at hat
    show index < (endpos + 4096 - 1) / 4096
    omega
  obtain ⟨y, hrun, hy⟩ := h.part hat hoff hlen hin (by omega) hn hmax hroom
  rw [hrun]
  exact hy

/-- The whole blocks of a transfer are at most one, or they are there and follow each other. -/
def RunWritable (s : Sfs) (sin : SfsInode) (offset endpos : Nat) : Prop :=
  wholeBlocks offset endpos ≤ 1 ∨
    firstWhole offset + wholeBlocks offset endpos ≤ sin.din.blocks.toNat ∧
      ∀ k < wholeBlocks offset endpos, s.mapped sin (firstWhole offset + k) = s.runBlock sin offset k

theorem Put.wholes (hf : Filed s sin) (hend : endpos = offset + buf.length)
    (hmax : blocksFor endpos ≤ nDirect + blkNentry)
    (hroom : sin.needed (blocksFor endpos) ≤ s.freemap.bits.card) (hrun : s.RunWritable sin offset endpos) :
    WholeEnsures (fun _ => False) (Put s sin buf offset) true offset endpos := by
  intro hwhole x h hat
  have hfull : firstWhole offset < endpos / blkSize := Nat.lt_of_sub_pos hwhole
  have hn : firstWhole offset < blocksFor endpos :=
    hfull.trans_le (Nat.div_le_div_right (by
      show endpos ≤ endpos + 4096 - 1
      omega))
  have hlen : x.pos + wholeBlocks offset endpos * blkSize ≤ buf.length := by
    have hdiv := div_mul_le_self endpos blkSize
    have hsum : (firstWhole offset + wholeBlocks offset endpos) * blkSize = endpos / blkSize * blkSize :=
      congrArg (· * blkSize) (Nat.add_sub_cancel' hfull.le)
    rw [add_mul] at hsum
    omega
  have hseq : wholeBlocks offset endpos = 1 ∨
      firstWhole offset + wholeBlocks offset endpos ≤ x.sin.din.blocks.toNat ∧
        ∀ k < wholeBlocks offset endpos, x.sfs.mapped x.sin (firstWhole offset + k) =
          x.sfs.mapped x.sin (firstWhole offset) + BitVec.ofNat 32 k := by
    refine hrun.imp (fun hone => by omega) fun ⟨hin, hseq⟩ => ⟨?_, fun k hk => ?_⟩
    · rw [h.written.blocks_eq]
      omega
    · have hold : ∀ j < wholeBlocks offset endpos, x.sfs.mapped x.sin (firstWhole offset + j) =
          s.mapped sin (firstWhole offset + j) := fun j hj =>
        mapped_of_slot h.written.slot_eq (lt_of_lt_of_le (by omega) hf.few) (hf.mapped _ (by omega))
      have hzero := hold 0 hwhole
      rw [add_zero] at hzero
      rw [hold k hk, hseq k hk, runBlock, hzero]
  obtain ⟨y, hok, hy⟩ := h.whole hat hwhole hlen hseq hn hmax hroom
  rw [hok]
  exact hy

/-- The buffer is written at a position of the file. -/
theorem run_write (hf : Filed s sin) (hr : s.Reliable)
    (hoff : offset ≤ sin.din.blocks.toNat * blkSize) (hlt : offset < endpos)
    (hend : endpos = offset + buf.length) (hmax : blocksFor endpos ≤ nDirect + blkNentry)
    (hroom : sin.needed (blocksFor endpos) ≤ s.freemap.bits.card)
    (hrun : s.RunWritable sin offset endpos) :
    ∃ y, (⟨s, sin, buf, 0⟩ : Transfer).run true offset endpos = .ok y ∧
      Overwritten s sin offset buf y.sfs y.sin ∧ y.pos = buf.length := by
  have hstart : Put s sin buf offset ⟨s, sin, buf, 0⟩ :=
    ⟨rfl, zero_le _, by rw [take_zero]; exact .nil hf hr hoff⟩
  obtain ⟨y, hok, hy, hpos⟩ := (run_ensures hlt (Put.parts hend hmax hroom)
    (Put.wholes hf hend hmax hroom hrun) hstart rfl).exists_ok fun _ => id
  have hall : y.pos = buf.length := by omega
  refine ⟨y, hok, ?_, hall⟩
  have hover := hy.written
  rw [hall, take_length] at hover
  exact hover

end Put

/-! ### The file afterwards -/

/-- The file has new bytes from `off` on, and is as long as they make it. -/
structure Written (s : Sfs) (sin : SfsInode) (off : Nat) (data : List (BitVec 8)) (t : Sfs)
    (sin' : SfsInode) : Prop where
  filed : Filed t sin'
  slot_eq : ∀ p, s.slot sin p ≠ 0 → t.slot sin' p = s.slot sin p
  content_eq : t.content sin' = putAt (s.content sin) off data
  size_eq : sin'.din.size.toNat = max sin.din.size.toNat (off + data.length)
  blocks_eq : sin'.din.blocks.toNat = blocksFor sin'.din.size.toNat
  frame : ∀ c, ¬t.Owns sin' c → t.disk c = s.disk c
  room : ∀ n, blocksFor (off + data.length) ≤ n → sin.needed n ≤ s.freemap.bits.card →
    sin'.needed n ≤ t.freemap.bits.card
  io : t.Reliable
  type_eq : sin'.din.type = sin.din.type

theorem putAt_span {f g : Nat → BitVec 8} {size : Nat} (hoff : off ≤ size)
    (h : ∀ i, i < size ∨ off ≤ i ∧ i < off + data.length →
      g i = if off ≤ i ∧ i < off + data.length then data.getD (i - off) 0 else f i) :
    span g 0 (max size (off + data.length)) = putAt (span f 0 size) off data := by
  have hmax : max size (off + data.length) = off + data.length + (size - (off + data.length)) := by omega
  rw [putAt, take_span, drop_span, min_eq_left hoff, hmax, span_add, span_add, zero_add]
  congr 1
  · congr 1
    · refine span_eq_iff.mpr fun i hi => ?_
      rw [h _ (.inl (by omega)), if_neg (by omega)]
    · refine ext_getElem (length_span) fun i hi hi' => ?_
      have hget : (span g off data.length)[i]? = some (g (off + i)) := getElem?_span hi'
      rw [List.getElem?_eq_getElem hi, Option.some.injEq] at hget
      rw [hget, h _ (.inr (by omega)), if_pos (by omega), Nat.add_sub_cancel_left,
        getD_eq_getElem?_getD, List.getElem?_eq_getElem hi']
      rfl
  · refine span_eq_iff.mpr fun i hi => ?_
    rw [zero_add, h _ (.inl (by omega)), if_neg (by omega)]

/-- The end of `sfs_io_nolock` makes the file as long as it has to be. -/
theorem Overwritten.written {x : Transfer} (h : Overwritten s sin off data x.sfs x.sin)
    (hpos : x.pos = data.length) (hblocks : sin.din.blocks.toNat = blocksFor sin.din.size.toNat)
    (hoff : off ≤ sin.din.size.toNat) (hmax : off + data.length < 2 ^ 32) :
    Written s sin off data (x.finish off).sfs (x.finish off).sin := by
  obtain ⟨hsfs, hdin⟩ : (x.finish off).sfs = x.sfs ∧ (x.finish off).sin.din =
      { x.sin.din with size := BitVec.ofNat 32 (max sin.din.size.toNat (off + data.length)) } := by
    unfold Transfer.finish
    rw [h.size_eq, hpos]
    split
    · next hlt => exact ⟨rfl, by rw [max_eq_right (le_of_lt hlt)]⟩
    · next hle =>
      refine ⟨rfl, ?_⟩
      rw [Nat.max_eq_left (Nat.le_of_not_lt hle), BitVec.ofNat_toNat, BitVec.setWidth_eq, ← h.size_eq]
  have hino : (x.finish off).sin.ino = x.sin.ino := by
    unfold Transfer.finish
    split <;> rfl
  generalize x.finish off = y at hsfs hdin hino ⊢
  have hslot : y.sfs.slot y.sin = x.sfs.slot x.sin := by
    funext p
    rw [hsfs]
    cases p <;> unfold slot <;> simp only [hdin, hino]
  have hsize : y.sin.din.size.toNat = max sin.din.size.toNat (off + data.length) := by
    rw [hdin, BitVec.toNat_ofNat, mod_eq_of_lt (by omega)]
  have hcount : y.sin.din.blocks.toNat = blocksFor y.sin.din.size.toNat := by
    rw [hsize, hdin]
    rw [h.blocks_eq, hblocks]
    rcases le_total sin.din.size.toNat (off + data.length) with hle | hle
    · rw [max_eq_right hle, max_eq_right (blocksFor_mono hle)]
    · rw [max_eq_left hle, max_eq_left (blocksFor_mono hle)]
  have hbyte : y.sfs.fileByte y.sin = x.sfs.fileByte x.sin := by
    funext i
    unfold fileByte mapped
    rw [hsfs]
    simp only [hdin]
  refine ⟨h.filed.congr (hsfs ▸ h.filed.healthy.sound) hslot (by rw [hsfs]) (by rw [hsfs])
    (by rw [hdin]), fun p hp => by rw [hslot]; exact h.slot_eq p hp, ?_, hsize, hcount,
    fun c hc => ?_, fun n hn hroom => ?_, hsfs ▸ h.io, by rw [hdin]; exact h.type_eq⟩
  · rw [Sfs.content_eq (by rw [hcount]; exact le_blocksFor _),
      Sfs.content_eq (by rw [hblocks]; exact le_blocksFor _), hsize, hbyte]
    refine putAt_span hoff fun i hi => h.byte_eq i (hi.imp_left fun hlt => ?_)
    rw [hblocks]
    exact hlt.trans_le (le_blocksFor _)
  · rw [hsfs]
    refine h.frame c fun howns => hc (owns_of_slot (fun p _ => by rw [hslot]) howns)
  · have hneed : y.sin.needed n = x.sin.needed n := by
      unfold SfsInode.needed
      rw [hdin]
    rw [hneed, hsfs]
    exact h.room n hn hroom

section Writes

variable {buf : List (BitVec 8)} {offset len : Word}

/-- A write that is right. -/
theorem ioNolock_write (hf : Filed s sin) (hr : s.Reliable) (htype : sin.din.type = typeFile)
    (hblocks : sin.din.blocks.toNat = blocksFor sin.din.size.toNat)
    (hoff : offset.toNat ≤ sin.din.size.toNat)
    (hmax : offset.toNat + len.toNat ≤ (nDirect + blkNentry) * blkSize)
    (hroom : sin.needed (blocksFor (offset.toNat + len.toNat)) ≤ s.freemap.bits.card)
    (hbuf : buf.length = len.toNat)
    (hrun : s.RunWritable sin offset.toNat (offset.toNat + len.toNat)) :
    ∃ x, s.ioNolock sin true buf offset len = .ok (.ok len.toNat, x) ∧
      Written s sin offset.toNat buf x.sfs x.sin := by
  have hmax' : offset.toNat + len.toNat ≤ 4243456 := hmax
  have hlt : offset.toNat < maxFileSize := by
    show _ < 134217728
    omega
  have hoff' : offset.toNat ≤ sin.din.blocks.toNat * blkSize := by
    rw [hblocks]
    exact hoff.trans (le_blocksFor _)
  rw [ioNolock_eq htype hlt (by omega)]
  by_cases hlen : len = 0
  · subst hlen
    obtain rfl := length_eq_zero_iff.mp hbuf
    refine ⟨⟨s, sin, [], 0⟩, if_pos (.inl rfl), hf, fun _ _ => rfl, ?_,
      (max_eq_left hoff).symm, hblocks, fun _ _ => rfl, fun _ _ hroom => hroom, hr, rfl⟩
    rw [putAt, append_nil, length_nil, add_zero, take_append_drop]
  · have hpos : 0 < len.toNat := pos_of_ne_zero fun hzero => hlen (BitVec.eq_of_toNat_eq hzero)
    obtain ⟨y, hy, hover, hypos⟩ := run_write hf hr hoff' (Nat.lt_add_of_pos_right hpos)
      (by rw [hbuf]) (blocksFor_le hmax) hroom hrun
    refine ⟨y.finish offset.toNat, ?_, hover.written hypos hblocks hoff (by omega)⟩
    rw [if_neg fun h => h.elim hlen fun h => Bool.noConfusion h.1]
    have hmin : min (offset.toNat + len.toNat) maxFileSize = offset.toNat + len.toNat :=
      min_eq_left (show _ ≤ 134217728 by omega)
    simp only [if_true, hmin, hy, ok_bind, hypos, hbuf]
    rfl

end Writes

end Sfs

end UcoreMips.Kernel
