import UcoreMips.Kernel.Fs.BlockMap
import UcoreMips.Lib.Ownership

/-!
# UcoreMips.Kernel.Fs.Owners

**What an inode owns.** The parts of an inode that refer to blocks are the inode itself, its
direct blocks, its indirect block and the entries of that; with the freemap they are a `Holding`
of blocks.

Each operation on the block map of an inode is a run of moves of its holding, and it does not
touch blocks that are neither free nor the inode's (`Worked`, `Touched`). The blocks of a file
are those before its number of blocks (`Bounded`), so when that is 0 none is left.
-/

namespace UcoreMips.Kernel

open UcoreMips.Lib
open Emulator (Word)
open Function (update update_of_ne update_self)

/-- The parts of an inode that refer to a block. -/
inductive Part
  | self
  | direct (k : Fin nDirect)
  | indirect
  | entry (k : Fin blkNentry)
  deriving DecidableEq

/-- The index in the file of the block a part refers to. -/
def Part.index : Part → Option Nat
  | .direct k => some k
  | .entry k => some (nDirect + k)
  | .self | .indirect => none

/-- The block a number refers to. -/
def ref (b : Ino) : Option Ino := if b = 0 then none else some b

theorem ref_zero : ref 0 = none := if_pos rfl

theorem ref_of_ne {b : Ino} (h : b ≠ 0) : ref b = some b := if_neg h

theorem ref_eq_some {a b : Ino} : ref a = some b ↔ a = b ∧ b ≠ 0 := by
  unfold ref
  split
  · rename_i hzero
    simp only [reduceCtorEq, hzero, false_iff, not_and, not_not]
    exact fun hb => hb.symm
  · rename_i hne
    rw [Option.some.injEq]
    exact ⟨fun hab => ⟨hab, hab ▸ hne⟩, And.left⟩

theorem ref_update {P : Type} [DecidableEq P] (f : P → Ino) (p : P) (b : Ino) :
    (fun q => ref (update f p b q)) = update (fun q => ref (f q)) p (ref b) := by
  funext q
  by_cases hqp : q = p
  · rw [hqp, update_self, update_self]
  · rw [update_of_ne hqp, update_of_ne hqp]

namespace Sfs

variable {s t u v : Sfs} {sin sin' sin'' : SfsInode} {b : Ino} {w : Word}

/-- The block a part of an inode refers to, or 0. -/
def slot (s : Sfs) (sin : SfsInode) : Part → Ino
  | .self => sin.ino
  | .direct k => sin.din.direct k
  | .indirect => sin.din.indirect
  | .entry k => s.entry sin.din.indirect k

/-- What an inode owns, and the free blocks. -/
def holding (s : Sfs) (sin : SfsInode) : Holding Part Ino := ⟨fun p => ref (s.slot sin p), s.free⟩

/-- The holding depends on the inode, its indirect block and the freemap. -/
theorem slot_congr (hdisk : sin.din.indirect ≠ 0 → t.disk sin.din.indirect = s.disk sin.din.indirect) :
    t.slot sin = s.slot sin := by
  funext p
  cases p with
  | self => rfl
  | direct k => rfl
  | indirect => rfl
  | entry k =>
    unfold slot entry
    dsimp only
    split
    · rfl
    · rename_i hne
      rw [hdisk hne]

theorem slot_setDirect (s : Sfs) (sin : SfsInode) (k : Fin nDirect) (b : Ino) :
    s.slot (sin.setDirect k b) = update (s.slot sin) (.direct k) b := by
  funext p
  cases p with
  | self => rfl
  | direct j =>
    show update sin.din.direct k b j = _
    by_cases hjk : j = k
    · rw [hjk, update_self, update_self]
    · rw [update_of_ne hjk, update_of_ne fun h => hjk (Part.direct.inj h)]
      rfl
  | indirect => rfl
  | entry j => rfl

theorem slot_addBlock (s : Sfs) (sin : SfsInode) : s.slot sin.addBlock = s.slot sin := by
  funext p
  cases p <;> rfl

theorem slot_dropBlock (s : Sfs) (sin : SfsInode) : s.slot sin.dropBlock = s.slot sin := by
  funext p
  cases p <;> rfl

/-- Writing a word of the indirect block changes one entry. -/
theorem slot_stored (hne : sin.din.indirect ≠ 0) {k : Nat} (hk : k < blkNentry)
    (h : Stored s sin.din.indirect ((s.disk sin.din.indirect).patch (4 * k) (wordBytes w)) t) :
    t.slot sin = update (s.slot sin) (.entry ⟨k, hk⟩) w := by
  funext p
  cases p with
  | self => rfl
  | direct j => rfl
  | indirect => rfl
  | entry j =>
    show t.entry sin.din.indirect j = _
    rw [entry_of_ne hne, h.disk, update_self]
    by_cases hjk : j = ⟨k, hk⟩
    · rw [hjk, update_self]
      exact Buffer.word_patch_self _ (entry_end hk) w
    · rw [update_of_ne fun h => hjk (Part.entry.inj h)]
      show _ = s.entry sin.din.indirect j
      rw [entry_of_ne hne]
      exact Buffer.word_patch_of_ne _ (fun h => hjk (Fin.ext h)) w

/-- A cleared indirect block has no entries. -/
theorem slot_setIndirect (hnone : sin.din.indirect = 0) (hclear : s.disk b = .zero) :
    s.slot (sin.setIndirect b) = update (s.slot sin) .indirect b := by
  funext p
  cases p with
  | self => rfl
  | direct k => rfl
  | indirect => rfl
  | entry k =>
    show s.entry b k = s.entry sin.din.indirect k
    rw [hnone, entry_zero]
    unfold entry
    rw [hclear, Buffer.word_zero, ite_self]

variable {p q : Part} {k : Fin nDirect}

theorem holding_own_some : (s.holding sin).own p = some b ↔ s.slot sin p = b ∧ b ≠ 0 := ref_eq_some

/-- What an inode refers to exists and is in use, each block once. -/
structure Healthy (s : Sfs) (sin : SfsInode) : Prop where
  sound : s.Sound
  excl : (s.holding sin).Exclusive
  within : ∀ p, s.slot sin p ≠ 0 → (s.slot sin p).toNat < s.blocks

/-- What was done for an inode: changes of what it owns, on blocks that are free or its own. -/
structure Worked (s : Sfs) (sin : SfsInode) (t : Sfs) (sin' : SfsInode) : Prop where
  moves : Holding.Moves (¬s.Reliable) (s.holding sin) (t.holding sin')
  disk : ∀ b, (s.holding sin).Foreign b → t.disk b = s.disk b
  sound : t.Sound
  blocks : t.blocks = s.blocks
  io : s.Reliable → t.Reliable
  ino : sin'.ino = sin.ino
  nlinks : sin'.din.nlinks = sin.din.nlinks

theorem Healthy.inUse (h : Healthy s sin) (hp : s.slot sin p ≠ 0) : s.InUse (s.slot sin p) :=
  ⟨⟨hp, h.within p hp⟩, h.excl.used p _ (ref_of_ne hp)⟩

theorem Healthy.slot_ne_of_free (h : Healthy s sin) (hb : b ∈ s.free) (p : Part) :
    s.slot sin p ≠ b := by
  intro heq
  have hne : s.slot sin p ≠ 0 := heq ▸ (h.sound.valid_of_free hb).1
  exact (h.inUse hne).2 (heq ▸ hb)

theorem Healthy.ne_of_slot_ne (h : Healthy s sin) (hpq : p ≠ q) (hp : s.slot sin p ≠ 0) :
    s.slot sin p ≠ s.slot sin q := by
  intro heq
  have hq : ref (s.slot sin q) = some (s.slot sin p) := by rw [← heq, ref_of_ne hp]
  exact hpq (h.excl.once p q _ (ref_of_ne hp) hq)

theorem Worked.refl (hs : s.Sound) (sin : SfsInode) : Worked s sin s sin :=
  ⟨.refl _, fun _ _ => rfl, hs, rfl, id, rfl, rfl⟩

theorem Worked.trans (h : Worked s sin t sin') (h' : Worked t sin' u sin'') :
    Worked s sin u sin'' where
  moves := h.moves.trans (h'.moves.mono fun hn hr => hn (h.io hr))
  disk b hb := (h'.disk b (hb.moves h.moves)).trans (h.disk b hb)
  sound := h'.sound
  blocks := h'.blocks.trans h.blocks
  io := h'.io ∘ h.io
  ino := h'.ino.trans h.ino
  nlinks := h'.nlinks.trans h.nlinks

theorem Healthy.worked (h : Healthy s sin) (hw : Worked s sin t sin') : Healthy t sin' := by
  have hwithin : Holding.Within (fun b => b.toNat < s.blocks) (s.holding sin) := by
    refine ⟨fun b hb => (h.sound.valid_of_free hb).2, fun p b hp => ?_⟩
    obtain ⟨rfl, hne⟩ := holding_own_some.mp hp
    exact h.within p hne
  refine ⟨hw.sound, h.excl.moves hw.moves, fun p hp => ?_⟩
  rw [hw.blocks]
  exact (hwithin.moves hw.moves).own p _ (ref_of_ne hp)

/-- The fields that the holding does not depend on may change. -/
theorem Worked.congr {sin₁ : SfsInode} (h : Worked s sin t sin') (hino : sin₁.ino = sin'.ino)
    (hlinks : sin₁.din.nlinks = sin'.din.nlinks) (hslot : t.slot sin₁ = t.slot sin') :
    Worked s sin t sin₁ := by
  refine ⟨?_, h.disk, h.sound, h.blocks, h.io, hino.trans h.ino, hlinks.trans h.nlinks⟩
  have heq : t.holding sin₁ = t.holding sin' := by
    unfold holding
    rw [hslot]
  exact heq ▸ h.moves

theorem Same.slot (h : Same s t) (sin : SfsInode) : t.slot sin = s.slot sin :=
  slot_congr fun _ => by rw [h.disk]

theorem Same.worked (h : Same s t) (hs : s.Sound) (sin : SfsInode) : Worked s sin t sin := by
  have heq : t.holding sin = s.holding sin := by
    unfold holding
    rw [h.slot sin, h.free_eq]
  exact ⟨heq ▸ .refl _, fun b _ => by rw [h.disk], h.sound hs, h.blocks, h.io, rfl, rfl⟩

theorem Abandoned.slot (h : Abandoned s t) (hh : Healthy s sin) : t.slot sin = s.slot sin :=
  slot_congr fun hne => h.disk _ (hh.inUse (p := .indirect) hne).2

theorem Abandoned.worked (h : Abandoned s t) (hh : Healthy s sin) : Worked s sin t sin := by
  refine ⟨?_, fun b hb => h.disk b hb.1, h.sound, h.blocks, h.io, rfl, rfl⟩
  refine .lose ?_ (fun b hb => h.bits hb) fun hne hr => hne ?_
  · unfold holding
    rw [h.slot hh]
  · show t.free = s.free
    unfold free
    rw [h.kept hr]

theorem Allotted.slot (h : Allotted s b t) (hh : Healthy s sin) : t.slot sin = s.slot sin := by
  have hne : sin.din.indirect ≠ b := hh.slot_ne_of_free h.free .indirect
  exact slot_congr fun _ => by rw [h.disk, update_of_ne hne]

theorem Allotted.disk_of_foreign (h : Allotted s b t) {c : Ino}
    (hc : (s.holding sin).Foreign c) : t.disk c = s.disk c := by
  have hcb : c ≠ b := fun hcb => hc.1 (hcb.symm ▸ h.free)
  rw [h.disk, update_of_ne hcb]

theorem Returned.slot (h : Returned s b t) (sin : SfsInode) : t.slot sin = s.slot sin :=
  slot_congr fun _ => by rw [h.disk]

theorem Returned.reliable (h : Returned s b t) (hr : s.Reliable) : t.Reliable := by
  unfold Reliable
  rw [h.io]
  exact hr

/-- A place that had no block gets one that was free. -/
theorem Healthy.claim (hh : Healthy s sin) (hp : s.slot sin p = 0) (hb : b ∈ s.free)
    (hslot : t.slot sin' = update (s.slot sin) p b) (hfree : t.free = s.free \ {b}) :
    Holding.Moves (¬s.Reliable) (s.holding sin) (t.holding sin') := by
  refine .claim (p := p) (t := b) ?_ hb ?_ hfree
  · show ref (s.slot sin p) = none
    rw [hp, ref_zero]
  · show (fun q => ref (t.slot sin' q)) = _
    rw [hslot, ref_update, ref_of_ne (hh.sound.valid_of_free hb).1]
    rfl

/-- A place gives its block back. -/
theorem Healthy.release (hp : s.slot sin p ≠ 0) (hslot : t.slot sin' = update (s.slot sin) p 0)
    (hfree : t.free = insert (s.slot sin p) s.free) :
    Holding.Moves (¬s.Reliable) (s.holding sin) (t.holding sin') := by
  refine .release (p := p) (ref_of_ne hp) ?_ hfree
  show (fun q => ref (t.slot sin' q)) = _
  rw [hslot, ref_update, ref_zero]
  rfl

/-! ### New blocks -/

theorem slot_newDirect (h : Allotted s b t) (hh : Healthy s sin) :
    t.slot (sin.setDirect k b) = update (s.slot sin) (.direct k) b := by
  rw [slot_setDirect, h.slot hh]

theorem worked_newDirect (hnone : sin.din.direct k = 0) (h : Allotted s b t)
    (hh : Healthy s sin) : Worked s sin t (sin.setDirect k b) :=
  ⟨hh.claim (p := .direct k) hnone h.free (slot_newDirect h hh) h.free_eq, fun _ hc => h.disk_of_foreign hc, h.sound,
    h.blocks, h.io, rfl, rfl⟩

theorem slot_newIndirect (hnone : sin.din.indirect = 0) (h : Allotted s b t) (hh : Healthy s sin) :
    t.slot (sin.setIndirect b) = update (s.slot sin) .indirect b := by
  rw [slot_setIndirect hnone (by rw [h.disk, update_self]), h.slot hh]

theorem worked_newIndirect (hnone : sin.din.indirect = 0) (h : Allotted s b t) (hh : Healthy s sin) :
    Worked s sin t (sin.setIndirect b) :=
  ⟨hh.claim (p := .indirect) hnone h.free (slot_newIndirect hnone h hh) h.free_eq, fun _ hc => h.disk_of_foreign hc,
    h.sound, h.blocks, h.io, rfl, rfl⟩

section Entry

variable {k : Nat} (hk : k < blkNentry) (hne : sin.din.indirect ≠ 0) (h : Allotted s b t)
  (h' : Stored t sin.din.indirect ((t.disk sin.din.indirect).patch (4 * k) (wordBytes b)) u)
  (hh : Healthy s sin)

include hk hne h h' hh

theorem slot_newEntry : u.slot sin = update (s.slot sin) (.entry ⟨k, hk⟩) b := by
  rw [slot_stored hne hk h', h.slot hh]

theorem worked_newEntry (hnone : s.entry sin.din.indirect k = 0) : Worked s sin u sin where
  moves := hh.claim (p := .entry ⟨k, hk⟩) hnone h.free (slot_newEntry hk hne h h' hh)
    (h'.free_eq.trans h.free_eq)
  disk c hc := by
    have hcne : c ≠ sin.din.indirect := fun heq =>
      hc.2 .indirect (heq ▸ ref_of_ne hne)
    rw [h'.disk, update_of_ne hcne, h.disk_of_foreign hc]
  sound := h'.sound h.sound
  blocks := h'.blocks.trans h.blocks
  io := h'.io ∘ h.io
  ino := rfl
  nlinks := rfl

end Entry

variable {index : Nat} {create : Bool}

/-- `sfs_bmap_get_nolock` for one inode. -/
theorem Got.worked {ret : Except Err Ino} (hh : Healthy s sin)
    (h : Got s sin index create ret t sin') : Worked s sin t sin' := by
  cases h with
  | found hsame _ => exact hsame.worked hh.sound sin
  | direct _ _ hnone hb => exact worked_newDirect hnone hb hh
  | entry _ hk _ hne hnone hb hst => exact worked_newEntry hk hne hb hst hh hnone
  | @both k ent b t u v _ hk _ hnone hent hb hst =>
    have hwork := worked_newIndirect hnone hent hh
    have hzero : t.entry ent k = 0 := by
      unfold Sfs.entry
      rw [hent.disk, update_self, Buffer.word_zero, ite_self]
    exact hwork.trans (worked_newEntry hk (hent.inUse hh.sound).1.1 hb hst (hh.worked hwork) hzero)
  | failed hab _ => exact hab.worked hh

variable {ret : Except Err Unit}

/-- `sfs_bmap_free_nolock` for one inode. -/
theorem Dropped.worked (hh : Healthy s sin) (h : Dropped s sin index ret t sin') :
    Worked s sin t sin' := by
  cases h with
  | nothing hsame _ => exact hsame.worked hh.sound sin
  | @direct k _ _ hne hret =>
    have hslot : t.slot (sin.setDirect k 0) = update (s.slot sin) (.direct k) 0 := by
      rw [slot_setDirect, hret.slot]
    exact ⟨Healthy.release (p := .direct k) hne hslot hret.free_eq, fun _ _ => by rw [hret.disk],
      hret.sound, hret.blocks, hret.reliable, rfl, rfl⟩
  | @entry k u _ _ hk hne hent hst hret =>
    have hslot : t.slot sin = update (s.slot sin) (.entry ⟨k, hk⟩) 0 := by
      rw [hret.slot, slot_stored hne hk hst]
    have hfree : t.free = insert (s.entry sin.din.indirect k) s.free := by
      rw [hret.free_eq, hst.free_eq]
    refine ⟨Healthy.release (p := .entry ⟨k, hk⟩) hent hslot hfree, fun c hc => ?_, hret.sound,
      hret.blocks.trans hst.blocks, fun hr => hret.reliable (hst.io hr), rfl, rfl⟩
    have hcne : c ≠ sin.din.indirect := fun heq => hc.2 .indirect (heq ▸ ref_of_ne hne)
    rw [hret.disk, hst.disk, update_of_ne hcne]
  | failed hsame _ => exact hsame.worked hh.sound sin

/-! ### The number of blocks of a file -/

/-- Only the blocks before `blocks` are there. -/
def Bounded (s : Sfs) (sin : SfsInode) : Prop :=
  ∀ p n, p.index = some n → s.slot sin p ≠ 0 → n < sin.din.blocks.toNat

variable {n : Nat}

theorem mapped_eq_slot (hp : p.index = some n) (s : Sfs) (sin : SfsInode) :
    s.mapped sin n = s.slot sin p := by
  cases p with
  | direct k =>
    cases hp
    exact dif_pos k.isLt
  | entry k =>
    cases hp
    unfold mapped
    rw [dif_neg (by omega), Nat.add_sub_cancel_left]
    rfl
  | self => cases hp
  | indirect => cases hp

theorem exists_part (hn : n < nDirect + blkNentry) : ∃ p : Part, p.index = some n := by
  by_cases hdir : n < nDirect
  · exact ⟨.direct ⟨n, hdir⟩, rfl⟩
  · refine ⟨.entry ⟨n - nDirect, by omega⟩, ?_⟩
    show some (nDirect + (n - nDirect)) = some n
    rw [Nat.add_sub_cancel' (by omega)]

theorem index_lt (hp : p.index = some n) : n < nDirect + blkNentry := by
  cases p with
  | direct k =>
    cases hp
    exact Nat.lt_add_right _ k.isLt
  | entry k =>
    cases hp
    exact Nat.add_lt_add_left k.isLt _
  | self => cases hp
  | indirect => cases hp

theorem Healthy.mapped_inUse (h : Healthy s sin) (hn : n < nDirect + blkNentry) (hne : s.mapped sin n ≠ 0) :
    s.InUse (s.mapped sin n) := by
  obtain ⟨p, hp⟩ := exists_part hn
  rw [mapped_eq_slot hp] at hne ⊢
  exact h.inUse hne

theorem update_ne_zero {f : Part → Ino} (h : update f p b q ≠ 0) : q = p ∨ f q ≠ 0 := by
  by_cases hqp : q = p
  · exact .inl hqp
  · rw [update_of_ne hqp] at h
    exact .inr h

/-- No block is made but the one that is looked up. -/
theorem Got.grown {ret : Except Err Ino} (hh : Healthy s sin)
    (h : Got s sin index create ret t sin') (hp : p.index = some n) (hne : t.slot sin' p ≠ 0) :
    s.slot sin p ≠ 0 ∨ n = index := by
  cases h with
  | found hsame _ =>
    rw [hsame.slot] at hne
    exact .inl hne
  | @direct k _ _ hk _ hnone hb =>
    rw [slot_newDirect hb hh] at hne
    rcases update_ne_zero hne with rfl | hne
    · exact .inr ((Option.some.inj hp).symm.trans hk)
    · exact .inl hne
  | @entry k _ _ _ hi hk _ hind _ hb hst =>
    rw [slot_newEntry hk hind hb hst hh] at hne
    rcases update_ne_zero hne with rfl | hne
    · exact .inr ((Option.some.inj hp).symm.trans hi)
    · exact .inl hne
  | @both k ent _ _ _ _ hi hk _ hnone hent hb hst =>
    have hwork := worked_newIndirect hnone hent hh
    rw [slot_newEntry hk (hent.inUse hh.sound).1.1 hb hst (hh.worked hwork),
      slot_newIndirect hnone hent hh] at hne
    rcases update_ne_zero hne with rfl | hne
    · exact .inr ((Option.some.inj hp).symm.trans hi)
    · rcases update_ne_zero hne with rfl | hne
      · cases hp
      · exact .inl hne
  | failed hab _ =>
    rw [hab.slot hh] at hne
    exact .inl hne

theorem Got.blocks_eq {ret : Except Err Ino} (h : Got s sin index create ret t sin') :
    sin'.din.blocks = sin.din.blocks := by
  cases h <;> rfl

/-- The block that is given back is gone. -/
theorem Dropped.shrunk (h : Dropped s sin index (.ok ()) t sin') (hp : p.index = some n)
    (hne : t.slot sin' p ≠ 0) : s.slot sin p ≠ 0 ∧ n ≠ index := by
  cases h with
  | nothing hsame hnone =>
    rw [hsame.slot] at hne
    refine ⟨hne, fun hn => hne ?_⟩
    subst hn
    rw [← mapped_eq_slot hp]
    exact hnone (index_lt hp)
  | @direct k _ hk _ hret =>
    rw [slot_setDirect, hret.slot] at hne
    have hpk : p ≠ .direct k := fun hpk => hne (by rw [hpk, update_self])
    rw [update_of_ne hpk] at hne
    refine ⟨hne, fun hn => hpk ?_⟩
    cases p with
    | direct j =>
      cases hp
      exact congrArg Part.direct (Fin.ext (hn.trans hk.symm))
    | entry j =>
      cases hp
      omega
    | self => cases hp
    | indirect => cases hp
  | @entry k u _ hi hk hind _ hst hret =>
    rw [hret.slot, slot_stored hind hk hst] at hne
    have hpk : p ≠ .entry ⟨k, hk⟩ := fun hpk => hne (by rw [hpk, update_self])
    rw [update_of_ne hpk] at hne
    refine ⟨hne, fun hn => hpk ?_⟩
    cases p with
    | direct j =>
      cases hp
      omega
    | entry j =>
      cases hp
      exact congrArg Part.entry (Fin.ext (show j.val = k by omega))
    | self => cases hp
    | indirect => cases hp

theorem Dropped.blocks_eq (h : Dropped s sin index ret t sin') :
    sin'.din.blocks = sin.din.blocks := by
  cases h <;> rfl

/-! ### The operations on one inode -/

/-- What was done for an inode, where its blocks are still the ones it counts. -/
structure Tended (s : Sfs) (sin : SfsInode) (t : Sfs) (sin' : SfsInode) : Prop
    extends Worked s sin t sin' where
  bounded : s.Bounded sin → t.Bounded sin'

theorem Tended.trans (h : Tended s sin t sin') (h' : Tended t sin' u sin'') : Tended s sin u sin'' :=
  ⟨h.toWorked.trans h'.toWorked, h'.bounded ∘ h.bounded⟩

theorem Tended.refl (hs : s.Sound) (sin : SfsInode) : Tended s sin s sin := ⟨Worked.refl hs sin, id⟩

theorem bmapLoad_tended {ret : Except Err Ino} (hh : Healthy s sin)
    (hrun : s.bmapLoad sin index = .ok (ret, t, sin')) : Tended s sin t sin' := by
  by_cases hle : index ≤ sin.din.blocks.toNat
  · by_cases hi : index < nDirect + blkNentry
    · obtain ⟨got, u, sin₁, h, heq⟩ := bmapLoad_spec hh.sound
        (fun hne => hh.inUse (p := .indirect) hne) (hh.mapped_inUse hi) hle hi
      have hwork := h.worked hh
      rw [heq] at hrun
      cases got with
      | error e =>
        cases hrun
        refine ⟨hwork, fun hb p n hp hne => ?_⟩
        cases h with
        | failed hab _ =>
          rw [hab.slot hh] at hne
          exact hb p n hp hne
      | ok b =>
        dsimp only at hrun
        split at hrun
        · cases hrun
        · cases hrun
          by_cases hlast : index = sin.din.blocks.toNat
          · rw [if_pos hlast]
            refine ⟨hwork.congr rfl rfl (slot_addBlock _ _), fun hb p n hp hne => ?_⟩
            have hsmall : sin.din.blocks.toNat + 1 < 2 ^ 32 := by
              have : nDirect + blkNentry < 2 ^ 32 := by decide
              omega
            show n < (sin₁.din.blocks + 1).toNat
            rw [h.blocks_eq, BitVec.toNat_add, show (1 : Word).toNat = 1 from rfl,
              Nat.mod_eq_of_lt hsmall]
            rcases h.grown hh hp hne with hne | rfl
            · exact Nat.lt_succ_of_lt (hb p n hp hne)
            · omega
          · rw [if_neg hlast]
            refine ⟨hwork, fun hb p n hp hne => ?_⟩
            rw [h.blocks_eq]
            rcases h.grown hh hp hne with hne | rfl
            · exact hb p n hp hne
            · omega
    · rw [bmapLoad, if_neg (not_not.mpr hle)] at hrun
      simp only [bmapGet_panic (Nat.le_of_not_lt hi), bind, Except.bind] at hrun
      cases hrun
  · rw [bmapLoad, if_pos hle] at hrun
    cases hrun

theorem toNat_sub_one (h : w ≠ 0) : (w - 1).toNat = w.toNat - 1 := by
  have hpos : w.toNat ≠ 0 := fun hz => h (BitVec.eq_of_toNat_eq hz)
  have := w.isLt
  rw [BitVec.toNat_sub, show (1 : Word).toNat = 1 from rfl]
  omega

theorem bmapTruncate_tended (hh : Healthy s sin) (hrun : s.bmapTruncate sin = .ok (ret, t, sin')) :
    Tended s sin t sin' := by
  by_cases hne : sin.din.blocks = 0
  · rw [bmapTruncate, if_pos hne] at hrun
    cases hrun
  · obtain ⟨got, u, sin₁, h, heq⟩ := bmapTruncate_spec hh.sound hne
      (fun hne => hh.inUse (p := .indirect) hne) fun _ hi => hh.mapped_inUse hi
    have hwork := h.worked hh
    rw [heq] at hrun
    cases hrun
    cases ret with
    | error e =>
      cases h with
      | failed hsame _ =>
        refine ⟨hwork, fun hb p n hp hne => ?_⟩
        rw [hsame.slot] at hne
        exact hb p n hp hne
    | ok _ =>
      refine ⟨hwork.congr rfl rfl (slot_dropBlock _ _), fun hb p n hp hslot => ?_⟩
      show n < (sin₁.din.blocks - 1).toNat
      rw [h.blocks_eq, toNat_sub_one hne]
      obtain ⟨hslot, hlast⟩ := h.shrunk hp hslot
      have := hb p n hp hslot
      omega

theorem enlarge_tended {nblks : Nat} (hh : Healthy s sin) (hrun : enlarge n s sin nblks = .ok (ret, t, sin'))
    : Tended s sin t sin' := by
  induction n generalizing s sin nblks with
  | zero =>
    cases hrun
    exact Tended.refl hh.sound _
  | succ n ih =>
    obtain ⟨⟨got, u, sin₁⟩, hload, hrest⟩ := bind_eq_ok.mp hrun
    have htend := bmapLoad_tended hh hload
    cases got with
    | error e =>
      cases hrest
      exact htend
    | ok b => exact htend.trans (ih (hh.worked htend.toWorked) hrest)

theorem shrink_tended (hh : Healthy s sin) (hrun : shrink n s sin = .ok (ret, t, sin')) :
    Tended s sin t sin' := by
  induction n generalizing s sin with
  | zero =>
    cases hrun
    exact Tended.refl hh.sound _
  | succ n ih =>
    obtain ⟨⟨got, u, sin₁⟩, hdrop, hrest⟩ := bind_eq_ok.mp hrun
    have htend := bmapTruncate_tended hh hdrop
    cases got with
    | error e =>
      cases hrest
      exact htend
    | ok _ => exact htend.trans (ih (hh.worked htend.toWorked) hrest)

/-- The file has as many blocks as its length takes. -/
theorem truncfile_tended {len : Int} (hh : Healthy s sin) (hrun : s.truncfile sin len = .ok (ret, t, sin')) :
    Tended s sin t sin' ∧
      (ret = .ok () → sin'.din.blocks.toNat = (len.toNat + blkSize - 1) / blkSize) := by
  unfold truncfile at hrun
  split at hrun
  · cases hrun
    exact ⟨Tended.refl hh.sound _, fun h => by cases h⟩
  · dsimp only at hrun
    split at hrun
    · split at hrun
      · rename_i heq
        cases hrun
        exact ⟨Tended.refl hh.sound _, fun _ => heq.symm⟩
      · cases hrun
    · obtain ⟨⟨got, u, sin₁⟩, hmore, hrest⟩ := bind_eq_ok.mp hrun
      have htend := enlarge_tended hh hmore
      cases got with
      | error e =>
        cases hrest
        exact ⟨htend, fun h => by cases h⟩
      | ok _ =>
        obtain ⟨⟨got', v, sin₂⟩, hless, hrest⟩ := bind_eq_ok.mp hrest
        have htend' := htend.trans (shrink_tended (hh.worked htend.toWorked) hless)
        cases got' with
        | error e =>
          cases hrest
          exact ⟨htend', fun h => by cases h⟩
        | ok _ =>
          dsimp only at hrest
          split at hrest
          · cases hrest
          · rename_i hblocks
            cases hrest
            exact ⟨⟨htend'.toWorked.congr rfl rfl rfl, htend'.bounded⟩, fun _ => not_not.mp hblocks⟩

theorem length_words (din : DiskInode) : (din.words.flatMap wordBytes).length = 64 := by
  simp [DiskInode.words]

theorem fsync_tended (hh : Healthy s sin) (hino : sin.ino ≠ 0) (hrun : s.fsync sin = .ok (ret, t, sin')) :
    Tended s sin t sin' ∧ sin'.din = sin.din := by
  have huse : s.InUse sin.ino := hh.inUse (p := .self) hino
  unfold fsync at hrun
  split at hrun
  · obtain ⟨u, ⟨hst, hwrite⟩ | ⟨hsame, -, hwrite⟩⟩ :=
      wbuf_spec huse.1 (sin.din.words.flatMap wordBytes) (show 0 < blkSize by decide)
        (by rw [length_words]; decide)
    · rw [hwrite] at hrun
      cases hrun
      have hne : sin.din.indirect ≠ 0 → sin.din.indirect ≠ sin.ino :=
        hh.ne_of_slot_ne (p := .indirect) (q := .self) (by decide)
      have hslot : t.slot sin = s.slot sin :=
        slot_congr fun hind => by rw [hst.disk, update_of_ne (hne hind)]
      have hwork : Worked s sin t sin := by
        have heq : t.holding sin = s.holding sin := by
          unfold holding
          rw [hslot, hst.free_eq]
        refine ⟨heq ▸ .refl _, fun b hb => ?_, hst.sound hh.sound, hst.blocks, hst.io, rfl, rfl⟩
        have hbne : b ≠ sin.ino := fun h => hb.2 .self (h ▸ ref_of_ne hino)
        rw [hst.disk, update_of_ne hbne]
      refine ⟨⟨hwork.congr rfl rfl rfl, fun hb p n hp hp' => hb p n hp ?_⟩, rfl⟩
      rw [← hslot]
      exact hp'
    · rw [hwrite] at hrun
      cases hrun
      refine ⟨⟨hsame.worked hh.sound sin, fun hb p n hp hp' => hb p n hp ?_⟩, rfl⟩
      rwa [hsame.slot] at hp'
  · cases hrun
    exact ⟨Tended.refl hh.sound _, rfl⟩

/-- What was done for an inode that may be gone: then it owns nothing. -/
structure Touched (s : Sfs) (sin : SfsInode) (t : Sfs) (left : Option SfsInode) : Prop where
  moves : Holding.Moves (¬s.Reliable) (s.holding sin)
    ⟨fun p => left.bind fun sin' => ref (t.slot sin' p), t.free⟩
  disk : ∀ b, (s.holding sin).Foreign b → t.disk b = s.disk b
  sound : t.Sound
  blocks : t.blocks = s.blocks
  io : s.Reliable → t.Reliable
  left : ∀ sin', left = some sin' → sin'.ino = sin.ino ∧ (s.Bounded sin → t.Bounded sin')

theorem Tended.touched (h : Tended s sin t sin') : Touched s sin t (some sin') :=
  ⟨h.moves, h.disk, h.sound, h.blocks, h.io, fun _ heq => by cases heq; exact ⟨h.ino, h.bounded⟩⟩

theorem Worked.gone (h : Worked s sin t sin') (h' : Touched t sin' u none) : Touched s sin u none where
  moves := h.moves.trans (h'.moves.mono fun hn hr => hn (h.io hr))
  disk b hb := (h'.disk b (hb.moves h.moves)).trans (h.disk b hb)
  sound := h'.sound
  blocks := h'.blocks.trans h.blocks
  io := h'.io ∘ h.io
  left _ heq := by cases heq

/-- An inode without blocks owns itself and its indirect block. -/
theorem Bounded.own_eq_none (hb : s.Bounded sin) (hzero : sin.din.blocks.toNat = 0) (hself : p ≠ .self)
    (hind : p ≠ .indirect) : (s.holding sin).own p = none := by
  have hnone : s.slot sin p = 0 := by
    by_contra hne
    cases p with
    | self => exact hself rfl
    | indirect => exact hind rfl
    | direct k =>
      have := hb (.direct k) _ rfl hne
      omega
    | entry k =>
      have := hb (.entry k) _ rfl hne
      omega
  show ref (s.slot sin p) = none
  rw [hnone, ref_zero]

theorem Bounded.own_released (hb : s.Bounded sin) (hzero : sin.din.blocks.toNat = 0) :
    update (update (s.holding sin).own .self none) .indirect none = fun _ => none := by
  funext p
  by_cases hind : p = .indirect
  · rw [hind, update_self]
  · rw [update_of_ne hind]
    by_cases hself : p = .self
    · rw [hself, update_self]
    · rw [update_of_ne hself, hb.own_eq_none hzero hself hind]

theorem reclaimBlocks_gone (hh : Healthy s sin) (hino : sin.ino ≠ 0) (hlinks : sin.din.nlinks = 0)
    (hb : s.Bounded sin) (hzero : sin.din.blocks.toNat = 0) (hrun : s.reclaimBlocks sin = .ok t) :
    Touched s sin t none := by
  have huse : s.InUse sin.ino := hh.inUse (p := .self) hino
  obtain ⟨u, hfree, hret⟩ := blockFree_spec hh.sound huse
  rw [reclaimBlocks, if_pos hlinks, hfree] at hrun
  have hown : (s.holding sin).own .self = some sin.ino := ref_of_ne hino
  have hmove : Holding.Moves (¬s.Reliable) (s.holding sin)
      ⟨update (s.holding sin).own .self none, u.free⟩ :=
    .release hown rfl hret.free_eq
  simp only [ok_bind] at hrun
  by_cases hind : sin.din.indirect = 0
  · rw [if_neg (not_not.mpr hind)] at hrun
    cases hrun
    refine ⟨?_, fun _ _ => by rw [hret.disk], hret.sound, hret.blocks, hret.reliable,
      fun _ heq => by cases heq⟩
    have hnone : update (s.holding sin).own .self none .indirect = none := by
      exact (congrArg ref hind).trans ref_zero
    rw [← Function.update_eq_self .indirect (update (s.holding sin).own .self none), hnone,
      hb.own_released hzero] at hmove
    exact hmove
  · rw [if_pos hind] at hrun
    have hne : sin.din.indirect ≠ sin.ino :=
      hh.ne_of_slot_ne (p := .indirect) (q := .self) (by decide) hind
    have huse' : u.InUse sin.din.indirect := by
      have hin := hh.inUse (p := .indirect) hind
      refine ⟨⟨hind, hret.blocks ▸ hin.1.2⟩, fun hmem => ?_⟩
      rw [hret.free_eq] at hmem
      exact hmem.elim hne hin.2
    obtain ⟨v, hfree', hret'⟩ := blockFree_spec hret.sound huse'
    rw [hfree'] at hrun
    cases hrun
    have hown' : update (s.holding sin).own .self none .indirect = some sin.din.indirect := by
      exact ref_of_ne hind
    exact ⟨hmove.trans (.release (h := ⟨_, u.free⟩) (p := .indirect) hown'
        (hb.own_released hzero).symm hret'.free_eq),
      fun _ _ => by rw [hret'.disk, hret.disk], hret'.sound, hret'.blocks.trans hret.blocks,
      hret'.reliable ∘ hret.reliable, fun _ heq => by cases heq⟩

/-- `sfs_reclaim` of an inode without links: it is gone, or it is kept with what it owns. -/
theorem reclaim_touched {refCount : Int} {left : Option SfsInode} (hh : Healthy s sin) (hb : s.Bounded sin)
    (hino : sin.ino ≠ 0) (hlinks : sin.din.nlinks = 0) (hrun : s.reclaim sin refCount = .ok (ret, t, left)) :
    Touched s sin t left := by
  -- the count of reclaims is not part of what is owned
  have hcount : Tended s sin s { sin with reclaimCount := sin.reclaimCount - 1 } :=
    ⟨(Worked.refl hh.sound sin).congr rfl rfl rfl, id⟩
  unfold reclaim at hrun
  split at hrun
  · cases hrun
  · dsimp only at hrun
    split at hrun
    · cases hrun
      exact hcount.touched
    · split at hrun
      · cases hrun
      · obtain ⟨⟨ret₁, u, sin₁⟩, htrunc, hrest⟩ := bind_eq_ok.mp hrun
        obtain ⟨htend, hblocks⟩ := truncfile_tended (hh.worked hcount.toWorked) htrunc
        have htend₁ := hcount.trans htend
        have hh₁ := hh.worked htend₁.toWorked
        cases ret₁ with
        | error e =>
          cases hrest
          exact htend₁.touched
        | ok _ =>
          obtain ⟨⟨ret₂, v, sin₂⟩, hsync, hrest⟩ := bind_eq_ok.mp hrest
          have hino₁ : sin₁.ino ≠ 0 := htend₁.ino.symm ▸ hino
          obtain ⟨htend₂, hdin⟩ := fsync_tended hh₁ hino₁ hsync
          have hall := htend₁.trans htend₂
          cases ret₂ with
          | error e =>
            cases hrest
            exact hall.touched
          | ok _ =>
            obtain ⟨w, hfree, hrest⟩ := bind_eq_ok.mp hrest
            cases hrest
            have hzero : sin₂.din.blocks.toNat = 0 := by rw [hdin, hblocks rfl]; decide
            exact hall.toWorked.gone (reclaimBlocks_gone (hh.worked hall.toWorked)
              (hall.ino.symm ▸ hino) (hall.nlinks.trans hlinks) (hall.bounded hb) hzero hfree)

end Sfs

end UcoreMips.Kernel
