import UcoreMips.Kernel.Fs.Owners

/-!
# UcoreMips.Kernel.Fs.Volume

**No block of a volume is owned twice** (`Volume.blocks_owned_once`).

What is done for one inode does not touch what the others own, so a run of moves of its holding
is one of the holding of the whole volume (`Volume.WellFormed.touched`), and the rules for moves
give the rest.
-/

namespace UcoreMips.Kernel

open UcoreMips.Lib


/-- A volume: the file system, and the inodes, of which those in memory may differ from what is
on the disk. -/
structure Volume where
  sfs : Sfs
  inodes : Ino → Option SfsInode

namespace Volume

variable {v v' : Volume} {i j : Ino}

/-- An operation on one inode. -/
def set (v : Volume) (i : Ino) (s : Sfs) (sin : Option SfsInode) : Volume :=
  ⟨s, Function.update v.inodes i sin⟩

theorem set_inodes_self (v : Volume) (i : Ino) (s : Sfs) (left : Option SfsInode) :
    (v.set i s left).inodes i = left := by
  simp [set]

theorem set_inodes_of_ne (v : Volume) (hji : j ≠ i) (s : Sfs) (left : Option SfsInode) :
    (v.set i s left).inodes j = v.inodes j := by
  simp [set, hji]

/-- The operations on block maps that return, with or without success. -/
inductive Step : Volume → Volume → Prop
  /-- `sfs_bmap_load_nolock`. -/
  | load {v : Volume} {i : Ino} {sin sin' : SfsInode} {index : Nat} {ret : Except Err Ino} {s : Sfs} :
      v.inodes i = some sin → v.sfs.bmapLoad sin index = .ok (ret, s, sin') →
      Step v (v.set i s (some sin'))
  /-- `sfs_bmap_truncate_nolock`. -/
  | truncate {v : Volume} {i : Ino} {sin sin' : SfsInode} {ret : Except Err Unit} {s : Sfs} :
      v.inodes i = some sin → v.sfs.bmapTruncate sin = .ok (ret, s, sin') →
      Step v (v.set i s (some sin'))
  /-- `sfs_truncfile`. -/
  | truncfile {v : Volume} {i : Ino} {sin sin' : SfsInode} {len : Int} {ret : Except Err Unit}
      {s : Sfs} :
      v.inodes i = some sin → v.sfs.truncfile sin len = .ok (ret, s, sin') →
      Step v (v.set i s (some sin'))
  /-- `sfs_reclaim` of an inode without links. -/
  | reclaim {v : Volume} {i : Ino} {sin : SfsInode} {refCount : Int} {ret : Except Err Unit} {s : Sfs}
      {left : Option SfsInode} :
      v.inodes i = some sin → sin.din.nlinks = 0 →
      v.sfs.reclaim sin refCount = .ok (ret, s, left) → Step v (v.set i s left)

/-- What the inodes own, and the free blocks. -/
def holding (v : Volume) : Holding (Ino × Part) Ino where
  own p := (v.inodes p.1).bind fun sin => ref (v.sfs.slot sin p.2)
  free := v.sfs.free

/-- The superblock, the root and the blocks of the freemap. -/
def area (v : Volume) : Set Ino := fun b => b.toNat < 2 + (v.sfs.blocks + 32767) / 32768

/-- The freemap is right, each inode is in its own block, what the inodes refer to exists and
is in use, each block once, and a file has no blocks but those it counts. -/
structure WellFormed (v : Volume) : Prop where
  sound : v.sfs.Sound
  ino : ∀ i sin, v.inodes i = some sin → sin.ino = i ∧ i ≠ 0
  excl : v.holding.Exclusive
  within : v.holding.Within fun b => b.toNat < v.sfs.blocks
  bounded : ∀ i sin, v.inodes i = some sin → v.sfs.Bounded sin

/-- Every block that is in use is referred to. -/
def Accounted (v : Volume) : Prop :=
  v.holding.Complete fun b => v.sfs.Valid b ∧ b ∉ v.area

variable {sin : SfsInode} {t : Sfs} {p : Part} {b : Ino}

theorem group_holding (hi : v.inodes i = some sin) : v.holding.group i = v.sfs.holding sin := by
  unfold Holding.group holding Sfs.holding
  dsimp only
  rw [hi]
  rfl

section WellFormed

variable (h : v.WellFormed) (hi : v.inodes i = some sin)

include h hi

theorem WellFormed.healthy : v.sfs.Healthy sin := by
  have hgroup := group_holding hi
  refine ⟨h.sound, hgroup ▸ h.excl.group i, fun p hp => ?_⟩
  exact (hgroup ▸ h.within.group i).own p _ (ref_of_ne hp)

/-- What the other inodes refer to does not change. -/
theorem WellFormed.slot_of_ne {sin₁ : SfsInode} (hj : v.inodes j = some sin₁) (hji : j ≠ i)
    (hdisk : ∀ b, (v.sfs.holding sin).Foreign b → t.disk b = v.sfs.disk b) :
    t.slot sin₁ = v.sfs.slot sin₁ := by
  refine Sfs.slot_congr fun hne => hdisk _ ?_
  have hown : v.holding.own (j, .indirect) = some sin₁.din.indirect := by
    unfold holding
    dsimp only
    rw [hj]
    exact ref_of_ne hne
  exact group_holding hi ▸ h.excl.foreign hji hown

theorem WellFormed.set_holding (hdisk : ∀ b, (v.sfs.holding sin).Foreign b → t.disk b = v.sfs.disk b) (left : Option SfsInode) :
    (v.set i t left).holding =
      v.holding.set i ⟨fun p => left.bind fun sin' => ref (t.slot sin' p), t.free⟩ := by
  refine Holding.ext (funext fun ⟨j, p⟩ => ?_) rfl
  show ((Function.update v.inodes i left) j).bind _ = if j = i then _ else _
  by_cases hji : j = i
  · rw [if_pos hji, hji, Function.update_self]
    rfl
  · rw [if_neg hji, Function.update_of_ne hji]
    show _ = (v.inodes j).bind _
    cases hj : v.inodes j with
    | none => rfl
    | some sin₁ =>
      show ref (t.slot sin₁ p) = ref (v.sfs.slot sin₁ p)
      rw [h.slot_of_ne hi hj hji hdisk]

/-- Whatever is done for one inode is a change of what the inodes of the volume own. -/
theorem WellFormed.touched {left : Option SfsInode} (ht : v.sfs.Touched sin t left) :
    Holding.Moves (¬v.sfs.Reliable) v.holding (v.set i t left).holding ∧
      (v.set i t left).WellFormed := by
  have hmoves : Holding.Moves (¬v.sfs.Reliable) v.holding (v.set i t left).holding := by
    have hset := ht.moves.set v.holding i
    rwa [← group_holding hi, Holding.set_group, ← h.set_holding hi ht.disk] at hset
  refine ⟨hmoves, ht.sound, fun j sin₁ hj => ?_, h.excl.moves hmoves, ?_, fun j sin₁ hj => ?_⟩
  · by_cases hji : j = i
    · rw [hji, set_inodes_self] at hj
      rw [hji, (ht.left sin₁ hj).1]
      exact h.ino i sin hi
    · rw [set_inodes_of_ne v hji] at hj
      exact h.ino j sin₁ hj
  · have hwithin := h.within.moves hmoves
    rwa [← ht.blocks] at hwithin
  · by_cases hji : j = i
    · rw [hji, set_inodes_self] at hj
      exact (ht.left sin₁ hj).2 (h.bounded i sin hi)
    · rw [set_inodes_of_ne v hji] at hj
      intro p n hp hne
      have hne' : v.sfs.slot sin₁ p ≠ 0 := by
        rw [← h.slot_of_ne hi hj hji ht.disk]
        exact hne
      exact h.bounded j sin₁ hj p n hp hne'

end WellFormed

theorem Step.touched (h : v.WellFormed) (hstep : Step v v') :
    ∃ i sin t left, v.inodes i = some sin ∧ v' = v.set i t left ∧ v.sfs.Touched sin t left := by
  cases hstep with
  | load hi hrun => exact ⟨_, _, _, _, hi, rfl, (Sfs.bmapLoad_tended (h.healthy hi) hrun).touched⟩
  | truncate hi hrun =>
    exact ⟨_, _, _, _, hi, rfl, (Sfs.bmapTruncate_tended (h.healthy hi) hrun).touched⟩
  | truncfile hi hrun =>
    exact ⟨_, _, _, _, hi, rfl, (Sfs.truncfile_tended (h.healthy hi) hrun).1.touched⟩
  | @reclaim i sin _ _ _ _ hi hlinks hrun =>
    obtain ⟨hino, hne⟩ := h.ino i sin hi
    exact ⟨_, _, _, _, hi, rfl,
      Sfs.reclaim_touched (h.healthy hi) (h.bounded _ _ hi) (hino.symm ▸ hne) hlinks hrun⟩

/-- A run of operations. -/
structure Reached (v v' : Volume) : Prop where
  wellFormed : v'.WellFormed
  blocks : v'.sfs.blocks = v.sfs.blocks
  io : v.sfs.Reliable → v'.sfs.Reliable
  moves : Holding.Moves (¬v.sfs.Reliable) v.holding v'.holding

theorem WellFormed.reached (h : v.WellFormed) (hrun : Relation.ReflTransGen Step v v') :
    Reached v v' := by
  induction hrun with
  | refl => exact ⟨h, rfl, id, .refl _⟩
  | tail _ hstep ih =>
    obtain ⟨i, sin, t, left, hi, rfl, ht⟩ := hstep.touched ih.wellFormed
    obtain ⟨hmoves, hwf⟩ := ih.wellFormed.touched hi ht
    exact ⟨hwf, ht.blocks.trans ih.blocks, ht.io ∘ ih.io,
      ih.moves.trans (hmoves.mono fun hn hr => hn (ih.io hr))⟩

theorem own_eq_some :
    v.holding.own (i, p) = some b ↔ ∃ sin, v.inodes i = some sin ∧ v.sfs.slot sin p = b ∧ b ≠ 0 := by
  unfold holding
  dsimp only
  cases hi : v.inodes i with
  | none => simp
  | some sin =>
    rw [Option.bind_some, ref_eq_some]
    constructor
    · exact fun h => ⟨sin, rfl, h⟩
    · rintro ⟨sin₁, heq, h⟩
      cases heq
      exact h

/-- **No block is owned twice.** After any operations on the block maps of a volume that was
well formed, the free blocks are counted, what the inodes refer to is in use, no block is
referred to twice, and if no transfer fails every block in use is referred to. -/
theorem blocks_owned_once (hwf : v.WellFormed) (hacc : v.Accounted)
    (hrun : Relation.ReflTransGen Step v v') :
    v'.sfs.unusedBlocks = v'.sfs.freemap.bits.card ∧
    (∀ i sin p, v'.inodes i = some sin → v'.sfs.slot sin p ≠ 0 → v'.sfs.InUse (v'.sfs.slot sin p)) ∧
    (∀ i j sin sin₁ p q, v'.inodes i = some sin → v'.inodes j = some sin₁ →
      v'.sfs.slot sin p ≠ 0 → v'.sfs.slot sin p = v'.sfs.slot sin₁ q → i = j ∧ p = q) ∧
    (v.sfs.Reliable → ∀ b, v'.sfs.InUse b → b ∉ v'.area →
      ∃ i sin p, v'.inodes i = some sin ∧ v'.sfs.slot sin p = b) := by
  have hreach := hwf.reached hrun
  have hwf' := hreach.wellFormed
  refine ⟨hwf'.sound.unused, fun i sin p hi hp => (hwf'.healthy hi).inUse hp, ?_, ?_⟩
  · intro i j sin sin₁ p q hi hj hp heq
    have howni := own_eq_some.mpr ⟨sin, hi, rfl, hp⟩
    have hownj := own_eq_some.mpr ⟨sin₁, hj, heq.symm, hp⟩
    exact Prod.mk.inj (hwf'.excl.once (i, p) (j, q) _ howni hownj)
  · intro hr b hb hout
    have hall : v.sfs.Valid b ∧ b ∉ v.area := by
      unfold Sfs.Valid area
      rw [← hreach.blocks]
      exact ⟨hb.1, hout⟩
    obtain ⟨⟨i, p⟩, hown⟩ := hacc.moves (not_not.mpr hr) hreach.moves b hall hb.2
    obtain ⟨sin, hi, hslot, -⟩ := own_eq_some.mp hown
    exact ⟨i, sin, p, hi, hslot⟩

/-- A file with one block, and three free blocks. -/
def small : Volume where
  sfs := ⟨8, 3, ⟨32, 1, fun _ => 0xe0⟩, fun _ => .zero, fun _ => true⟩
  inodes i :=
    if i = 3 then
      some ⟨⟨4096, typeFile, 0, 1, fun k => if k = 0 then 4 else 0, 0⟩, 3, false, 1⟩
    else none

theorem small_own (h : small.holding.own (i, p) = some b) :
    (i = 3 ∧ p = .self ∧ b = 3) ∨ (i = 3 ∧ p = .direct 0 ∧ b = 4) := by
  obtain ⟨sin, hi, hslot, hne⟩ := own_eq_some.mp h
  unfold small at hi
  dsimp only at hi
  split at hi
  · rename_i hi3
    cases hi
    cases p with
    | self => exact .inl ⟨hi3, rfl, hslot.symm⟩
    | direct k =>
      by_cases hk : k = 0
      · subst hk
        exact .inr ⟨hi3, rfl, hslot.symm⟩
      · exact absurd (hslot.symm.trans (if_neg hk)) hne
    | indirect => exact absurd hslot.symm hne
    | entry k => exact absurd (hslot.symm.trans (Sfs.entry_zero _ _)) hne
  · cases hi

theorem small_wellFormed : small.WellFormed := by
  have hsound : small.sfs.Sound := by
    refine ⟨⟨by decide, fun i hi hi' => ?_⟩, by decide, by decide, by decide, by decide⟩
    exact absurd hi' (Nat.not_lt.mpr hi)
  refine ⟨hsound, fun i sin hi => ?_, ⟨fun ⟨i, p⟩ b h => ?_, fun ⟨i, p⟩ ⟨j, q⟩ b h h' => ?_⟩,
    ⟨fun b hb => (hsound.range _ hb).2, fun ⟨i, p⟩ b h => ?_⟩, fun i sin hi p n hp hne => ?_⟩
  · unfold small at hi
    dsimp only at hi
    split at hi
    · rename_i hi3
      cases hi
      exact ⟨hi3.symm, hi3 ▸ by decide⟩
    · cases hi
  · rcases small_own h with ⟨-, -, rfl⟩ | ⟨-, -, rfl⟩
    · exact show (3 : Ino).toNat ∉ small.sfs.freemap.bits by decide
    · exact show (4 : Ino).toNat ∉ small.sfs.freemap.bits by decide
  · rcases small_own h with ⟨rfl, rfl, rfl⟩ | ⟨rfl, rfl, rfl⟩ <;>
      rcases small_own h' with ⟨rfl, rfl, hb⟩ | ⟨rfl, rfl, hb⟩
    · rfl
    · cases hb
    · cases hb
    · rfl
  · rcases small_own h with ⟨-, -, rfl⟩ | ⟨-, -, rfl⟩
    · exact show (3 : Ino).toNat < 8 by decide
    · exact show (4 : Ino).toNat < 8 by decide
  · rcases small_own (own_eq_some.mpr ⟨sin, hi, rfl, hne⟩) with ⟨-, rfl, -⟩ | ⟨rfl, rfl, -⟩
    · cases hp
    · cases hp
      cases hi
      decide

theorem small_accounted : small.Accounted := by
  intro b hall hused
  have hlt : b.toNat < 8 := hall.1.2
  have hge : ¬b.toNat < 3 := hall.2
  have hfree : ∀ n ∈ [5, 6, 7], b.toNat ≠ n := by
    intro n hn hb
    have hmem : ∀ m ∈ [5, 6, 7], m ∈ small.sfs.freemap.bits := by decide
    exact hused (Sfs.mem_free.mpr (hb ▸ hmem n hn))
  have h5 := hfree 5 (by decide)
  have h6 := hfree 6 (by decide)
  have h7 := hfree 7 (by decide)
  have hcases : b.toNat = 3 ∨ b.toNat = 4 := by omega
  rcases hcases with hb | hb
  · have heq : b = 3 := BitVec.eq_of_toNat_eq hb
    exact ⟨(3, .self), own_eq_some.mpr ⟨_, rfl, heq.symm, heq ▸ by decide⟩⟩
  · have heq : b = 4 := BitVec.eq_of_toNat_eq hb
    exact ⟨(3, .direct 0), own_eq_some.mpr ⟨_, rfl, heq.symm, heq ▸ by decide⟩⟩

/-- The file gets a second block, and block 5 is in use and referred to. -/
theorem blocks_owned_once_small :
    ∃ v', Relation.ReflTransGen Step small v' ∧ v'.sfs.unusedBlocks = 2 ∧
      v'.sfs.freemap.bits.card = 2 ∧
      ∃ i sin p, v'.inodes i = some sin ∧ v'.sfs.slot sin p = 5 := by
  have hstep : ∃ s sin, Step small (small.set 3 s (some sin)) ∧ s.unusedBlocks = 2 ∧
      s.InUse 5 ∧ s.blocks = 8 := by
    refine ⟨_, _, @Step.load small 3 _ _ 1 _ _ rfl rfl, rfl, ⟨⟨by decide, by decide⟩, ?_⟩, rfl⟩
    rw [Sfs.mem_free]
    decide
  obtain ⟨s, sin, hstep, hunused, huse, hblocks⟩ := hstep
  have hrun := Relation.ReflTransGen.single hstep
  obtain ⟨hcount, -, -, hall⟩ := blocks_owned_once small_wellFormed small_accounted hrun
  have hout : (5 : Ino) ∉ (small.set 3 s (some sin)).area := by
    show ¬(5 : Ino).toNat < 2 + (s.blocks + 32767) / 32768
    rw [hblocks]
    decide
  exact ⟨_, hrun, hunused, hcount.symm.trans hunused, hall (fun _ => rfl) 5 huse hout⟩

end Volume

end UcoreMips.Kernel
