import UcoreMips.Tools.Build

/-!
# UcoreMips.Tools.BlockIndex

**The index of a file in the image.** The tool enters the blocks of a file in the direct blocks of
its inode, then in an indirect block, and behind those in the blocks of a double indirect block
(`Mksfs.Indexed`). The kernel has no double indirect blocks, so it finds the blocks of a file as
long as they fit into the first two (`Mksfs.block_maps_agree`).
-/

namespace UcoreMips.Tools

open UcoreMips.Lib Nat
open UcoreMips.Kernel (Ino Block Device nDirect blkNentry blkSize)
open Emulator (Word)
open Function (update update_of_ne update_self)
open List

/-- What an index block is for. -/
inductive Role
  | indirect
  | double
  | leaf
  deriving DecidableEq

namespace CacheInode

/-- The inode with a direct block, with an indirect block, and with a double indirect block. -/
def setDirect (ci : CacheInode) (k : Fin nDirect) (b : Ino) : CacheInode :=
  { ci with inode := { ci.inode with direct := update ci.inode.direct k b } }
def setIndirect (ci : CacheInode) (l1 : Nat) (b : Ino) : CacheInode :=
  { ci with inode := { ci.inode with indirect := b }, l1 := some l1 }
def setDouble (ci : CacheInode) (l2 : Nat) (b : Ino) (l1 : Nat) : CacheInode :=
  { ci with inode := { ci.inode with dbIndirect := b }, l1 := some l1, l2 := some l2 }

/-- The part of the inode that the index depends on. -/
def index (ci : CacheInode) : (Fin nDirect → Ino) × Ino × Ino × Option Nat × Option Nat :=
  (ci.inode.direct, ci.inode.indirect, ci.inode.dbIndirect, ci.l1, ci.l2)

end CacheInode

namespace Mksfs

variable {s t : Mksfs} {owner : Nat → Nat × Role} {file cb i k j : Nat} {h : List Ino} {b : Ino}

/-! ### Updates -/

theorem block_setWord_of_ne (s : Mksfs) (hi : i ≠ cb) (k : Nat) (w : Word) :
    (s.setWord cb k w).block i = s.block i := update_of_ne hi ..

theorem word_setWord_self (s : Mksfs) (cb : Nat) (hk : k < blkNentry) (w : Word) :
    ((s.setWord cb k w).block cb).cache.word k = w := by
  show (update s.block cb _ cb).cache.word k = w
  rw [update_self]
  exact Buffer.word_patch_self _ (Kernel.Sfs.entry_end hk) w

theorem word_setWord_of_ne (s : Mksfs) (cb : Nat) (hj : j ≠ k) (w : Word) :
    ((s.setWord cb k w).block cb).cache.word j = (s.block cb).cache.word j := by
  show (update s.block cb _ cb).cache.word j = _
  rw [update_self]
  exact Buffer.word_patch_of_ne _ hj w

theorem block_newBlock_self (s : Mksfs) : s.newBlock.block s.nblocks = ⟨s.next, .zero⟩ :=
  update_self ..

theorem block_newBlock_of_lt (s : Mksfs) (hi : i < s.nblocks) :
    s.newBlock.block i = s.block i := update_of_ne (Nat.ne_of_lt hi) ..

theorem updateCache_zero (hlt : s.nextIno < s.ninos) (cbp : Option Nat) :
    s.updateCache cbp 0 = .ok (s.nblocks, s.next, s.newBlock) := by
  rw [updateCache, if_pos rfl, allocCacheBlock_of hlt]
  show Except.ok (s.nblocks, (s.newBlock.block s.nblocks).ino, s.newBlock) = _
  rw [block_newBlock_self]

theorem updateCache_full (hfull : ¬s.nextIno < s.ninos) (cbp : Option Nat) :
    s.updateCache cbp 0 = .error .diskFull := by
  rw [updateCache, if_pos rfl, allocCacheBlock, inoOr, if_neg (not_not.mpr rfl), allocIno_full hfull]
  rfl

theorem updateCache_hit (hb : (s.block cb).ino = b) (hne : b ≠ 0) :
    s.updateCache (some cb) b = .ok (cb, b, s) := by
  rw [updateCache, if_neg hne, Option.filter_some, if_pos (decide_eq_true hb)]

theorem block_mem_numbers (s : Mksfs) (hcb : cb < s.nblocks) : (s.block cb).ino ∈ s.numbers :=
  mem_append_left _ (mem_map.mpr ⟨cb, mem_range.mpr hcb, rfl⟩)

theorem Laid.block_ne_zero (hl : s.Laid) (hcb : cb < s.nblocks) :
    (s.block cb).ino ≠ 0 := (hl.lt_of_mem_numbers (s.block_mem_numbers hcb)).2.1

/-! ### The index of a file -/

/-- The blocks `h` of a file are in its index. -/
structure Index (s : Mksfs) (owner : Nat → Nat × Role) (file : Nat) (h : List Ino) : Prop where
  direct : ∀ k : Fin nDirect, (s.inode file).inode.direct k = h.getD k 0
  noIndirect : h.length ≤ l0Nblks → (s.inode file).inode.indirect = 0
  noDouble : h.length ≤ l1Nblks → (s.inode file).inode.dbIndirect = 0
  indirect : l0Nblks < h.length → ∃ c < s.nblocks, owner c = (file, .indirect) ∧
    (s.block c).ino = (s.inode file).inode.indirect ∧
    (∀ j < blkNentry, (s.block c).cache.word j = h.getD (l0Nblks + j) 0) ∧
    (h.length ≤ l1Nblks → (s.inode file).l1 = some c)
  double : l1Nblks < h.length → ∃ d < s.nblocks, ∃ c < s.nblocks,
    owner d = (file, .double) ∧ owner c = (file, .leaf) ∧ (s.inode file).l2 = some d ∧
    (s.inode file).l1 = some c ∧ (s.block d).ino = (s.inode file).inode.dbIndirect ∧
    (s.block d).cache.word ((h.length - l1Nblks - 1) / blkNentry) = (s.block c).ino ∧
    ∀ q < blkNentry, (h.length - l1Nblks - 1) / blkNentry < q → (s.block d).cache.word q = 0

/-- The file has the blocks `h`. -/
structure Indexed (s : Mksfs) (owner : Nat → Nat × Role) (file : Nat) (h : List Ino) : Prop
    extends Index s owner file h where
  nblks : (s.inode file).nblks = h.length
  blocks : (s.inode file).inode.blocks = BitVec.ofNat 32 h.length
  bound : h.length ≤ lnNblks

/-- What an operation leaves of the inodes and of the index blocks of other files. -/
structure Aside (s : Mksfs) (owner : Nat → Nat × Role) (file : Nat) (t : Mksfs)
    (owner' : Nat → Nat × Role) : Prop where
  nblocks : s.nblocks ≤ t.nblocks
  kept : ∀ c < s.nblocks, owner' c = owner c
  inode : ∀ i < s.inodes, i ≠ file → t.inode i = s.inode i
  block : ∀ c < s.nblocks, (owner c).1 ≠ file → t.block c = s.block c

variable {owner' owner₁ owner₂ : Nat → Nat × Role} {u : Mksfs} {cbp : Option Nat} {n : Nat}

/-- The index depends on the inode and its index blocks. -/
theorem Index.congr (hx : Index s owner file h) (hindex : (t.inode file).index = (s.inode file).index)
    (hblock : ∀ c < s.nblocks, ∀ r, owner c = (file, r) →
      c < t.nblocks ∧ t.block c = s.block c ∧ owner' c = (file, r)) :
    Index t owner' file h := by
  simp only [CacheInode.index, Prod.mk.injEq] at hindex
  obtain ⟨hdirect, hindirect, hdouble, hl1, hl2⟩ := hindex
  refine ⟨?_, ?_, ?_, fun hlen => ?_, fun hlen => ?_⟩
  · rw [hdirect]; exact hx.direct
  · rw [hindirect]; exact hx.noIndirect
  · rw [hdouble]; exact hx.noDouble
  · obtain ⟨c, hc, howner, hino, hwords, hlast⟩ := hx.indirect hlen
    obtain ⟨hlt, hb, howner'⟩ := hblock c hc _ howner
    refine ⟨c, hlt, howner', ?_, ?_, ?_⟩
    · rw [hb, hindirect]; exact hino
    · rw [hb]; exact hwords
    · rw [hl1]; exact hlast
  · obtain ⟨d, hd, c, hc, hownd, hownc, hlast2, hlast1, hino, hword, hzero⟩ := hx.double hlen
    obtain ⟨hdlt, hbd, hownd'⟩ := hblock d hd _ hownd
    obtain ⟨hclt, hbc, hownc'⟩ := hblock c hc _ hownc
    refine ⟨d, hdlt, c, hclt, hownd', hownc', ?_, ?_, ?_, ?_, ?_⟩
    · rw [hl2]; exact hlast2
    · rw [hl1]; exact hlast1
    · rw [hbd, hdouble]; exact hino
    · rw [hbd, hbc]; exact hword
    · rw [hbd]; exact hzero

theorem Indexed.congr (hx : Indexed s owner file h) (hinode : t.inode file = s.inode file)
    (hblock : ∀ c < s.nblocks, ∀ r, owner c = (file, r) →
      c < t.nblocks ∧ t.block c = s.block c ∧ owner' c = (file, r)) :
    Indexed t owner' file h := by
  refine ⟨hx.toIndex.congr (by rw [hinode]) hblock, ?_, ?_, hx.bound⟩ <;> rw [hinode]
  · exact hx.nblks
  · exact hx.blocks

/-- The index of another file is as it was. -/
theorem Indexed.aside (hx : Indexed s owner i h) (ha : Aside s owner file t owner')
    (hi : i < s.inodes) (hne : i ≠ file) :
    Indexed t owner' i h :=
  hx.congr (ha.inode i hi hne) fun c hc r howner => ⟨hc.trans_le ha.nblocks,
    ha.block c hc (by rw [howner]; exact hne), (ha.kept c hc).trans howner⟩

/-- The index of a file after a change of something else. -/
theorem Indexed.same (hx : Indexed s owner file h) (hinode : t.inode file = s.inode file)
    (hblock : t.block = s.block) (hnb : t.nblocks = s.nblocks) : Indexed t owner file h :=
  hx.congr hinode fun c hc r howner => ⟨hnb ▸ hc, by rw [hblock], howner⟩

/-! ### The index blocks -/

/-- Index blocks were added, and nothing else was done. -/
structure Grown (s : Mksfs) (owner : Nat → Nat × Role) (t : Mksfs) (owner' : Nat → Nat × Role) :
    Prop where
  nblocks : s.nblocks ≤ t.nblocks
  inode : t.inode = s.inode
  kept : ∀ c < s.nblocks, owner' c = owner c
  block : ∀ c < s.nblocks, t.block c = s.block c

theorem Grown.refl (s : Mksfs) (owner : Nat → Nat × Role) : Grown s owner s owner :=
  ⟨le_rfl, rfl, fun _ _ => rfl, fun _ _ => rfl⟩

theorem Grown.trans (h : Grown s owner t owner₁)
    (h' : Grown t owner₁ u owner₂) : Grown s owner u owner₂ where
  nblocks := h.nblocks.trans h'.nblocks
  inode := h'.inode.trans h.inode
  kept c hc := (h'.kept c (hc.trans_le h.nblocks)).trans (h.kept c hc)
  block c hc := (h'.block c (hc.trans_le h.nblocks)).trans (h.block c hc)

/-- `update_cache` has found the index block of a file that was noted, or made one. -/
structure Found (s : Mksfs) (owner : Nat → Nat × Role) (file : Nat) (r : Role) (cbp : Option Nat)
    (inop : Ino) (cb : Nat) (ino : Ino) (t : Mksfs) (owner' : Nat → Nat × Role) : Prop
    extends Grown s owner t owner' where
  laid : t.Laid
  lt : cb < t.nblocks
  role : owner' cb = (file, r)
  ino : (t.block cb).ino = ino
  zero : inop = 0 → (t.block cb).cache = .zero
  hit : inop ≠ 0 → cbp = some cb

theorem updateCache_spec (hl : s.Laid) {r : Role} {inop : Ino} (hold : inop ≠ 0 →
      ∃ c < s.nblocks, cbp = some c ∧ owner c = (file, r) ∧ (s.block c).ino = inop) :
    Ensures (fun e => e = .diskFull ∧ s.ninos ≤ s.nextIno)
      (fun res => Kept 1 s res.2.2 ∧
        ∃ owner', Found s owner file r cbp inop res.1 res.2.1 res.2.2 owner')
      (s.updateCache cbp inop) := by
  by_cases hzero : inop = 0
  · subst hzero
    by_cases hlt : s.nextIno < s.ninos
    · have hnew := block_newBlock_self s
      have hgrown : Grown s owner s.newBlock (update owner s.nblocks (file, r)) :=
        ⟨Nat.le_succ _, rfl, fun _ hc => update_of_ne (Nat.ne_of_lt hc) ..,
          fun _ hc => block_newBlock_of_lt s hc⟩
      rw [updateCache_zero hlt]
      exact ⟨updateCache_kept (updateCache_zero hlt cbp), _, hgrown, hl.newBlock hlt,
        lt_succ_self _, update_self .., by rw [hnew], fun _ => by rw [hnew],
        fun h => absurd rfl h⟩
    · rw [updateCache_full hlt]
      exact ⟨rfl, not_lt.mp hlt⟩
  · obtain ⟨c, hc, rfl, howner, hino⟩ := hold hzero
    rw [updateCache_hit hino hzero]
    exact ⟨.refl 1 s, owner, .refl s owner, hl, hc, howner, hino, fun h => absurd h hzero,
      fun _ => rfl⟩

/-! ### One more block -/

theorem getD_append_of_ne (h : List Ino) (b : Ino) (hj : j ≠ h.length) :
    (h ++ [b]).getD j 0 = h.getD j 0 := by
  rcases lt_or_gt_of_ne hj with hlt | hgt
  · rw [getD_append _ _ _ _ hlt]
  · rw [getD_eq_default _ _ (by rw [length_append, length_singleton]; omega),
      getD_eq_default _ _ (by omega)]

theorem getD_append_length (h : List Ino) (b : Ino) : (h ++ [b]).getD h.length 0 = b := by
  rw [getD_append_right _ _ _ _ le_rfl, Nat.sub_self]
  rfl

/-- The double indirect block has enough entries. -/
theorem double_lt (hlen : n < lnNblks) : (n - l1Nblks) / blkNentry < blkNentry := by
  show (n - 1036) / 1024 < 1024
  have : n < 32768 := hlen
  omega

/-- A block was entered in the index of a file. -/
structure Entered (s : Mksfs) (owner : Nat → Nat × Role) (file : Nat) (h : List Ino) (b : Ino)
    (t : Mksfs) (owner' : Nat → Nat × Role) : Prop where
  aside : Aside s owner file t owner'
  index : Index t owner' file (h ++ [b])
  nblks : (t.inode file).nblks = (s.inode file).nblks
  blocks : (t.inode file).inode.blocks = (s.inode file).inode.blocks

section Enter

variable (hx : Index s owner file h) (hn : (s.inode file).nblks = h.length) {ino : Ino} {d : Nat}
  {v : Mksfs}

include hx hn

theorem Index.enter_direct (hlen : h.length < l0Nblks) (hlen' : (s.inode file).nblks < l0Nblks) :
    Entered s owner file h b (s.setInode file ((s.inode file).setDirect ⟨_, hlen'⟩ b)) owner := by
  have hsucc : (h ++ [b]).length = h.length + 1 := length_append
  have hl1 : l0Nblks ≤ l1Nblks := by decide
  have hself := inode_setInode_self s file ((s.inode file).setDirect ⟨_, hlen'⟩ b)
  refine ⟨⟨le_rfl, fun _ _ => rfl, fun i _ hi => inode_setInode_of_ne s hi _, fun _ _ _ => rfl⟩,
    ⟨fun k => ?_, fun _ => ?_, fun _ => ?_, fun hlt => ?_, fun hlt => ?_⟩, ?_, ?_⟩
  · rw [hself]
    show update (s.inode file).inode.direct ⟨_, hlen'⟩ b k = _
    by_cases hk : k = ⟨(s.inode file).nblks, hlen'⟩
    · have hval : k.val = h.length := (congrArg Fin.val hk).trans hn
      rw [hval, getD_append_length, hk, update_self]
    · have hne : k.val ≠ h.length := fun heq => hk (Fin.ext (heq.trans hn.symm))
      rw [update_of_ne hk, hx.direct k, getD_append_of_ne h b hne]
  · rw [hself]
    exact hx.noIndirect (le_of_lt hlen)
  · rw [hself]
    exact hx.noDouble (by omega)
  · omega
  · omega
  · rw [hself]
    rfl
  · rw [hself]
    rfl

/-- An entry of the indirect block. -/
theorem Index.enter_indirect (hl : s.Laid) (hge : l0Nblks ≤ h.length) (hlen : h.length < l1Nblks)
    (hf : Found s owner file .indirect (s.inode file).l1 (s.inode file).inode.indirect cb ino u
      owner') :
    Entered s owner file h b ((u.setInode file ((s.inode file).setIndirect cb ino)).setWord cb
      ((s.inode file).nblks - l0Nblks) b) owner' := by
  have hsucc : (h ++ [b]).length = h.length + 1 := length_append
  have hk : h.length - l0Nblks < blkNentry := by
    show h.length - 12 < 1024
    have : h.length < 1036 := hlen
    omega
  have hwords : ∀ j < blkNentry, (u.block cb).cache.word j = h.getD (l0Nblks + j) 0 := by
    intro j hj
    by_cases hmore : l0Nblks < h.length
    · obtain ⟨c, hc, -, hino, hwords, hlast⟩ := hx.indirect hmore
      have hhit := hf.hit (hino ▸ hl.block_ne_zero hc)
      rw [hlast hlen.le, Option.some_inj] at hhit
      rw [← hhit, hf.block c hc, hwords j hj]
    · rw [hf.zero (hx.noIndirect (not_lt.mp hmore)), Buffer.word_zero,
        getD_eq_default _ _ (by omega)]
  have hself : ((u.setInode file ((s.inode file).setIndirect cb ino)).setWord cb
      ((s.inode file).nblks - l0Nblks) b).inode file = (s.inode file).setIndirect cb ino :=
    inode_setInode_self u file _
  refine ⟨⟨hf.nblocks, hf.kept, fun i hi hne => ?_, fun c hc hne => ?_⟩, ⟨fun k => ?_, fun hle => ?_,
    fun _ => ?_, fun _ => ?_, fun hlt => ?_⟩, ?_, ?_⟩
  · exact (inode_setInode_of_ne u hne _).trans (congrFun hf.inode i)
  · have hcne : c ≠ cb := fun heq => hne (by rw [← hf.kept c hc, heq, hf.role])
    exact (block_setWord_of_ne _ hcne _ _).trans (hf.block c hc)
  · have hne : k.val ≠ h.length := Nat.ne_of_lt (Nat.lt_of_lt_of_le k.isLt hge)
    rw [getD_append_of_ne h b hne, ← hx.direct k, hself]
    rfl
  · omega
  · rw [hself]
    exact hx.noDouble hlen.le
  · refine ⟨cb, hf.lt, hf.role, ?_, fun j hj => ?_, fun _ => ?_⟩
    · rw [ino_setWord, hself]
      exact hf.ino
    · by_cases hjk : j = h.length - l0Nblks
      · rw [hjk, hn, word_setWord_self _ _ hk, Nat.add_sub_cancel' hge, getD_append_length]
      · rw [hn, word_setWord_of_ne _ _ hjk, getD_append_of_ne h b (by omega)]
        exact hwords j hj
    · rw [hself]
      rfl
  · omega
  · rw [hself]
    rfl
  · rw [hself]
    rfl

omit hn in
/-- The block that the next entry goes into is noted, or the double indirect block has none for it;
it has none behind it. -/
theorem Index.leaf (hlen : h.length < lnNblks)
    (hf : Found s owner file .double (s.inode file).l2 (s.inode file).inode.dbIndirect d ino u
      owner') :
    ((u.block d).cache.word ((h.length - l1Nblks) / blkNentry) ≠ 0 →
      ∃ c < u.nblocks, (s.inode file).l1 = some c ∧ owner' c = (file, .leaf) ∧
        (u.block c).ino = (u.block d).cache.word ((h.length - l1Nblks) / blkNentry)) ∧
    ∀ q < blkNentry, (h.length - l1Nblks) / blkNentry < q → (u.block d).cache.word q = 0 := by
  by_cases hnone : (s.inode file).inode.dbIndirect = 0
  · have hwords : ∀ q, (u.block d).cache.word q = 0 := fun q => by
      rw [hf.zero hnone, Buffer.word_zero]
    exact ⟨fun hne => absurd (hwords _) hne, fun q _ _ => hwords q⟩
  · obtain ⟨d', hd, c, hc, -, hownc, hlast2, hlast1, -, hword, hzero⟩ :=
      hx.double (not_le.mp (mt hx.noDouble hnone))
    have hhit := hf.hit hnone
    rw [hlast2, Option.some_inj] at hhit
    subst hhit
    have hle : (h.length - l1Nblks - 1) / blkNentry ≤ (h.length - l1Nblks) / blkNentry :=
      Nat.div_le_div_right (Nat.sub_le _ _)
    rw [hf.block d' hd]
    refine ⟨fun hne => ?_, fun q hq hlt => hzero q hq (hle.trans_lt hlt)⟩
    have hsame : (h.length - l1Nblks - 1) / blkNentry = (h.length - l1Nblks) / blkNentry := by
      by_contra hother
      exact hne (hzero _ (double_lt hlen) (lt_of_le_of_ne hle hother))
    refine ⟨c, hc.trans_le hf.nblocks, hlast1, (hf.kept c hc).trans hownc, ?_⟩
    rw [hf.block c hc, ← hword, hsame]

/-- An entry of a block of the double indirect block. -/
theorem Index.enter_double {c : Nat}
    {ino ino' w : Ino} (hge : l1Nblks ≤ h.length) (hlen : h.length < lnNblks)
    (hd : Found s owner file .double (s.inode file).l2 (s.inode file).inode.dbIndirect d ino u owner₁)
    (hc : Found u owner₁ file .leaf cbp w c ino' v owner₂) :
    Entered s owner file h b (((v.setWord d (((s.inode file).nblks - l1Nblks) / blkNentry)
      ino').setInode file ((s.inode file).setDouble d ino c)).setWord c
        (((s.inode file).nblks - l1Nblks) % blkNentry) b) owner₂ := by
  have hsucc : (h ++ [b]).length = h.length + 1 := length_append
  have hl0 : l0Nblks < l1Nblks := by decide
  have hq : (h.length - l1Nblks) / blkNentry < blkNentry := double_lt hlen
  have hzero := (hx.leaf hlen hd).2
  have hgrown := hd.toGrown.trans hc.toGrown
  have hdlt : d < v.nblocks := hd.lt.trans_le hc.nblocks
  have hownd : owner₂ d = (file, .double) := (hc.kept d hd.lt).trans hd.role
  have hcd : d ≠ c := fun heq => by
    rw [heq, hc.role] at hownd
    cases hownd
  rw [hn]
  generalize hq' : (h.length - l1Nblks) / blkNentry = q at *
  generalize (h.length - l1Nblks) % blkNentry = r at *
  -- the state behind it: inode, the two blocks, all others
  generalize ht : ((v.setWord d q ino').setInode file
    ((s.inode file).setDouble d ino c)).setWord c r b = t
  have hself : t.inode file = (s.inode file).setDouble d ino c := by
    rw [← ht]
    exact inode_setInode_self (v.setWord d q ino') file _
  have hblocks : ∀ i < s.nblocks, owner i ≠ (file, .double) → owner i ≠ (file, .leaf) →
      t.block i = s.block i := by
    intro i hi hi2 hi1
    rw [← hgrown.kept i hi] at hi2 hi1
    have hic : i ≠ c := fun heq => hi1 (heq ▸ hc.role)
    have hid : i ≠ d := fun heq => hi2 (heq ▸ hownd)
    rw [← ht, block_setWord_of_ne _ hic, ← hgrown.block i hi]
    exact block_setWord_of_ne v hid _ _
  have hblockd : t.block d = (v.setWord d q ino').block d := by
    rw [← ht, block_setWord_of_ne _ hcd]
    rfl
  have hino : ∀ i, (t.block i).ino = (v.block i).ino := fun i => by
    rw [← ht, ino_setWord]
    exact ino_setWord v d q ino' i
  have hnbt : t.nblocks = v.nblocks := by
    rw [← ht]
    rfl
  refine ⟨⟨hnbt ▸ hgrown.nblocks, hgrown.kept, fun i hi hif => ?_, fun i hi hif => ?_⟩, ⟨fun k => ?_,
    fun hle => ?_, fun hle => ?_, fun _ => ?_, fun _ => ?_⟩, ?_, ?_⟩
  · rw [← ht, ← hgrown.inode]
    exact inode_setInode_of_ne (v.setWord d q ino') hif _
  · exact hblocks i hi (fun heq => hif (by rw [heq])) fun heq => hif (by rw [heq])
  · have hkne : k.val ≠ h.length := Nat.ne_of_lt (Nat.lt_of_lt_of_le k.isLt (hl0.le.trans hge))
    rw [getD_append_of_ne h b hkne, ← hx.direct k, hself]
    rfl
  · omega
  · omega
  · obtain ⟨i, hi, howner, hi', hwords, -⟩ := hx.indirect (by omega)
    have hsame := hblocks i hi (by rw [howner]; rintro ⟨⟩) (by rw [howner]; rintro ⟨⟩)
    refine ⟨i, by have := hgrown.nblocks; omega, (hgrown.kept i hi).trans howner, ?_, fun j hj => ?_,
      fun hle => by omega⟩
    · rw [hsame, hself]
      exact hi'
    · have hjne : l0Nblks + j ≠ h.length := by
        have : j < 1024 := hj
        have : 1036 ≤ h.length := hge
        show 12 + j ≠ h.length
        omega
      rw [hsame, getD_append_of_ne h b hjne]
      exact hwords j hj
  · have hlast : (h ++ [b]).length - l1Nblks - 1 = h.length - l1Nblks := by omega
    rw [hlast, hq', hself]
    refine ⟨d, hnbt ▸ hdlt, c, hnbt ▸ hc.lt, hownd, hc.role, rfl, rfl, ?_, ?_, fun j hj hlt => ?_⟩
    · rw [hino, hc.block d hd.lt]
      exact hd.ino
    · rw [hino, hblockd, word_setWord_self _ _ hq, hc.ino]
    · rw [hblockd, word_setWord_of_ne _ _ (ne_of_gt hlt), hc.block d hd.lt]
      exact hzero j hj hlt
  · rw [hself]
    rfl
  · rw [hself]
    rfl

/-- The block is entered, or there is no space for an index block. -/
theorem enterBlock_spec (hl : s.Laid) (hlen : h.length < lnNblks) (b : Ino) :
    Ensures (fun e => e = .diskFull ∧ s.ninos < s.nextIno + 2)
      (fun t => ∃ owner', Entered s owner file h b t owner') (s.enterBlock file b) := by
  have hl2 : (s.inode file).nblks < l2Nblks := by
    rw [hn]
    exact hlen.trans (by decide)
  unfold enterBlock
  by_cases hlt0 : (s.inode file).nblks < l0Nblks
  · rw [dif_pos hlt0]
    exact ⟨owner, hx.enter_direct hn (hn ▸ hlt0) hlt0⟩
  rw [dif_neg hlt0]
  by_cases hlt1 : (s.inode file).nblks < l1Nblks
  · rw [if_pos hlt1]
    have hnoted : (s.inode file).inode.indirect ≠ 0 → ∃ c < s.nblocks, (s.inode file).l1 = some c ∧
        owner c = (file, .indirect) ∧ (s.block c).ino = (s.inode file).inode.indirect := by
      intro hne
      obtain ⟨c, hc, howner, hino, -, hlast⟩ := hx.indirect (not_le.mp (mt hx.noIndirect hne))
      exact ⟨c, hc, hlast (by omega), howner, hino⟩
    refine Ensures.bind ((updateCache_spec hl hnoted).mono (fun e he => ⟨he.1, by omega⟩)
      fun _ => id) fun ⟨cb, ino, u⟩ ⟨_, owner', hf⟩ => ?_
    exact ⟨owner', hx.enter_indirect hn hl (by omega) (by omega) hf⟩
  · rw [if_neg hlt1, if_pos hl2]
    have hnoted : (s.inode file).inode.dbIndirect ≠ 0 → ∃ c < s.nblocks, (s.inode file).l2 = some c ∧
        owner c = (file, .double) ∧ (s.block c).ino = (s.inode file).inode.dbIndirect := by
      intro hne
      obtain ⟨d, hd, -, -, hownd, -, hlast, -, hino, -⟩ :=
        hx.double (not_le.mp (mt hx.noDouble hne))
      exact ⟨d, hd, hlast, hownd, hino⟩
    refine Ensures.bind ((updateCache_spec hl hnoted).mono (fun e he => ⟨he.1, by omega⟩)
      fun _ => id) fun ⟨d, ino, u⟩ ⟨hk, owner₁, hd⟩ => ?_
    have hleaf := (hx.leaf hlen hd).1
    rw [← hn] at hleaf
    refine Ensures.bind ((updateCache_spec hd.laid hleaf).mono (fun e he => ⟨he.1, ?_⟩)
      fun _ => id) fun ⟨c, ino', v⟩ ⟨_, owner₂, hc⟩ => ?_
    · have hninos : u.ninos = s.ninos := hk.ninos
      have hmost : u.nextIno ≤ s.nextIno + 1 := hk.most
      have hfull : u.ninos ≤ u.nextIno := he.2
      omega
    · exact ⟨owner₂, hx.enter_double hn (by omega) hlen hd hc⟩

end Enter

variable {size : Nat}

/-- `append_block` adds a block to the file, or there is no space for its index or no place
in it. -/
theorem appendBlock_spec (hl : s.Laid) (hx : Indexed s owner file h)
    (hsize : size ≤ blkSize) (b : Ino) :
    Ensures (fun e => e = .diskFull ∧ s.ninos < s.nextIno + 2 ∨ e = .fileTooBig ∧ lnNblks ≤ h.length)
      (fun t => ∃ owner', Aside s owner file t owner' ∧ Indexed t owner' file (h ++ [b]))
      (s.appendBlock file size b) := by
  unfold appendBlock
  rw [if_neg (not_not.mpr hsize), hx.nblks]
  by_cases hlen : h.length < lnNblks
  · rw [if_neg (not_le.mpr hlen)]
    refine Ensures.bind ((enterBlock_spec hx.toIndex hx.nblks hl hlen b).mono (fun e he => .inl he)
      fun t ht => ht) fun t ht => ?_
    obtain ⟨owner', ht⟩ := ht
    have hsucc : (h ++ [b]).length = h.length + 1 := length_append
    refine ⟨owner', ⟨ht.aside.nblocks, ht.aside.kept, fun i hi hne => ?_, ht.aside.block⟩,
      ⟨ht.index.congr ?_ fun c hc r howner => ⟨hc, rfl, howner⟩, ?_, ?_, ?_⟩⟩
    · exact (inode_setInode_of_ne t hne _).trans (ht.aside.inode i hi hne)
    · rw [inode_setInode_self]
      rfl
    · rw [inode_setInode_self, hsucc]
      exact congrArg (· + 1) (ht.nblks.trans hx.nblks)
    · rw [inode_setInode_self, hsucc, BitVec.ofNat_add, ← hx.blocks, ← ht.blocks]
      rfl
    · omega
  · rw [if_pos (not_lt.mp hlen)]
    exact .inr ⟨rfl, not_lt.mp hlen⟩

/-! ### Runs -/

/-- The blocks an operation adds to a file. -/
def Op.appended (i : Nat) : Op × Ino → List Ino
  | (.appendBlock file _ _, b) | (.addData file _, b) | (.addEntry file _ _, b) =>
    if file = i then [b] else []
  | (.allocIno, _) | (.allocCacheInode _ _, _) => []

/-- The blocks that were added to a file. -/
def appends (i : Nat) (log : List (Op × Ino)) : List Ino := log.flatMap (Op.appended i)

theorem appends_snoc (i : Nat) (log : List (Op × Ino)) (e : Op × Ino) :
    appends i (log ++ [e]) = appends i log ++ Op.appended i e := by
  rw [appends, flatMap_append, flatMap_singleton]
  rfl

/-- Each inode has the blocks that were added to it, which had been given out. -/
structure Files (s : Mksfs) (owner : Nat → Nat × Role) (hist : Nat → List Ino) : Prop where
  indexed : ∀ i < s.inodes, Indexed s owner i (hist i)
  later : ∀ i, s.inodes ≤ i → hist i = []
  given : ∀ i, ∀ b ∈ hist i, s.first ≤ b.toNat ∧ b.toNat < s.nextIno

variable {hist : Nat → List Ino} {data : List (BitVec 8)} {log : List (Op × Ino)}

theorem Files.same (hf : Files s owner hist) (hinode : t.inode = s.inode)
    (hinodes : t.inodes = s.inodes) (hblock : t.block = s.block) (hnb : t.nblocks = s.nblocks)
    (hninos : t.ninos = s.ninos) (hnext : s.nextIno ≤ t.nextIno) : Files t owner hist where
  indexed i hi := (hf.indexed i (hinodes ▸ hi)).same (by rw [hinode]) hblock hnb
  later i hi := hf.later i (hinodes ▸ hi)
  given i b hb := by
    have hfirst : t.first = s.first := by rw [first, first, freemapBlocks, freemapBlocks, hninos]
    rw [hfirst]
    exact (hf.given i b hb).imp_right fun hlt => hlt.trans_le hnext

/-- One more inode, without blocks. -/
theorem Files.putInode (hf : Files s owner hist) (real : BitVec 64) (type : BitVec 16) :
    Files (s.putInode real b type) owner hist where
  indexed i hi := by
    have hi' : i < s.inodes + 1 := hi
    by_cases hnew : i = s.inodes
    · subst hnew
      have hinode : (s.putInode real b type).inode s.inodes =
          ⟨⟨0, type, 0, 0, fun _ => 0, 0, 0⟩, real, b, 0, none, none⟩ := update_self ..
      rw [hf.later _ le_rfl]
      refine ⟨⟨fun k => ?_, fun _ => ?_, fun _ => ?_, fun hlt => ?_, fun hlt => ?_⟩, ?_, ?_, ?_⟩
      · rw [hinode]
        rfl
      · rw [hinode]
      · rw [hinode]
      · cases hlt
      · cases hlt
      · rw [hinode]
        rfl
      · rw [hinode]
        rfl
      · exact zero_le _
    · exact (hf.indexed i (by omega)).same (update_of_ne hnew ..) rfl rfl
  later i hi := hf.later i (le_of_succ_le hi)
  given := hf.given

/-- One more link, which is not part of the index. -/
theorem Files.setLinks (hf : Files s owner hist) (file : Nat) (nlinks : BitVec 16) :
    Files (s.setInode file { s.inode file with
      inode := { (s.inode file).inode with nlinks := nlinks } }) owner hist where
  __ := hf
  indexed i hi := by
    have hx := hf.indexed i hi
    by_cases hif : i = file
    · subst hif
      refine ⟨hx.toIndex.congr ?_ fun c hc r howner => ⟨hc, rfl, howner⟩, ?_, ?_, hx.bound⟩ <;>
        rw [inode_setInode_self]
      · rfl
      · exact hx.nblks
      · exact hx.blocks
    · exact hx.same (inode_setInode_of_ne s hif _) rfl rfl

/-- One more block of one file. -/
theorem Files.append (hl : s.Laid) (hf : Files s owner hist) (hfile : file < s.inodes)
    (hb : s.first ≤ b.toNat ∧ b.toNat < s.nextIno) (hrun : s.appendBlock file size b = .ok t) :
    ∃ owner', Files t owner' (fun i => hist i ++ if file = i then [b] else []) := by
  have hsize : size ≤ blkSize := by
    by_contra hbig
    rw [appendBlock, if_pos hbig] at hrun
    cases hrun
  have hk := appendBlock_kept hrun
  have hino := hk.inodes
  have hfirst : t.first = s.first := by rw [first, first, freemapBlocks, freemapBlocks, hk.ninos]
  obtain ⟨owner', ha, hx⟩ := (appendBlock_spec hl (hf.indexed file hfile) hsize b).of_ok hrun
  refine ⟨owner', fun i hi => ?_, fun i hi => ?_, fun i c hc => ?_⟩
  · by_cases hif : file = i
    · subst hif
      rw [if_pos rfl]
      exact hx
    · rw [if_neg hif, append_nil]
      exact (hf.indexed i (hino ▸ hi)).aside ha (hino ▸ hi) (Ne.symm hif)
  · rw [if_neg (by omega), append_nil]
    exact hf.later i (hino ▸ hi)
  · have hgiven : s.first ≤ c.toNat ∧ c.toNat < s.nextIno := by
      rcases mem_append.mp hc with hc | hc
      · exact hf.given i c hc
      · split at hc
        · rw [mem_singleton.mp hc]
          exact hb
        · cases hc
    rw [hfirst]
    exact hgiven.imp_right fun hlt => hlt.trans_le hk.le

theorem writeBlock_ok (hrun : s.writeBlock data b = .ok t) :
    t = { s with img := update s.img b (.ofList data) } := by
  unfold writeBlock at hrun
  split at hrun
  · cases hrun
  · cases hrun
    rfl

/-- A new block is written and added to a file. -/
theorem Files.newAppend (hl : s.Laid)
    (hf : Files s owner hist) (hfile : file < s.inodes) (halloc : s.allocIno = .ok (b, t))
    (hwrite : t.writeBlock data b = .ok u) (happend : u.appendBlock file size b = .ok v) :
    ∃ owner', Files v owner' (fun i => hist i ++ if file = i then [b] else []) := by
  obtain ⟨-, rfl, rfl, hbump⟩ := hl.allocIno halloc
  have hu := hbump.writeBlock hwrite
  obtain rfl := writeBlock_ok hwrite
  have hf' : Files { s.bump with img := update s.bump.img s.next (.ofList data) } owner
      hist := hf.same rfl rfl rfl rfl rfl (le_succ _)
  refine hf'.append hu hfile ?_ happend
  rw [hl.toNat_next]
  exact ⟨hl.lo, lt_succ_self _⟩

/-- Every operation adds to the files the blocks it is said to add. -/
theorem Files.exec {op : Op} (hl : s.Laid) (hf : Files s owner hist) (hvalid : op.Valid s)
    (hrun : op.exec s = .ok (b, t)) :
    ∃ owner', Files t owner' (fun i => hist i ++ Op.appended i (op, b)) := by
  cases op with
  | allocIno =>
    obtain ⟨-, -, rfl, -⟩ := hl.allocIno hrun
    refine ⟨owner, ?_⟩
    simp only [Op.appended, append_nil]
    exact hf.same rfl rfl rfl rfl rfl (le_succ _)
  | allocCacheInode real type =>
    obtain ⟨⟨ci, u⟩, halloc, hrest⟩ := bind_eq_ok.mp hrun
    cases hrest
    refine ⟨owner, ?_⟩
    simp only [Op.appended, append_nil]
    obtain ⟨-, heq⟩ := allocCacheInode_ok halloc
    cases heq
    have hbump : Files s.bump owner hist := hf.same rfl rfl rfl rfl rfl (le_succ _)
    exact hbump.putInode real type
  | appendBlock file size ino =>
    obtain ⟨u, happend, hrest⟩ := bind_eq_ok.mp hrun
    cases hrest
    exact hf.append hl hvalid.1 hvalid.2 happend
  | addData file buffer =>
    obtain ⟨⟨b', u⟩, halloc, hrest⟩ := bind_eq_ok.mp hrun
    obtain ⟨v, hwrite, hrest⟩ := bind_eq_ok.mp hrest
    obtain ⟨w, happend, hrest⟩ := bind_eq_ok.mp hrest
    cases hrest
    exact hf.newAppend hl hvalid halloc hwrite happend
  | addEntry current file name =>
    have hrun' : s.addEntry current file name = .ok (b, t) := hrun
    unfold Mksfs.addEntry at hrun'
    split at hrun'
    · cases hrun'
    · obtain ⟨⟨b', u⟩, halloc, hrest⟩ := bind_eq_ok.mp hrun'
      obtain ⟨v, hwrite, hrest⟩ := bind_eq_ok.mp hrest
      obtain ⟨w, happend, hrest⟩ := bind_eq_ok.mp hrest
      cases hrest
      have hnamed : Files { s with entryName := s.entryName.patch 0 (name ++ [0]) } owner hist :=
        hf.same rfl rfl rfl rfl rfl le_rfl
      obtain ⟨owner', hw⟩ := hnamed.newAppend (hl.setName _) hvalid.1 halloc hwrite happend
      exact ⟨owner', hw.setLinks file _⟩

theorem createSfs_files {stSize : Nat} {info : Buffer 32} {img : Ino → Block}
    (h : createSfs stSize info img = .ok s) (owner : Nat → Nat × Role) :
    Files s owner fun _ => [] := by
  obtain ⟨-, u, hinodes, -, rfl⟩ := createSfs_laid h
  refine Files.putInode ⟨fun i hi => ?_, fun _ _ => rfl, fun _ b hb => ?_⟩ 0 Kernel.typeDir
  · omega
  · cases hb

/-- In every run, each file has the blocks that were added to it. -/
theorem Run.files (hrun : Run s log t) (hl : s.Laid)
    (hf : Files s owner fun _ => []) : ∃ owner', Files t owner' fun i => appends i log := by
  induction hrun with
  | nil => exact ⟨owner, hf⟩
  | snoc hrun hvalid hexec ih =>
    obtain ⟨owner₁, hf₁⟩ := ih
    simp only [appends_snoc]
    exact hf₁.exec (hrun.laid hl) hvalid hexec

/-! ### What the kernel finds -/

theorem word_inode (inode : Inode) (hk : k < inode.words.length) :
    (Buffer.ofList (inode.words.flatMap wordBytes) : Block).word k = inode.words[k] := by
  have hle : 4 * k + 4 ≤ 4096 := by
    have : inode.words.length = 17 := by simp [Inode.words]
    omega
  have h := Buffer.word_ofList (n := blkSize) inode.words [] hk hle
  rwa [append_nil] at h

/-- The inode that the kernel reads from the block of an inode. -/
theorem ofBlock_inode (inode : Inode) :
    let din := Kernel.DiskInode.ofBlock (.ofList (inode.words.flatMap wordBytes))
    din.blocks = inode.blocks ∧ (∀ k, din.direct k = inode.direct k) ∧
      din.indirect = inode.indirect := by
  have hlen : inode.words.length = 17 := by simp [Inode.words]
  refine ⟨word_inode inode (k := 2) (by omega), fun k => ?_, word_inode inode (k := 15) (by omega)⟩
  have hk : (k : Nat) < 12 := k.isLt
  refine (word_inode inode (k := 3 + k) (by omega)).trans ?_
  have hsplit : inode.words = [inode.size, inode.nlinks ++ inode.type, inode.blocks] ++
      (List.ofFn inode.direct ++ [inode.indirect, inode.dbIndirect]) := append_assoc ..
  simp only [hsplit]
  have hthree : [inode.size, inode.nlinks ++ inode.type, inode.blocks].length ≤ 3 + k :=
    le_add_right 3 _
  have hin : 3 + k - [inode.size, inode.nlinks ++ inode.type, inode.blocks].length <
      (List.ofFn inode.direct).length := by
    exact (Nat.add_sub_cancel_left 3 k).symm ▸ k.isLt
  rw [getElem_append_right hthree, getElem_append_left hin, List.getElem_ofFn]
  exact congrArg inode.direct (Fin.ext (Nat.add_sub_cancel_left 3 k))

/-- The kernel's view of the file system that the tool has closed. -/
structure Mounted (s : Mksfs) (sfs : Kernel.Sfs) : Prop where
  sound : sfs.Sound
  blocks : sfs.blocks = s.ninos
  reliable : sfs.Reliable
  bits : ∀ j, j ∈ sfs.freemap.bits ↔ s.nextIno ≤ j ∧ j < s.ninos
  block : ∀ cb < s.nblocks, sfs.disk (s.block cb).ino = (s.block cb).cache
  inode : ∀ ci < s.inodes,
    sfs.disk (s.inode ci).ino = .ofList ((s.inode ci).inode.words.flatMap wordBytes)
  rest : ∀ b : Ino, s.first ≤ b.toNat → b.toNat < s.ninos → b ∉ s.numbers → sfs.disk b = s.img b

/-- A device that holds the closed image is mounted. -/
theorem Laid.mounted (hl : s.Laid) : ∃ img, s.closeSfs = .ok { s with img := img } ∧
    ∀ (dev : Device) (memory : Fin 5 → Bool), dev.blocksize = blkSize → s.ninos ≤ dev.blocks →
      (∀ b : Ino, b.toNat < s.ninos → dev.disk b = img b) → (∀ k, dev.io k = true) →
      (∀ i, memory i = true) → ∃ sfs, dev.doMount memory = .ok (.ok sfs) ∧ Mounted s sfs := by
  obtain ⟨img, hclose, hsuper, hfree, hblock, hinode, hrest⟩ := hl.closeSfs
  refine ⟨img, hclose, fun dev memory hsize hdev hdisk hio hmem => ?_⟩
  obtain ⟨sfs, hmount, hsound, hblocks, hsame, hrel, hbits⟩ :=
    hl.mount hsuper hfree hsize hdev hdisk hio hmem
  refine ⟨sfs, hmount, hsound, hblocks, hrel, hbits, fun cb hcb => ?_, fun ci hci => ?_,
    fun b hlo hhi hnot => ?_⟩
  · rw [hsame, hdisk _ (hl.lt_of_mem_numbers (s.block_mem_numbers hcb)).1, hblock cb hcb]
  · have hmem : (s.inode ci).ino ∈ s.numbers :=
      mem_append_right _ (mem_map.mpr ⟨ci, mem_range.mpr hci, rfl⟩)
    rw [hsame, hdisk _ (hl.lt_of_mem_numbers hmem).1, hinode ci hci]
  · rw [hsame, hdisk b hhi, hrest b hlo hnot]

theorem ne_zero_of_first_le (hlo : s.first ≤ b.toNat) : b ≠ 0 := by
  rintro rfl
  have : 2 + s.freemapBlocks ≤ 0 := hlo
  omega

/-- The inode counts the blocks. -/
theorem Mounted.blocks_eq {sfs : Kernel.Sfs} (hm : Mounted s sfs) (hx : Indexed s owner file h)
    (hfile : file < s.inodes) : (sfs.inodeAt (s.inode file).ino).din.blocks.toNat = h.length := by
  obtain ⟨hblocks, -⟩ := ofBlock_inode (s.inode file).inode
  rw [← hm.inode file hfile, hx.blocks] at hblocks
  show (Kernel.DiskInode.ofBlock _).blocks.toNat = _
  rw [hblocks, BitVec.toNat_ofNat]
  exact mod_eq_of_lt (hx.bound.trans_lt (by decide))

section Mounted

variable {sfs : Kernel.Sfs} (hl : s.Laid) (hm : Mounted s sfs)

include hl hm

/-- What was given out is in use. -/
theorem Mounted.inUse (hne : b ≠ 0) (hhi : b.toNat < s.nextIno) : sfs.InUse b := by
  have hle := hl.hi
  refine ⟨⟨hne, by rw [hm.blocks]; omega⟩, ?_⟩
  rw [Kernel.Sfs.mem_free, hm.bits]
  omega

/-- The index blocks are in use. -/
theorem Mounted.inUse_block (hcb : cb < s.nblocks) : sfs.InUse (s.block cb).ino := by
  refine hm.inUse hl (hl.block_ne_zero hcb) ?_
  rcases hl.range _ (s.block_mem_numbers hcb) with heq | ⟨-, hhi⟩
  · rw [heq]
    exact (show 1 < s.first from le_add_right 2 _).trans_le hl.lo
  · exact hhi

section Indexed

variable (hx : Indexed s owner file h) (hfile : file < s.inodes)

include hx hfile

/-- The kernel's map of a file is the list of the blocks that were added to it, as far as it goes. -/
theorem Mounted.mapped (hi : i < nDirect + blkNentry) :
    sfs.mapped (sfs.inodeAt (s.inode file).ino) i = h.getD i 0 := by
  obtain ⟨-, hdirect, hindirect⟩ := ofBlock_inode (s.inode file).inode
  rw [← hm.inode file hfile] at hdirect hindirect
  unfold Kernel.Sfs.mapped
  by_cases hdir : i < nDirect
  · rw [dif_pos hdir]
    exact (hdirect _).trans (hx.direct _)
  · rw [dif_neg hdir]
    show sfs.entry (Kernel.DiskInode.ofBlock _).indirect _ = _
    rw [hindirect]
    have hj : i - nDirect < blkNentry := by omega
    have hsum : l0Nblks + (i - nDirect) = i := Nat.add_sub_cancel' (not_lt.mp hdir)
    by_cases hlen : l0Nblks < h.length
    · obtain ⟨c, hc, -, hino, hwords, -⟩ := hx.indirect hlen
      rw [← hino, Kernel.Sfs.entry_of_ne (hl.block_ne_zero hc), hm.block c hc, hwords _ hj, hsum]
    · rw [hx.noIndirect (not_lt.mp hlen), Kernel.Sfs.entry_zero, getD_eq_default _ _ (by omega)]

/-- The indirect block of a file is in use. -/
theorem Mounted.indirect_inUse (hne : (sfs.inodeAt (s.inode file).ino).din.indirect ≠ 0) :
    sfs.InUse (sfs.inodeAt (s.inode file).ino).din.indirect := by
  obtain ⟨-, -, hindirect⟩ := ofBlock_inode (s.inode file).inode
  rw [← hm.inode file hfile] at hindirect
  have heq : (sfs.inodeAt (s.inode file).ino).din.indirect = (s.inode file).inode.indirect := hindirect
  rw [heq] at hne ⊢
  have hlen : l0Nblks < h.length := by
    by_contra hle
    exact hne (hx.noIndirect (not_lt.mp hle))
  obtain ⟨c, hc, -, hino, -⟩ := hx.indirect hlen
  rw [← hino]
  exact hm.inUse_block hl hc

/-- `sfs_bmap_get_nolock` finds the blocks of a file, as far as it looks. -/
theorem Mounted.bmapGet (hgiven : ∀ b ∈ h, s.first ≤ b.toNat ∧ b.toNat < s.nextIno) (hi : i < h.length)
    (hfit : i < nDirect + blkNentry) :
    ∃ t, sfs.bmapGet (sfs.inodeAt (s.inode file).ino) i false =
      .ok (.ok h[i], t, sfs.inodeAt (s.inode file).ino) ∧ Kernel.Sfs.Same sfs t := by
  have hmapped := hm.mapped hl hx hfile hfit
  rw [getD_eq_getElem _ _ hi] at hmapped
  obtain ⟨hlo, hhi⟩ := hgiven _ (getElem_mem hi)
  have huse : sfs.InUse h[i] := hm.inUse hl (ne_zero_of_first_le hlo) hhi
  obtain ⟨ret, t, sin', hrun, hgot⟩ := Kernel.Sfs.bmapGet_spec hm.sound
    (fun hne => hm.indirect_inUse hl hx hfile hne) (fun _ => hmapped ▸ huse) hfit false
  rw [hrun]
  cases hgot with
  | found hsame _ => exact ⟨t, by rw [hmapped], hsame⟩
  | direct _ hcreate | entry _ _ hcreate | both _ _ hcreate => cases hcreate
  | failed _ hfail => cases (hfail hm.reliable).1

end Indexed

end Mounted

/-- **The tool and the kernel agree on the blocks of files of up to 12 + 1024 blocks, and on no
others.** However the image was built, `close_sfs` ends and the image can be mounted. For each of
its files the inode has as many blocks as were added, and `sfs_bmap_get_nolock` finds each of them
just when the file has no double indirect block. -/
theorem block_maps_agree {stSize : Nat} {info : Buffer 32} {img₀ : Ino → Block} {s₀ : Mksfs}
    {log : List (Op × Ino)} (hcreate : createSfs stSize info img₀ = .ok s₀) (hrun : Run s₀ log s) :
    ∃ img, s.closeSfs = .ok { s with img := img } ∧
      ∀ (dev : Device) (memory : Fin 5 → Bool), dev.blocksize = blkSize → s.ninos ≤ dev.blocks →
        (∀ b : Ino, b.toNat < s.ninos → dev.disk b = img b) → (∀ k, dev.io k = true) →
        (∀ i, memory i = true) → ∃ sfs, dev.doMount memory = .ok (.ok sfs) ∧
          ∀ file < s.inodes, (appends file log).length ≤ lnNblks ∧
            (((sfs.inodeAt (s.inode file).ino).din.blocks.toNat = (appends file log).length ∧
              ∀ i, (hi : i < (appends file log).length) → ∃ t,
                sfs.bmapGet (sfs.inodeAt (s.inode file).ino) i false =
                  .ok (.ok (appends file log)[i], t, sfs.inodeAt (s.inode file).ino)) ↔
            (appends file log).length ≤ nDirect + blkNentry) := by
  have hl := hrun.laid (createSfs_laid hcreate).1
  obtain ⟨owner, hf⟩ := hrun.files (createSfs_laid hcreate).1
    (createSfs_files hcreate fun _ => (0, .indirect))
  obtain ⟨img, hclose, hmount⟩ := hl.mounted
  refine ⟨img, hclose, fun dev memory hsize hdev hdisk hio hmem => ?_⟩
  obtain ⟨sfs, hok, hm⟩ := hmount dev memory hsize hdev hdisk hio hmem
  refine ⟨sfs, hok, fun file hfile => ?_⟩
  have hx := hf.indexed file hfile
  refine ⟨hx.bound, fun ⟨_, hall⟩ => ?_, fun hfit => ⟨?_, fun i hi => ?_⟩⟩
  · -- the index behind the last entry of the indirect block is out of range
    by_contra hlong
    obtain ⟨t, hget⟩ := hall (nDirect + blkNentry) (not_le.mp hlong)
    cases hget
  · exact hm.blocks_eq hx hfile
  · obtain ⟨t, hget, -⟩ := hm.bmapGet hl hx hfile (hf.given file) hi (hi.trans_le hfit)
    exact ⟨t, hget⟩

/-! ### Long files -/

/-- With space for three blocks, `open_file` adds a block to a file that is not too long. -/
theorem addData_ok (hl : s.Laid) (hx : Indexed s owner file h) (hlen : h.length < lnNblks)
    (hspace : s.nextIno + 3 ≤ s.ninos) {buffer : List (BitVec 8)} (hbuf : buffer.length ≤ blkSize) :
    ∃ b t, s.addData file buffer = .ok (b, t) ∧ t.inodes = s.inodes ∧ t.ninos = s.ninos ∧
      t.nextIno ≤ s.nextIno + 3 := by
  have hlt : s.nextIno < s.ninos := by omega
  have hwrite : s.bump.writeBlock buffer s.next =
      .ok { s.bump with img := update s.img s.next (.ofList buffer) } := by
    refine if_neg (not_not.mpr ⟨hbuf, ?_⟩)
    rw [hl.toNat_next]
    exact hlt
  have hu := (hl.bump hlt).writeBlock hwrite
  have hxu : Indexed { s.bump with img := update s.img s.next (.ofList buffer) } owner file
      h := hx.same rfl rfl rfl
  obtain ⟨t, happend, -⟩ := (appendBlock_spec hu hxu hbuf s.next).exists_ok fun e he => by
    rcases he with ⟨-, hfull⟩ | ⟨-, hlong⟩
    · have : s.ninos < s.nextIno + 1 + 2 := hfull
      omega
    · omega
  have hk := appendBlock_kept happend
  refine ⟨s.next, t, ?_, hk.inodes, hk.ninos, ?_⟩
  · simp only [addData, allocIno_of hlt, ok_bind, hwrite, happend]
    rfl
  · have : t.nextIno ≤ s.nextIno + 1 + 2 := hk.most
    omega

/-- A file can be given `n` more blocks when there is space. -/
theorem Run.grow {s₀ : Mksfs} (hrun : Run s₀ log s) (hl : s₀.Laid)
    (hf : Files s₀ owner fun _ => []) (hfile : file < s.inodes)
    (hlen : (appends file log).length + n ≤ lnNblks) (hspace : s.nextIno + 3 * n ≤ s.ninos) :
    ∃ log' t, Run s₀ log' t ∧ (appends file log').length = (appends file log).length + n ∧
      t.inodes = s.inodes ∧ t.ninos = s.ninos ∧ t.nextIno ≤ s.nextIno + 3 * n := by
  induction n with
  | zero => exact ⟨log, s, hrun, rfl, rfl, rfl, le_rfl⟩
  | succ n ih =>
    obtain ⟨log', t, hrun', hcount, hinodes, hninos, hnext⟩ := ih (by omega) (by omega)
    obtain ⟨owner', hft⟩ := hrun'.files hl hf
    have hfile' : file < t.inodes := hinodes ▸ hfile
    obtain ⟨b, u, hadd, hi, hn, hx⟩ := addData_ok (hrun'.laid hl) (hft.indexed file hfile')
      (by omega) (by omega) (show ([] : List (BitVec 8)).length ≤ blkSize from zero_le _)
    have hvalid : Op.Valid t (.addData file []) := hfile'
    have hexec : Op.exec t (.addData file []) = .ok (b, u) := hadd
    refine ⟨log' ++ [(.addData file [], b)], u, hrun'.snoc hvalid hexec, ?_, hi.trans hinodes,
      hn.trans hninos, by omega⟩
    rw [appends_snoc, length_append, hcount]
    show _ + (if file = file then [b] else []).length = _
    rw [if_pos rfl]
    rfl

/-- On an image of 16 MiB with a file of 1037 blocks, the kernel panics when it looks for the last
of them. -/
theorem block_1036_panics :
    ∃ s₀ log s img sfs, createSfs 16777216 .zero (fun _ => .zero) = .ok s₀ ∧ Run s₀ log s ∧
      (appends 1 log).length = 1037 ∧ s.closeSfs = .ok { s with img := img } ∧
      Device.doMount ⟨blkSize, 4096, img, fun _ => true⟩ (fun _ => true) = .ok (.ok sfs) ∧
      (sfs.inodeAt (s.inode 1).ino).din.blocks.toNat = 1037 ∧
      sfs.bmapGet (sfs.inodeAt (s.inode 1).ino) 1036 false = .error .assertion := by
  have hstart : ∃ s₀, createSfs 16777216 .zero (fun _ => .zero) = .ok s₀ ∧ s₀.ninos = 4096 ∧
      s₀.nextIno = 3 ∧ s₀.inodes = 1 := ⟨_, rfl, rfl, rfl, rfl⟩
  obtain ⟨s₀, hcreate, hninos, hnext, hinodes⟩ := hstart
  have hl₀ := (createSfs_laid hcreate).1
  have hf₀ := createSfs_files hcreate fun _ => (0, .indirect)
  -- a file, and then its blocks
  obtain ⟨s₁, hnew, hinodes₁, hnext₁, hninos₁⟩ :
      ∃ s₁, Op.exec s₀ (.allocCacheInode 1 Kernel.typeFile) = .ok (s₀.next, s₁) ∧ s₁.inodes = 2 ∧
        s₁.nextIno = 4 ∧ s₁.ninos = 4096 := by
    refine ⟨s₀.bump.putInode 1 s₀.next Kernel.typeFile, ?_, congrArg (· + 1) hinodes,
      congrArg (· + 1) hnext, hninos⟩
    simp only [Op.exec, allocCacheInode_of (show s₀.nextIno < s₀.ninos by omega), ok_bind]
    show Except.ok ((update s₀.inode s₀.inodes _ s₀.inodes).ino, _) = _
    rw [update_self]
  have hvalid : Op.Valid s₀ (.allocCacheInode 1 Kernel.typeFile) := trivial
  have hfile := Run.nil.snoc hvalid hnew
  have hnone : (appends 1 ([] ++ [(.allocCacheInode 1 Kernel.typeFile, s₀.next)])).length = 0 := rfl
  obtain ⟨log, s, hrun, hcount, hinodes₂, hninos₂, -⟩ := hfile.grow hl₀ hf₀
    (show 1 < s₁.inodes by omega) (n := 1037) (by rw [hnone]; decide) (by omega)
  rw [hnone] at hcount
  have hl := hrun.laid hl₀
  obtain ⟨owner, hf⟩ := hrun.files hl₀ hf₀
  have hlt : 1 < s.inodes := by omega
  obtain ⟨img, hclose, hmount⟩ := hl.mounted
  obtain ⟨sfs, hok, hm⟩ := hmount ⟨blkSize, 4096, img, fun _ => true⟩ (fun _ => true) rfl
    (by rw [hninos₂, hninos₁]) (fun _ _ => rfl) (fun _ => rfl) fun _ => rfl
  refine ⟨s₀, log, s, img, sfs, hcreate, hrun, hcount, hclose, hok, ?_,
    Kernel.Sfs.bmapGet_panic (by decide) false⟩
  rw [hm.blocks_eq (hf.indexed 1 hlt) hlt, hcount]

/-- In an image of eight blocks, the block of the root directory is found. -/
theorem block_maps_agree_eight :
    ∃ s₀ s img sfs t, createSfs 32768 .zero (fun _ => .zero) = .ok s₀ ∧
      Run s₀ [(.addData 0 [7], 3)] s ∧ s.closeSfs = .ok { s with img := img } ∧
      Device.doMount ⟨blkSize, 8, img, fun _ => true⟩ (fun _ => true) = .ok (.ok sfs) ∧
      (sfs.inodeAt (s.inode 0).ino).din.blocks.toNat = 1 ∧
      sfs.bmapGet (sfs.inodeAt (s.inode 0).ino) 0 false =
        .ok (.ok 3, t, sfs.inodeAt (s.inode 0).ino) := by
  have hstart : ∃ s₀, createSfs 32768 .zero (fun _ => .zero) = .ok s₀ ∧ s₀.ninos = 8 ∧
      s₀.nextIno = 3 ∧ s₀.inodes = 1 := ⟨_, rfl, rfl, rfl, rfl⟩
  obtain ⟨s₀, hcreate, hninos, hnext, hinodes⟩ := hstart
  have hl₀ := (createSfs_laid hcreate).1
  have hf₀ := createSfs_files hcreate fun _ => (0, .indirect)
  obtain ⟨b, s, hadd, hinodes', hninos', -⟩ := addData_ok hl₀ (hf₀.indexed 0 (by omega))
    (by decide) (by omega) (show [7].length ≤ blkSize by decide)
  have hb : b = 3 := by
    obtain ⟨⟨b', u⟩, halloc, hrest⟩ := bind_eq_ok.mp hadd
    obtain ⟨v, -, hrest⟩ := bind_eq_ok.mp hrest
    obtain ⟨w, -, hrest⟩ := bind_eq_ok.mp hrest
    cases hrest
    rw [(hl₀.allocIno halloc).2.1, next, hnext]
    rfl
  subst hb
  have hvalid : Op.Valid s₀ (.addData 0 [7]) := show 0 < s₀.inodes by omega
  have hexec : Op.exec s₀ (.addData 0 [7]) = .ok (3, s) := hadd
  have hrun := Run.nil.snoc hvalid hexec
  obtain ⟨img, hclose, hmount⟩ := block_maps_agree hcreate hrun
  obtain ⟨sfs, hok, hfiles⟩ := hmount ⟨blkSize, 8, img, fun _ => true⟩ (fun _ => true) rfl
    (by rw [hninos', hninos]) (fun _ _ => rfl) (fun _ => rfl) fun _ => rfl
  obtain ⟨hblocks, hget⟩ := (hfiles 0 (by omega)).2.mpr (by decide)
  obtain ⟨t, ht⟩ := hget 0 (by decide)
  exact ⟨s₀, s, img, sfs, t, hcreate, hrun, hclose, hok, hblocks, ht⟩

end Mksfs

end UcoreMips.Tools
