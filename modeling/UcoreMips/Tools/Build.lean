import UcoreMips.Tools.Image

/-!
# UcoreMips.Tools.Build

**Building an image**: after `create_sfs`, inodes are made, blocks are added to them and entries to
directories, in any order (`Mksfs.Run`), and then the image is closed.

Whatever is done, the numbers of the blocks stay in order (`Mksfs.Run.laid`), so every image can be
mounted, and what is free on the volume are the blocks that were not given out
(`Mksfs.image_mounts`).
-/

namespace UcoreMips.Tools

open UcoreMips.Lib Nat
open UcoreMips.Kernel (Ino Block Device blkSize maxFnameLen)
open Emulator (Word)
open Function (update update_of_ne update_self)
open List

namespace Mksfs

variable {s t : Mksfs} {file i n cb m : Nat} {b inop : Ino} {ci : CacheInode} {cbp : Option Nat}
  {img : Ino → Block}

/-! ### What is in memory -/

/-- The numbers after `sfs_alloc_ino`. -/
def bump (s : Mksfs) : Mksfs :=
  { s with unusedBlocks := s.unusedBlocks - 1, nextIno := s.nextIno + 1 }

/-- With one more index block. -/
def putBlock (s : Mksfs) (b : Ino) : Mksfs :=
  { s with
    block := update s.block s.nblocks ⟨b, .zero⟩
    nblocks := s.nblocks + 1
    blockHash := update s.blockHash (hash32 0) (s.nblocks :: s.blockHash (hash32 0)) }

/-- With one more index block, in the list `k`. -/
def fileBlock (s : Mksfs) (b : Ino) (k : Nat) : Mksfs :=
  { s with
    block := update s.block s.nblocks ⟨b, .zero⟩
    nblocks := s.nblocks + 1
    blockHash := update s.blockHash k (s.nblocks :: s.blockHash k) }

/-- With one more inode. -/
def putInode (s : Mksfs) (real : BitVec 64) (b : Ino) (type : BitVec 16) : Mksfs :=
  { s with
    inode := update s.inode s.inodes ⟨⟨0, type, 0, 0, fun _ => 0, 0, 0⟩, real, b, 0, none, none⟩
    inodes := s.inodes + 1
    inodeHash := update s.inodeHash (hash64 real) (s.inodes :: s.inodeHash (hash64 real)) }

/-- The number that comes next. -/
def next (s : Mksfs) : Ino := BitVec.ofNat 32 s.nextIno

theorem allocIno_of (h : s.nextIno < s.ninos) : s.allocIno = .ok (s.next, s.bump) := if_pos h

theorem allocIno_full (h : ¬s.nextIno < s.ninos) : s.allocIno = .error .diskFull := if_neg h

theorem allocCacheBlock_of (h : s.nextIno < s.ninos) :
    s.allocCacheBlock 0 = .ok (s.nblocks, s.bump.putBlock s.next) := by
  rw [allocCacheBlock, inoOr, if_neg (not_not.mpr rfl), allocIno_of h]
  rfl

theorem allocCacheInode_of (h : s.nextIno < s.ninos) (real : BitVec 64) (type : BitVec 16) :
    s.allocCacheInode real 0 type = .ok (s.inodes, s.bump.putInode real s.next type) := by
  rw [allocCacheInode, inoOr, if_neg (not_not.mpr rfl), allocIno_of h]
  rfl

theorem allocCacheInode_ok {real : BitVec 64} {type : BitVec 16} {r : Nat × Mksfs}
    (hrun : s.allocCacheInode real 0 type = .ok r) :
    s.nextIno < s.ninos ∧ r = (s.inodes, s.bump.putInode real s.next type) := by
  by_cases hlt : s.nextIno < s.ninos
  · rw [allocCacheInode_of hlt] at hrun
    exact ⟨hlt, (Except.ok.inj hrun).symm⟩
  · rw [allocCacheInode, inoOr, if_neg (not_not.mpr rfl), allocIno_full hlt] at hrun
    cases hrun

theorem hash32_lt (val : Word) : hash32 val < hashListSize := by
  have hlt : ((val * 0x9e370001#32) >>> 22).toNat < 2 ^ 10 := by
    rw [BitVec.toNat_ushiftRight, shiftRight_eq_div_pow]
    have := (val * 0x9e370001#32).isLt
    omega
  exact hlt

theorem perm_range_succ (n : Nat) : (n :: range n).Perm (range (n + 1)) :=
  range_succ ▸ (perm_append_singleton _ _).symm

/-- One more at the head of one of the lists. -/
theorem perm_buckets (f : Nat → List Nat) (c : Nat) (hi : i < n) :
    ((range n).flatMap (update f i (c :: f i))).Perm (c :: (range n).flatMap f) := by
  induction n with
  | zero => cases hi
  | succ n ih =>
    rw [range_succ, flatMap_append, flatMap_append, flatMap_singleton, flatMap_singleton]
    by_cases hin : i = n
    · subst hin
      have hrest : (range i).flatMap (update f i (c :: f i)) =
          (range i).flatMap f := by
        refine flatMap_congr fun j hj => ?_
        rw [update_of_ne (Nat.ne_of_lt (mem_range.mp hj))]
      rw [hrest, update_self]
      exact perm_middle
    · rw [update_of_ne fun h => hin h.symm]
      exact (ih (by omega)).append_right _

theorem Laid.toNat_next (h : s.Laid) : s.next.toNat = s.nextIno := by
  have hhi := h.hi
  have hlt := h.ninos_lt
  unfold next
  exact mod_eq_of_lt (by omega)

theorem Laid.bump (h : s.Laid) (hlt : s.nextIno < s.ninos) : s.bump.Laid where
  __ := h
  lo := le_succ_of_le h.lo
  hi := hlt
  unused := by
    show s.unusedBlocks - 1 = BitVec.ofNat 32 (s.ninos - (s.nextIno + 1))
    rw [h.unused, show s.ninos - s.nextIno = s.ninos - (s.nextIno + 1) + 1 by omega,
      BitVec.ofNat_add]
    exact BitVec.add_sub_cancel _ _
  range b hb := (h.range b hb).imp_right fun hr => ⟨hr.1, lt_succ_of_lt hr.2⟩

/-- A new number is not used yet. -/
theorem Laid.next_fresh (h : s.Laid) : s.next ∉ s.numbers := by
  intro hmem
  have hfirst : 2 ≤ s.first := le_add_right 2 _
  have hlo := h.lo
  rcases h.range _ hmem with heq | ⟨-, hlt⟩
  · have hnat := h.toNat_next
    rw [heq] at hnat
    have : 1 = s.nextIno := hnat
    omega
  · rw [h.toNat_next] at hlt
    exact lt_irrefl _ hlt

/-- One more behind the last. -/
theorem map_range_update {α β : Type} (f : α → β) (g : Nat → α) (n : Nat) (x : α) :
    ((range (n + 1)).map fun i => f (update g n x i)) =
      ((range n).map fun i => f (g i)) ++ [f x] := by
  rw [range_succ, map_append, map_singleton, update_self]
  congr 1
  refine map_congr_left fun i hi => ?_
  rw [update_of_ne (Nat.ne_of_lt (mem_range.mp hi))]

theorem numbers_fileBlock (s : Mksfs) (b : Ino) (k : Nat) :
    (s.fileBlock b k).numbers.Perm (b :: s.numbers) := by
  unfold numbers fileBlock
  rw [map_range_update CacheBlock.ino, append_assoc]
  exact perm_middle

theorem numbers_putInode (s : Mksfs) (real : BitVec 64) (b : Ino) (type : BitVec 16) :
    (s.putInode real b type).numbers = s.numbers ++ [b] := by
  unfold numbers putInode
  rw [map_range_update CacheInode.ino, ← append_assoc]

theorem Laid.fileBlock {k : Nat} (h : s.Laid) (hfresh : b ∉ s.numbers)
    (hrange : s.first ≤ b.toNat ∧ b.toNat < s.nextIno) (hk : k < hashListSize) :
    (s.fileBlock b k).Laid where
  __ := h
  blockHash := by
    refine (perm_buckets s.blockHash s.nblocks hk).trans ?_
    exact (h.blockHash.cons _).trans (perm_range_succ _)
  nodup := (s.numbers_fileBlock b k).nodup_iff.mpr (nodup_cons.mpr ⟨hfresh, h.nodup⟩)
  range c hc := by
    rcases mem_cons.mp ((s.numbers_fileBlock b k).mem_iff.mp hc) with rfl | hc
    · exact .inr hrange
    · exact h.range c hc

theorem Laid.putInode (h : s.Laid) (hfresh : b ∉ s.numbers)
    (hrange : b = blknRoot ∨ s.first ≤ b.toNat ∧ b.toNat < s.nextIno) (real : BitVec 64) (type : BitVec 16) :
    (s.putInode real b type).Laid where
  __ := h
  inodeHash := by
    refine (perm_buckets s.inodeHash s.inodes (hash32_lt _)).trans ?_
    exact (h.inodeHash.cons _).trans (perm_range_succ _)
  nodup := by
    rw [numbers_putInode, (perm_append_singleton b s.numbers).nodup_iff]
    exact nodup_cons.mpr ⟨hfresh, h.nodup⟩
  range c hc := by
    rw [numbers_putInode] at hc
    rcases mem_append.mp hc with hc | hc
    · exact h.range c hc
    · rw [mem_singleton.mp hc]
      exact hrange

/-! ### The operations keep the numbers in order -/

theorem numbers_setInode (hino : ci.ino = (s.inode file).ino) :
    (s.setInode file ci).numbers = s.numbers := by
  have hsame : (fun i => ((s.setInode file ci).inode i).ino) = fun i => (s.inode i).ino := by
    funext i
    show (update s.inode file ci i).ino = _
    by_cases hi : i = file
    · rw [hi, update_self, hino]
    · rw [update_of_ne hi]
  unfold numbers
  rw [hsame]
  rfl

theorem ino_setWord (s : Mksfs) (cb k : Nat) (w : Word) (i : Nat) :
    ((s.setWord cb k w).block i).ino = (s.block i).ino := by
  show (update s.block cb _ i).ino = _
  by_cases hi : i = cb
  · rw [hi, update_self]
  · rw [update_of_ne hi]

theorem numbers_setWord (s : Mksfs) (cb k : Nat) (w : Word) :
    (s.setWord cb k w).numbers = s.numbers := by
  unfold numbers
  rw [show (fun i => ((s.setWord cb k w).block i).ino) = fun i => (s.block i).ino from
    funext (s.ino_setWord cb k w)]
  rfl

theorem inode_setInode_self (s : Mksfs) (file : Nat) (ci : CacheInode) :
    (s.setInode file ci).inode file = ci := update_self ..

theorem inode_setInode_of_ne (s : Mksfs) (hi : i ≠ file) (ci : CacheInode) :
    (s.setInode file ci).inode i = s.inode i := update_of_ne hi ..

theorem Laid.setInode (h : s.Laid) (hino : ci.ino = (s.inode file).ino) :
    (s.setInode file ci).Laid :=
  { h with
    nodup := numbers_setInode hino ▸ h.nodup
    range := numbers_setInode hino ▸ h.range }

theorem Laid.setWord (h : s.Laid) (cb k : Nat) (w : Word) : (s.setWord cb k w).Laid :=
  { h with
    nodup := numbers_setWord s cb k w ▸ h.nodup
    range := numbers_setWord s cb k w ▸ h.range }

theorem Laid.writeBlock {data : List (BitVec 8)} (h : s.Laid) (hrun : s.writeBlock data b = .ok t) :
    t.Laid := by
  unfold Mksfs.writeBlock at hrun
  split at hrun
  · cases hrun
  · cases hrun
    exact { h with }

/-- A new index block. -/
def newBlock (s : Mksfs) : Mksfs := s.bump.putBlock s.next

theorem Laid.newBlock (h : s.Laid) (hlt : s.nextIno < s.ninos) : s.newBlock.Laid := by
  refine (h.bump hlt).fileBlock h.next_fresh ?_ (hash32_lt 0)
  rw [h.toNat_next]
  exact ⟨h.lo, lt_succ_self _⟩

theorem Laid.newInode (h : s.Laid) (hlt : s.nextIno < s.ninos) (real : BitVec 64)
    (type : BitVec 16) : (s.bump.putInode real s.next type).Laid := by
  refine (h.bump hlt).putInode h.next_fresh (.inr ?_) real type
  rw [h.toNat_next]
  exact ⟨h.lo, lt_succ_self _⟩

/-- `update_cache` makes an index block, or finds one. -/
theorem updateCache_cases (hrun : s.updateCache cbp inop = .ok (cb, b, t)) :
    s.nextIno < s.ninos ∧ t = s.newBlock ∨ t = s := by
  unfold updateCache at hrun
  split at hrun
  · by_cases hlt : s.nextIno < s.ninos
    · rw [allocCacheBlock_of hlt] at hrun
      cases hrun
      exact .inl ⟨hlt, rfl⟩
    · rw [allocCacheBlock, inoOr, if_neg (not_not.mpr rfl), allocIno_full hlt] at hrun
      cases hrun
  · split at hrun
    · cases hrun
      exact .inr rfl
    · split at hrun
      · cases hrun
        exact .inr rfl
      · cases hrun

/-! ### What adding a block leaves alone -/

/-- At most `n` numbers were given out, in order, and the inodes have their numbers and types. -/
structure Kept (n : Nat) (s t : Mksfs) : Prop where
  laid : s.Laid → t.Laid
  inodes : t.inodes = s.inodes
  ninos : t.ninos = s.ninos
  img : t.img = s.img
  entryName : t.entryName = s.entryName
  le : s.nextIno ≤ t.nextIno
  most : t.nextIno ≤ s.nextIno + n
  ino : ∀ i, (t.inode i).ino = (s.inode i).ino
  type : ∀ i, (t.inode i).inode.type = (s.inode i).inode.type

theorem Kept.refl (n : Nat) (s : Mksfs) : Kept n s s :=
  ⟨id, rfl, rfl, rfl, rfl, le_rfl, le_add_right _ _, fun _ => rfl, fun _ => rfl⟩

theorem Kept.trans {u : Mksfs} (h : Kept m s t) (h' : Kept n t u) : Kept (m + n) s u where
  laid := h'.laid ∘ h.laid
  inodes := h'.inodes.trans h.inodes
  ninos := h'.ninos.trans h.ninos
  img := h'.img.trans h.img
  entryName := h'.entryName.trans h.entryName
  le := h.le.trans h'.le
  most := h'.most.trans (by have := h.most; omega)
  ino i := (h'.ino i).trans (h.ino i)
  type i := (h'.type i).trans (h.type i)

theorem Kept.mono (h : Kept m s t) (hmn : m ≤ n) : Kept n s t :=
  { h with most := h.most.trans (by omega) }

theorem Kept.setInode (hk : Kept n s t)
    (hino : ci.ino = (s.inode file).ino) (htype : ci.inode.type = (s.inode file).inode.type) :
    Kept n s (t.setInode file ci) := by
  refine { hk with
    laid := fun hl => (hk.laid hl).setInode (hino.trans (hk.ino file).symm)
    ino := fun i => ?_
    type := fun i => ?_ } <;> by_cases hi : i = file
  · rw [hi, inode_setInode_self, hino]
  · rw [inode_setInode_of_ne t hi, hk.ino]
  · rw [hi, inode_setInode_self, htype]
  · rw [inode_setInode_of_ne t hi, hk.type]

theorem Kept.setWord (hk : Kept n s t) (cb k : Nat) (w : Word) : Kept n s (t.setWord cb k w) :=
  { hk with laid := fun hl => (hk.laid hl).setWord cb k w }

/-- An index block is found, or it takes a number. -/
theorem updateCache_kept (hrun : s.updateCache cbp inop = .ok (cb, b, t)) : Kept 1 s t := by
  rcases updateCache_cases hrun with ⟨hlt, rfl⟩ | rfl
  · exact ⟨fun hl => hl.newBlock hlt, rfl, rfl, rfl, rfl, le_succ _, le_rfl, fun _ => rfl, fun _ => rfl⟩
  · exact .refl 1 t

theorem enterBlock_kept (hrun : s.enterBlock file b = .ok t) : Kept 2 s t := by
  unfold enterBlock at hrun
  dsimp only at hrun
  split at hrun
  · cases hrun
    exact (Kept.refl 2 s).setInode rfl rfl
  · split at hrun
    · obtain ⟨⟨l1, indirect, u⟩, hcache, hrest⟩ := bind_eq_ok.mp hrun
      have hu : Kept 2 s u := (updateCache_kept hcache).mono (by omega)
      cases hrest
      refine Kept.setWord (Kept.setInode hu ?_ ?_) _ _ _ <;> rfl
    · split at hrun
      · obtain ⟨⟨l2, dbIndirect, u⟩, hcache, hrest⟩ := bind_eq_ok.mp hrun
        obtain ⟨⟨l1, index, v⟩, hcache', hrest⟩ := bind_eq_ok.mp hrest
        have hv : Kept 2 s v := (updateCache_kept hcache).trans (updateCache_kept hcache')
        cases hrest
        refine Kept.setWord (Kept.setInode (hv.setWord _ _ _) ?_ ?_) _ _ _ <;> rfl
      · cases hrun
        exact .refl 2 s

theorem appendBlock_kept {size : Nat} (hrun : s.appendBlock file size b = .ok t) : Kept 2 s t := by
  unfold appendBlock at hrun
  split at hrun
  · cases hrun
  · split at hrun
    · cases hrun
    · obtain ⟨u, henter, hrest⟩ := bind_eq_ok.mp hrun
      cases hrest
      have hk := enterBlock_kept henter
      exact hk.setInode (hk.ino file) (hk.type file)

/-! ### Runs -/

/-- What the tool does between `create_sfs` and `close_sfs`. -/
inductive Op
  | allocIno
  | allocCacheInode (real : BitVec 64) (type : BitVec 16)
  | appendBlock (file size : Nat) (ino : Ino)
  | addData (file : Nat) (buffer : List (BitVec 8))
  | addEntry (current file : Nat) (name : List (BitVec 8))

/-- An operation on inodes that were made, and blocks that were given out. -/
def Op.Valid (s : Mksfs) : Op → Prop
  | .allocIno | .allocCacheInode _ _ => True
  | .appendBlock file _ ino => file < s.inodes ∧ s.first ≤ ino.toNat ∧ ino.toNat < s.nextIno
  | .addData file _ => file < s.inodes
  | .addEntry current file _ => current < s.inodes ∧ file < s.inodes

/-- The operation, with the number of the block it is about. -/
def Op.exec (s : Mksfs) : Op → Except Bug (Ino × Mksfs)
  | .allocIno => s.allocIno
  | .allocCacheInode real type => do
    let (ci, s) ← s.allocCacheInode real 0 type
    return ((s.inode ci).ino, s)
  | .appendBlock file size ino => do return (ino, ← s.appendBlock file size ino)
  | .addData file buffer => s.addData file buffer
  | .addEntry current file name => s.addEntry current file name

/-- The operations one after the other, with the blocks they are about. -/
inductive Run (s : Mksfs) : List (Op × Ino) → Mksfs → Prop
  | nil : Run s [] s
  | snoc {log : List (Op × Ino)} {t u : Mksfs} {op : Op} {b : Ino} :
      Run s log t → op.Valid t → op.exec t = .ok (b, u) → Run s (log ++ [(op, b)]) u

theorem Laid.allocIno (h : s.Laid) (hrun : s.allocIno = .ok (b, t)) :
    s.nextIno < s.ninos ∧ b = s.next ∧ t = s.bump ∧ t.Laid := by
  by_cases hlt : s.nextIno < s.ninos
  · rw [allocIno_of hlt] at hrun
    cases hrun
    exact ⟨hlt, rfl, rfl, h.bump hlt⟩
  · rw [allocIno_full hlt] at hrun
    cases hrun

theorem Laid.addData {buffer : List (BitVec 8)} (h : s.Laid) (hrun : s.addData file buffer = .ok (b, t)) :
    t.Laid := by
  obtain ⟨⟨b', u⟩, halloc, hrest⟩ := bind_eq_ok.mp hrun
  obtain ⟨v, hwrite, hrest⟩ := bind_eq_ok.mp hrest
  obtain ⟨w, happend, hrest⟩ := bind_eq_ok.mp hrest
  cases hrest
  exact (appendBlock_kept happend).laid ((h.allocIno halloc).2.2.2.writeBlock hwrite)

/-- The name in the static entry is not part of the image. -/
theorem Laid.setName (h : s.Laid) (name : Buffer (maxFnameLen + 1)) :
    ({ s with entryName := name } : Mksfs).Laid :=
  { h with }

theorem Laid.addEntry {current : Nat} {name : List (BitVec 8)} (h : s.Laid)
    (hrun : s.addEntry current file name = .ok (b, t)) : t.Laid := by
  unfold Mksfs.addEntry at hrun
  split at hrun
  · cases hrun
  · obtain ⟨⟨b', u⟩, halloc, hrest⟩ := bind_eq_ok.mp hrun
    obtain ⟨v, hwrite, hrest⟩ := bind_eq_ok.mp hrest
    obtain ⟨w, happend, hrest⟩ := bind_eq_ok.mp hrest
    cases hrest
    exact ((appendBlock_kept happend).laid
      (((h.setName _).allocIno halloc).2.2.2.writeBlock hwrite)).setInode rfl

theorem Laid.exec {op : Op} (h : s.Laid) (hrun : op.exec s = .ok (b, t)) : t.Laid := by
  cases op with
  | allocIno => exact (h.allocIno hrun).2.2.2
  | allocCacheInode real type =>
    obtain ⟨⟨ci, u⟩, halloc, hrest⟩ := bind_eq_ok.mp hrun
    cases hrest
    obtain ⟨hlt, heq⟩ := allocCacheInode_ok halloc
    cases heq
    exact h.newInode hlt real type
  | appendBlock file size ino =>
    obtain ⟨u, happend, hrest⟩ := bind_eq_ok.mp hrun
    cases hrest
    exact (appendBlock_kept happend).laid h
  | addData file buffer => exact h.addData hrun
  | addEntry current file name => exact h.addEntry hrun

theorem Run.laid {log : List (Op × Ino)} (hrun : Run s log t) (h : s.Laid) : t.Laid := by
  induction hrun with
  | nil => exact h
  | snoc _ _ hexec ih => exact ih.exec hexec

/-- The root is added to an image without inodes and index blocks. -/
theorem createSfs_laid {stSize : Nat} {info : Buffer 32} (h : createSfs stSize info img = .ok s) :
    s.Laid ∧ ∃ u : Mksfs, u.inodes = 0 ∧ u.nblocks = 0 ∧
      s = u.putInode 0 blknRoot Kernel.typeDir := by
  unfold createSfs at h
  dsimp only at h
  generalize hn : (if maxNblks < stSize / blkSize % 2 ^ 32 then maxNblks
    else stSize / blkSize % 2 ^ 32) = n at h
  have hmax : n ≤ maxNblks := by
    rw [← hn]
    split <;> omega
  split at h
  · cases h
  · rename_i hsmall
    obtain ⟨⟨ci, u⟩, hroot, hrest⟩ := bind_eq_ok.mp h
    cases hrest
    cases hroot
    have hnone : ((range hashListSize).flatMap fun _ => ([] : List Nat)) = [] :=
      flatMap_eq_nil_iff.mpr fun _ _ => rfl
    refine ⟨Laid.putInode ?_ not_mem_nil (.inl rfl) 0 Kernel.typeDir, _, rfl, rfl, rfl⟩
    exact ⟨hmax, le_rfl, Nat.le_of_not_le hsmall, rfl, rfl, List.Perm.of_eq hnone,
      List.Perm.of_eq hnone, nodup_nil, fun b hb => by cases hb⟩

/-! ### Mounting the image -/

theorem word_superBytes (s : Mksfs) {k : Nat} (hk : k < 3) :
    (Buffer.ofList s.superBytes : Block).word k = [magic, s.blocks, s.unusedBlocks][k] :=
  Buffer.word_ofList _ _ hk (show 4 * k + 4 ≤ 4096 by omega)

/-- A device that holds the image can be mounted, and the free blocks are those that were not
given out. -/
theorem Laid.mount (h : s.Laid) (hsuper : img blknSuper = .ofList s.superBytes)
    (hfree : ∀ k < s.freemapBlocks,
      img (BitVec.ofNat 32 (blknFreemap + k)) = s.freemapBlock (k * blkBits))
    {dev : Device} (hsize : dev.blocksize = blkSize) (hdev : s.ninos ≤ dev.blocks)
    (hdisk : ∀ b : Ino, b.toNat < s.ninos → dev.disk b = img b) (hio : ∀ k, dev.io k = true)
    {memory : Fin 5 → Bool} (hmem : ∀ i, memory i = true) :
    ∃ sfs, dev.doMount memory = .ok (.ok sfs) ∧ sfs.Sound ∧ sfs.blocks = s.ninos ∧
      sfs.disk = dev.disk ∧ sfs.Reliable ∧
      ∀ j, j ∈ sfs.freemap.bits ↔ s.nextIno ≤ j ∧ j < s.ninos := by
  have hlo := h.lo
  have hhi := h.hi
  have hmax : s.ninos ≤ 524288 := h.max
  have hfirst : s.first = 2 + (s.ninos + 32768 - 1) / 32768 := rfl
  have hnbits : Kernel.freemapBits s.ninos = (s.ninos + 32767) / 32768 * 32768 := by
    show (s.ninos + 32768 - 1) % 2 ^ 32 / 32768 * 32768 = _
    rw [mod_eq_of_lt (by omega)]
    rfl
  -- the superblock
  have hsuper' : dev.disk Kernel.blknSuper = .ofList s.superBytes :=
    (hdisk Kernel.blknSuper (show 0 < s.ninos by omega)).trans hsuper
  have hunused : ((dev.disk Kernel.blknSuper).word 2).toNat = s.ninos - s.nextIno := by
    rw [hsuper', word_superBytes s (by decide)]
    show s.unusedBlocks.toNat = _
    rw [h.unused, BitVec.toNat_ofNat, mod_eq_of_lt (by omega)]
  have hblocks : ((dev.disk Kernel.blknSuper).word 1).toNat = s.ninos := by
    rw [hsuper', word_superBytes s (by decide)]
    show s.blocks.toNat = _
    rw [h.blocks, BitVec.toNat_ofNat, mod_eq_of_lt (by omega)]
  have hmagic : (dev.disk Kernel.blknSuper).word 0 = Kernel.sfsMagic := by
    rw [hsuper', word_superBytes s (by decide)]
    rfl
  -- the freemap
  have hbit : ∀ j < Kernel.freemapBits s.ninos,
      dev.bit j = decide (s.nextIno ≤ j ∧ j < s.ninos) := by
    intro j hj
    have hk : j / 32768 < s.freemapBlocks := by
      show j / 32768 < (s.ninos + 32768 - 1) / 32768
      omega
    have hblock : dev.disk (Kernel.blknFreemap + BitVec.ofNat 32 (j / 32768)) =
        s.freemapBlock (j / 32768 * blkBits) := by
      have hino : Kernel.blknFreemap + BitVec.ofNat 32 (j / 32768) =
          BitVec.ofNat 32 (blknFreemap + j / 32768) := (BitVec.ofNat_add _ _).symm
      rw [hino, hdisk _ (by rw [h.toNat_freemap hk]; show 2 + _ < _; omega), hfree _ hk]
    have hlt : j / 32768 * blkBits < s.ninos := (s.mul_blkBits_lt _).mpr hk
    have hsum : j / 32768 * blkBits + j % 32768 = j := div_add_mod' j 32768
    have hbits := getLsbD_freemapBlock hlt (mod_lt j (show 0 < blkBits by decide))
    show ((dev.disk (Kernel.blknFreemap + BitVec.ofNat 32 (j / 32768))).word
      (j % 32768 / 32)).getLsbD (j % 32) = _
    rw [hblock, ← show j % 32768 % 32 = j % 32 by omega]
    rw [show j % blkBits = j % 32768 from rfl, hsum] at hbits
    exact hbits
  have hcount : ((Finset.range (Kernel.freemapBits s.ninos)).filter fun j => dev.bit j) =
      Finset.Ico s.nextIno s.ninos := by
    ext j
    rw [Finset.mem_filter, Finset.mem_range, Finset.mem_Ico]
    constructor
    · rintro ⟨hj, hset⟩
      rw [hbit j hj] at hset
      exact of_decide_eq_true hset
    · intro hj
      have hlt : j < Kernel.freemapBits s.ninos := by omega
      exact ⟨hlt, by rw [hbit j hlt]; exact decide_eq_true hj⟩
  obtain ⟨sfs, hmount, hb, hd, hr, hn, hw, hbits, hu⟩ := Device.doMount_spec hmem hio hsize
    (show 0 < s.ninos by omega) (by omega) hdev hmagic hblocks (by rw [hcount, card_Ico, hunused])
  have hmembits : ∀ j, j ∈ sfs.freemap.bits ↔ s.nextIno ≤ j ∧ j < s.ninos := by
    intro j
    rw [Kernel.Bitmap.mem_bits, hn, ← Finset.mem_Ico, ← hcount, Finset.mem_filter, Finset.mem_range]
    exact and_congr_right fun hj => by rw [hbits j hj]
  refine ⟨sfs, hmount, ⟨⟨by omega, fun i hi hi' => by omega⟩, by omega, by omega, fun j hj => ?_, hu⟩,
    hb, hd, hr, hmembits⟩
  have := (hmembits j).mp hj
  omega

/-- **Every image can be mounted, and its freemap is right.** For every size that `create_sfs`
accepts and whatever is added to the image, `close_sfs` ends, a device of at least that size that
holds the image is mounted by `sfs_do_mount`, a bit of its freemap is set just for the blocks from
`next_ino` to `ninos`, and `bitmap_alloc` returns no other block. -/
theorem image_mounts {stSize : Nat} {info : Buffer 32} {img₀ : Ino → Block} {s₀ : Mksfs}
    {log : List (Op × Ino)} (hcreate : createSfs stSize info img₀ = .ok s₀) (hrun : Run s₀ log s) :
    ∃ img, s.closeSfs = .ok { s with img := img } ∧
      ∀ (dev : Device) (memory : Fin 5 → Bool), dev.blocksize = blkSize → s.ninos ≤ dev.blocks →
        (∀ b : Ino, b.toNat < s.ninos → dev.disk b = img b) → (∀ k, dev.io k = true) →
        (∀ i, memory i = true) →
        ∃ sfs, dev.doMount memory = .ok (.ok sfs) ∧ sfs.blocks = s.ninos ∧
          sfs.unusedBlocks = s.ninos - s.nextIno ∧
          (∀ j, j ∈ sfs.freemap.bits ↔ s.nextIno ≤ j ∧ j < s.ninos) ∧
          ∀ map i map', Relation.ReflTransGen (Kernel.Bitmap.Use s.nextIno s.ninos) sfs.freemap map →
            map.alloc = .ok (some (i, map')) → s.nextIno ≤ i ∧ i < s.ninos := by
  have hlaid := hrun.laid (createSfs_laid hcreate).1
  obtain ⟨img, hclose, hsuper, hfree, -⟩ := hlaid.closeSfs
  refine ⟨img, hclose, fun dev memory hsize hdev hdisk hio hmem => ?_⟩
  obtain ⟨sfs, hmount, hsound, hblocks, -, -, hbits⟩ :=
    hlaid.mount hsuper hfree hsize hdev hdisk hio hmem
  have hcard : sfs.freemap.bits = Finset.Ico s.nextIno s.ninos := by
    ext j
    rw [hbits, Finset.mem_Ico]
  refine ⟨sfs, hmount, hblocks, by rw [hsound.unused, hcard, card_Ico], hbits,
    fun map i map' huse halloc => ?_⟩
  have hbetween : sfs.freemap.Between s.nextIno s.ninos := ⟨hsound.map, fun j hj => (hbits j).mp hj⟩
  exact ((hbetween.run huse).alloc halloc).1

/-- An image of eight blocks, of which one is given out. -/
theorem image_mounts_eight :
    ∃ s₀ s img, createSfs 32768 .zero (fun _ => .zero) = .ok s₀ ∧ Run s₀ [(.allocIno, 3)] s ∧
      s.closeSfs = .ok { s with img := img } ∧
      ∃ sfs, Device.doMount ⟨blkSize, 8, img, fun _ => true⟩ (fun _ => true) = .ok (.ok sfs) ∧
        sfs.unusedBlocks = 4 ∧ 3 ∉ sfs.freemap.bits ∧ 4 ∈ sfs.freemap.bits ∧
        8 ∉ sfs.freemap.bits := by
  have hstart : ∃ s₀, createSfs 32768 .zero (fun _ => .zero) = .ok s₀ ∧ s₀.ninos = 8 ∧
      s₀.nextIno = 3 := ⟨_, rfl, rfl, rfl⟩
  obtain ⟨s₀, hcreate, hninos, hnext⟩ := hstart
  have halloc : Op.allocIno.exec s₀ = .ok (3, s₀.bump) := by
    have hfirst : s₀.next = 3 := by rw [next, hnext]; rfl
    rw [← hfirst]
    exact allocIno_of (by omega)
  have hrun : Run s₀ [(.allocIno, 3)] s₀.bump := .snoc .nil trivial halloc
  obtain ⟨img, hclose, hmount⟩ := image_mounts hcreate hrun
  have hninos' : s₀.bump.ninos = 8 := hninos
  have hnext' : s₀.bump.nextIno = 4 := congrArg (· + 1) hnext
  rw [hninos', hnext'] at hmount
  obtain ⟨sfs, hok, -, hunused, hbits, -⟩ := hmount ⟨blkSize, 8, img, fun _ => true⟩ (fun _ => true)
    rfl le_rfl (fun _ _ => rfl) (fun _ => rfl) fun _ => rfl
  refine ⟨s₀, s₀.bump, img, hcreate, hrun, hclose, sfs, hok, hunused, ?_, ?_, ?_⟩ <;>
    rw [hbits] <;> decide

end Mksfs

end UcoreMips.Tools
