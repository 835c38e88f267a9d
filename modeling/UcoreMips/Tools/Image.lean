import UcoreMips.Kernel.Fs.Mount
import UcoreMips.Tools.Mksfs

/-!
# UcoreMips.Tools.Image

**What `close_sfs` writes.** The blocks of the freemap, the superblock, the index blocks and the
inodes all go to different blocks (`Mksfs.Laid`), so that each of them is in the image
(`Mksfs.Laid.closeSfs`).
-/

namespace UcoreMips.Tools

open UcoreMips.Lib
open UcoreMips.Kernel (Ino Block blkSize)
open Emulator (Word)
open List

namespace Mksfs

variable {s t : Mksfs}

/-! ### Writes -/

/-- Blocks written one after the other. -/
def writeAll (s : Mksfs) (ws : List (Ino × List (BitVec 8))) : Except Bug Mksfs :=
  ws.foldlM (fun s w => s.writeBlock w.2 w.1) s

/-- The image after the writes. -/
def imgAfter (ws : List (Ino × List (BitVec 8))) (img : Ino → Block) : Ino → Block :=
  ws.foldl (fun img w => Function.update img w.1 (.ofList w.2)) img

theorem writeAll_append (ws ws' : List (Ino × List (BitVec 8))) :
    s.writeAll (ws ++ ws') = s.writeAll ws >>= fun t => t.writeAll ws' := foldlM_append

variable {ws : List (Ino × List (BitVec 8))} {b : Ino} {u : Mksfs} {k : Nat}

theorem writeAll_ok (h : ∀ w ∈ ws, w.2.length ≤ blkSize ∧ w.1.toNat < s.ninos) :
    s.writeAll ws = .ok { s with img := imgAfter ws s.img } := by
  induction ws generalizing s with
  | nil => rfl
  | cons w ws ih =>
    have hw := h w (mem_cons_self ..)
    have hstep : s.writeBlock w.2 w.1 =
        .ok { s with img := Function.update s.img w.1 (.ofList w.2) } := if_neg (not_not.mpr hw)
    rw [writeAll, foldlM_cons, hstep]
    exact ih fun w' hw' => h w' (mem_cons_of_mem _ hw')

theorem imgAfter_of_notMem (hb : b ∉ ws.map Prod.fst) (img : Ino → Block) :
    imgAfter ws img b = img b := by
  induction ws generalizing img with
  | nil => rfl
  | cons w ws ih =>
    rw [map_cons, mem_cons, not_or] at hb
    exact (ih hb.2 _).trans (Function.update_of_ne hb.1 _ _)

theorem imgAfter_of_mem (hnodup : (ws.map Prod.fst).Nodup) {w : Ino × List (BitVec 8)} (hw : w ∈ ws)
    (img : Ino → Block) :
    imgAfter ws img w.1 = .ofList w.2 := by
  induction ws generalizing img with
  | nil => cases hw
  | cons w' ws ih =>
    rw [map_cons, nodup_cons] at hnodup
    rcases mem_cons.mp hw with rfl | hw
    · exact (imgAfter_of_notMem hnodup.1 _).trans (Function.update_self _ _ _)
    · exact ih hnodup.2 hw _

/-! ### `close_sfs` as writes -/

/-- How many blocks the freemap has. -/
def freemapBlocks (s : Mksfs) : Nat := (s.ninos + blkBits - 1) / blkBits

/-- The write of an index block, of an inode and of a block of the freemap. -/
def blockWrite (s : Mksfs) (cb : Nat) : Ino × List (BitVec 8) :=
  ((s.block cb).ino, (s.block cb).cache.slice 0 blkSize)
def inodeWrite (s : Mksfs) (ci : Nat) : Ino × List (BitVec 8) :=
  ((s.inode ci).ino, (s.inode ci).inode.words.flatMap wordBytes)
def freemapWrite (s : Mksfs) (k : Nat) : Ino × List (BitVec 8) :=
  (BitVec.ofNat 32 (blknFreemap + k), (s.freemapBlock (k * blkBits)).slice 0 blkSize)

/-- The writes of one hash list after the other. -/
def cacheWrites (s : Mksfs) : List (Ino × List (BitVec 8)) :=
  (List.range hashListSize).flatMap fun i =>
    (s.blockHash i).map s.blockWrite ++ (s.inodeHash i).map s.inodeWrite

/-- All that `close_sfs` writes. -/
def writes (s : Mksfs) : List (Ino × List (BitVec 8)) :=
  (List.range s.freemapBlocks).map s.freemapWrite ++ ((blknSuper, s.superBytes) :: s.cacheWrites)

/-- Only the image is different. -/
def Imaged (s t : Mksfs) : Prop := ∃ img, t = { s with img := img }

theorem Imaged.writeBlock {data : List (BitVec 8)} (h : Imaged s t)
    (hrun : t.writeBlock data b = .ok u) : Imaged s u := by
  obtain ⟨img, rfl⟩ := h
  unfold Mksfs.writeBlock at hrun
  split at hrun
  · cases hrun
  · cases hrun
    exact ⟨_, rfl⟩

theorem Imaged.writeAll (h : Imaged s t) (hrun : t.writeAll ws = .ok u) : Imaged s u := by
  induction ws generalizing t with
  | nil =>
    cases hrun
    exact h
  | cons w ws ih =>
    obtain ⟨v, hstep, hrest⟩ := bind_eq_ok.mp hrun
    exact ih (h.writeBlock hstep) hrest

/-- A loop whose turns write blocks. -/
theorem foldlM_eq_writeAll {A : Type} {f : Mksfs → A → Except Bug Mksfs}
    {ws : A → List (Ino × List (BitVec 8))} (hf : ∀ t a, Imaged s t → f t a = t.writeAll (ws a))
    (l : List A) (ht : Imaged s t) : l.foldlM f t = t.writeAll (l.flatMap ws) := by
  induction l generalizing t with
  | nil => rfl
  | cons a l ih =>
    rw [foldlM_cons, flatMap_cons, writeAll_append, hf t a ht]
    cases hrun : t.writeAll (ws a) with
    | error e => rfl
    | ok u => exact ih (ht.writeAll hrun)

theorem foldlM_flush {f : Mksfs → Nat → Except Bug Mksfs} {w : Nat → Ino × List (BitVec 8)}
    (hf : ∀ t a, Imaged s t → f t a = t.writeBlock (w a).2 (w a).1) (l : List Nat)
    (ht : Imaged s t) : l.foldlM f t = t.writeAll (l.map w) := by
  have hone : ∀ t a, Imaged s t → f t a = t.writeAll [w a] := by
    intro t a ht
    rw [hf t a ht, writeAll, foldlM_cons]
    exact (bind_pure _).symm
  have h := foldlM_eq_writeAll hone l ht
  rwa [← map_eq_flatMap] at h

/-- One turn of the loop over the hash lists. -/
theorem flushBucket_eq (s t : Mksfs) (i : Nat) (ht : Imaged s t) :
    (do
      let u ← (t.blockHash i).foldlM flushCacheBlock t
      (u.inodeHash i).foldlM flushCacheInode u) =
    t.writeAll ((s.blockHash i).map s.blockWrite ++ (s.inodeHash i).map s.inodeWrite) := by
  have hblocks : t.blockHash = s.blockHash := by
    obtain ⟨img, rfl⟩ := ht
    rfl
  have hflush : ∀ (t : Mksfs) (a : Nat), Imaged s t → flushCacheBlock t a =
      t.writeBlock (s.blockWrite a).2 (s.blockWrite a).1 := by
    rintro t a ⟨img, rfl⟩
    unfold flushCacheBlock blockWrite
    dsimp only
  have hflush' : ∀ (t : Mksfs) (a : Nat), Imaged s t → flushCacheInode t a =
      t.writeBlock (s.inodeWrite a).2 (s.inodeWrite a).1 := by
    rintro t a ⟨img, rfl⟩
    unfold flushCacheInode inodeWrite
    dsimp only
  rw [writeAll_append, hblocks, foldlM_flush hflush _ ht]
  cases hrun : t.writeAll ((s.blockHash i).map s.blockWrite) with
  | error e => rfl
  | ok u =>
    have hu := ht.writeAll hrun
    have hinodes : u.inodeHash = s.inodeHash := by
      obtain ⟨img, rfl⟩ := hu
      rfl
    show (u.inodeHash i).foldlM flushCacheInode u = _
    rw [hinodes, foldlM_flush hflush' _ hu]
    rfl

theorem mul_blkBits_lt (s : Mksfs) (k : Nat) : k * blkBits < s.ninos ↔ k < s.freemapBlocks := by
  show k * 32768 < s.ninos ↔ k < (s.ninos + 32768 - 1) / 32768
  omega

theorem writeFreemap_eq {turns : Nat} (hk : s.freemapBlocks - k ≤ turns) (ht : Imaged s t) :
    writeFreemap turns t (k * blkBits) (BitVec.ofNat 32 (blknFreemap + k)) =
      t.writeAll ((List.range' k (s.freemapBlocks - k)).map s.freemapWrite) := by
  induction turns generalizing k t with
  | zero =>
    rw [show s.freemapBlocks - k = 0 by omega]
    rfl
  | succ turns ih =>
    have hninos : t.ninos = s.ninos := by
      obtain ⟨img, rfl⟩ := ht
      rfl
    rw [writeFreemap, hninos]
    by_cases hlt : k < s.freemapBlocks
    · rw [if_pos ((s.mul_blkBits_lt k).mpr hlt), show s.freemapBlocks - k = (s.freemapBlocks - (k + 1)) + 1 by omega,
        List.range'_succ, map_cons, writeAll, foldlM_cons]
      have hblock : t.freemapBlock (k * blkBits) = s.freemapBlock (k * blkBits) := by
        obtain ⟨img, rfl⟩ := ht
        rfl
      have hwrite : s.freemapWrite k =
        (BitVec.ofNat 32 (blknFreemap + k), (s.freemapBlock (k * blkBits)).slice 0 blkSize) := rfl
      rw [hblock, hwrite]
      cases hrun : t.writeBlock ((s.freemapBlock (k * blkBits)).slice 0 blkSize)
        (BitVec.ofNat 32 (blknFreemap + k)) with
      | error e => rfl
      | ok u =>
        have hnext : k * blkBits + blkBits = (k + 1) * blkBits := (Nat.succ_mul k blkBits).symm
        have hino : BitVec.ofNat 32 (blknFreemap + k) + 1 = BitVec.ofNat 32 (blknFreemap + (k + 1)) := by
          rw [← Nat.add_assoc, BitVec.ofNat_add (blknFreemap + k) 1]
          rfl
        rw [hnext, hino]
        exact ih (by omega) (ht.writeBlock hrun)
    · rw [if_neg fun h => hlt ((s.mul_blkBits_lt k).mp h), show s.freemapBlocks - k = 0 by omega]
      rfl

/-- `close_sfs` is a sequence of writes. -/
theorem closeSfs_eq (s : Mksfs) : s.closeSfs = s.writeAll s.writes := by
  have hself : Imaged s s := ⟨s.img, rfl⟩
  have hturns : s.freemapBlocks - 0 ≤ s.ninos := by
    show (s.ninos + 32768 - 1) / 32768 - 0 ≤ s.ninos
    omega
  have hmap := writeFreemap_eq hturns hself
  rw [Nat.zero_mul, Nat.add_zero, Nat.sub_zero, ← range_eq_range'] at hmap
  rw [closeSfs, hmap, writes, writeAll_append]
  cases hfree : s.writeAll ((List.range s.freemapBlocks).map s.freemapWrite) with
  | error e => rfl
  | ok t =>
    have ht : Imaged s t := hself.writeAll hfree
    have hsuper : t.superBytes = s.superBytes := by
      obtain ⟨img, rfl⟩ := ht
      rfl
    simp only [bind, Except.bind]
    rw [hsuper, writeAll, foldlM_cons]
    cases hwrite : t.writeBlock s.superBytes blknSuper with
    | error e => rfl
    | ok u =>
      have hloop := foldlM_eq_writeAll (flushBucket_eq s) (List.range hashListSize)
        (ht.writeBlock hwrite)
      simp only [bind, Except.bind] at hloop ⊢
      rw [hloop]
      rfl

/-! ### The numbers of the blocks -/

/-- The first number that `sfs_alloc_ino` gives out. -/
def first (s : Mksfs) : Nat := blknFreemap + s.freemapBlocks

/-- The numbers of the index blocks and the inodes in memory. -/
def numbers (s : Mksfs) : List Ino :=
  (List.range s.nblocks).map (fun cb => (s.block cb).ino) ++
    (List.range s.inodes).map fun ci => (s.inode ci).ino

/-- The numbers given out are counted, all that is in memory is in the hash lists once, and no two
of the index blocks and inodes have one number. -/
structure Laid (s : Mksfs) : Prop where
  max : s.ninos ≤ maxNblks
  lo : s.first ≤ s.nextIno
  hi : s.nextIno ≤ s.ninos
  blocks : s.blocks = BitVec.ofNat 32 s.ninos
  unused : s.unusedBlocks = BitVec.ofNat 32 (s.ninos - s.nextIno)
  blockHash : ((List.range hashListSize).flatMap s.blockHash).Perm (List.range s.nblocks)
  inodeHash : ((List.range hashListSize).flatMap s.inodeHash).Perm (List.range s.inodes)
  nodup : s.numbers.Nodup
  range : ∀ b ∈ s.numbers, b = blknRoot ∨ s.first ≤ b.toNat ∧ b.toNat < s.nextIno

theorem cacheWrites_perm (s : Mksfs) (h : s.Laid) :
    s.cacheWrites.Perm ((List.range s.nblocks).map s.blockWrite ++
      (List.range s.inodes).map s.inodeWrite) := by
  refine (flatMap_append_perm _ _ _).symm.trans (List.Perm.append ?_ ?_)
  · rw [← map_flatMap]
    exact h.blockHash.map _
  · rw [← map_flatMap]
    exact h.inodeHash.map _

theorem numbers_eq_writes (s : Mksfs) (h : s.Laid) :
    (s.cacheWrites.map Prod.fst).Perm s.numbers := by
  refine ((s.cacheWrites_perm h).map Prod.fst).trans (List.Perm.of_eq ?_)
  rw [map_append, map_map, map_map]
  rfl

theorem Laid.ninos_lt (h : s.Laid) : s.ninos < 2 ^ 32 := by
  have := h.max
  have : maxNblks < 2 ^ 32 := by decide
  omega

theorem Laid.toNat_freemap (h : s.Laid) (hk : k < s.freemapBlocks) :
    (BitVec.ofNat 32 (blknFreemap + k)).toNat = blknFreemap + k := by
  have hlo := h.lo
  have hhi := h.hi
  have hlt := h.ninos_lt
  unfold first at hlo
  exact Nat.mod_eq_of_lt (by omega)

theorem Laid.lt_of_mem_numbers (h : s.Laid) (hb : b ∈ s.numbers) :
    b.toNat < s.ninos ∧ b ≠ blknSuper ∧
      ∀ k < s.freemapBlocks, b ≠ BitVec.ofNat 32 (blknFreemap + k) := by
  have hlo := h.lo
  have hhi := h.hi
  have hfirst : 2 ≤ s.first := Nat.le_add_right 2 _
  rcases h.range b hb with rfl | ⟨hge, hlt⟩
  · refine ⟨show 1 < s.ninos by omega, by decide, fun k hk heq => ?_⟩
    have hnat := congrArg BitVec.toNat heq
    rw [h.toNat_freemap hk] at hnat
    have : (1 : Nat) = 2 + k := hnat
    omega
  · refine ⟨by omega, fun heq => ?_, fun k hk heq => ?_⟩
    · rw [heq] at hge
      have : s.first ≤ 0 := hge
      omega
    · rw [heq, h.toNat_freemap hk] at hge
      unfold first at hge
      omega

theorem Laid.writes_nodup (h : s.Laid) : (s.writes.map Prod.fst).Nodup := by
  have hmap : (s.writes.map Prod.fst).Perm
      ((List.range s.freemapBlocks).map (fun k => BitVec.ofNat 32 (blknFreemap + k)) ++
        blknSuper :: s.numbers) := by
    rw [writes, map_append, map_cons, map_map]
    exact List.Perm.append (List.Perm.refl _) ((s.numbers_eq_writes h).cons _)
  rw [hmap.nodup_iff, nodup_append, nodup_cons]
  refine ⟨?_, ⟨fun hmem => (h.lt_of_mem_numbers hmem).2.1 rfl, h.nodup⟩, ?_⟩
  · refine List.Nodup.map_on (fun j hj k hk heq => ?_) nodup_range
    have hnat := congrArg BitVec.toNat heq
    rw [h.toNat_freemap (mem_range.mp hj), h.toNat_freemap (mem_range.mp hk)] at hnat
    omega
  · intro a ha b hb heq
    obtain ⟨k, hk, rfl⟩ := mem_map.mp ha
    rcases mem_cons.mp hb with rfl | hb
    · have hnat := congrArg BitVec.toNat heq
      rw [h.toNat_freemap (mem_range.mp hk)] at hnat
      have : 2 + k = 0 := hnat
      omega
    · exact (h.lt_of_mem_numbers hb).2.2 k (mem_range.mp hk) heq.symm

theorem length_inode (inode : Inode) : (inode.words.flatMap wordBytes).length = 68 := by
  simp [Inode.words]

theorem Laid.writes_ok (h : s.Laid) :
    ∀ w ∈ s.writes, w.2.length ≤ blkSize ∧ w.1.toNat < s.ninos := by
  have hlo := h.lo
  have hhi := h.hi
  intro w hw
  rcases mem_append.mp hw with hw | hw
  · obtain ⟨k, hk, rfl⟩ := mem_map.mp hw
    have hk' := mem_range.mp hk
    unfold freemapWrite
    rw [Buffer.length_slice, h.toNat_freemap hk']
    unfold first at hlo
    exact ⟨le_rfl, by omega⟩
  · rcases mem_cons.mp hw with rfl | hw
    · refine ⟨?_, show 0 < s.ninos from ?_⟩
      · show (superBytes s).length ≤ 4096
        rw [superBytes, length_append, length_flatMap_wordBytes, Buffer.length_slice]
        simp
      · have : 2 ≤ s.first := Nat.le_add_right 2 _
        omega
    · refine ⟨?_, ?_⟩
      · rcases mem_append.mp ((s.cacheWrites_perm h).mem_iff.mp hw) with hw | hw
        · obtain ⟨cb, -, rfl⟩ := mem_map.mp hw
          unfold blockWrite
          rw [Buffer.length_slice]
        · obtain ⟨ci, -, rfl⟩ := mem_map.mp hw
          unfold inodeWrite
          rw [length_inode]
          decide
      · have hmem := (s.numbers_eq_writes h).mem_iff.mp (mem_map_of_mem hw)
        exact (h.lt_of_mem_numbers hmem).1

/-- `close_sfs` ends, and everything is in the image; the other blocks are as they were. -/
theorem Laid.closeSfs (h : s.Laid) : ∃ img, s.closeSfs = .ok { s with img := img } ∧
    img blknSuper = .ofList s.superBytes ∧
    (∀ k < s.freemapBlocks, img (BitVec.ofNat 32 (blknFreemap + k)) = s.freemapBlock (k * blkBits)) ∧
    (∀ cb < s.nblocks, img (s.block cb).ino = (s.block cb).cache) ∧
    (∀ ci < s.inodes, img (s.inode ci).ino = .ofList ((s.inode ci).inode.words.flatMap wordBytes)) ∧
    ∀ b, s.first ≤ b.toNat → b ∉ s.numbers → img b = s.img b := by
  have hmem : ∀ w ∈ s.writes, imgAfter s.writes s.img w.1 = .ofList w.2 := fun w hw =>
    imgAfter_of_mem h.writes_nodup hw s.img
  have hcache : ∀ w ∈ (List.range s.nblocks).map s.blockWrite ++
      (List.range s.inodes).map s.inodeWrite, w ∈ s.writes := fun w hw =>
    mem_append_right _ (mem_cons_of_mem _ ((s.cacheWrites_perm h).mem_iff.mpr hw))
  refine ⟨imgAfter s.writes s.img, ?_, ?_, fun k hk => ?_, fun cb hcb => ?_, fun ci hci => ?_,
    fun b hb hnot => ?_⟩
  · rw [closeSfs_eq, writeAll_ok h.writes_ok]
  · exact hmem (blknSuper, s.superBytes) (mem_append_right _ (mem_cons_self ..))
  · have hw := hmem (s.freemapWrite k) (mem_append_left _ (mem_map_of_mem (mem_range.mpr hk)))
    unfold freemapWrite at hw
    dsimp only at hw
    rwa [Buffer.ofList_slice] at hw
  · have hw := hmem (s.blockWrite cb)
      (hcache _ (mem_append_left _ (mem_map_of_mem (mem_range.mpr hcb))))
    unfold blockWrite at hw
    dsimp only at hw
    rwa [Buffer.ofList_slice] at hw
  · exact hmem (s.inodeWrite ci)
      (hcache _ (mem_append_right _ (mem_map_of_mem (mem_range.mpr hci))))
  · refine imgAfter_of_notMem (fun hin => ?_) s.img
    rw [writes, map_append, map_cons, map_map] at hin
    rcases mem_append.mp hin with hin | hin
    · obtain ⟨k, hk, rfl⟩ := mem_map.mp hin
      have hb' : s.first ≤ (BitVec.ofNat 32 (blknFreemap + k)).toNat := hb
      rw [h.toNat_freemap (mem_range.mp hk)] at hb'
      have := mem_range.mp hk
      unfold first at hb'
      omega
    · rcases mem_cons.mp hin with rfl | hin
      · have : s.first ≤ 0 := hb
        have : 2 ≤ s.first := Nat.le_add_right 2 _
        omega
      · exact hnot ((s.numbers_eq_writes h).mem_iff.mp hin)

/-! ### The freemap -/

theorem getLsbD_foldl_setBit (l : List Nat) (data : Nat → Word) (w : Nat) (hk : k < 32) :
    (l.foldl (fun data j => Function.update data (j / 32) (data (j / 32) ||| 1#32 <<< (j % 32)))
      data w).getLsbD k = ((data w).getLsbD k || decide (32 * w + k ∈ l)) := by
  induction l generalizing data with
  | nil => simp
  | cons j l ih =>
    rw [foldl_cons, ih]
    by_cases hw : w = j / 32
    · subst hw
      rw [Function.update_self, BitVec.getLsbD_or, Kernel.Bitmap.getLsbD_mask hk]
      by_cases hkj : k = j % 32
      · have hmem : 32 * (j / 32) + k ∈ j :: l :=
          mem_cons.mpr (.inl (by omega))
        rw [decide_eq_true hmem, decide_eq_true hkj, Bool.or_true, Bool.true_or]
      · have hj : 32 * (j / 32) + k ≠ j := by omega
        simp [hkj, hj]
    · have hj : 32 * w + k ≠ j := by omega
      rw [Function.update_of_ne hw]
      simp [hj]

theorem getLsbD_freemapData {start last w : Nat} (hk : k < 32) :
    (freemapData start last w).getLsbD k = decide (start ≤ 32 * w + k ∧ 32 * w + k < last) := by
  rw [freemapData, getLsbD_foldl_setBit _ _ _ hk,
    show (0 : Word).getLsbD k = false from BitVec.getLsbD_zero, Bool.false_or]
  refine decide_eq_decide.mpr ?_
  rw [mem_range'_1]
  omega

/-- The bits of a block of the freemap are the blocks that were not given out. -/
theorem getLsbD_freemapBlock {i q : Nat} (hi : i < s.ninos) (hq : q < blkBits) :
    ((s.freemapBlock i).word (q / 32)).getLsbD (q % 32) =
      decide (s.nextIno ≤ i + q ∧ i + q < s.ninos) := by
  have hq' : q < 32768 := hq
  unfold freemapBlock
  split
  · rename_i hnext
    rw [Buffer.word_ofWords _ (show 4 * (q / 32) + 4 ≤ 4096 by omega),
      getLsbD_freemapData (Nat.mod_lt q (by decide)), show 32 * (q / 32) + q % 32 = q by omega]
    refine decide_eq_decide.mpr ?_
    split <;> split <;> omega
  · rename_i hnext
    rw [Buffer.word_zero, show (0 : Word).getLsbD (q % 32) = false from BitVec.getLsbD_zero, eq_comm,
      decide_eq_false_iff_not]
    omega

end Mksfs

end UcoreMips.Tools
