import UcoreMips.Tools.BlockIndex

/-!
# UcoreMips.Tools.BlockCache

**Finding index blocks again**: `alloc_cache_block` chooses the hash list by its argument, and
`search_cache_block` by the number of the block. When the argument is 0 the number is a new one, so
the block is found again exactly when the new number is in the list of 0 (`Mksfs.findsBlocks_iff`).
-/

namespace UcoreMips.Tools

open UcoreMips.Lib Nat
open UcoreMips.Kernel (Ino Block)
open Function (update update_of_ne update_self)

namespace Mksfs

variable {s t s₀ : Mksfs} {b ino : Ino} {cb k : Nat} {log : List (Mksfs × Ino)}

/-- The number is new, or was given out and nothing in memory has it. -/
def Cacheable (s : Mksfs) (ino : Ino) : Prop :=
  ino = 0 ∨ (s.first ≤ ino.toNat ∧ ino.toNat < s.nextIno) ∧ ino ∉ s.numbers

/-- Calls of `sfs_alloc_ino` and `alloc_cache_block` in any order. Of the latter the state before the
call and the argument are noted. -/
inductive CacheRun (s₀ : Mksfs) : List (Mksfs × Ino) → Mksfs → Prop
  | nil : CacheRun s₀ [] s₀
  | number {log : List (Mksfs × Ino)} {s t : Mksfs} {ino : Ino} :
      CacheRun s₀ log s → s.allocIno = .ok (ino, t) → CacheRun s₀ log t
  | block {log : List (Mksfs × Ino)} {s t : Mksfs} {ino : Ino} {cb : Nat} :
      CacheRun s₀ log s → s.Cacheable ino → s.allocCacheBlock ino = .ok (cb, t) →
        CacheRun s₀ ((s, ino) :: log) t

/-- Every index block is found by its number, a number that no block has is not found, and
`update_cache` comes to the block of a number whichever block was used before. -/
structure FindsBlocks (s : Mksfs) : Prop where
  search : ∀ cb < s.nblocks, s.searchCacheBlock (s.block cb).ino = some cb
  none : ∀ ino, (∀ cb < s.nblocks, (s.block cb).ino ≠ ino) → s.searchCacheBlock ino = none
  update : ∀ cb < s.nblocks, ∀ cbp, (∀ c ∈ cbp, c < s.nblocks) →
    s.updateCache cbp (s.block cb).ino = .ok (cb, (s.block cb).ino, s)

/-- The block is in the list in which it is searched. -/
def Filed (s : Mksfs) (cb : Nat) : Prop := cb ∈ s.blockHash (hash32 (s.block cb).ino)

theorem allocCacheBlock_number (hne : ino ≠ 0) :
    s.allocCacheBlock ino = .ok (s.nblocks, s.fileBlock ino (hash32 ino)) := by
  rw [allocCacheBlock, inoOr, if_pos hne]
  rfl

/-- What is in the lists is in memory. -/
theorem Laid.lt_of_listed (hl : s.Laid) (hk : k < hashListSize) (hcb : cb ∈ s.blockHash k) :
    cb < s.nblocks :=
  List.mem_range.mp (hl.blockHash.mem_iff.mp (List.mem_flatMap.mpr ⟨k, List.mem_range.mpr hk, hcb⟩))

theorem Laid.block_inj {c : Nat} (hl : s.Laid) (hcb : cb < s.nblocks) (hc : c < s.nblocks)
    (heq : (s.block c).ino = (s.block cb).ino) : c = cb :=
  List.inj_on_of_nodup_map hl.nodup.of_append_left (List.mem_range.mpr hc)
    (List.mem_range.mpr hcb) heq

/-- The new block is in its list when it was put there, and the others are where they were. -/
theorem Laid.filed_fileBlock (hl : s.Laid) :
    (∀ cb < (s.fileBlock b k).nblocks, (s.fileBlock b k).Filed cb) ↔
      hash32 b = k ∧ ∀ cb < s.nblocks, s.Filed cb := by
  have hmem : ∀ cb i, cb ∈ (s.fileBlock b k).blockHash i ↔
      cb ∈ s.blockHash i ∨ cb = s.nblocks ∧ i = k := by
    intro cb i
    show cb ∈ update s.blockHash k (s.nblocks :: s.blockHash k) i ↔ _
    by_cases hi : i = k
    · rw [hi, update_self, List.mem_cons, or_comm, and_iff_left rfl]
    · rw [update_of_ne hi, or_iff_left fun hnew => hi hnew.2]
  have hnew : (s.fileBlock b k).Filed s.nblocks ↔ hash32 b = k := by
    rw [Filed, show (s.fileBlock b k).block s.nblocks = ⟨b, .zero⟩ from update_self .., hmem,
      and_iff_right rfl]
    exact or_iff_right fun hold => lt_irrefl _ (hl.lt_of_listed (hash32_lt b) hold)
  have hold : ∀ cb < s.nblocks, (s.fileBlock b k).Filed cb ↔ s.Filed cb := by
    intro cb hcb
    rw [Filed, show (s.fileBlock b k).block cb = s.block cb from update_of_ne hcb.ne .., hmem]
    exact or_iff_left fun hlast => hcb.ne hlast.1
  rw [← hnew, and_comm, ← forall₂_congr hold]
  exact forall_lt_succ_right

/-- One call files its block when the argument is a number or the new number is in the list of 0. -/
theorem Laid.allocCacheBlock (hl : s.Laid) (hino : s.Cacheable ino)
    (hrun : s.allocCacheBlock ino = .ok (cb, t)) :
    t.Laid ∧ ((∀ c < t.nblocks, t.Filed c) ↔
      (ino = 0 → hash32 s.next = hash32 0) ∧ ∀ c < s.nblocks, s.Filed c) := by
  by_cases hzero : ino = 0
  · subst hzero
    rw [forall_prop_of_true rfl]
    by_cases hlt : s.nextIno < s.ninos
    · rw [allocCacheBlock_of hlt] at hrun
      cases hrun
      exact ⟨hl.newBlock hlt, (hl.bump hlt).filed_fileBlock⟩
    · rw [Mksfs.allocCacheBlock, inoOr, if_neg (not_not.mpr rfl), allocIno_full hlt] at hrun
      cases hrun
  · obtain ⟨hrange, hfresh⟩ := hino.resolve_left hzero
    rw [allocCacheBlock_number hzero] at hrun
    cases hrun
    rw [and_iff_right fun heq => absurd heq hzero]
    exact ⟨hl.fileBlock hfresh hrange (hash32_lt ino), hl.filed_fileBlock.trans (and_iff_right rfl)⟩

/-- Over a run, the blocks are filed when every new number was in the list of 0. -/
theorem CacheRun.filed (hrun : CacheRun s₀ log s) (hl : s₀.Laid) (hempty : s₀.nblocks = 0) :
    s.Laid ∧ ((∀ cb < s.nblocks, s.Filed cb) ↔
      ∀ call ∈ log, call.2 = 0 → hash32 call.1.next = hash32 0) := by
  induction hrun with
  | nil => exact ⟨hl, by simp [hempty]⟩
  | number _ halloc ih =>
    obtain ⟨-, -, rfl, hbump⟩ := ih.1.allocIno halloc
    exact ⟨hbump, ih.2⟩
  | block _ hino halloc ih =>
    obtain ⟨hl', hfiled⟩ := ih.1.allocCacheBlock hino halloc
    exact ⟨hl', by rw [hfiled, ih.2, List.forall_mem_cons]⟩

/-- The blocks are found when they are filed. -/
theorem Laid.findsBlocks_iff_filed (hl : s.Laid) : s.FindsBlocks ↔ ∀ cb < s.nblocks, s.Filed cb := by
  constructor
  · exact fun hf cb hcb => List.mem_of_find?_eq_some (hf.search cb hcb)
  intro hfiled
  have hsearch : ∀ cb < s.nblocks, s.searchCacheBlock (s.block cb).ino = some cb := by
    intro cb hcb
    cases hfind : s.searchCacheBlock (s.block cb).ino with
    | none =>
      exact absurd (decide_eq_true rfl) (List.find?_eq_none.mp hfind cb (hfiled cb hcb))
    | some c =>
      have hlt := hl.lt_of_listed (hash32_lt _) (List.mem_of_find?_eq_some hfind)
      have hsome := List.find?_some hfind
      rw [hl.block_inj hcb hlt (of_decide_eq_true hsome)]
  refine ⟨hsearch, fun ino hno => ?_, fun cb hcb cbp hcbp => ?_⟩
  · exact List.find?_eq_none.mpr fun cb hcb heq =>
      hno cb (hl.lt_of_listed (hash32_lt ino) hcb) (of_decide_eq_true heq)
  · rw [updateCache, if_neg (hl.block_ne_zero hcb)]
    split
    · rename_i c hc
      obtain ⟨hmem, heq⟩ := Option.filter_eq_some_iff.mp hc
      rw [hl.block_inj hcb (hcbp c hmem) (of_decide_eq_true heq)]
    · rw [hsearch cb hcb]

/-- **The index blocks are found again exactly when every new number was in the list of 0**: a block
with a number that was given out before is always found, and one whose number `alloc_cache_block`
takes itself only when `hash32` of that number is `hash32` of 0. -/
theorem findsBlocks_iff {stSize : Nat} {info : Buffer 32} {img : Ino → Block}
    (hcreate : createSfs stSize info img = .ok s₀) (hrun : CacheRun s₀ log s) :
    s.FindsBlocks ↔ ∀ call ∈ log, call.2 = 0 → hash32 call.1.next = hash32 0 := by
  obtain ⟨hl₀, u, -, hblocks, rfl⟩ := createSfs_laid hcreate
  obtain ⟨hl, hfiled⟩ := hrun.filed hl₀ hblocks
  exact hl.findsBlocks_iff_filed.trans hfiled

/-- Block 3 of an image of eight blocks, with a number that was given out before. -/
theorem findsBlocks_iff_given :
    ∃ s₀ s, createSfs 32768 .zero (fun _ => .zero) = .ok s₀ ∧
      CacheRun s₀ [(s₀.bump, 3)] s ∧ s.nblocks = 1 ∧ s.FindsBlocks := by
  have hstart : ∃ s₀, createSfs 32768 .zero (fun _ => .zero) = .ok s₀ ∧ s₀.ninos = 8 ∧
      s₀.nextIno = 3 ∧ s₀.first = 3 ∧ s₀.nblocks = 0 := ⟨_, rfl, rfl, rfl, rfl, rfl⟩
  obtain ⟨s₀, hcreate, hninos, hnext, hfirst, hnone⟩ := hstart
  have hnumber : s₀.next = 3 := by rw [next, hnext]; rfl
  have hino : s₀.bump.Cacheable 3 :=
    .inr ⟨⟨hfirst.le, show 3 < s₀.nextIno + 1 by omega⟩,
      hnumber ▸ (createSfs_laid hcreate).1.next_fresh⟩
  have hrun : CacheRun s₀ [(s₀.bump, 3)] (s₀.bump.fileBlock 3 (hash32 3)) :=
    .block (.number .nil (allocIno_of (by omega))) hino (allocCacheBlock_number (by decide))
  refine ⟨s₀, _, hcreate, hrun, congrArg (· + 1) hnone, (findsBlocks_iff hcreate hrun).mpr ?_⟩
  intro call hcall hzero
  rw [List.mem_singleton.mp hcall] at hzero
  exact absurd hzero (show (3 : Ino) ≠ 0 by decide)

/-- The first index block of an image of 16 MiB has the number 3. It is in the list of 0, and is
searched in the list 874. -/
theorem new_block_not_found :
    ∃ s₀ s, createSfs 16777216 .zero (fun _ => .zero) = .ok s₀ ∧
      s₀.allocCacheBlock 0 = .ok (0, s) ∧ (s.block 0).ino = 3 ∧ hash32 3 = 874 ∧
      s.searchCacheBlock 3 = none ∧ s.updateCache none 3 = .error .assertion :=
  ⟨_, _, rfl, rfl, rfl, by decide, rfl, rfl⟩

end Mksfs

end UcoreMips.Tools
