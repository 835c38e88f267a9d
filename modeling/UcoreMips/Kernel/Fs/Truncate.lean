import UcoreMips.Kernel.Fs.WriteRuns

/-!
# UcoreMips.Kernel.Fs.Truncate

**Changing the length of a file** (`sfs_truncfile`). Blocks are added one at a time, each cleared, or
taken away one at a time. Taking away always succeeds on a device that does not fail. Adding stops
where no block is free, and then the blocks that were added stay with the file, whose size is still
the old one: `blocks` and `size` disagree, and the next `sfs_truncfile` to that size fails its
assertion. Behind the last block that an inode can refer to, adding ends in a panic.
-/

namespace UcoreMips.Kernel

open UcoreMips.Lib Nat
open Function (update_of_ne update_self)

namespace Sfs

variable {s t u : Sfs} {sin sin' sin'' : SfsInode} {b : Ino} {index : Nat}

/-! ### Files in order -/

/-- A file whose blocks are just the ones it counts, on a device that does not fail. -/
structure Orderly (s : Sfs) (sin : SfsInode) : Prop where
  filed : Filed s sin
  bounded : s.Bounded sin
  io : s.Reliable

/-- The file has more blocks, which are clear, or fewer. -/
structure Resized (s : Sfs) (sin : SfsInode) (t : Sfs) (sin' : SfsInode) : Prop
    extends Orderly t sin' where
  mapped_eq : ∀ k < sin.din.blocks.toNat, k < sin'.din.blocks.toNat →
    t.mapped sin' k = s.mapped sin k
  byte_eq : ∀ i < sin'.din.blocks.toNat * blkSize, t.fileByte sin' i =
    if i < sin.din.blocks.toNat * blkSize then s.fileByte sin i else 0
  size_eq : sin'.din.size = sin.din.size
  type_eq : sin'.din.type = sin.din.type

theorem Orderly.resized (h : Orderly s sin) : Resized s sin s sin :=
  ⟨h, fun _ _ _ => rfl, fun _ hi => (if_pos hi).symm, rfl, rfl⟩

/-- Blocks are only added, or only taken away. -/
theorem Resized.trans (h : Resized s sin t sin') (h' : Resized t sin' u sin'')
    (hmono : sin.din.blocks.toNat ≤ sin'.din.blocks.toNat ∨
      sin''.din.blocks.toNat ≤ sin'.din.blocks.toNat) : Resized s sin u sin'' where
  toOrderly := h'.toOrderly
  mapped_eq k hk hk' := by
    have hmid : k < sin'.din.blocks.toNat := by omega
    rw [h'.mapped_eq k hmid hk', h.mapped_eq k hk hmid]
  byte_eq i hi := by
    rw [h'.byte_eq i hi]
    by_cases hmid : i < sin'.din.blocks.toNat * blkSize
    · rw [if_pos hmid, h.byte_eq i hmid]
    · rw [if_neg hmid, if_neg fun hold => hmid ?_]
      rcases hmono with hle | hle
      · exact hold.trans_le (mul_le_mul_right _ hle)
      · exact hi.trans_le (mul_le_mul_right _ hle)
  size_eq := h'.size_eq.trans h.size_eq
  type_eq := h'.type_eq.trans h.type_eq

/-- Behind the blocks that a file counts it has none. -/
theorem Orderly.mapped_eq_zero (h : Orderly s sin) (hk : sin.din.blocks.toNat ≤ index)
    (hlt : index < nDirect + blkNentry) : s.mapped sin index = 0 := by
  obtain ⟨p, hp⟩ := exists_part hlt
  rw [mapped_eq_slot hp]
  by_contra hne
  exact absurd (h.bounded p index hp hne) (not_lt.mpr hk)

theorem div_blkSize_lt {i n : Nat} : i / blkSize < n ↔ i < n * blkSize :=
  div_lt_iff_lt_mul (by decide)

/-- A byte depends on the block it is in. -/
theorem fileByte_congr {i : Nat} (hmap : t.mapped sin' (i / blkSize) = s.mapped sin (i / blkSize))
    (hdisk : t.disk (s.mapped sin (i / blkSize)) = s.disk (s.mapped sin (i / blkSize))) :
    t.fileByte sin' i = s.fileByte sin i := by
  unfold fileByte
  rw [hmap, hdisk]

theorem Abandoned.resized (h : Abandoned s t) (ho : Orderly s sin) : Resized s sin t sin := by
  have hslot := h.slot ho.filed.healthy
  have hmapped : ∀ k < sin.din.blocks.toNat, t.mapped sin k = s.mapped sin k := fun k hk =>
    mapped_of_slot (fun p _ => by rw [hslot]) (hk.trans_le ho.filed.few) (ho.filed.mapped k hk)
  refine ⟨⟨⟨ho.filed.healthy.worked (h.worked ho.filed.healthy), fun k hk => ?_, ho.filed.few⟩,
    fun p n hp hne => ?_, h.io ho.io⟩, fun k hk _ => hmapped k hk, fun i hi => ?_, rfl, rfl⟩
  · rw [hmapped k hk]
    exact ho.filed.mapped k hk
  · rw [hslot] at hne
    exact ho.bounded p n hp hne
  · have hblock := div_blkSize_lt.mpr hi
    rw [if_pos hi]
    exact fileByte_congr (hmapped _ hblock) (h.disk _ (ho.filed.toMapped.mapped _ hblock).2)

/-! ### Adding a block -/

/-- A new block is clear. -/
theorem Got.clear (hh : Healthy s sin) (h : Got s sin index true (.ok b) t sin')
    (hnone : s.mapped sin index = 0) : t.disk b = .zero := by
  cases h with
  | found _ hzero => cases hzero hnone
  | direct _ _ _ hb => rw [hb.disk, update_self]
  | entry _ _ _ _ _ hb hst =>
    have hne : b ≠ sin.din.indirect := fun heq => hh.slot_ne_of_free hb.free .indirect heq.symm
    rw [hst.disk, update_of_ne hne, hb.disk, update_self]
  | @both _ ent _ _ _ _ _ _ _ _ hent hb hst =>
    have hne : b ≠ ent := fun heq => (hent.inUse hh.sound).2 (heq ▸ hb.free)
    rw [hst.disk, update_of_ne hne, hb.disk, update_self]

/-- A file that has its blocks needs no more of them. -/
theorem Filed.needed_self (h : Filed s sin) : sin.needed sin.din.blocks.toNat = 0 := by
  unfold SfsInode.needed
  rw [Nat.sub_self, if_neg]
  rintro ⟨hzero, hlt⟩
  exact h.indirect_ne_zero hlt hzero

/-- What a new block takes is what there must be. -/
theorem newBlocks_eq (sin : SfsInode) :
    sin.newBlocks sin.din.blocks.toNat = sin.needed (sin.din.blocks.toNat + 1) := by
  unfold SfsInode.newBlocks SfsInode.needed
  rw [Nat.add_sub_cancel_left]
  by_cases hone : sin.din.blocks.toNat < nDirect ∨ sin.din.indirect ≠ 0
  · rw [if_pos hone, if_neg fun h => hone.elim (fun hlt => by omega) fun hne => hne h.1]
  · rw [not_or, not_not] at hone
    rw [if_neg (not_or.mpr ⟨hone.1, not_not.mpr hone.2⟩), if_pos ⟨hone.2, by omega⟩]

/-- **One more block**: it is added, or there is none to be had and the file stays as it is. -/
theorem Orderly.load_next (h : Orderly s sin) (hi : sin.din.blocks.toNat < nDirect + blkNentry) :
    (sin.needed (sin.din.blocks.toNat + 1) ≤ s.freemap.bits.card ∧
      ∃ b t sin', s.bmapLoad sin sin.din.blocks.toNat = .ok (.ok b, t, sin') ∧ Resized s sin t sin' ∧
        t.mapped sin' sin.din.blocks.toNat = b ∧ sin'.din.blocks.toNat = sin.din.blocks.toNat + 1 ∧ ∀ n, sin.din.blocks.toNat < n →
          sin'.needed n + s.freemap.bits.card = sin.needed n + t.freemap.bits.card) ∨
    (s.freemap.bits.card < sin.needed (sin.din.blocks.toNat + 1) ∧
      ∃ e t, s.bmapLoad sin sin.din.blocks.toNat = .ok (.error e, t, sin) ∧ Resized s sin t sin) := by
  have hf := h.filed
  have hh := hf.healthy
  have hnone := h.mapped_eq_zero (le_refl _) hi
  obtain ⟨ret, t, sin', hgot, hrun⟩ := bmapLoad_spec hh.sound hf.toMapped.indirect
    (hh.mapped_inUse hi) (le_refl _) hi
  rw [decide_eq_true rfl] at hgot
  cases ret with
  | error e =>
    cases hgot with
    | failed hab hfail =>
      have hfew := (hfail h.io).2.2
      rw [newBlocks_eq] at hfew
      exact .inr ⟨hfew, e, t, hrun, hab.resized h⟩
  | ok b =>
    dsimp only at hrun
    rw [if_neg (hgot.ne_zero hh.sound), if_pos rfl] at hrun
    have hload := hgot.loaded hf h.io rfl hi hrun
    have hcount : ∀ n, sin.din.blocks.toNat < n → sin'.addBlock.needed n + s.freemap.bits.card =
        sin.needed n + t.freemap.bits.card := fun n hn =>
      hgot.needed_eq hh.sound rfl hnone rfl hn hi
    have hblocks : sin'.addBlock.din.blocks.toNat = sin.din.blocks.toNat + 1 := by
      rw [hload.blocks_eq]
      omega
    have hmapped : ∀ k < sin.din.blocks.toNat, t.mapped sin'.addBlock k = s.mapped sin k :=
      fun k hk => mapped_of_slot hload.slot_eq (hk.trans_le hf.few) (hf.mapped k hk)
    refine .inl ⟨?_, b, t, sin'.addBlock, hrun, ⟨⟨hload.filed, (bmapLoad_tended hh hrun).bounded
      h.bounded, hload.io⟩, fun k hk _ => hmapped k hk, fun i hilt => ?_, hload.size_eq,
      hload.type_eq⟩, hload.mapped_eq, hblocks, hcount⟩
    · have hself := hload.filed.needed_self
      have heq := hcount (sin.din.blocks.toNat + 1) (lt_succ_self _)
      rw [hblocks] at hself
      omega
    · by_cases hold : i < sin.din.blocks.toNat * blkSize
      · have hblock := div_blkSize_lt.mpr hold
        rw [if_pos hold]
        exact fileByte_congr (hmapped _ hblock) (hload.disk_eq _ hblock)
      · have hblock : i / blkSize = sin.din.blocks.toNat := by
          have h1 := div_blkSize_lt.mpr hilt
          have h2 := mt div_blkSize_lt.mp hold
          omega
        rw [if_neg hold, fileByte, hblock, hload.mapped_eq, hgot.clear hh hnone, Buffer.get_zero]

/-! ### The loop that adds blocks -/

theorem bmapLoad_panic (hi : nDirect + blkNentry ≤ index) :
    s.bmapLoad sin index = .error .assertion := by
  unfold bmapLoad
  split
  · rfl
  · dsimp only
    rw [bmapGet_panic hi]
    rfl

/-- The outcomes of adding `n` blocks. -/
inductive Enlarged (s : Sfs) (sin : SfsInode) (n : Nat) :
    Except Stop (Except Err Unit × Sfs × SfsInode) → Prop
  /-- There are enough of them. -/
  | done {t : Sfs} {sin' : SfsInode} : sin.din.blocks.toNat + n ≤ nDirect + blkNentry →
      sin.needed (sin.din.blocks.toNat + n) ≤ s.freemap.bits.card → Resized s sin t sin' →
      sin'.din.blocks.toNat = sin.din.blocks.toNat + n → Enlarged s sin n (.ok (.ok (), t, sin'))
  /-- After `m` of them there is none to be had. -/
  | full {m : Nat} {e : Err} {t : Sfs} {sin' : SfsInode} : m < n →
      sin.din.blocks.toNat < nDirect + blkNentry →
      s.freemap.bits.card < sin.needed (sin.din.blocks.toNat + n) →
      (m = 0 ↔ s.freemap.bits.card < sin.needed (sin.din.blocks.toNat + 1)) → Resized s sin t sin' →
      sin'.din.blocks.toNat = sin.din.blocks.toNat + m → Enlarged s sin n (.ok (.error e, t, sin'))
  /-- The inode has no place for another one. -/
  | panic {e : Stop} : nDirect + blkNentry < sin.din.blocks.toNat + n →
      (sin.din.blocks.toNat < nDirect + blkNentry →
        sin.needed (sin.din.blocks.toNat + 1) ≤ s.freemap.bits.card) → Enlarged s sin n (.error e)

theorem enlarge_spec (n : Nat) : ∀ {s : Sfs} {sin : SfsInode}, Orderly s sin →
    Enlarged s sin n (enlarge n s sin sin.din.blocks.toNat) := by
  induction n with
  | zero =>
    intro s sin h
    exact .done h.filed.few (h.filed.needed_self.le.trans (zero_le _)) h.resized rfl
  | succ n ih =>
    intro s sin h
    rw [enlarge]
    by_cases hi : sin.din.blocks.toNat < nDirect + blkNentry
    · rcases h.load_next hi with ⟨hroom, b, t, sin', hrun, hres, -, hblocks, hcount⟩ |
        ⟨hfew, e, t, hrun, hres⟩
      · rw [hrun]
        dsimp only [ok_bind]
        have hrest := ih hres.toOrderly
        have hsum : sin'.din.blocks.toNat + n = sin.din.blocks.toNat + (n + 1) := by omega
        have heq := hcount (sin.din.blocks.toNat + (n + 1)) (by omega)
        rw [← hblocks]
        generalize enlarge n t sin' sin'.din.blocks.toNat = r at hrest
        cases hrest with
        | done hmax hroom' hres' hblocks' =>
          rw [hsum] at hmax hroom' hblocks'
          exact .done hmax (by omega) (hres.trans hres' (.inl (by omega))) hblocks'
        | @full m _ _ _ hm hlt hfew _ hres' hblocks' =>
          rw [hsum] at hfew
          exact .full (m := m + 1) (by omega) hi (by omega) (by omega)
            (hres.trans hres' (.inl (by omega))) (by omega)
        | panic hmax _ =>
          rw [hsum] at hmax
          exact .panic hmax fun _ => hroom
      · rw [hrun]
        exact .full (m := 0) (succ_pos n) hi
          (hfew.trans_le (sin.needed_mono (by omega))) (iff_of_true rfl hfew) hres rfl
    · have hmax := h.filed.few
      rw [bmapLoad_panic (not_lt.mp hi)]
      exact .panic (by omega) fun hlt => absurd hlt hi

/-! ### The loop that takes blocks away -/

/-- What the inode refers to apart from the block that is given back. -/
theorem Dropped.slot_eq (h : Dropped s sin index (.ok ()) t sin') {p : Part}
    (hp : p.index ≠ some index) : t.slot sin' p = s.slot sin p := by
  cases h with
  | nothing hsame _ => rw [hsame.slot]
  | @direct k _ hk _ hret =>
    have hpk : p ≠ .direct k := by
      rintro rfl
      exact hp (congrArg some hk)
    rw [slot_setDirect, update_of_ne hpk, hret.slot]
  | @entry k _ _ hi hk hne _ hst hret =>
    have hpk : p ≠ .entry ⟨k, hk⟩ := by
      rintro rfl
      exact hp (congrArg some hi)
    rw [hret.slot, slot_stored hne hk hst, update_of_ne hpk]

variable {ret : Except Err Unit}

theorem Dropped.disk_eq (h : Dropped s sin index ret t sin') {c : Ino} (hc : c ≠ sin.din.indirect) :
    t.disk c = s.disk c := by
  cases h with
  | nothing hsame _ => rw [hsame.disk]
  | direct _ _ hret => rw [hret.disk]
  | entry _ _ _ _ hst hret => rw [hret.disk, hst.disk, update_of_ne hc]
  | failed hsame _ => rw [hsame.disk]

theorem Dropped.size_eq (h : Dropped s sin index ret t sin') : sin'.din.size = sin.din.size := by
  cases h <;> rfl

theorem Dropped.type_eq (h : Dropped s sin index ret t sin') : sin'.din.type = sin.din.type := by
  cases h <;> rfl

/-- **One block less.** -/
theorem Orderly.drop_last (h : Orderly s sin) (hne : sin.din.blocks ≠ 0) :
    ∃ t sin', s.bmapTruncate sin = .ok (.ok (), t, sin') ∧ Resized s sin t sin' ∧
      sin'.din.blocks.toNat + 1 = sin.din.blocks.toNat := by
  have hf := h.filed
  have hh := hf.healthy
  obtain ⟨ret, t, sin', hdrop, hrun⟩ := bmapTruncate_spec hh.sound hne hf.toMapped.indirect
    fun _ hi => hh.mapped_inUse hi
  cases ret with
  | error e =>
    cases hdrop with
    | failed _ hfail => exact absurd h.io hfail
  | ok _ =>
    have htend := bmapTruncate_tended hh hrun
    have hblocks : sin'.dropBlock.din.blocks.toNat + 1 = sin.din.blocks.toNat := by
      show (sin'.din.blocks - 1).toNat + 1 = _
      have hpos : sin.din.blocks.toNat ≠ 0 := fun hz => hne (BitVec.eq_of_toNat_eq hz)
      rw [hdrop.blocks_eq, toNat_sub_one hne]
      omega
    have hmapped : ∀ k < sin'.dropBlock.din.blocks.toNat,
        t.mapped sin'.dropBlock k = s.mapped sin k := by
      intro k hk
      obtain ⟨p, hp⟩ := exists_part (show k < nDirect + blkNentry by have := hf.few; omega)
      rw [mapped_eq_slot hp, mapped_eq_slot hp, slot_dropBlock]
      refine hdrop.slot_eq fun heq => ?_
      rw [hp, Option.some.injEq] at heq
      omega
    refine ⟨t, sin'.dropBlock, hrun, ⟨⟨⟨hh.worked htend.toWorked, fun k hk => ?_, ?_⟩,
      htend.bounded h.bounded, htend.io h.io⟩, fun k _ hk => hmapped k hk, fun i hi => ?_,
      hdrop.size_eq, hdrop.type_eq⟩, hblocks⟩
    · rw [hmapped k hk]
      exact hf.mapped k (by omega)
    · have := hf.few
      omega
    · have hblock := div_blkSize_lt.mpr hi
      have hold : i < sin.din.blocks.toNat * blkSize :=
        hi.trans_le (mul_le_mul_right _ (by omega))
      rw [if_pos hold]
      exact fileByte_congr (hmapped _ hblock)
        (hdrop.disk_eq (hf.mapped_ne_indirect (div_blkSize_lt.mpr hold)))

theorem shrink_spec (n : Nat) : ∀ {s : Sfs} {sin : SfsInode}, Orderly s sin →
    n ≤ sin.din.blocks.toNat → ∃ t sin', shrink n s sin = .ok (.ok (), t, sin') ∧
      Resized s sin t sin' ∧ sin'.din.blocks.toNat + n = sin.din.blocks.toNat := by
  induction n with
  | zero => exact fun {s sin} h _ => ⟨s, sin, rfl, h.resized, rfl⟩
  | succ n ih =>
    intro s sin h hn
    have hne : sin.din.blocks ≠ 0 := by
      intro hz
      rw [hz] at hn
      exact absurd hn (not_succ_le_zero n)
    obtain ⟨t, sin', hrun, hres, hblocks⟩ := h.drop_last hne
    obtain ⟨u, sin'', hrest, hres', hblocks'⟩ := ih hres.toOrderly (by omega)
    refine ⟨u, sin'', ?_, hres.trans hres' (.inr (by omega)), by omega⟩
    rw [shrink, hrun]
    exact hrest

/-! ### The whole call -/

/-- There are blocks for a file of `n` bytes. -/
def Fits (s : Sfs) (sin : SfsInode) (n : Nat) : Prop :=
  blocksFor n ≤ sin.din.blocks.toNat ∨
    blocksFor n ≤ nDirect + blkNentry ∧ sin.needed (blocksFor n) ≤ s.freemap.bits.card

/-- Not even one block can be added. -/
def Stuck (s : Sfs) (sin : SfsInode) : Prop :=
  sin.din.blocks.toNat < nDirect + blkNentry ∧
    s.freemap.bits.card < sin.needed (sin.din.blocks.toNat + 1)

end Sfs

/-- The inode with another size. -/
def SfsInode.setSize (sin : SfsInode) (n : Nat) : SfsInode :=
  { sin with din := { sin.din with size := BitVec.ofNat 32 n }, dirty := true }

namespace Sfs

variable {s t : Sfs} {sin sin' : SfsInode}

/-- The outcomes of `sfs_truncfile`. -/
inductive Truncated (s : Sfs) (sin : SfsInode) (len : Int) :
    Except Stop (Except Err Unit × Sfs × SfsInode) → Prop
  | refused : ¬(0 ≤ len ∧ len.toNat ≤ maxFileSize) →
      Truncated s sin len (.ok (.error .inval, s, sin))
  /-- The file has that size already. -/
  | same : sin.din.size.toNat = len.toNat → sin.din.blocks.toNat = blocksFor len.toNat →
      Truncated s sin len (.ok (.ok (), s, sin))
  | done {t : Sfs} {sin' : SfsInode} : 0 ≤ len ∧ len.toNat ≤ maxFileSize → s.Fits sin len.toNat →
      Resized s sin t sin' → sin'.din.blocks.toNat = blocksFor len.toNat →
      Truncated s sin len (.ok (.ok (), t, sin'.setSize len.toNat))
  /-- Some blocks were added, and then there was none to be had. -/
  | full {m : Nat} {e : Err} {t : Sfs} {sin' : SfsInode} : ¬s.Fits sin len.toNat →
      (m = 0 ↔ s.Stuck sin) → Resized s sin t sin' →
      sin'.din.blocks.toNat = sin.din.blocks.toNat + m → Truncated s sin len (.ok (.error e, t, sin'))
  /-- The inode has no place for another block, or the number of blocks was not that of the size. -/
  | panic {e : Stop} : (¬s.Fits sin len.toNat ∧ ¬s.Stuck sin) ∨
      sin.din.size.toNat = len.toNat ∧ sin.din.blocks.toNat ≠ blocksFor len.toNat →
      Truncated s sin len (.error e)

theorem truncfile_spec (h : Orderly s sin) (len : Int) :
    Truncated s sin len (s.truncfile sin len) := by
  unfold truncfile
  split
  · next hout => exact .refused (by omega)
  · next hin =>
    have hrange : 0 ≤ len ∧ len.toNat ≤ maxFileSize := by omega
    dsimp only
    rw [show (len.toNat + blkSize - 1) / blkSize = blocksFor len.toNat from rfl]
    by_cases hsize : sin.din.size.toNat = len.toNat
    · rw [if_pos hsize]
      by_cases hcount : blocksFor len.toNat = sin.din.blocks.toNat
      · rw [if_pos hcount]
        exact .same hsize hcount.symm
      · rw [if_neg hcount]
        exact .panic (.inr ⟨hsize, fun heq => hcount heq.symm⟩)
    · rw [if_neg hsize]
      by_cases hle : blocksFor len.toNat ≤ sin.din.blocks.toNat
      · obtain ⟨t, sin', hrun, hres, hblocks⟩ :=
          shrink_spec (sin.din.blocks.toNat - blocksFor len.toNat) h (sub_le _ _)
        have hend : sin'.din.blocks.toNat = blocksFor len.toNat := by omega
        rw [Nat.sub_eq_zero_of_le hle, enlarge]
        dsimp only [bind, Except.bind]
        rw [hrun]
        dsimp only
        rw [if_neg (not_not.mpr hend)]
        exact .done hrange (.inl hle) hres hend
      · have hrun := enlarge_spec (blocksFor len.toNat - sin.din.blocks.toNat) h
        have hsum : sin.din.blocks.toNat + (blocksFor len.toNat - sin.din.blocks.toNat) =
            blocksFor len.toNat := by omega
        rw [Nat.sub_eq_zero_of_le (Nat.le_of_not_le hle)]
        generalize enlarge (blocksFor len.toNat - sin.din.blocks.toNat) s sin
          sin.din.blocks.toNat = r at hrun ⊢
        cases hrun with
        | done hmax hroom hres hblocks =>
          rw [hsum] at hmax hroom hblocks
          dsimp only [ok_bind, shrink]
          rw [if_neg (not_not.mpr hblocks)]
          exact .done hrange (.inr ⟨hmax, hroom⟩) hres hblocks
        | full _ hlt hfew hzero hres hblocks =>
          rw [hsum] at hfew
          refine .full (fun hfits => ?_) (hzero.trans ?_) hres hblocks
          · rcases hfits with hle' | ⟨-, hroom⟩
            · exact hle hle'
            · exact absurd hroom (not_le.mpr hfew)
          · exact (and_iff_right hlt).symm
        | panic hmax hroom =>
          rw [hsum] at hmax
          refine .panic (.inl ⟨fun hfits => ?_, fun hstuck => ?_⟩)
          · rcases hfits with hle' | ⟨hmax', -⟩
            · exact hle hle'
            · exact absurd hmax' (not_le.mpr hmax)
          · exact absurd (hroom hstuck.1) (not_le.mpr hstuck.2)

/-- `sfs_truncfile` returns, and changes the length of the file or nothing. -/
def AllOrNothing (s : Sfs) (sin : SfsInode) (len : Int) : Prop :=
  ∃ ret t sin', s.truncfile sin len = .ok (ret, t, sin') ∧
    match ret with
    | .ok _ => sin'.din.size.toNat = len.toNat ∧ sin'.din.blocks.toNat = blocksFor len.toNat ∧
        ∀ i < min sin.din.size.toNat len.toNat, t.fileByte sin' i = s.fileByte sin i
    | .error _ => sin'.din.size = sin.din.size ∧ sin'.din.blocks = sin.din.blocks ∧
        ∀ k < nDirect + blkNentry, t.mapped sin' k = s.mapped sin k

/-- A file with as many blocks as before has the same blocks. -/
theorem Resized.mapped_same (h : Resized s sin t sin') (ho : Orderly s sin)
    (hblocks : sin'.din.blocks.toNat = sin.din.blocks.toNat) {k : Nat}
    (hk : k < nDirect + blkNentry) : t.mapped sin' k = s.mapped sin k := by
  by_cases hlt : k < sin.din.blocks.toNat
  · exact h.mapped_eq k hlt (hblocks ▸ hlt)
  · rw [h.mapped_eq_zero (by omega) hk, ho.mapped_eq_zero (by omega) hk]

/-- **Truncating is all or nothing** just if there are blocks enough for the new length, or none that
could be added at all. -/
theorem truncate_all_or_nothing_iff (h : Orderly s sin)
    (hblocks : sin.din.blocks.toNat = blocksFor sin.din.size.toNat) {len : Int}
    (hlen : 0 ≤ len ∧ len.toNat ≤ maxFileSize) :
    s.AllOrNothing sin len ↔ s.Fits sin len.toNat ∨ s.Stuck sin := by
  have hrun := truncfile_spec h len
  unfold AllOrNothing
  generalize s.truncfile sin len = r at hrun ⊢
  cases hrun with
  | refused hout => exact absurd hlen hout
  | same hsize hcount =>
    exact iff_of_true ⟨_, _, _, rfl, hsize, hcount, fun _ _ => rfl⟩ (.inl (.inl hcount.ge))
  | @done t sin' _ hfits hres hcount =>
    refine iff_of_true ⟨_, _, _, rfl, ?_, hcount, fun i hi => ?_⟩ (.inl hfits)
    · exact mod_eq_of_lt (hlen.2.trans_lt (by decide))
    · have hold : i < sin.din.blocks.toNat * blkSize :=
        (hi.trans_le (min_le_left _ _)).trans_le (hblocks ▸ le_blocksFor _)
      have hnew : i < sin'.din.blocks.toNat * blkSize :=
        (hi.trans_le (min_le_right _ _)).trans_le (hcount ▸ le_blocksFor _)
      exact (hres.byte_eq i hnew).trans (if_pos hold)
  | @full m e t sin' hfits hzero hres hcount =>
    by_cases hm : m = 0
    · have hcount' : sin'.din.blocks.toNat = sin.din.blocks.toNat := by omega
      exact iff_of_true ⟨_, _, _, rfl, hres.size_eq, BitVec.eq_of_toNat_eq hcount', fun k hk =>
        hres.mapped_same h hcount' hk⟩ (.inr (hzero.mp hm))
    · refine iff_of_false ?_ (not_or.mpr ⟨hfits, mt hzero.mpr hm⟩)
      rintro ⟨ret, t', sin₁, heq, hret⟩
      cases heq
      have := congrArg BitVec.toNat hret.2.1
      omega
  | panic hout =>
    rcases hout with hout | ⟨hsize, hcount⟩
    · refine iff_of_false ?_ (not_or.mpr hout)
      rintro ⟨ret, t', sin₁, heq, -⟩
      cases heq
    · exact absurd (hsize ▸ hblocks) hcount

theorem scattered_orderly : Orderly scattered scatteredFile := by
  refine ⟨scattered_filed, fun p n hp hne => ?_, fun _ => rfl⟩
  cases p with
  | direct k =>
    cases hp
    revert hne
    revert k
    decide
  | entry k => exact absurd rfl hne
  | self => cases hp
  | indirect => cases hp

/-- The file with two blocks gets the one that is free. -/
theorem truncate_all_or_nothing_grown : scattered.AllOrNothing scatteredFile 12288 :=
  (truncate_all_or_nothing_iff scattered_orderly (by decide) (by decide)).mpr
    (.inl (.inr (by decide)))

/-- With four blocks wanted and one free, the file keeps its size and has three blocks; truncating
it to the size it has is then an assertion that fails. -/
theorem truncate_stops_halfway : scatteredFile.din.blocks.toNat = blocksFor scatteredFile.din.size.toNat ∧
    ∃ t sin', scattered.truncfile scatteredFile 16384 = .ok (.error .noMem, t, sin') ∧
      sin'.din.size = scatteredFile.din.size ∧ sin'.din.blocks = 3 ∧
      t.truncfile sin' 8192 = .error .assertion ∧ ¬scattered.AllOrNothing scatteredFile 16384 := by
  refine ⟨by decide, _, _, rfl, rfl, rfl, rfl, ?_⟩
  rintro ⟨ret, t, sin', hrun, hret⟩
  cases hrun
  exact absurd hret.2.1 (by decide)

end Sfs

end UcoreMips.Kernel
