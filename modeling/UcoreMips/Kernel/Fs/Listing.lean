import UcoreMips.Kernel.Fs.FileCalls
import UcoreMips.Kernel.Fs.Pathnames

/-!
# UcoreMips.Kernel.Fs.Listing

**Listing a directory** (`file_getdirentry`, `sfs_getdirentry`). The offset of a `struct dirent` counts the
entries that were returned, not the slots: each call goes through the slots from the first, and skips the
empty ones and as many others as the offset says.
-/

namespace UcoreMips.Kernel

open UcoreMips.Lib List
open Emulator (Word)

/-- `sfs_dentry_size`. -/
def sfsDentrySize : Nat := maxFnameLen + 1

/-- `struct dirent`. -/
structure Dirent where
  offset : Word
  name : List (BitVec 8)
  deriving Repr, DecidableEq

namespace Sfs

/-- The loop of `sfs_getdirentry_sub_nolock` over the slots that are left, from `i` on. -/
def getdirentrySub : (n : Nat) → (i slot : Nat) → Sfs → SfsInode →
    Except Stop (Except Err DirEntry × Sfs × SfsInode)
  | 0, _, _, s, sin => .ok (.error .noEnt, s, sin)
  | n + 1, i, slot, s, sin => do
    match ← s.direntRead sin i with
    | (.error e, s, sin) => return (.error e, s, sin)
    | (.ok entry, s, sin) =>
      if entry.ino = 0 then getdirentrySub n (i + 1) slot s sin
      else if slot = 0 then return (.ok entry, s, sin)
      else getdirentrySub n (i + 1) (slot - 1) s sin

/-- `sfs_getdirentry`, where `memory` says whether it gets its memory. -/
def sfsGetdirentry (s : Sfs) (sin : SfsInode) (memory : Bool) (iob : Iobuf) :
    Except VfsStop (Int × Iobuf × Sfs × SfsInode) :=
  let slot := iob.offset.toNat / sfsDentrySize
  if memory = false then .ok (-eNoMem, iob, s, sin)
  else if iob.offset.slt 0 ∨ iob.offset.toNat % sfsDentrySize ≠ 0 then .ok (-eInval, iob, s, sin)
  else if sin.din.blocks.toNat < slot then .ok (-eNoent, iob, s, sin)
  else do
    match ← (getdirentrySub sin.din.blocks.toNat 0 slot s sin).mapError .sfs with
    | (.error e, s, sin) => return (e.code, iob, s, sin)
    | (.ok entry, s, sin) =>
      let (ret, iob) ← iob.move entry.name
      return (match ret with | .ok _ => 0 | .error e => e, iob, s, sin)

end Sfs

/-- `vop_getdirentry`. -/
def Vfs.vopGetdirentry (v : Vfs) (memory : Bool) (n : NodeId) (iob : Iobuf) :
    Except VfsStop (Int × Iobuf × Vfs) := do
  let node ← v.vop n
  match node.info with
  | .dir sin =>
    let (ret, iob, sfs, sin) ← v.sfs.sfsGetdirentry sin memory iob
    return (ret, iob, v.setDir n node sfs sin)
  | _ => throw .missing

namespace Files

/-- `file_getdirentry`. -/
def fileGetdirentry (c : Files) (memory : Bool) (fd : Int) (d : Dirent) :
    Except VfsStop (Int × Dirent × Files) :=
  match fd2file c.fdArray fd with
  | none => .ok (-eInval, d, c)
  | some f => do
    let c ← c.acquire f
    let (ret, iob, vfs) ← c.vfs.vopGetdirentry memory (← c.node f) (.init d.name d.offset)
    let offset := if ret = 0 then d.offset + BitVec.ofNat 32 iob.used else d.offset
    return (ret, ⟨offset, iob.bytes⟩, ← { c with vfs := vfs }.release f)

/-- Calls one after the other until one does not return 0: what each has stored, and the last code. -/
def listing (fd : Int) : (n : Nat) → Files → Dirent → Except VfsStop (List Dirent × Int × Files)
  | 0, c, _ => .ok ([], 0, c)
  | n + 1, c, d => do
    let (ret, d, c) ← c.fileGetdirentry true fd d
    if ret ≠ 0 then return ([], ret, c)
    else
      let (ds, ret, c) ← listing fd n c d
      return (d :: ds, ret, c)

end Files

/-! ### The slots -/

namespace Sfs

variable {s t : Sfs} {sin : SfsInode} {name : List (BitVec 8)}

/-- What is in a slot of a directory. -/
def dirEntry (s : Sfs) (sin : SfsInode) (k : Nat) : DirEntry :=
  let bytes := (s.disk (s.mapped sin k)).slice 0 (4 + sfsDentrySize)
  ⟨leWord bytes, (bytes.drop 4).take maxFnameLen ++ [0]⟩

/-- The entries in `n` slots from `i` on that are not empty. -/
def live (s : Sfs) (sin : SfsInode) (i n : Nat) : List DirEntry :=
  ((List.range' i n).map (s.dirEntry sin)).filter (·.ino ≠ 0)

/-- The entries of a directory. -/
abbrev entries (s : Sfs) (sin : SfsInode) : List DirEntry := s.live sin 0 sin.din.blocks.toNat

theorem Same.live (h : Same s t) : t.live sin = s.live sin := by
  unfold Sfs.live dirEntry
  simp only [h.mapped, h.disk]

theorem length_live_le (s : Sfs) (sin : SfsInode) (i n : Nat) : (s.live sin i n).length ≤ n := by
  refine (length_filter_le ..).trans ?_
  rw [length_map, length_range']

theorem length_name {i n : Nat} {e : DirEntry} (h : e ∈ s.live sin i n) : e.name.length = sfsDentrySize := by
  obtain ⟨k, -, rfl⟩ := mem_map.mp (mem_of_mem_filter h)
  simp [dirEntry, sfsDentrySize]

/-- A directory that can be read. -/
structure Listable (s : Sfs) (sin : SfsInode) : Prop where
  mapped : Mapped s sin
  io : s.Reliable
  type : sin.din.type = typeDir

theorem Listable.same (h : Listable s sin) (hsame : Same s t) : Listable t sin :=
  ⟨hsame.filed h.mapped, hsame.io h.io, h.type⟩

theorem direntRead_eq (h : Listable s sin) {k : Nat} (hk : k < sin.din.blocks.toNat) :
    ∃ t, Same s t ∧ s.direntRead sin k = .ok (.ok (s.dirEntry sin k), t, sin) := by
  obtain ⟨t, hsame, hload⟩ := bmapLoad_read h.mapped h.io hk
  have huse := hsame.inUse (h.mapped.mapped k hk)
  obtain ⟨u, hsame', hread | ⟨hio, -⟩⟩ := rbuf_spec huse.1 (show 0 < blkSize by decide)
    (show 0 + (4 + (maxFnameLen + 1)) ≤ blkSize by decide)
  · refine ⟨u, hsame.trans hsame', ?_⟩
    rw [direntRead, if_neg (not_not.mpr ⟨h.type, hk⟩), hload]
    simp only [ok_bind, assertInuse_of (hsame.sound h.mapped.sound) huse, hread, hsame.disk]
    rfl
  · exact absurd (hsame.io h.io) hio

theorem getdirentrySub_eq (n : Nat) : ∀ {s : Sfs} {i : Nat} (slot : Nat), Listable s sin →
    i + n ≤ sin.din.blocks.toNat → ∃ t, Same s t ∧ getdirentrySub n i slot s sin =
      .ok (((s.live sin i n)[slot]?.map Except.ok).getD (.error .noEnt), t, sin) := by
  induction n with
  | zero => exact fun {s _} _ _ _ => ⟨s, .refl s, rfl⟩
  | succ n ih =>
    intro s i slot h hn
    obtain ⟨t, hsame, hread⟩ := direntRead_eq h (show i < _ by omega)
    have hlive : s.live sin i (n + 1) =
        if (s.dirEntry sin i).ino = 0 then s.live sin (i + 1) n
        else s.dirEntry sin i :: s.live sin (i + 1) n := by
      simp only [Sfs.live, List.range'_succ, map_cons, filter_cons, decide_not]
      split <;> simp_all
    have hrest : ∀ slot, ∃ u, Same s u ∧ getdirentrySub n (i + 1) slot t sin =
        .ok (((s.live sin (i + 1) n)[slot]?.map Except.ok).getD (.error .noEnt), u, sin) := fun slot => by
      obtain ⟨u, hsame', hrun⟩ := ih slot (h.same hsame) (show i + 1 + n ≤ _ by omega)
      exact ⟨u, hsame.trans hsame', hsame.live ▸ hrun⟩
    rw [getdirentrySub, hread, hlive]
    simp only [ok_bind]
    split
    · exact hrest slot
    · cases slot with
      | zero => exact ⟨t, hsame, rfl⟩
      | succ slot => exact hrest slot

/-! ### The search for a name -/

/-- `m` is an empty slot, or past the slots. -/
def FreeSlot (s : Sfs) (sin : SfsInode) (m : Nat) : Prop :=
  m = sin.din.blocks.toNat ∨ m < sin.din.blocks.toNat ∧ (s.dirEntry sin m).ino = 0

theorem searchFrom_eq (n : Nat) : ∀ {s : Sfs} {i m : Nat},
    Listable s sin → i + n ≤ sin.din.blocks.toNat → FreeSlot s sin m →
    let r := (List.range' i n).find? fun k => (s.dirEntry sin k).ino ≠ 0 ∧ name = cstr (s.dirEntry sin k).name
    ∃ m' t, FreeSlot s sin m' ∧ Same s t ∧ searchFrom name n i m s sin =
      .ok (r.elim (.error .noEnt) fun k => .ok (k, (s.dirEntry sin k).ino), m', t, sin) := by
  induction n with
  | zero => exact fun {s _ m} _ _ hm => ⟨m, s, hm, .refl s, rfl⟩
  | succ n ih =>
    intro s i m h hn hm
    obtain ⟨t, hsame, hread⟩ := direntRead_eq h (show i < _ by omega)
    have hentry : t.dirEntry sin = s.dirEntry sin := by
      unfold dirEntry
      simp only [hsame.mapped, hsame.disk]
    have hrest := fun m => ih (m := m) (h.same hsame) (show i + 1 + n ≤ _ by omega)
    simp only [FreeSlot, hentry] at hrest
    rw [searchFrom, hread, List.range'_succ, find?_cons]
    by_cases hino : (s.dirEntry sin i).ino = 0
    · obtain ⟨m', u, hm', hsame', hrun⟩ := hrest i (.inr ⟨by omega, hino⟩)
      rw [decide_eq_false fun h => h.1 hino]
      exact ⟨m', u, hm', hsame.trans hsame', (if_pos hino).trans hrun⟩
    · by_cases hname : name = cstr (s.dirEntry sin i).name
      · rw [decide_eq_true ⟨hino, hname⟩]
        exact ⟨m, t, hm, hsame, (if_neg hino).trans (if_pos hname)⟩
      · obtain ⟨m', u, hm', hsame', hrun⟩ := hrest m hm
        rw [decide_eq_false fun h => hname h.2]
        exact ⟨m', u, hm', hsame.trans hsame', (if_neg hino).trans ((if_neg hname).trans hrun)⟩

end Sfs

/-! ### The calls -/

/-- The offset behind `k` entries. -/
def entryOffset (k : Nat) : Word := BitVec.ofNat 32 (sfsDentrySize * k)

theorem entryOffset_succ (k : Nat) : entryOffset k + BitVec.ofNat 32 sfsDentrySize = entryOffset (k + 1) := by
  rw [entryOffset, entryOffset, Nat.mul_succ, BitVec.ofNat_add]

/-- The call with the offset behind `k` entries: the code, and the buffer afterwards. -/
theorem Sfs.sfsGetdirentry_eq {s : Sfs} {sin : SfsInode} {k : Nat} {name : List (BitVec 8)} (h : Listable s sin)
    (hk : k ≤ sin.din.blocks.toNat) (hname : name.length = sfsDentrySize) : ∃ t, Same s t ∧
      s.sfsGetdirentry sin true (.init name (entryOffset k)) =
        .ok (match (s.entries sin)[k]? with
          | none => (-eNoent, .init name (entryOffset k), t, sin)
          | some e => (0, ⟨e.name, sfsDentrySize, entryOffset (k + 1), sfsDentrySize, 0⟩, t, sin)) := by
  have hfew : sin.din.blocks.toNat ≤ 1036 := h.mapped.few
  have hoff : (entryOffset k).toNat = 256 * k := Nat.mod_eq_of_lt (show 256 * k < 2 ^ 32 by omega)
  have hslot : (entryOffset k).toNat / sfsDentrySize = k := hoff ▸ Nat.mul_div_cancel_left k (by decide)
  have hvalid : ¬((entryOffset k).slt 0 ∨ (entryOffset k).toNat % sfsDentrySize ≠ 0) := by
    rw [slt_iff_of_lt (by omega) (by decide), hoff]
    exact not_or.mpr ⟨Nat.not_lt_zero _, not_not.mpr (Nat.mul_mod_right 256 k)⟩
  obtain ⟨t, hsame, hrun⟩ := getdirentrySub_eq _ k h (Nat.zero_add _).le
  refine ⟨t, hsame, ?_⟩
  simp only [sfsGetdirentry, Iobuf.init, hslot, if_neg hvalid, if_neg (Nat.not_lt.mpr hk), hrun]
  cases hget : (s.entries sin)[k]? with
  | none => rfl
  | some e =>
    have hlen := length_name (mem_of_getElem? hget)
    have hmove := PathSys.Iobuf.move_append [] name e.name (entryOffset k) name.length (by omega)
    rw [drop_eq_nil_of_le (by omega), nil_append, nil_append, append_nil, hlen, hname,
      entryOffset_succ] at hmove
    simp only [Option.map_some, Option.getD_some, Except.mapError, ok_bind, hname]
    exact hmove ▸ rfl

namespace Files

variable {c : Files} {fd : Int} {f : FdIndex} {n : NodeId} {sin : SfsInode} {name : List (BitVec 8)}

/-- The descriptor is open on a directory of the volume. -/
structure OpenDir (c : Files) (fd : Int) (f : FdIndex) (n : NodeId) (sin : SfsInode) : Prop extends
    c.Entry fd f n where
  inode : ∃ node, c.vfs.inode n = some node ∧ node.check = true ∧ node.info = .dir sin

/-- The disk was read. -/
def onDisk (c : Files) (s : Sfs) : Files := { c with vfs := { c.vfs with sfs := s } }

theorem OpenDir.fileGetdirentry_eq {offset : Word} {ret : Int} {iob : Iobuf} {t : Sfs} (h : c.OpenDir fd f n sin)
    (hget : c.vfs.sfs.sfsGetdirentry sin true (.init name offset) = .ok (ret, iob, t, sin)) :
    c.fileGetdirentry true fd ⟨offset, name⟩ = .ok (ret,
      ⟨if ret = 0 then offset + BitVec.ofNat 32 iob.used else offset, iob.bytes⟩, c.onDisk t) := by
  obtain ⟨node, hnode, hcheck, hinfo⟩ := h.inode
  have hvop : c.vfs.vopGetdirentry true n (.init name offset) = .ok (ret, iob, { c.vfs with sfs := t }) := by
    simp only [Vfs.vopGetdirentry, Vfs.vop, hnode, hcheck, if_true, ok_bind, hinfo, hget, Vfs.setDir, Vfs.set]
    rw [← hinfo, ← hnode, Function.update_eq_self]
    rfl
  unfold fileGetdirentry
  rw [h.found]
  simp only [acquire_eq h.status, ok_bind, h.acquired_node]
  simp only [Files.set, hvop, ok_bind]
  rw [h.released _ (c.fdArray f).pos, placed_self]
  rfl

/-- What the calls store, one after the other. -/
def listed (es : List DirEntry) : List Dirent := es.mapIdx fun k e => ⟨entryOffset (k + 1), e.name⟩

/-- The calls from the entry `k` on. -/
theorem OpenDir.listing_eq (m : Nat) {es : List DirEntry} : ∀ {c : Files} {k : Nat} {name : List (BitVec 8)},
    c.OpenDir fd f n sin → c.vfs.sfs.Listable sin → c.vfs.sfs.entries sin = es →
    name.length = sfsDentrySize → k ≤ es.length → es.length < k + m → ∃ t, Sfs.Same c.vfs.sfs t ∧
      listing fd m c ⟨entryOffset k, name⟩ = .ok ((listed es).drop k, -eNoent, c.onDisk t) := by
  induction m with
  | zero => exact fun _ _ _ _ hk hm => absurd hk (by omega)
  | succ m ih =>
    rintro c k name h hs rfl hname hk hm
    obtain ⟨t, hsame, hget⟩ := Sfs.sfsGetdirentry_eq hs (hk.trans (Sfs.length_live_le ..)) hname
    have hlen : (listed (c.vfs.sfs.entries sin)).length = _ := length_mapIdx
    rw [listing]
    rcases hk.eq_or_lt with hlast | hlt
    · rw [List.getElem?_eq_none hlast.ge] at hget
      rw [h.fileGetdirentry_eq hget, drop_eq_nil_of_le (hlen.trans hlast.symm).le]
      exact ⟨t, hsame, rfl⟩
    · rw [List.getElem?_eq_getElem hlt] at hget
      have hentries : (c.onDisk t).vfs.sfs.entries sin = c.vfs.sfs.entries sin :=
        congrFun (congrFun hsame.live 0) _
      obtain ⟨u, hsame', hrest⟩ := ih (c := c.onDisk t) (k := k + 1) ⟨⟨h.found, h.node_eq, h.count⟩, h.inode⟩ (hs.same hsame)
        hentries (Sfs.length_name (getElem_mem hlt)) hlt (by omega)
      refine ⟨u, hsame.trans hsame', ?_⟩
      have hcall := h.fileGetdirentry_eq hget
      rw [if_pos rfl, show Iobuf.used ⟨_, _, _, sfsDentrySize, 0⟩ = sfsDentrySize from rfl, entryOffset_succ] at hcall
      rw [hcall, drop_eq_getElem_cons (hlen.symm ▸ hlt)]
      simp only [ok_bind, ne_eq, not_true_eq_false, if_false, hrest, listed, getElem_mapIdx]
      rfl

/-- **Listing a directory**: the calls store the entries that are not empty, in the order of the slots, and
then there is none; an offset that is not one behind entries is refused. -/
theorem directory_listing_complete (h : c.OpenDir fd f n sin) (hs : c.vfs.sfs.Listable sin)
    (hname : name.length = sfsDentrySize) :
    (∀ m > (c.vfs.sfs.entries sin).length, ∃ t, Sfs.Same c.vfs.sfs t ∧
      listing fd m c ⟨0, name⟩ = .ok (listed (c.vfs.sfs.entries sin), -eNoent, c.onDisk t)) ∧
    ∀ offset : Word, offset.slt 0 ∨ offset.toNat % sfsDentrySize ≠ 0 →
      c.fileGetdirentry true fd ⟨offset, name⟩ = .ok (-eInval, ⟨offset, name⟩, c) := by
  constructor
  · intro m hm
    exact h.listing_eq (k := 0) m hs rfl hname (Nat.zero_le _) ((Nat.zero_add m).symm ▸ hm)
  · intro offset hoffset
    have hget : c.vfs.sfs.sfsGetdirentry sin true (.init name offset) =
        .ok (-eInval, .init name offset, c.vfs.sfs, sin) := by
      exact if_pos hoffset
    exact h.fileGetdirentry_eq hget

/-- A directory of two slots, the first of them empty. -/
def halfEmptyDir : SfsInode := { Sfs.scatteredFile with din := { Sfs.scatteredFile.din with type := typeDir } }

def halfEmpty : Files where
  vfs := ⟨Sfs.scattered, fun n => if n = 1 then some ⟨.dir halfEmptyDir, 1, 1⟩ else none, [], []⟩
  fdArray f := if f = 0 then ⟨.opened, true, false, 0, 0, some 1, 1⟩ else ⟨.none, false, false, f, 0, none, 0⟩

theorem directory_listing_complete_halfEmpty : ∃ t, listing 0 2 halfEmpty ⟨0, replicate 256 0⟩ =
    .ok ([⟨256, replicate 255 1 ++ [0]⟩], -eNoent, halfEmpty.onDisk t) := by
  have hentries : halfEmpty.vfs.sfs.entries halfEmptyDir = [⟨0x01010101, replicate 255 1 ++ [0]⟩] := by
    decide +kernel
  obtain ⟨t, -, hrun⟩ := (directory_listing_complete (c := halfEmpty) (f := 0) (n := 1)
    (show halfEmpty.OpenDir 0 0 1 halfEmptyDir from ⟨⟨by decide, rfl, by decide⟩, _, rfl, rfl, rfl⟩)
    ⟨{ Sfs.scattered_mapped with }, fun _ => rfl, rfl⟩ (length_replicate (n := 256) (a := 0))).1 2 (by rw [hentries]; decide)
  rw [hentries] at hrun
  exact ⟨t, hrun⟩

end Files

end UcoreMips.Kernel
