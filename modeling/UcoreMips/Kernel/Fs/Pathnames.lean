import UcoreMips.Kernel.Fs.Vop

/-!
# UcoreMips.Kernel.Fs.Pathnames

**Path names** (`kern/fs/vfs/vfslookup.c`, `kern/fs/vfs/vfspath.c`, and `sfs_lookup` and `sfs_namefile`
of `kern/fs/sfs/sfs_inode.c`). `vfs_getcwd` writes the path of the current directory into a buffer, from
its end: the name of each directory is looked up in its parent, until a directory is its own parent.
`vfs_lookup` takes the name of the device off a path, and `sfs_lookup` searches the root for the rest.

It searches for the rest *as one name*. The path of a directory other than the root has a slash behind
each name, and no name has a slash: what `vfs_getcwd` returns can be looked up only for the root.

A directory is the list of its slots, as `sfs_dirent_read_nolock` returns them; an inode is its number,
since there is at most one for a number in memory. There is memory for what is allocated.
-/

namespace UcoreMips.Kernel

open UcoreMips.Lib
open List Function Nat

def slash : BitVec 8 := 0x2f
def colon : BitVec 8 := 0x3a

/-- The name `..`. -/
def dotdot : List (BitVec 8) := [0x2e, 0x2e]

/-- `"disk0"`, the device of the volume. -/
def disk0 : List (BitVec 8) := [0x64, 0x69, 0x73, 0x6b, 0x30]

/-- `SFS_BLKN_ROOT`. -/
def rootIno : Ino := 1

/-- The directories of the volume, and the references to the inodes in memory. -/
structure PathSys where
  dirs : Ino → Option (List DirEntry)
  refs : Ino → Int

/-- What a path leads to. -/
inductive PathNode
  | sfs (ino : Ino)
  | device (dev : CharDevice)
  deriving Repr, DecidableEq

namespace PathSys

/-! ### Directories -/

/-- `vop_ref_inc`; `sfs_load_inode` does the same, to an inode in memory or to a new one. -/
def vopRefInc (s : PathSys) (ino : Ino) : PathSys :=
  { s with refs := Function.update s.refs ino (s.refs ino + 1) }

/-- `vop_ref_dec`. -/
def vopRefDec (s : PathSys) (ino : Ino) : Except VfsStop PathSys :=
  if 0 < s.refs ino then .ok { s with refs := Function.update s.refs ino (s.refs ino - 1) }
  else .error .count

/-- `sfs_dirent_search_nolock`. -/
def direntSearch (slots : List DirEntry) (name : List (BitVec 8)) : Except VfsStop (Except Int Ino) :=
  if ¬name.length ≤ maxFnameLen then .error (.sfs .assertion)
  else
    match slots.find? fun e => e.ino ≠ 0 ∧ name = cstr e.name with
    | none => .ok (.error (-eNoent))
    | some e => .ok (.ok e.ino)

/-- `sfs_dirent_findino_nolock`. -/
def direntFindino (slots : List DirEntry) (ino : Ino) : Option DirEntry := slots.find? (·.ino = ino)

/-- `sfs_lookup_once`. -/
def lookupOnce (s : PathSys) (node : Ino) (name : List (BitVec 8)) :
    Except VfsStop (Except Int Ino × PathSys) :=
  match s.dirs node with
  | none => .error (.sfs .assertion)
  | some slots => do
    match ← direntSearch slots name with
    | .error e => return (.error e, s)
    | .ok ino => return (.ok ino, s.vopRefInc ino)

/-- `sfs_lookup`. -/
def sfsLookup (s : PathSys) (node : Ino) (path : List (BitVec 8)) :
    Except VfsStop (Except Int Ino × PathSys) :=
  if path = [] ∨ path.head? = some slash then .error (.sfs .assertion)
  else do
    let s := s.vopRefInc node
    match s.dirs node with
    | none => return (.error (-eNotdir), ← s.vopRefDec node)
    | some _ =>
      let (ret, s) ← s.lookupOnce node path
      return (ret, ← s.vopRefDec node)

/-! ### From a path to an inode -/

/-- `vfs_get_root`: `disk0` is mounted, the other devices are not mountable. -/
def vfsGetRoot (s : PathSys) (devname : List (BitVec 8)) : Except Int PathNode × PathSys :=
  if devname = disk0 then (.ok (.sfs rootIno), s.vopRefInc rootIno)
  else if devname = [0x73, 0x74, 0x64, 0x69, 0x6e] then (.ok (.device .stdin), s)
  else if devname = [0x73, 0x74, 0x64, 0x6f, 0x75, 0x74] then (.ok (.device .stdout), s)
  else (.error (-eNoDev), s)

/-- `vfs_get_curdir`, where `pwd` is the current directory. -/
def vfsGetCurdir (s : PathSys) (pwd : Option Ino) : Except Int PathNode × PathSys :=
  match pwd with
  | none => (.error (-eNoent), s)
  | some node => (.ok (.sfs node), s.vopRefInc node)

/-- `get_device`: the inode to begin at, and the rest of the path. The volume is that of the boot
file system, and of the current directory. -/
def getDevice (s : PathSys) (pwd : Option Ino) (path : List (BitVec 8)) :
    Except VfsStop (Except Int (PathNode × List (BitVec 8)) × PathSys) :=
  let front := path.takeWhile fun c => c ≠ colon ∧ c ≠ slash
  match path.drop front.length with
  | [] =>
    let (ret, s) := s.vfsGetCurdir pwd
    .ok (ret.map (·, path), s)
  | c :: rest =>
    if c = slash ∧ front ≠ [] then
      let (ret, s) := s.vfsGetCurdir pwd
      .ok (ret.map (·, path), s)
    else if c = colon ∧ front ≠ [] then
      let (ret, s) := s.vfsGetRoot front
      .ok (ret.map (·, rest.dropWhile (· = slash)), s)
    else if c = slash then
      .ok (.ok (.sfs rootIno, rest.dropWhile (· = slash)), s.vopRefInc rootIno)
    else
      match pwd with
      | none => .ok (.error (-eNoent), s)
      | some node => do
        let s := (s.vopRefInc node).vopRefInc rootIno
        return (.ok (.sfs rootIno, rest.dropWhile (· = slash)), ← s.vopRefDec node)

/-- `vfs_lookup`. -/
def vfsLookup (s : PathSys) (pwd : Option Ino) (path : List (BitVec 8)) :
    Except VfsStop (Except Int PathNode × PathSys) := do
  match ← s.getDevice pwd path with
  | (.error e, s) => return (.error e, s)
  | (.ok (node, []), s) => return (.ok node, s)
  | (.ok (.device _, _), _) => .error .missing
  | (.ok (.sfs node, path), s) =>
    let (ret, s) ← s.sfsLookup node path
    return (ret.map .sfs, ← s.vopRefDec node)

end PathSys

/-! ### From an inode to its path -/

/-- `iobuf_move` into the buffer. -/
def Iobuf.move (iob : Iobuf) (data : List (BitVec 8)) : Except VfsStop (Except Int Unit × Iobuf) := do
  let alen := min iob.resid data.length
  let iob ← (iob.store (data.take alen)).skip alen
  return (if alen = data.length then .ok () else .error (-eNoMem), iob)

/-- Where `sfs_namefile` is in the buffer. -/
structure Naming where
  sys : PathSys
  bytes : List (BitVec 8)
  ptr : Nat
  resid : Nat

namespace PathSys

/-- The loop of `sfs_namefile`. -/
def nameLoop : Nat → Naming → Ino → Except VfsStop (Except Int Unit × Naming)
  | 0, _, _ => .error (.sfs .outOfFuel)
  | fuel + 1, x, node => do
    match ← x.sys.lookupOnce node dotdot with
    | (.error e, s) => return (.error e, { x with sys := ← s.vopRefDec node })
    | (.ok parent, s) =>
      let s ← s.vopRefDec node
      if node = parent then return (.ok (), { x with sys := ← s.vopRefDec node })
      else
        match s.dirs parent with
        | none => .error (.sfs .assertion)
        | some slots =>
          match direntFindino slots node with
          | none => return (.error (-eNoent), { x with sys := ← s.vopRefDec parent })
          | some entry =>
            let alen := (cstr entry.name).length + 1
            if x.resid < alen then return (.error (-eNoMem), { x with sys := ← s.vopRefDec parent })
            else
              let bytes := putAt x.bytes (x.ptr - alen) (cstr entry.name ++ [slash])
              nameLoop fuel ⟨s, bytes, x.ptr - alen, x.resid - alen⟩ parent

/-- `sfs_namefile`. -/
def namefile (fuel : Nat) (s : PathSys) (node : Ino) (iob : Iobuf) :
    Except VfsStop (Except Int Unit × Iobuf × PathSys) :=
  if iob.resid ≤ 2 then .ok (.error (-eNoMem), iob, s)
  else do
    match ← nameLoop fuel ⟨s.vopRefInc node, iob.bytes, iob.base + iob.resid, iob.resid - 2⟩ node with
    | (.error e, x) => return (.error e, { iob with bytes := x.bytes }, x.sys)
    | (.ok _, x) =>
      let alen := iob.resid - x.resid - 2
      let bytes := putAt x.bytes (iob.base + 1) ((x.bytes.drop x.ptr).take alen)
      let bytes := putAt (putAt bytes iob.base [slash]) (iob.base + 1 + alen) [0]
      return (.ok (), ← { iob with bytes := bytes }.skip alen, x.sys)

/-- `vfs_getcwd`. -/
def vfsGetcwd (fuel : Nat) (s : PathSys) (pwd : Option Ino) (iob : Iobuf) :
    Except VfsStop (Except Int Unit × Iobuf × PathSys) :=
  match pwd with
  | none => .ok (.error (-eNoent), iob, s)
  | some node => do
    let s := s.vopRefInc node
    match ← iob.move disk0 with
    | (.error e, iob) => return (.error e, iob, ← s.vopRefDec node)
    | (.ok _, iob) =>
      match ← iob.move [colon] with
      | (.error e, iob) => return (.error e, iob, ← s.vopRefDec node)
      | (.ok _, iob) =>
        let (ret, iob, s) ← s.namefile fuel node iob
        return (ret, iob, ← s.vopRefDec node)

/-! ### What `sfs_namefile` writes -/

/-- A directory tree: every directory is listed in its parent, which its entry `..` names, and there is
a way up from it to the root. -/
structure DirTree (dirs : Ino → Option (List DirEntry)) (parent : Ino → Ino) : Prop where
  zero : dirs 0 = none
  root : (dirs rootIno).isSome ∧ parent rootIno = rootIno
  up : ∀ d slots, dirs d = some slots →
    direntSearch slots dotdot = .ok (.ok (parent d)) ∧ (dirs (parent d)).isSome
  listed : ∀ d slots, (dirs d).isSome → d ≠ rootIno → dirs (parent d) = some slots →
    ∃ e ∈ slots, e.ino = d
  unique : ∀ d slots, dirs d = some slots → ∀ e ∈ slots, ∀ e' ∈ slots, e.ino ≠ 0 → e'.ino ≠ 0 →
    cstr e.name = cstr e'.name → e = e'
  rooted : ∀ d, (dirs d).isSome → ∃ k, parent^[k] d = rootIno

/-- The names in use have neither a slash nor a colon. -/
structure Tree (dirs : Ino → Option (List DirEntry)) (parent : Ino → Ino) : Prop extends
    DirTree dirs parent where
  names : ∀ d slots, dirs d = some slots → ∀ e ∈ slots, e.ino ≠ 0 →
    slash ∉ cstr e.name ∧ colon ∉ cstr e.name

/-- The names of the directories on the way from the root down to a directory. -/
inductive Components (dirs : Ino → Option (List DirEntry)) : Ino → List (List (BitVec 8)) → Prop
  | root {slots : List DirEntry} (hdir : dirs rootIno = some slots)
      (hup : direntSearch slots dotdot = .ok (.ok rootIno)) : Components dirs rootIno []
  | dir {d parent : Ino} {slots above : List DirEntry} {entry : DirEntry} {names : List (List (BitVec 8))}
      (hdir : dirs d = some slots) (hup : direntSearch slots dotdot = .ok (.ok parent)) (hne : d ≠ parent)
      (habove : dirs parent = some above) (hfind : direntFindino above d = some entry)
      (hpath : Components dirs parent names) : Components dirs d (names ++ [cstr entry.name])

/-- The names, with a slash behind each. -/
def pathText (names : List (List (BitVec 8))) : List (BitVec 8) := names.flatMap (· ++ [slash])

theorem pathText_concat (names : List (List (BitVec 8))) (name : List (BitVec 8)) :
    pathText (names ++ [name]) = pathText names ++ (name ++ [slash]) := by
  simp [pathText]

theorem length_pathText_concat (names : List (List (BitVec 8))) (name : List (BitVec 8)) :
    (pathText (names ++ [name])).length = (pathText names).length + (name.length + 1) := by
  simp [pathText]

variable {dirs : Ino → Option (List DirEntry)} {parent : Ino → Ino} {d ino up : Ino} {fuel : Nat}
  {names : List (List (BitVec 8))} {s t : PathSys} {buf data name : List (BitVec 8)}
  {slots : List DirEntry} {entry : DirEntry} {iob : Iobuf}

theorem DirTree.components (h : DirTree dirs parent) (hd : (dirs d).isSome) :
    ∃ names, Components dirs d names := by
  obtain ⟨n, hn⟩ := h.rooted d hd
  -- induction on the number of steps up to the root
  induction n generalizing d with
  | zero =>
    obtain rfl : d = rootIno := hn
    obtain ⟨slots, hslots⟩ := Option.isSome_iff_exists.mp hd
    exact ⟨[], .root hslots (by rw [(h.up _ _ hslots).1, h.root.2])⟩
  | succ n ih =>
    obtain ⟨slots, hslots⟩ := Option.isSome_iff_exists.mp hd
    obtain ⟨hup, hsome⟩ := h.up d slots hslots
    by_cases hroot : d = parent d
    · have hfix : parent^[n + 1] d = d := iterate_fixed hroot.symm _
      obtain rfl : d = rootIno := hfix.symm.trans hn
      exact ⟨[], .root hslots (by rw [hup, ← hroot])⟩
    · have hne : d ≠ rootIno := fun heq => hroot (by rw [heq, h.root.2])
      obtain ⟨above, habove⟩ := Option.isSome_iff_exists.mp hsome
      obtain ⟨e, hmem, hino⟩ := h.listed d above hd hne habove
      have hfind : (direntFindino above d).isSome := List.find?_isSome.mpr ⟨e, hmem, by simpa using hino⟩
      obtain ⟨entry, hentry⟩ := Option.isSome_iff_exists.mp hfind
      obtain ⟨names, hpath⟩ := ih hsome hn
      exact ⟨_, .dir hslots hup hroot habove hentry hpath⟩

/-- Nothing but the bytes from `lo` to `hi` is changed. -/
def Outside (lo hi : Nat) (before after : List (BitVec 8)) : Prop :=
  ∀ i, i < lo ∨ hi ≤ i → after[i]? = before[i]?

theorem Outside.mono {lo hi lo' hi' : Nat} {a b : List (BitVec 8)} (h : Outside lo hi a b) (hlo : lo' ≤ lo)
    (hhi : hi ≤ hi') : Outside lo' hi' a b :=
  fun i hi => h i (by omega)

theorem Outside.trans {lo hi : Nat} {a b c : List (BitVec 8)} (h : Outside lo hi a b)
    (h' : Outside lo hi b c) : Outside lo hi a c :=
  fun i hi => (h' i hi).trans (h i hi)

theorem outside_putAt {pos : Nat} (h : pos + data.length ≤ buf.length) :
    Outside pos (pos + data.length) buf (putAt buf pos data) := by
  intro i hi
  have hlen : (buf.take pos).length = pos := by
    rw [length_take]
    omega
  rw [putAt, append_assoc]
  rcases hi with hi | hi
  · rw [List.getElem?_append_left (by omega), List.getElem?_take_of_lt hi]
  · rw [List.getElem?_append_right (by omega), List.getElem?_append_right (by omega), List.getElem?_drop, hlen]
    congr 1
    omega

theorem putAt_nil (buf : List (BitVec 8)) (pos : Nat) : putAt buf pos [] = buf := by
  simp [putAt]

theorem length_putAt {pos : Nat} (h : pos + data.length ≤ buf.length) :
    (putAt buf pos data).length = buf.length := by
  simp only [putAt, length_append, length_take, length_drop]
  omega

/-- What is written in front of what has been written. -/
theorem putAt_before {a b : List (BitVec 8)} {pos : Nat} (hpos : pos + a.length ≤ buf.length) :
    putAt (putAt buf (pos + a.length) b) pos a = putAt buf pos (a ++ b) := by
  have hlen : (buf.take (pos + a.length)).length = pos + a.length := by
    rw [length_take]
    omega
  rw [putAt, putAt, putAt, append_assoc (buf.take (pos + a.length)), drop_left' hlen,
    take_append_of_le_length (by omega), take_take, min_eq_left (by omega)]
  simp [add_assoc]

theorem lookupOnce_eq (hdir : s.dirs d = some slots)
    (hsearch : direntSearch slots name = .ok (.ok ino)) :
    s.lookupOnce d name = .ok (.ok ino, s.vopRefInc ino) := by
  simp only [lookupOnce, hdir, hsearch]
  rfl

/-- A reference less. -/
def dropRef (s : PathSys) (ino : Ino) : PathSys :=
  { s with refs := Function.update s.refs ino (s.refs ino - 1) }

theorem vopRefDec_eq (h : 0 < s.refs d) : s.vopRefDec d = .ok (s.dropRef d) := if_pos h

theorem dropRef_vopRefInc (s : PathSys) (ino : Ino) : (s.vopRefInc ino).dropRef ino = s := by
  simp [dropRef, vopRefInc]

theorem dropRef_comm (s : PathSys) {a b : Ino} (hab : a ≠ b) :
    (s.dropRef a).dropRef b = (s.dropRef b).dropRef a := by
  simp [dropRef, update_comm hab, hab, hab.symm]

theorem vopRefInc_refs (h : ∀ i, 0 ≤ s.refs i) (d : Ino) :
    0 < (s.vopRefInc d).refs d ∧ ∀ i, 0 ≤ (s.vopRefInc d).refs i := by
  have hd := h d
  constructor
  · simp only [vopRefInc, update_self]
    omega
  · intro i
    have hi := h i
    simp only [vopRefInc, update_apply]
    split_ifs <;> omega

/-- The reference to a directory is exchanged for one to its parent. -/
theorem exchanged (hne : d ≠ up) (hrefs : ∀ i, 0 ≤ s.refs i) (hd : 0 < s.refs d) :
    (∀ i, 0 ≤ ((s.vopRefInc up).dropRef d).refs i) ∧ 0 < ((s.vopRefInc up).dropRef d).refs up ∧
      ((s.vopRefInc up).dropRef d).dropRef up = s.dropRef d := by
  refine ⟨fun i => ?_, ?_, by rw [dropRef_comm _ hne, dropRef_vopRefInc]⟩
  · have hi := hrefs i
    have hup := hrefs up
    simp only [dropRef, vopRefInc, update_apply, if_neg hne]
    split_ifs <;> omega
  · have hup := hrefs up
    simp only [dropRef, vopRefInc, update_apply, if_neg hne.symm, if_true]
    omega

/-- What a turn of the loop makes in a directory other than the root. -/
def prepend (x : Naming) (node up : Ino) (name : List (BitVec 8)) : Naming :=
  ⟨(x.sys.vopRefInc up).dropRef node, putAt x.bytes (x.ptr - (name.length + 1)) (name ++ [slash]),
    x.ptr - (name.length + 1), x.resid - (name.length + 1)⟩

theorem nameLoop_up {above : List DirEntry} {x : Naming}
    (hdir : x.sys.dirs d = some slots) (hup : direntSearch slots dotdot = .ok (.ok up)) (hne : d ≠ up)
    (habove : x.sys.dirs up = some above) (hfind : direntFindino above d = some entry)
    (hrefs : ∀ i, 0 ≤ x.sys.refs i) (hd : 0 < x.sys.refs d) :
    nameLoop (fuel + 1) x d =
      if x.resid < (cstr entry.name).length + 1 then .ok (.error (-eNoMem), { x with sys := x.sys.dropRef d })
      else nameLoop fuel (prepend x d up (cstr entry.name)) up := by
  obtain ⟨-, hloaded, hback⟩ := exchanged hne hrefs hd
  have hkeep : 0 < (x.sys.vopRefInc up).refs d := by simpa [vopRefInc, hne] using hd
  have habove' : ((x.sys.vopRefInc up).dropRef d).dirs up = some above := habove
  simp only [nameLoop, lookupOnce_eq hdir hup, ok_bind, vopRefDec_eq hkeep, if_neg hne, habove',
    hfind, vopRefDec_eq hloaded, hback]
  rfl

section NameLoop

variable (h : Components dirs d names) (hfuel : names.length < fuel) (x : Naming)
  (hdirs : x.sys.dirs = dirs) (hrefs : ∀ i, 0 ≤ x.sys.refs i) (hd : 0 < x.sys.refs d)

include h hfuel hdirs hrefs hd

/-- The loop comes to the root, with the path in the buffer, if there is space for it. -/
theorem Components.nameLoop_eq (hspace : (pathText names).length ≤ x.resid) (hptr : x.resid ≤ x.ptr) (hbytes : x.ptr ≤ x.bytes.length) :
    nameLoop fuel x d = .ok (.ok (), ⟨x.sys.dropRef d,
      putAt x.bytes (x.ptr - (pathText names).length) (pathText names),
      x.ptr - (pathText names).length, x.resid - (pathText names).length⟩) := by
  induction h generalizing fuel x with
  | root hdir hup =>
    cases fuel with
    | zero => omega
    | succ fuel =>
      have hinc := (vopRefInc_refs hrefs rootIno).1
      simp only [nameLoop, lookupOnce_eq (hdirs ▸ hdir) hup, ok_bind, vopRefDec_eq hinc,
        dropRef_vopRefInc, if_true, vopRefDec_eq hd, pathText, flatMap_nil, putAt_nil]
      rfl
  | @dir d up slots above entry names hdir hup hne habove hfind hpath ih =>
    cases fuel with
    | zero => omega
    | succ fuel =>
      rw [length_pathText_concat] at hspace ⊢
      rw [length_append, length_singleton] at hfuel
      obtain ⟨hcounts, hloaded, hback⟩ := exchanged hne hrefs hd
      have hpos : x.ptr - ((cstr entry.name).length + 1) - (pathText names).length + (pathText names).length =
          x.ptr - ((cstr entry.name).length + 1) := by omega
      have hput := @putAt_before x.bytes (pathText names) (cstr entry.name ++ [slash])
        (x.ptr - ((cstr entry.name).length + 1) - (pathText names).length) (by omega)
      rw [hpos] at hput
      rw [nameLoop_up (hdirs ▸ hdir) hup hne (hdirs ▸ habove) hfind hrefs hd, if_neg (by omega),
        ih (by omega) (prepend x d up (cstr entry.name)) hdirs hcounts hloaded (by dsimp only [prepend]; omega)
          (by dsimp only [prepend]; omega) (by rw [prepend, length_putAt (by simp; omega)]; dsimp only; omega)]
      simp only [prepend, hback, hput, pathText_concat]
      rw [Nat.sub_sub, Nat.sub_sub, Nat.add_comm]

/-- Without the space, it stops in front of the first name that does not fit. -/
theorem Components.nameLoop_full (hspace : x.resid < (pathText names).length) (hptr : x.resid ≤ x.ptr) (hbytes : x.ptr ≤ x.bytes.length) :
    ∃ y, nameLoop fuel x d = .ok (.error (-eNoMem), y) ∧ y.sys = x.sys.dropRef d ∧
      Outside (x.ptr - x.resid) x.ptr x.bytes y.bytes := by
  induction h generalizing fuel x with
  | root => simp [pathText] at hspace
  | @dir d up slots above entry names hdir hup hne habove hfind hpath ih =>
    cases fuel with
    | zero => omega
    | succ fuel =>
      rw [length_pathText_concat] at hspace
      rw [length_append, length_singleton] at hfuel
      obtain ⟨hcounts, hloaded, hback⟩ := exchanged hne hrefs hd
      rw [nameLoop_up (hdirs ▸ hdir) hup hne (hdirs ▸ habove) hfind hrefs hd]
      split
      · exact ⟨_, rfl, rfl, fun i _ => rfl⟩
      · next hfits =>
        have hlen : (cstr entry.name ++ [slash]).length = (cstr entry.name).length + 1 := by simp
        have hwritten := @outside_putAt x.bytes (cstr entry.name ++ [slash])
          (x.ptr - ((cstr entry.name).length + 1)) (by omega)
        obtain ⟨y, hloop, hsys, hout⟩ := ih (show names.length < fuel by omega)
          (prepend x d up (cstr entry.name)) hdirs hcounts hloaded (by dsimp only [prepend]; omega)
          (by dsimp only [prepend]; omega) (by rw [prepend, length_putAt (by omega)]; dsimp only; omega)
        exact ⟨y, hloop, hsys.trans hback, (hwritten.mono (by omega) (by omega)).trans
          (hout.mono (by dsimp only [prepend]; omega) (by dsimp only [prepend]; omega))⟩

end NameLoop

theorem putAt_append_left (front buf data : List (BitVec 8)) (pos : Nat) :
    putAt (front ++ buf) (front.length + pos) data = front ++ putAt buf pos data := by
  simp [putAt, add_assoc, take_length_add_append, drop_length_add_append]

theorem putAt_zero (buf data : List (BitVec 8)) : putAt buf 0 data = data ++ buf.drop data.length := by
  simp [putAt]

/-- The path is moved from the end of the buffer to its begin, behind a slash, and a zero is set behind
it. -/
theorem putAt_path (front buf : List (BitVec 8)) (c : BitVec 8) (pos : Nat) (text : List (BitVec 8)) :
    ∃ rest, putAt (putAt (putAt (putAt (front ++ c :: buf) (front.length + (1 + pos)) text)
        (front.length + 1) text) front.length [slash]) (front.length + (1 + text.length)) [0] =
      front ++ slash :: (text ++ 0 :: rest) := by
  have hcons : ∀ (x : BitVec 8) l n data, putAt (x :: l) (1 + n) data = x :: putAt l n data :=
    fun x l n data => putAt_append_left [x] l data n
  have hself : putAt (front ++ c :: (text ++ (putAt buf pos text).drop text.length)) front.length [slash] =
      front ++ slash :: (text ++ (putAt buf pos text).drop text.length) := by
    have hzero := putAt_append_left front (c :: (text ++ (putAt buf pos text).drop text.length)) [slash] 0
    simpa [putAt_zero] using hzero
  refine ⟨((putAt buf pos text).drop text.length).drop 1, ?_⟩
  rw [putAt_append_left, hcons, putAt_append_left front _ text 1, hcons _ _ 0, putAt_zero, hself,
    putAt_append_left, hcons, ← add_zero text.length, putAt_append_left, putAt_zero]
  simp

theorem Components.namefile_eq (h : Components s.dirs d names) (hfuel : names.length < fuel)
    (hrefs : ∀ i, 0 ≤ s.refs i) (hroom : 2 < iob.resid) (hspace : (pathText names).length + 2 ≤ iob.resid)
    (hbytes : iob.base + iob.resid ≤ iob.bytes.length) :
    ∃ t rest, s.namefile fuel d iob = .ok (.ok (), t, s) ∧
      t.bytes = iob.bytes.take iob.base ++ slash :: (pathText names ++ 0 :: rest) ∧
      Outside iob.base (iob.base + iob.resid) iob.bytes t.bytes := by
  obtain ⟨hpos, hcounts⟩ := vopRefInc_refs hrefs d
  have hloop := h.nameLoop_eq hfuel ⟨s.vopRefInc d, iob.bytes, iob.base + iob.resid, iob.resid - 2⟩ rfl
    hcounts hpos (by dsimp only; omega) (by dsimp only; omega) hbytes
  rw [dropRef_vopRefInc] at hloop
  generalize pathText names = text at hspace hloop ⊢
  have halen : iob.resid - (iob.resid - 2 - text.length) - 2 = text.length := by omega
  have hread : ((putAt iob.bytes (iob.base + iob.resid - text.length) text).drop
      (iob.base + iob.resid - text.length)).take text.length = text := by
    rw [putAt, append_assoc, drop_left' (by rw [length_take]; omega), take_left]
  obtain ⟨c, buf, hsplit⟩ : ∃ c buf, iob.bytes.drop iob.base = c :: buf := by
    rw [← length_pos_iff_exists_cons, length_drop]
    omega
  have hfront : (iob.bytes.take iob.base).length = iob.base := by
    rw [length_take]
    omega
  obtain ⟨rest, hput⟩ := putAt_path (iob.bytes.take iob.base) buf c (iob.resid - text.length - 1) text
  have hptr : iob.base + (1 + (iob.resid - text.length - 1)) = iob.base + iob.resid - text.length := by
    omega
  rw [← hsplit, take_append_drop, hfront, hptr, ← add_assoc] at hput
  refine ⟨⟨_, iob.base + text.length, iob.offset + BitVec.ofNat 32 text.length, iob.len,
    iob.resid - text.length⟩, rest, ?_, hput, ?_⟩
  · simp only [namefile, if_neg (show ¬iob.resid ≤ 2 by omega), hloop, ok_bind, halen, hread,
      Iobuf.skip, if_neg (show ¬iob.resid < text.length by omega)]
    rfl
  · -- each of the four writes is in the buffer
    have hwrite : ∀ {bytes data : List (BitVec 8)} {pos : Nat}, bytes.length = iob.bytes.length ∧
        Outside iob.base (iob.base + iob.resid) iob.bytes bytes → iob.base ≤ pos →
        pos + data.length ≤ iob.base + iob.resid → (putAt bytes pos data).length = iob.bytes.length ∧
          Outside iob.base (iob.base + iob.resid) iob.bytes (putAt bytes pos data) := fun hb hlo hhi =>
      ⟨(length_putAt (by omega)).trans hb.1, hb.2.trans ((outside_putAt (by omega)).mono hlo hhi)⟩
    have hslash : [slash].length = 1 := rfl
    have hzero : [(0 : BitVec 8)].length = 1 := rfl
    refine (hwrite (hwrite (hwrite (hwrite ⟨rfl, fun _ _ => rfl⟩ ?_ ?_) ?_ ?_) ?_ ?_) ?_ ?_).2 <;> omega

/-- Without the space nothing is left but what was written into the buffer. -/
theorem Components.namefile_full (h : Components s.dirs d names) (hfuel : names.length < fuel)
    (hrefs : ∀ i, 0 ≤ s.refs i) (hspace : ¬(2 < iob.resid ∧ (pathText names).length ≤ iob.resid - 2))
    (hbytes : iob.base + iob.resid ≤ iob.bytes.length) :
    ∃ t, s.namefile fuel d iob = .ok (.error (-eNoMem), t, s) ∧
      Outside iob.base (iob.base + iob.resid) iob.bytes t.bytes := by
  by_cases hroom : iob.resid ≤ 2
  · exact ⟨iob, if_pos hroom, fun _ _ => rfl⟩
  · obtain ⟨hpos, hcounts⟩ := vopRefInc_refs hrefs d
    obtain ⟨y, hloop, hsys, hout⟩ := h.nameLoop_full hfuel
      ⟨s.vopRefInc d, iob.bytes, iob.base + iob.resid, iob.resid - 2⟩ rfl hcounts hpos
      (by dsimp only; omega) (by dsimp only; omega) hbytes
    refine ⟨{ iob with bytes := y.bytes }, ?_, hout.mono (by dsimp only; omega) le_rfl⟩
    simp only [namefile, if_neg hroom, hloop, hsys, dropRef_vopRefInc, ok_bind]
    rfl

/-- `iobuf_move` behind what is in the buffer. -/
theorem Iobuf.move_append (done buf data : List (BitVec 8)) (offset : Emulator.Word) (len : Nat)
    (h : data.length ≤ buf.length) : Iobuf.move ⟨done ++ buf, done.length, offset, len, buf.length⟩ data =
      .ok (.ok (), ⟨done ++ data ++ buf.drop data.length, (done ++ data).length,
        offset + BitVec.ofNat 32 data.length, len, (buf.drop data.length).length⟩) := by
  have hput := putAt_append_left done buf data 0
  rw [add_zero, putAt_zero, ← append_assoc] at hput
  simp [Iobuf.move, Iobuf.skip, Iobuf.store, min_eq_right h, not_lt.mpr h, hput]

/-- `vfs_getcwd` succeeds in a buffer that is large enough. -/
theorem Components.vfsGetcwd_eq {bytes : List (BitVec 8)} (h : Components s.dirs d names)
    (hfuel : names.length < fuel) (hrefs : ∀ i, 0 ≤ s.refs i)
    (hspace : (pathText names).length + 9 ≤ bytes.length) :
    ∃ iob rest, s.vfsGetcwd fuel (some d) (.init bytes 0) = .ok (.ok (), iob, s) ∧
      iob.bytes = disk0 ++ colon :: slash :: (pathText names ++ 0 :: rest) := by
  obtain ⟨hpos, hcounts⟩ := vopRefInc_refs hrefs d
  have hdev : disk0.length = 5 := rfl
  have hlen : ((bytes.drop disk0.length).drop 1).length = bytes.length - 6 := by
    simp only [length_drop, hdev]
    omega
  have hfirst : (Iobuf.init bytes 0).move disk0 = _ :=
    Iobuf.move_append [] bytes disk0 0 bytes.length (by omega)
  have hsecond := Iobuf.move_append disk0 (bytes.drop disk0.length) [colon] (0 + BitVec.ofNat 32 disk0.length)
    bytes.length (by simp only [length_drop, length_singleton]; omega)
  have hnames : Components (s.vopRefInc d).dirs d names := h
  obtain ⟨iob, rest, hname, hresult, -⟩ := hnames.namefile_eq hfuel hcounts
    (show 2 < Iobuf.resid ⟨disk0 ++ [colon] ++ (bytes.drop disk0.length).drop 1, (disk0 ++ [colon]).length,
      0 + BitVec.ofNat 32 disk0.length + BitVec.ofNat 32 1, bytes.length,
      ((bytes.drop disk0.length).drop 1).length⟩ by dsimp only; omega)
    (by dsimp only; omega) (length_append ..).ge
  refine ⟨iob, rest, ?_, by rw [hresult, take_left]; simp⟩
  simp only [vfsGetcwd, hfirst, ok_bind, nil_append, hsecond, length_singleton, hname,
    vopRefDec_eq hpos, dropRef_vopRefInc]
  rfl

theorem Components.zero_notMem (h : Components dirs d names) : 0 ∉ pathText names := by
  induction h with
  | root => simp [pathText]
  | @dir _ _ _ _ entry _ _ _ _ _ _ _ ih =>
    have hname : 0 ∉ cstr entry.name := fun hmem => by simpa using mem_takeWhile_imp hmem
    have hslash : (0 : BitVec 8) ≠ slash := by decide
    simp only [pathText_concat, mem_append, mem_singleton, ih, hname, hslash, or_self,
      not_false_eq_true]

theorem Components.eq_root_or (h : Components dirs d names) (ht : Tree dirs parent) :
    d = rootIno ∧ names = [] ∨ d ≠ rootIno ∧ ∃ front, pathText names = front ++ [slash] := by
  cases h with
  | root => exact .inl ⟨rfl, rfl⟩
  | @dir _ _ slots _ entry names hdir hup hne =>
    refine .inr ⟨?_, pathText names ++ cstr entry.name, by simp [pathText_concat]⟩
    rintro rfl
    have hself := (ht.up _ _ hdir).1
    rw [ht.root.2, hup] at hself
    simp only [Except.ok.injEq] at hself
    exact hne hself.symm

/-! ### Looking the names up -/

/-- `sfs_lookup` of each name in the directory that the one before it leads to. -/
def lookupAll (s : PathSys) (node : Ino) : List (List (BitVec 8)) → Except VfsStop (Except Int Ino × PathSys)
  | [] => .ok (.ok node, s)
  | name :: names => do
    match ← s.sfsLookup node name with
    | (.error e, s) => return (.error e, s)
    | (.ok node, s) => lookupAll s node names

/-- The names in use are those that `sfs_lookup` accepts. -/
def Named (dirs : Ino → Option (List DirEntry)) : Prop :=
  ∀ d slots, dirs d = some slots → ∀ e ∈ slots, e.ino ≠ 0 →
    cstr e.name ≠ [] ∧ (cstr e.name).length ≤ maxFnameLen ∧ slash ∉ cstr e.name

theorem vopRefInc_comm (s : PathSys) (a b : Ino) :
    (s.vopRefInc a).vopRefInc b = (s.vopRefInc b).vopRefInc a := by
  by_cases hab : a = b
  · rw [hab]
  · simp [vopRefInc, update_comm hab, hab, Ne.symm hab]

/-- An entry in use is found under its name. -/
theorem DirTree.sfsLookup_eq (ht : DirTree s.dirs parent) (hn : Named s.dirs) (hrefs : ∀ i, 0 ≤ s.refs i)
    (hdir : s.dirs d = some slots) (hmem : entry ∈ slots) (hlive : entry.ino ≠ 0) :
    s.sfsLookup d (cstr entry.name) = .ok (.ok entry.ino, s.vopRefInc entry.ino) := by
  obtain ⟨hnil, hlen, hslash⟩ := hn d slots hdir entry hmem hlive
  have hhead : ¬(cstr entry.name = [] ∨ (cstr entry.name).head? = some slash) := by
    rintro (hempty | hfirst)
    · exact hnil hempty
    · exact hslash (mem_of_mem_head? hfirst)
  have hsearch : direntSearch slots (cstr entry.name) = .ok (.ok entry.ino) := by
    cases hfind : slots.find? fun e => e.ino ≠ 0 ∧ cstr entry.name = cstr e.name with
    | none => exact absurd (decide_eq_true ⟨hlive, rfl⟩) (List.find?_eq_none.mp hfind entry hmem)
    | some e =>
      have hfound := List.find?_some hfind
      rw [decide_eq_true_eq] at hfound
      obtain rfl := ht.unique d slots hdir entry hmem e (mem_of_find?_eq_some hfind) hlive hfound.1 hfound.2
      rw [direntSearch, if_neg (not_not_intro hlen), hfind]
  have hdir' : (s.vopRefInc d).dirs d = some slots := hdir
  have hpos := (vopRefInc_refs (vopRefInc_refs hrefs entry.ino).2 d).1
  simp only [sfsLookup, if_neg hhead, hdir', lookupOnce_eq hdir' hsearch, ok_bind,
    vopRefInc_comm s d, vopRefDec_eq hpos, dropRef_vopRefInc]
  rfl

theorem lookupAll_concat {node : Ino} (h : s.lookupAll node names = .ok (.ok ino, t)) :
    s.lookupAll node (names ++ [name]) = t.sfsLookup ino name := by
  induction names generalizing s node with
  | nil =>
    obtain ⟨rfl, rfl⟩ : node = ino ∧ s = t := by simpa [lookupAll] using h
    rw [nil_append, lookupAll]
    rcases s.sfsLookup node name with _ | ⟨_ | _, _⟩ <;> rfl
  | cons first names ih =>
    rw [lookupAll] at h
    rw [cons_append, lookupAll]
    rcases hfirst : s.sfsLookup node first with _ | ⟨_ | next, u⟩
    · simp [hfirst] at h
    · simp [hfirst] at h
    · rw [hfirst] at h
      exact ih h

/-- The names on the way from the root lead back to the directory. -/
theorem Components.lookupAll_eq (h : Components s.dirs d names) (ht : DirTree s.dirs parent)
    (hn : Named s.dirs) (hrefs : ∀ i, 0 ≤ s.refs i) :
    ∃ t, s.lookupAll rootIno names = .ok (.ok d, t) ∧ t.dirs = s.dirs ∧ ∀ i, 0 ≤ t.refs i := by
  generalize hdirs : s.dirs = dirs at h ht hn ⊢
  induction h with
  | root => exact ⟨s, rfl, hdirs, hrefs⟩
  | @dir d up slots above entry names hdir hup hne habove hfind hpath ih =>
    obtain ⟨t, hall, hsame, hcounts⟩ := ih
    have hino : entry.ino = d := by simpa using List.find?_some hfind
    have hlive : entry.ino ≠ 0 := by
      rintro hzero
      rw [← hino, hzero, ht.zero] at hdir
      cases hdir
    have ht' : DirTree t.dirs parent := hsame ▸ ht
    have hlook := ht'.sfsLookup_eq (hsame ▸ hn) hcounts (hsame ▸ habove)
      (mem_of_find?_eq_some hfind) hlive
    rw [hino] at hlook
    exact ⟨_, (lookupAll_concat hall).trans hlook, hsame, (vopRefInc_refs hcounts d).2⟩

/-- How `vfs_lookup` begins with a path of `vfs_getcwd`. -/
theorem getDevice_disk0 (pwd : Option Ino) (text : List (BitVec 8)) :
    s.getDevice pwd (disk0 ++ colon :: slash :: text) =
      .ok (.ok (.sfs rootIno, text.dropWhile (· = slash)), s.vopRefInc rootIno) := by
  simp [getDevice, vfsGetRoot, disk0, colon, slash, Except.map]

/-- Nothing in a directory is found under a name with a slash. -/
theorem Tree.sfsLookup_ne (ht : Tree s.dirs parent) {path : List (BitVec 8)} (hpath : slash ∈ path)
    : s.sfsLookup d path ≠ .ok (.ok ino, t) := by
  intro hlook
  rw [sfsLookup] at hlook
  split at hlook
  · cases hlook
  · cases hdir : (s.vopRefInc d).dirs d with
    | none => simp [hdir, bind_eq_ok] at hlook
    | some slots =>
      have hnone : slots.find? (fun e => e.ino ≠ 0 ∧ path = cstr e.name) = none := by
        rw [List.find?_eq_none]
        rintro e hmem hfound
        obtain ⟨hlive, rfl⟩ := of_decide_eq_true hfound
        exact (ht.names d slots hdir e hmem hlive).1 hpath
      have honce : ∀ u, (s.vopRefInc d).lookupOnce d path ≠ .ok (.ok ino, u) := by
        intro u
        simp only [lookupOnce, hdir, direntSearch, hnone]
        split <;> simp
      simp only [hdir, bind_eq_ok] at hlook
      obtain ⟨⟨ret, u⟩, hret, v, -, hok⟩ := hlook
      simp only [pure_eq_ok, Except.ok.injEq, Prod.mk.injEq] at hok
      exact honce u (hok.1 ▸ hret)

/-- What the path leads to: not to a directory other than the root, since no name has a slash. -/
theorem Components.vfsLookup_iff (h : Components s.dirs d names) (ht : Tree s.dirs parent)
    (pwd : Option Ino) : (∃ t, s.vfsLookup pwd (disk0 ++ colon :: slash :: pathText names) =
      .ok (.ok (.sfs d), t)) ↔ d = rootIno := by
  simp only [vfsLookup, getDevice_disk0, ok_bind]
  rcases h.eq_root_or ht with ⟨rfl, rfl⟩ | ⟨hne, front, hfront⟩
  · exact ⟨fun _ => rfl, fun _ => ⟨_, rfl⟩⟩
  rw [hfront]
  refine iff_of_false ?_ hne
  rintro ⟨t, hlook⟩
  cases hrest : (front ++ [slash]).dropWhile (· = slash) with
  | nil =>
    -- all names are empty: the path is that of the root
    simp only [hrest, pure_eq_ok, Except.ok.injEq, Prod.mk.injEq, PathNode.sfs.injEq] at hlook
    exact hne hlook.1.symm
  | cons c rest =>
    have hmem : slash ∈ c :: rest := by
      rw [← hrest, dropWhile_append]
      split
      · next hempty => simp [dropWhile_append, hempty] at hrest
      · simp
    simp only [hrest] at hlook
    obtain ⟨⟨ret, u⟩, hret, hlook⟩ := bind_eq_ok.mp hlook
    obtain ⟨v, -, hok⟩ := bind_eq_ok.mp hlook
    simp only [pure_eq_ok, Except.ok.injEq, Prod.mk.injEq] at hok
    obtain ⟨ino, rfl, -⟩ := map_eq_ok.mp hok.1
    exact ht.sfsLookup_ne (s := s.vopRefInc rootIno) hmem hret

/-- A volume with the directory `a` in the root. -/
def nested : PathSys where
  dirs := fun i =>
    if i = 1 then some [⟨1, [0x2e, 0]⟩, ⟨1, [0x2e, 0x2e, 0]⟩, ⟨2, [0x61, 0]⟩]
    else if i = 2 then some [⟨2, [0x2e, 0]⟩, ⟨1, [0x2e, 0x2e, 0]⟩]
    else none
  refs := fun _ => 0

theorem nested_dirs (h : nested.dirs d = some slots) :
    d = 1 ∧ slots = [⟨1, [0x2e, 0]⟩, ⟨1, [0x2e, 0x2e, 0]⟩, ⟨2, [0x61, 0]⟩] ∨
      d = 2 ∧ slots = [⟨2, [0x2e, 0]⟩, ⟨1, [0x2e, 0x2e, 0]⟩] := by
  simp only [nested] at h
  split at h
  · next hd => exact .inl ⟨hd, (Option.some.inj h).symm⟩
  · split at h
    · next hd => exact .inr ⟨hd, (Option.some.inj h).symm⟩
    · cases h

theorem nested_tree : Tree nested.dirs fun _ => 1 where
  zero := rfl
  root := ⟨rfl, rfl⟩
  up d slots h := by
    rcases nested_dirs h with ⟨rfl, rfl⟩ | ⟨rfl, rfl⟩ <;> exact ⟨rfl, rfl⟩
  listed d slots hd hne habove := by
    obtain ⟨below, hbelow⟩ := Option.isSome_iff_exists.mp hd
    obtain ⟨-, rfl⟩ | ⟨h, -⟩ := nested_dirs habove
    · rcases nested_dirs hbelow with ⟨rfl, -⟩ | ⟨rfl, -⟩ <;> simp
    · cases h
  names d slots h := by
    rcases nested_dirs h with ⟨-, rfl⟩ | ⟨-, rfl⟩ <;> decide
  unique d slots h := by
    rcases nested_dirs h with ⟨-, rfl⟩ | ⟨-, rfl⟩ <;> decide
  rooted d hd := ⟨1, rfl⟩

theorem nested_named : Named nested.dirs := fun d slots h => by
  rcases nested_dirs h with ⟨-, rfl⟩ | ⟨-, rfl⟩ <;> decide

end PathSys

end UcoreMips.Kernel
