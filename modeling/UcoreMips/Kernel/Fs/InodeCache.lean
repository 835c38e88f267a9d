import UcoreMips.Kernel.ListFamily
import UcoreMips.Lib.Result
import UcoreMips.Lib.Tally

/-!
# UcoreMips.Kernel.Fs.InodeCache

The **inodes in memory** (`kern/fs/sfs/sfs_inode.c`, `kern/fs/vfs/inode.c`): `sfs_load_inode` finds
an inode by its number or reads it from the disk, references to it are counted, and the process that
drops the last one calls `sfs_reclaim`, which removes the inode.

The reference is dropped without the lock of the file system, and the lock is taken later. Until then
the inode is on its hash list and can be found again; `reclaim_count` tells the processes that come
to remove it whether they are to do so.

A process gives up the processor only where it waits for the lock, reads the disk, truncates the file
or writes it back. The functions are split there; the rest of each is one step. The blocks that are
freed with an inode, and the assertion that its block is in use, are left out.
-/

namespace UcoreMips.Kernel

open UcoreMips.Lib
open Function (update update_of_ne update_self)

/-- The address of an inode. -/
abbrev NodeId := Nat

/-- A `struct inode` with its `struct sfs_inode`. -/
structure SfsNode where
  ino : BitVec 32
  nlinks : BitVec 16
  dirty : Bool
  reclaimCount : Int
  refCount : Int
  deriving Repr, DecidableEq

inductive CacheStop
  /-- `inode_ref_dec`: `assert(inode_ref_count(node) > 0)`. -/
  | refCount
  /-- `sfs_reclaim`: `assert(sin->reclaim_count > 0)`. -/
  | reclaimCount
  /-- `inode_kill`: `assert(inode_ref_count(node) == 0)`. -/
  | killRef
  /-- `sfs_load_inode`: `assert(din->nlinks != 0)`. -/
  | nlinks
  /-- There is no inode at the address. -/
  | freed
  | outOfFuel
  deriving Repr, DecidableEq

structure InodeCache where
  nodes : NodeId → Option SfsNode
  /-- `hash_list` and the fields `hash_link`. -/
  hashList : Links (FamilyNode (BitVec 10) NodeId)

/-- `sin_hashfn`; the value has `SFS_HLIST_SHIFT` bits. -/
def sinHashfn (ino : BitVec 32) : BitVec 10 := (hash32 ino 10).setWidth 10

namespace InodeCache

def node (c : InodeCache) (n : NodeId) : Except CacheStop SfsNode :=
  match c.nodes n with
  | some i => .ok i
  | none => .error .freed

def setNode (c : InodeCache) (n : NodeId) (i : SfsNode) : InodeCache :=
  { c with nodes := update c.nodes n (some i) }

/-- `inode_ref_inc`. -/
def inodeRefInc (c : InodeCache) (n : NodeId) : Except CacheStop (Int × InodeCache) := do
  let i ← c.node n
  return (i.refCount + 1, c.setNode n { i with refCount := i.refCount + 1 })

/-- `inode_ref_dec`, before it calls `vop_reclaim`. -/
def inodeRefDec (c : InodeCache) (n : NodeId) : Except CacheStop (Int × InodeCache) := do
  let i ← c.node n
  if 0 < i.refCount then
    return (i.refCount - 1, c.setNode n { i with refCount := i.refCount - 1 })
  else .error .refCount

/-- `inode_kill`. -/
def inodeKill (c : InodeCache) (n : NodeId) : Except CacheStop InodeCache := do
  let i ← c.node n
  if i.refCount = 0 then return { c with nodes := update c.nodes n none }
  else .error .killRef

/-- `sfs_set_links`. -/
def sfsSetLinks (c : InodeCache) (n : NodeId) : Except CacheStop InodeCache := do
  let i ← c.node n
  return { c with hashList := listAddAfter c.hashList (.head (sinHashfn i.ino)) (.entry n) }

/-- `sfs_remove_links`. -/
def sfsRemoveLinks (c : InodeCache) (n : NodeId) : InodeCache :=
  { c with hashList := listDel c.hashList (.entry n) }

/-- `sfs_create_inode`, at the address `n`. -/
def sfsCreateInode (c : InodeCache) (n : NodeId) (ino : BitVec 32) (nlinks : BitVec 16) : InodeCache :=
  c.setNode n { ino := ino, nlinks := nlinks, dirty := false, reclaimCount := 1, refCount := 1 }

/-- What `lookup_sfs_nolock` does with an inode that it has found. -/
def revive (c : InodeCache) (n : NodeId) : Except CacheStop InodeCache := do
  let (count, c) ← c.inodeRefInc n
  if count = 1 then
    let i ← c.node n
    return c.setNode n { i with reclaimCount := i.reclaimCount + 1 }
  else return c

/-- `lookup_sfs_nolock`. -/
def lookupSfsNolock (fuel : Nat) (c : InodeCache) (ino : BitVec 32) :
    Except CacheStop (Option NodeId × InodeCache) :=
  match listFind c.hashList (fun n => (c.nodes n).any (·.ino = ino)) fuel (.head (sinHashfn ino)) with
  | none => .error .outOfFuel
  | some none => .ok (none, c)
  | some (some n) => do return (some n, ← c.revive n)

/-- How `sfs_reclaim` goes on. -/
inductive Reclaim
  | busy
  | truncate
  | fsync
  | remove
  deriving Repr, DecidableEq

/-- `sfs_reclaim` behind `vop_truncate`. -/
def reclaimSync (i : SfsNode) : Reclaim := if i.dirty then .fsync else .remove

/-- `sfs_reclaim` from where it has the lock up to its first call. -/
def reclaimBegin (c : InodeCache) (n : NodeId) : Except CacheStop (Reclaim × InodeCache) := do
  let i ← c.node n
  if 0 < i.reclaimCount then
    let c := c.setNode n { i with reclaimCount := i.reclaimCount - 1 }
    if i.reclaimCount - 1 ≠ 0 ∨ i.refCount ≠ 0 then return (.busy, c)
    else if i.nlinks = 0 then return (.truncate, c)
    else return (reclaimSync i, c)
  else .error .reclaimCount

/-- The end of `sfs_reclaim`. -/
def reclaimEnd (c : InodeCache) (n : NodeId) : Except CacheStop InodeCache :=
  (c.sfsRemoveLinks n).inodeKill n

end InodeCache

/-- Where a process is. -/
inductive CachePlace
  | out
  /-- `sfs_load_inode`, before it has the lock. -/
  | loading (ino : BitVec 32)
  /-- `sfs_load_inode` in `sfs_rbuf`, with the lock. -/
  | reading (ino : BitVec 32)
  /-- `sfs_reclaim`, before it has the lock. -/
  | reclaiming (n : NodeId)
  /-- `sfs_reclaim` in `vop_truncate`, with the lock. -/
  | truncating (n : NodeId)
  /-- `sfs_reclaim` in `vop_fsync`, with the lock. -/
  | syncing (n : NodeId)
  deriving Repr, DecidableEq

/-- The lock is held there. -/
def CachePlace.locked : CachePlace → Bool
  | .reading _ => true
  | .truncating _ => true
  | .syncing _ => true
  | _ => false

/-- The cache and the processes `P` that use it; for each, how many references to an inode it has.
How often an inode has been made at an address, and killed, is recorded. -/
structure CacheSys (P : Type) extends InodeCache where
  lock : Option P
  place : P → CachePlace
  held : P → NodeId → Nat
  made : NodeId → Nat
  killed : NodeId → Nat

inductive CacheOp (P : Type)
  | load (p : P) (ino : BitVec 32)
  /-- `sfs_load_inode` gets the lock; whether `kmalloc` finds memory is given. -/
  | loadLocked (p : P) (memory : Bool)
  /-- `sfs_rbuf` returns: the number of links, or an error. The new inode is at `n`, if there is
  memory for it. -/
  | loadRead (p : P) (nlinks : Option (BitVec 16)) (n : Option NodeId)
  | refInc (p : P) (n : NodeId)
  | refDec (p : P) (n : NodeId)
  /-- A reference is handed over. -/
  | pass (p q : P) (n : NodeId)
  /-- A process that has a reference changes the inode. -/
  | edit (p : P) (n : NodeId) (dirty : Bool) (nlinks : BitVec 16)
  /-- `sfs_reclaim` gets the lock. -/
  | reclaimLocked (p : P)
  /-- `vop_truncate` returns. -/
  | truncated (p : P) (success dirty : Bool)
  /-- `vop_fsync` returns. -/
  | synced (p : P) (success : Bool)
  deriving Repr, DecidableEq

/-- The process that takes the step. -/
def CacheOp.proc {P : Type} : CacheOp P → P
  | .load p _ => p
  | .loadLocked p _ => p
  | .loadRead p _ _ => p
  | .refInc p _ => p
  | .refDec p _ => p
  | .pass p _ _ => p
  | .edit p _ _ _ => p
  | .reclaimLocked p => p
  | .truncated p _ _ => p
  | .synced p _ => p

namespace CacheSys

open InodeCache

variable {P : Type} [DecidableEq P]

def goto (m : CacheSys P) (p : P) (place : CachePlace) : CacheSys P :=
  { m with place := update m.place p place }

@[simp] theorem goto_place (m : CacheSys P) (p : P) (x : CachePlace) :
    (m.goto p x).place = update m.place p x := rfl

/-- The inode at `n` has been changed. -/
def withNode (m : CacheSys P) (n : NodeId) (i : SfsNode) : CacheSys P :=
  { m with toInodeCache := m.setNode n i }

/-- The process leaves, without the lock. -/
def leave (m : CacheSys P) (p : P) : CacheSys P := { m.goto p .out with lock := none }

def hold (m : CacheSys P) (p : P) (n : NodeId) (k : Nat) : CacheSys P :=
  { m with held := setShares m.held p n k }

/-- A process calls only from outside, and takes the lock when nobody has it. It uses only inodes to
which it has a reference; memory for a new one is not in use. -/
def Legal (m : CacheSys P) : CacheOp P → Prop
  | .load p _ => m.place p = .out
  | .loadLocked p _ => (∃ ino, m.place p = .loading ino) ∧ m.lock = none
  | .loadRead p _ n => (∃ ino, m.place p = .reading ino) ∧ ∀ a, n = some a → m.nodes a = none
  | .refInc p n => m.place p = .out ∧ 0 < m.held p n
  | .refDec p n => m.place p = .out ∧ 0 < m.held p n
  | .pass p _ n => 0 < m.held p n
  | .edit p n _ _ => m.place p = .out ∧ 0 < m.held p n
  | .reclaimLocked p => (∃ n, m.place p = .reclaiming n) ∧ m.lock = none
  | .truncated p _ _ => ∃ n, m.place p = .truncating n
  | .synced p _ => ∃ n, m.place p = .syncing n

/-- The inode is removed. -/
def remove (m : CacheSys P) (p : P) (n : NodeId) : Except CacheStop (CacheSys P) := do
  let c ← m.reclaimEnd n
  return { m.leave p with
    toInodeCache := c
    killed := update m.killed n (m.killed n + 1) }

/-- `sfs_reclaim` goes on. -/
def reclaimNext (m : CacheSys P) (p : P) (n : NodeId) :
    Reclaim → Except CacheStop (CacheSys P)
  | .busy => .ok (m.leave p)
  | .truncate => .ok { m.goto p (.truncating n) with lock := some p }
  | .fsync => .ok { m.goto p (.syncing n) with lock := some p }
  | .remove => m.remove p n

def exec (fuel : Nat) (m : CacheSys P) : CacheOp P → Except CacheStop (CacheSys P)
  | .load p ino => .ok (m.goto p (.loading ino))
  | .loadLocked p memory =>
    match m.place p with
    | .loading ino => do
      match ← m.lookupSfsNolock fuel ino with
      | (some n, c) => return ({ m with toInodeCache := c }.leave p).hold p n (m.held p n + 1)
      | (none, _) =>
        if memory then return { m.goto p (.reading ino) with lock := some p } else return m.leave p
    | _ => .ok m
  | .loadRead p nlinks n =>
    match m.place p, nlinks, n with
    | .reading _, none, _ => .ok (m.leave p)
    | .reading ino, some nlinks, n =>
      if nlinks = 0 then .error .nlinks
      else
        match n with
        | none => .ok (m.leave p)
        | some n => do
          let c ← (m.sfsCreateInode n ino nlinks).sfsSetLinks n
          return { ({ m with toInodeCache := c }.leave p).hold p n (m.held p n + 1) with
            made := update m.made n (m.made n + 1) }
    | _, _, _ => .ok m
  | .refInc p n => do
    let (_, c) ← m.inodeRefInc n
    return { m with toInodeCache := c }.hold p n (m.held p n + 1)
  | .refDec p n => do
    let (count, c) ← m.inodeRefDec n
    let m := { m with toInodeCache := c }.hold p n (m.held p n - 1)
    return if count = 0 then m.goto p (.reclaiming n) else m
  | .pass p q n =>
    let m := m.hold p n (m.held p n - 1)
    .ok (m.hold q n (m.held q n + 1))
  | .edit _ n dirty nlinks => do
    let i ← m.node n
    return m.withNode n { i with dirty := dirty, nlinks := nlinks }
  | .reclaimLocked p =>
    match m.place p with
    | .reclaiming n => do
      let (r, c) ← m.reclaimBegin n
      { m with toInodeCache := c }.reclaimNext p n r
    | _ => .ok m
  | .truncated p success dirty =>
    match m.place p with
    | .truncating n => do
      let i ← m.node n
      let m := m.withNode n { i with dirty := dirty }
      if success then m.reclaimNext p n (reclaimSync { i with dirty := dirty })
      else return m.leave p
    | _ => .ok m
  | .synced p success =>
    match m.place p with
    | .syncing n => do
      let i ← m.node n
      let m := m.withNode n { i with dirty := !success }
      if success then m.reclaimNext p n .remove else return m.leave p
    | _ => .ok m

def Step (m m' : CacheSys P) (op : CacheOp P) : Prop := m.Legal op ∧ ∃ fuel, m.exec fuel op = .ok m'

/-- Nothing is in memory, and all lists are empty. -/
def Start (m : CacheSys P) : Prop :=
  (∀ n, m.nodes n = none) ∧ (∀ b, m.hashList.next (.head b) = .head b ∧
    m.hashList.prev (.head b) = .head b) ∧ m.lock = none ∧ (∀ p, m.place p = .out) ∧
  (∀ p n, m.held p n = 0) ∧ ∀ n, m.made n = 0 ∧ m.killed n = 0

inductive Reachable : CacheSys P → Prop
  | start {m : CacheSys P} (h : m.Start) : Reachable m
  | step {m m' : CacheSys P} {op : CacheOp P} (h : Reachable m) (hstep : m.Step m' op) : Reachable m'

/-! ### What holds between two steps -/

variable [Fintype P]

/-- Each inode in memory is on the list of its number, and no two have the same number. `ref_count`
is the number of references that are held; `reclaim_count` counts the processes that come to remove
the inode, and one more as long as there are references. What is being read is not in memory, and to
what is being removed there is no reference, nor does another process come to remove it. -/
structure Inv (m : CacheSys P) : Prop where
  hash : Hashed m.hashList (fun n => (m.nodes n).isSome)
    (fun n => sinHashfn ((m.nodes n).elim 0 (·.ino)))
  unique : ∀ n n' i i', m.nodes n = some i → m.nodes n' = some i' → i.ino = i'.ino → n = n'
  refs : ∀ n i, m.nodes n = some i → i.refCount = shares m.held n
  reclaims : ∀ n i, m.nodes n = some i → i.reclaimCount =
    headcount m.place (.reclaiming n) + if shares m.held n = 0 then 0 else 1
  gone : ∀ n, m.nodes n = none → shares m.held n = 0 ∧ headcount m.place (.reclaiming n) = 0
  owner : ∀ p, m.lock = some p ↔ (m.place p).locked
  reading : ∀ p ino, m.place p = .reading ino → ∀ n i, m.nodes n = some i → i.ino ≠ ino
  removing : ∀ p n, m.place p = .truncating n ∨ m.place p = .syncing n →
    (m.nodes n).isSome ∧ shares m.held n = 0 ∧ headcount m.place (.reclaiming n) = 0
  log : ∀ n, m.made n = m.killed n + if (m.nodes n).isSome then 1 else 0

variable {m m' : CacheSys P} {p q : P} {n : NodeId} {i e : SfsNode} {ino : BitVec 32}

omit [DecidableEq P] in
/-- Whoever has a reference to an inode, or comes to remove it, finds it in memory. -/
theorem Inv.node_of_held (h : m.Inv) (hp : 0 < m.held p n) :
    ∃ i, m.nodes n = some i ∧ 0 < shares m.held n := by
  have hpos : shares m.held n ≠ 0 := fun hzero => by
    have hnone := shares_eq_zero.mp hzero p
    omega
  cases hn : m.nodes n with
  | none => exact absurd (h.gone n hn).1 hpos
  | some i => exact ⟨i, rfl, Nat.pos_of_ne_zero hpos⟩

omit [DecidableEq P] in
theorem Inv.node_of_reclaiming (h : m.Inv) (hp : m.place p = .reclaiming n) :
    ∃ i, m.nodes n = some i := by
  cases hn : m.nodes n with
  | none => exact absurd hp (headcount_eq_zero.mp (h.gone n hn).2 p)
  | some i => exact ⟨i, rfl⟩

omit [DecidableEq P] in
/-- Nobody is in the middle of something while the lock is free. -/
theorem Inv.unlocked (h : m.Inv) (hlock : m.lock = none) (q : P) : (m.place q).locked = false := by
  cases hq : (m.place q).locked with
  | false => rfl
  | true => exact nomatch hlock.symm.trans ((h.owner q).mpr hq)

variable {place : P → CachePlace} {lock : Option P} {op : CacheOp P}

omit [Fintype P] in
/-- A process moves; if it gets to where the lock is held, it has it. -/
theorem owner_goto (howner : ∀ q, lock = some q ↔ (place q).locked) (hfree : lock = none ∨ lock = some p)
    (x : CachePlace) (q : P) :
    (if x.locked then some p else none) = some q ↔
      (update place p x q).locked := by
  by_cases hq : q = p
  · subst hq
    cases hx : x.locked <;> simp [hx]
  · rw [update_of_ne hq, ← howner q]
    rcases hfree with hfree | hfree <;> cases hx : x.locked <;> simp [hfree, Ne.symm hq]

omit [Fintype P] in
theorem owner_stay (howner : ∀ q, lock = some q ↔ (place q).locked) (hp : (place p).locked = false)
    {x : CachePlace} (hx : x.locked = false) (q : P) :
    lock = some q ↔ (update place p x q).locked := by
  by_cases hq : q = p
  · subst hq
    rw [howner q]
    simp [hp, hx]
  · rw [update_of_ne hq, howner q]

omit [DecidableEq P] in
/-- One inode changes in what is counted, with the references and the places of the processes. -/
theorem Inv.count (h : m.Inv) (hn : m.nodes n = some i) (hino : e.ino = i.ino) {held : P → NodeId → Nat}
    (href : e.refCount = shares held n)
    (hreclaim : e.reclaimCount = headcount place (.reclaiming n) + if shares held n = 0 then 0 else 1)
    (hheld : ∀ k, k ≠ n → shares held k = shares m.held k)
    (hplace : ∀ k, k ≠ n → headcount place (.reclaiming k) = headcount m.place (.reclaiming k))
    (howner : ∀ q, lock = some q ↔ (place q).locked)
    (hreading : ∀ q ino, place q = .reading ino → m.place q = .reading ino)
    (hremoving : ∀ q k, place q = .truncating k ∨ place q = .syncing k →
      (k ≠ n → m.place q = .truncating k ∨ m.place q = .syncing k) ∧
      (k = n → shares held n = 0 ∧ headcount place (.reclaiming n) = 0)) :
    Inv { m with
      toInodeCache := m.setNode n e
      held := held
      place := place
      lock := lock } := by
  have hsome : ∀ k, (update m.nodes n (some e) k).isSome = (m.nodes k).isSome := by
    intro k
    by_cases hk : k = n
    · simp [hk, hn]
    · simp [hk]
  have hold : ∀ k j, update m.nodes n (some e) k = some j →
      ∃ j', m.nodes k = some j' ∧ j'.ino = j.ino := by
    intro k j hj
    by_cases hk : k = n
    · rw [hk, update_self] at hj
      exact ⟨i, hk ▸ hn, by rw [← Option.some.inj hj, hino]⟩
    · rw [update_of_ne hk] at hj
      exact ⟨j, hj, rfl⟩
  exact {
    hash := by
      refine h.hash.congr (fun k => Bool.eq_iff_iff.mp (hsome k)) fun k _ => ?_
      by_cases hk : k = n
      · simp [setNode, hk, hn, hino]
      · simp [setNode, hk]
    unique := fun a b j j' ha hb hab => by
      obtain ⟨ja, hja, hea⟩ := hold a j ha
      obtain ⟨jb, hjb, heb⟩ := hold b j' hb
      exact h.unique a b ja jb hja hjb (by rw [hea, heb, hab])
    refs := fun k j hj => by
      by_cases hk : k = n
      · subst hk
        obtain rfl : e = j := by simpa [setNode] using hj
        exact href
      · rw [show shares held k = _ from hheld k hk]
        exact h.refs k j (by simpa [setNode, hk] using hj)
    reclaims := fun k j hj => by
      by_cases hk : k = n
      · subst hk
        obtain rfl : e = j := by simpa [setNode] using hj
        exact hreclaim
      · rw [show shares held k = _ from hheld k hk, show headcount place _ = _ from hplace k hk]
        exact h.reclaims k j (by simpa [setNode, hk] using hj)
    gone := fun k hk => by
      have hkn : k ≠ n := fun heq => by simp [setNode, heq] at hk
      rw [show shares held k = _ from hheld k hkn, show headcount place _ = _ from hplace k hkn]
      exact h.gone k (by simpa [setNode, hkn] using hk)
    owner := howner
    reading := fun q ino hq k j hj => by
      obtain ⟨j', hj', he⟩ := hold k j hj
      rw [← he]
      exact h.reading q ino (hreading q ino hq) k j' hj'
    removing := fun q k hq => by
      obtain ⟨hother, hself⟩ := hremoving q k hq
      show (update m.nodes n (some e) k).isSome ∧ shares held k = 0 ∧
        headcount place (.reclaiming k) = 0
      rw [hsome]
      by_cases hk : k = n
      · subst hk
        exact ⟨by simp [hn], hself rfl⟩
      · rw [hheld k hk, hplace k hk]
        exact h.removing q k (hother hk)
    log := fun k => by
      show m.made k = m.killed k + if (update m.nodes n (some e) k).isSome then 1 else 0
      rw [hsome]
      exact h.log k }

omit [DecidableEq P] in
/-- Processes move; none of them comes to remove an inode. -/
theorem Inv.move (h : m.Inv)
    (hplace : ∀ k, headcount place (.reclaiming k) = headcount m.place (.reclaiming k))
    (howner : ∀ q, lock = some q ↔ (place q).locked)
    (hreading : ∀ q ino, place q = .reading ino → ∀ n i, m.nodes n = some i → i.ino ≠ ino)
    (hremoving : ∀ q k, place q = .truncating k ∨ place q = .syncing k →
      m.place q = .truncating k ∨ m.place q = .syncing k) :
    Inv { m with place := place, lock := lock } where
  __ := h
  reclaims n i hn := by
    rw [hplace]
    exact h.reclaims n i hn
  gone n hn := by
    rw [hplace]
    exact h.gone n hn
  owner := howner
  reading := hreading
  removing p n hp := by
    rw [hplace]
    exact h.removing p n (hremoving p n hp)

theorem headcount_goto {x : CachePlace} (hp : ∀ k, place p ≠ .reclaiming k) (hx : ∀ k, x ≠ .reclaiming k)
    (k : NodeId) :
    headcount (update place p x) (.reclaiming k) = headcount place (.reclaiming k) :=
  headcount_other (hp k) (hx k)

theorem Inv.leave (h : m.Inv) (hfree : m.lock = none ∨ m.lock = some p)
    (hp : ∀ k, m.place p ≠ .reclaiming k) : Inv (m.leave p) := by
  exact h.move (headcount_goto hp (by simp)) (owner_goto h.owner hfree .out)
    (fun q ino hq => h.reading q ino (of_update (by simp) hq))
    fun q k hq => hq.imp (of_update (by simp)) (of_update (by simp))

/-! ### Removing an inode -/

/-- A process is about to remove the inode. -/
def Removing (m : CacheSys P) (p : P) (n : NodeId) : Prop :=
  m.place p = .truncating n ∨ m.place p = .syncing n

omit [DecidableEq P] in
theorem Inv.lock_of_removing (h : m.Inv) (hp : m.Removing p n) : m.lock = some p := by
  refine (h.owner p).mpr ?_
  rcases hp with hp | hp <;> simp [hp, CachePlace.locked]

omit [DecidableEq P] in
theorem Inv.not_removing_of_unlocked (h : m.Inv) (hlock : m.lock = none) : ¬m.Removing p n :=
  fun hp => nomatch hlock.symm.trans (h.lock_of_removing hp)

/-- Where it is removed, nobody refers to it. -/
theorem Inv.remove (h : m.Inv) (hp : m.Removing p n) :
    ∃ m', m.remove p n = .ok m' ∧ Inv m' ∧ m'.nodes n = none ∧
      m'.killed = update m.killed n (m.killed n + 1) := by
  obtain ⟨hsome, hshares, hcount⟩ := h.removing p n hp
  obtain ⟨i, hn⟩ := Option.isSome_iff_exists.mp hsome
  have hlock := h.lock_of_removing hp
  have href : i.refCount = 0 := by rw [h.refs n i hn, hshares]; rfl
  have hplace : ∀ k, m.place p ≠ .reclaiming k := by
    rcases hp with hp | hp <;> simp [hp]
  have hend : m.reclaimEnd n = .ok { m.sfsRemoveLinks n with
      nodes := update m.nodes n none } := by
    simp [reclaimEnd, inodeKill, node, sfsRemoveLinks, hn, href]
  have hstays : ∀ k, k ≠ n → update m.nodes n none k = m.nodes k := fun k hk =>
    update_of_ne hk ..
  have hold : ∀ k j, update m.nodes n none k = some j → k ≠ n ∧ m.nodes k = some j :=
    fun k j hj => by
      by_cases hk : k = n
      · simp [hk] at hj
      · exact ⟨hk, by rwa [update_of_ne hk] at hj⟩
  have hleave := h.leave (.inr hlock) hplace
  refine ⟨_, by rw [CacheSys.remove, hend]; rfl, ?_, update_self .., rfl⟩
  exact {
    hash := by
      refine (h.hash.erase (a := n) (by simp [hn]) fun k => ?_).congr (fun _ => Iff.rfl) fun k hk => ?_
      · by_cases hk : k = n
        · simp [hk]
        · simp [hk]
      · have hkn : k ≠ n := fun heq => by simp [heq] at hk
        simp [hkn]
    unique := fun a b j j' ha hb => h.unique a b j j' (hold a j ha).2 (hold b j' hb).2
    refs := fun k j hj => h.refs k j (hold k j hj).2
    reclaims := fun k j hj => hleave.reclaims k j (hold k j hj).2
    gone := fun k hk => by
      by_cases hkn : k = n
      · subst hkn
        exact ⟨hshares, (headcount_goto hplace (by simp) k).trans hcount⟩
      · exact hleave.gone k ((hstays k hkn).symm.trans hk)
    owner := hleave.owner
    reading := fun q ino hq k j hj => hleave.reading q ino hq k j (hold k j hj).2
    removing := fun q k hq => absurd hq (hleave.not_removing_of_unlocked rfl)
    log := fun k => by
      have hlog := h.log k
      show m.made k = update m.killed n (m.killed n + 1) k +
        if (update m.nodes n none k).isSome then 1 else 0
      by_cases hk : k = n
      · subst hk
        simpa [hn] using hlog
      · simpa [hk] using hlog }

/-- `sfs_reclaim` goes on to its next call, or to its end. -/
theorem Inv.reclaimNext (h : m.Inv) (hp : m.Removing p n) (r : Reclaim) :
    ∃ m', m.reclaimNext p n r = .ok m' ∧ Inv m' ∧ (m'.killed = m.killed ∨
      m'.nodes n = none ∧ m'.killed = update m.killed n (m.killed n + 1)) := by
  have hlock := h.lock_of_removing hp
  have hplace : ∀ k, m.place p ≠ .reclaiming k := by
    rcases hp with hp | hp <;> simp [hp]
  have hgoto : ∀ x, x = .truncating n ∨ x = .syncing n →
      Inv { m.goto p x with lock := some p } := by
    intro x hx
    have hlocked : x.locked := by rcases hx with rfl | rfl <;> rfl
    have howner := owner_goto h.owner (.inr hlock) x
    rw [if_pos hlocked] at howner
    refine h.move (headcount_goto hplace (by rcases hx with rfl | rfl <;> simp)) howner
      (fun q ino hq => ?_) fun q k hq => ?_
    · exact h.reading q ino (of_update (by rcases hx with rfl | rfl <;> simp) hq)
    · by_cases hqp : q = p
      · obtain rfl : n = k := by rcases hx with rfl | rfl <;> simpa [hqp] using hq
        exact hqp ▸ hp
      · rwa [goto_place, update_of_ne hqp] at hq
  cases r with
  | busy => exact ⟨_, rfl, h.leave (.inr hlock) hplace, .inl rfl⟩
  | truncate => exact ⟨_, rfl, hgoto _ (.inl rfl), .inl rfl⟩
  | fsync => exact ⟨_, rfl, hgoto _ (.inr rfl), .inl rfl⟩
  | remove =>
    obtain ⟨m', hremove, hinv, hgone, hkilled⟩ := h.remove hp
    exact ⟨m', hremove, hinv, .inr ⟨hgone, hkilled⟩⟩

omit [Fintype P] in
/-- It does not matter where the process was. -/
theorem reclaimNext_goto (m : CacheSys P) (p : P) (n : NodeId) (x : CachePlace) (l : Option P)
    (r : Reclaim) :
    CacheSys.reclaimNext { m.goto p x with lock := l } p n r = m.reclaimNext p n r := by
  cases r <;> simp [CacheSys.reclaimNext, CacheSys.remove, CacheSys.leave, goto]

/-- The inode is killed: it has no references, and no other process is in `sfs_reclaim` for it. -/
structure Kills (m m' : CacheSys P) (p : P) (n : NodeId) : Prop where
  count : ∃ i, m.nodes n = some i ∧ i.refCount = 0
  free : ∀ q, m.held q n = 0
  alone : ∀ q, m.place q = .reclaiming n ∨ m.Removing q n → q = p
  gone : m'.nodes n = none

/-- After a step of `p`. -/
structure After (m : CacheSys P) (p : P) (m' : CacheSys P) : Prop where
  inv : Inv m'
  killed : ∀ n, m'.killed n = m.killed n ∨ m'.killed n = m.killed n + 1 ∧ Kills m m' p n

omit [DecidableEq P] in
theorem After.of_inv (h : Inv m') (hkilled : m'.killed = m.killed) : After m p m' :=
  ⟨h, fun n => .inl (by rw [hkilled])⟩

omit [DecidableEq P] in
/-- What `sfs_reclaim` has killed was not in use. -/
theorem After.of_reclaim (h : Inv m') (hkilled : m'.killed = m.killed ∨
      m'.nodes n = none ∧ m'.killed = update m.killed n (m.killed n + 1))
    (hkills : m'.nodes n = none → Kills m m' p n) : After m p m' := by
  rcases hkilled with hkilled | ⟨hgone, hkilled⟩
  · exact .of_inv h hkilled
  refine ⟨h, fun k => ?_⟩
  rw [hkilled]
  by_cases hk : k = n
  · subst hk
    exact .inr ⟨update_self .., hkills hgone⟩
  · exact .inl (update_of_ne hk ..)

/-- A process in `sfs_reclaim` lowers `reclaim_count`, and leaves or goes on. -/
theorem Inv.reclaimed (h : m.Inv) (hn : m.nodes n = some i) (hp : m.place p = .reclaiming n)
    (hlock : m.lock = none) {x : CachePlace}
    (hx : x = .out ∨ x = .syncing n ∧ i.reclaimCount = 1 ∧ i.refCount = 0) :
    Inv { m with
      toInodeCache := m.setNode n { i with reclaimCount := i.reclaimCount - 1 }
      place := update m.place p x
      lock := if x.locked then some p else none } := by
  have hxn : ∀ k, x ≠ .reclaiming k := by rcases hx with rfl | ⟨rfl, -⟩ <;> simp
  have hleft : headcount (update m.place p x) (.reclaiming n) + 1 =
      headcount m.place (.reclaiming n) := headcount_leave hp (hxn n)
  have hreclaim := h.reclaims n i hn
  refine h.count (e := { i with reclaimCount := i.reclaimCount - 1 }) hn rfl (h.refs n i hn) ?_
    (fun _ _ => rfl) (fun k hk => ?_) (owner_goto h.owner (.inl hlock) x) (fun q ino hq => ?_) fun q k hq => ?_
  · show i.reclaimCount - 1 = _
    omega
  · exact headcount_other (by simpa [hp] using Ne.symm hk) (hxn k)
  · exact of_update (by rcases hx with rfl | ⟨rfl, -⟩ <;> simp) hq
  · by_cases hqp : q = p
    · subst hqp
      rcases hx with rfl | ⟨rfl, hone, -⟩
      · simp at hq
      · have hshares : shares m.held n = 0 := by
          have := h.refs n i hn
          omega
        obtain rfl : n = k := by simpa using hq
        exact ⟨fun hne => absurd rfl hne, fun _ => ⟨hshares, by omega⟩⟩
    · rw [update_of_ne hqp] at hq
      exact absurd hq (h.not_removing_of_unlocked hlock)

theorem Inv.exec_reclaimLocked (h : m.Inv) (hp : m.place p = .reclaiming n) (hlock : m.lock = none)
    (fuel : Nat) : ∃ m', m.exec fuel (.reclaimLocked p) = .ok m' ∧ After m p m' := by
  obtain ⟨i, hn⟩ := h.node_of_reclaiming hp
  have hpos := headcount_pos hp
  have hreclaim := h.reclaims n i hn
  have hcount : 0 < i.reclaimCount := by
    rw [hreclaim]
    split <;> omega
  have hbegin : m.reclaimBegin n = .ok
      (if i.reclaimCount - 1 ≠ 0 ∨ i.refCount ≠ 0 then .busy
        else if i.nlinks = 0 then .truncate else reclaimSync i,
        m.setNode n { i with reclaimCount := i.reclaimCount - 1 }) := by
    simp only [reclaimBegin, node, hn, ok_bind, if_pos hcount]
    split
    · rfl
    · split <;> rfl
  have hexec : ∀ r c, m.reclaimBegin n = .ok (r, c) → m.exec fuel (.reclaimLocked p) =
      CacheSys.reclaimNext { m with toInodeCache := c } p n r := fun r c hrc => by
    rw [exec, hp]
    dsimp only
    rw [hrc]
    rfl
  rw [hexec _ _ hbegin]
  by_cases hbusy : i.reclaimCount - 1 ≠ 0 ∨ i.refCount ≠ 0
  · rw [if_pos hbusy]
    exact ⟨_, rfl, .of_inv (h.reclaimed hn hp hlock (.inl rfl)) rfl⟩
  rw [if_neg hbusy]
  obtain ⟨hone, hzero⟩ : i.reclaimCount = 1 ∧ i.refCount = 0 := by omega
  have hready := h.reclaimed hn hp hlock (.inr ⟨rfl, hone, hzero⟩)
  obtain ⟨m', hnext, hinv, hkilled⟩ := hready.reclaimNext (p := p) (n := n)
    (.inr (update_self ..)) (if i.nlinks = 0 then .truncate else reclaimSync i)
  refine ⟨m', (reclaimNext_goto _ p n (.syncing n) (some p) _).symm.trans hnext,
    .of_reclaim hinv hkilled fun hgone => ?_⟩
  have hshares : shares m.held n = 0 := by
    have := h.refs n i hn
    omega
  refine ⟨⟨i, hn, hzero⟩, shares_eq_zero.mp hshares, fun q hq => ?_, hgone⟩
  rcases hq with hq | hq
  · exact headcount_one (by omega) hp hq
  · exact absurd hq (h.not_removing_of_unlocked hlock)

omit [DecidableEq P] in
/-- An inode changes in what is not counted. -/
theorem Inv.setNode (h : m.Inv) (hn : m.nodes n = some i) (hino : e.ino = i.ino)
    (href : e.refCount = i.refCount) (hreclaim : e.reclaimCount = i.reclaimCount) :
    Inv (m.withNode n e) :=
  h.count hn hino (href.trans (h.refs n i hn)) (hreclaim.trans (h.reclaims n i hn)) (fun _ _ => rfl)
    (fun _ _ => rfl) h.owner (fun _ _ hq => hq)
    fun q _ hq => ⟨fun _ => hq, fun hk => (h.removing q n (hk ▸ hq)).2⟩

/-- `vop_truncate` or `vop_fsync` has returned in `sfs_reclaim`. -/
theorem Inv.flushed {fuel : Nat} {op : CacheOp P} (h : m.Inv) (hp : m.Removing p n)
    (hexec : ∀ i, m.nodes n = some i → ∃ dirty r,
      m.exec fuel op = (m.withNode n { i with dirty := dirty }).reclaimNext p n r) :
    ∃ m', m.exec fuel op = .ok m' ∧ After m p m' := by
  obtain ⟨hsome, hshares, hcount⟩ := h.removing p n hp
  obtain ⟨i, hn⟩ := Option.isSome_iff_exists.mp hsome
  obtain ⟨dirty, r, hexec⟩ := hexec i hn
  obtain ⟨m', hnext, hinv, hkilled⟩ :=
    (h.setNode (e := { i with dirty := dirty }) hn rfl rfl rfl).reclaimNext (p := p) (n := n) hp r
  refine ⟨m', hexec.trans hnext, .of_reclaim hinv hkilled fun hgone =>
    ⟨⟨i, hn, ?_⟩, shares_eq_zero.mp hshares, fun q hq => ?_, hgone⟩⟩
  · rw [h.refs n i hn, hshares]
    rfl
  · rcases hq with hq | hq
    · exact absurd hq (headcount_eq_zero.mp hcount q)
    · exact Option.some.inj ((h.lock_of_removing hq).symm.trans (h.lock_of_removing hp))

theorem Inv.exec_truncated (h : m.Inv) (hp : m.place p = .truncating n) (fuel : Nat)
    (success dirty : Bool) :
    ∃ m', m.exec fuel (.truncated p success dirty) = .ok m' ∧ After m p m' := by
  refine h.flushed (.inl hp) fun i hn =>
    ⟨dirty, if success then reclaimSync { i with dirty := dirty } else .busy, ?_⟩
  simp only [exec, hp, node, hn, ok_bind]
  cases success <;> rfl

theorem Inv.exec_synced (h : m.Inv) (hp : m.place p = .syncing n) (fuel : Nat) (success : Bool) :
    ∃ m', m.exec fuel (.synced p success) = .ok m' ∧ After m p m' := by
  refine h.flushed (.inr hp) fun i hn => ⟨!success, if success then .remove else .busy, ?_⟩
  simp only [exec, hp, node, hn, ok_bind]
  cases success <;> rfl

/-! ### References -/

omit [DecidableEq P] in
/-- What is held is not being removed. -/
theorem Inv.not_removing (h : m.Inv) (hpos : 0 < shares m.held n) (q : P) : ¬m.Removing q n :=
  fun hq => by
    obtain ⟨-, hzero, -⟩ := h.removing q n hq
    omega

/-- The references to an inode change, and with them its `ref_count`; it has some before and
after. -/
theorem Inv.hold (h : m.Inv) (hn : m.nodes n = some i) (hpos : 0 < shares m.held n) {k : Nat}
    (hstill : 0 < shares (setShares m.held p n k) n)
    (href : e.refCount = shares (setShares m.held p n k) n) (hino : e.ino = i.ino)
    (hreclaim : e.reclaimCount = i.reclaimCount) :
    Inv ((m.withNode n e).hold p n k) := by
  refine h.count hn hino href ?_ (fun _ hne => shares_set_of_ne hne) (fun _ _ => rfl) h.owner
    (fun _ _ hq => hq) fun q k' hq => ⟨fun _ => hq, fun hk => ?_⟩
  · show e.reclaimCount = (headcount m.place (.reclaiming n) : Int) +
      if shares (setShares m.held p n k) n = 0 then 0 else 1
    rw [hreclaim, h.reclaims n i hn, if_neg hpos.ne', if_neg hstill.ne']
  · exact absurd (hk ▸ hq) (h.not_removing hpos q)

theorem Inv.exec_refInc (h : m.Inv) (hp : 0 < m.held p n) (fuel : Nat) :
    ∃ m', m.exec fuel (.refInc p n) = .ok m' ∧ After m p m' := by
  obtain ⟨i, hn, hpos⟩ := h.node_of_held hp
  have hset := shares_set m.held p n (m.held p n + 1)
  have hcount : i.refCount + 1 = shares (setShares m.held p n (m.held p n + 1)) n := by
    rw [h.refs n i hn]
    omega
  have hinv := h.hold (e := { i with refCount := i.refCount + 1 }) hn hpos (by omega) hcount rfl rfl
  refine ⟨_, ?_, .of_inv hinv rfl⟩
  simp only [exec, inodeRefInc, node, hn, ok_bind]
  rfl

/-- The last reference is dropped: the process comes to remove the inode. -/
theorem Inv.dropLast (h : m.Inv) (hn : m.nodes n = some i) (hp : m.place p = .out)
    (hone : shares m.held n = 1) (hheld : m.held p n = 1) :
    Inv (((m.withNode n { i with refCount := i.refCount - 1 }).hold p n 0).goto p (.reclaiming n)) := by
  have hset := shares_set m.held p n 0
  have hzero : shares (setShares m.held p n 0) n = 0 := by omega
  have hnot : ∀ k, m.place p ≠ .reclaiming k := by simp [hp]
  have henter : headcount (update m.place p (.reclaiming n)) (.reclaiming n) =
      headcount m.place (.reclaiming n) + 1 := headcount_enter (hnot n)
  refine h.count (e := { i with refCount := i.refCount - 1 }) hn rfl ?_ ?_
    (fun _ hne => shares_set_of_ne hne) (fun k hk => ?_)
    (owner_stay h.owner (by simp [hp, CachePlace.locked]) rfl) (fun q ino hq => ?_) fun q k hq => ?_
  · show i.refCount - 1 = shares (setShares m.held p n 0) n
    rw [h.refs n i hn, hzero, hone]
    rfl
  · show i.reclaimCount =
      (headcount (update m.place p (.reclaiming n)) (.reclaiming n) : Int) +
        if shares (setShares m.held p n 0) n = 0 then 0 else 1
    rw [h.reclaims n i hn, henter, if_pos hzero, if_neg (by omega)]
    simp
  · exact headcount_other (hnot k) (by simpa using Ne.symm hk)
  · exact of_update (by simp) hq
  · have hq' := hq.imp (of_update (by simp)) (of_update (by simp))
    exact ⟨fun _ => hq', fun hk => absurd (hk ▸ hq') (h.not_removing (by omega) q)⟩

theorem Inv.exec_refDec (h : m.Inv) (hout : m.place p = .out) (hp : 0 < m.held p n) (fuel : Nat) :
    ∃ m', m.exec fuel (.refDec p n) = .ok m' ∧ After m p m' := by
  obtain ⟨i, hn, hpos⟩ := h.node_of_held hp
  have href := h.refs n i hn
  have hset := shares_set m.held p n (m.held p n - 1)
  have hexec : m.exec fuel (.refDec p n) = .ok (if i.refCount - 1 = 0 then
        ((m.withNode n { i with refCount := i.refCount - 1 }).hold p n (m.held p n - 1)).goto p
          (.reclaiming n)
      else (m.withNode n { i with refCount := i.refCount - 1 }).hold p n (m.held p n - 1)) := by
    have hcount : 0 < i.refCount := by omega
    simp only [exec, inodeRefDec, node, hn, ok_bind, if_pos hcount]
    rfl
  refine ⟨_, hexec, ?_⟩
  split
  · next hzero =>
    have hle := held_le_shares m.held p n
    have hheld : m.held p n = 1 := by omega
    rw [hheld]
    exact .of_inv (h.dropLast hn hout (by omega) hheld) rfl
  · next hzero =>
    have hcount : i.refCount - 1 = shares (setShares m.held p n (m.held p n - 1)) n := by omega
    exact .of_inv (h.hold (e := { i with refCount := i.refCount - 1 }) hn hpos (by omega) hcount rfl rfl)
      rfl

theorem Inv.exec_pass (h : m.Inv) (hp : 0 < m.held p n) (fuel : Nat) :
    ∃ m', m.exec fuel (.pass p q n) = .ok m' ∧ After m p m' := by
  obtain ⟨i, hn, hpos⟩ := h.node_of_held hp
  have hfirst := shares_set m.held p n (m.held p n - 1)
  have hsecond := shares_set (setShares m.held p n (m.held p n - 1)) q n
    (setShares m.held p n (m.held p n - 1) q n + 1)
  have hsame : m.setNode n i = m.toInodeCache := by
    simp [InodeCache.setNode, ← hn]
  have hinv : Inv { m with
      toInodeCache := m.setNode n i
      held := setShares (setShares m.held p n (m.held p n - 1)) q n
        (setShares m.held p n (m.held p n - 1) q n + 1) } := by
    refine h.count hn rfl ?_ ?_ (fun k hk => ?_) (fun _ _ => rfl) h.owner (fun _ _ hq => hq)
      fun r k hr => ⟨fun _ => hr, fun hk => absurd (hk ▸ hr) (h.not_removing hpos r)⟩
    · rw [h.refs n i hn]
      omega
    · rw [h.reclaims n i hn, if_neg (by omega), if_neg (by omega)]
    · rw [shares_set_of_ne hk, shares_set_of_ne hk]
  rw [hsame] at hinv
  exact ⟨_, rfl, .of_inv hinv rfl⟩

theorem Inv.exec_edit (h : m.Inv) (hp : 0 < m.held p n) (fuel : Nat) (dirty : Bool)
    (nlinks : BitVec 16) : ∃ m', m.exec fuel (.edit p n dirty nlinks) = .ok m' ∧ After m p m' := by
  obtain ⟨i, hn, -⟩ := h.node_of_held hp
  have hinv := h.setNode (e := { i with dirty := dirty, nlinks := nlinks }) hn rfl rfl rfl
  refine ⟨_, ?_, .of_inv hinv rfl⟩
  simp only [exec, node, hn, ok_bind]
  rfl

/-! ### Loading an inode -/

theorem Inv.exec_load (h : m.Inv) (hp : m.place p = .out) (fuel : Nat) :
    ∃ m', m.exec fuel (.load p ino) = .ok m' ∧ After m p m' := by
  have hinv : Inv (m.goto p (.loading ino)) :=
    h.move (headcount_goto (by simp [hp]) (by simp))
      (owner_stay h.owner (by simp [hp, CachePlace.locked]) rfl)
      (fun q k hq => h.reading q k (of_update (by simp) hq))
      fun q k hq => hq.imp (of_update (by simp)) (of_update (by simp))
  exact ⟨_, rfl, .of_inv hinv rfl⟩

/-- The inode as `lookup_sfs_nolock` leaves it. -/
def revived (i : SfsNode) : SfsNode :=
  { i with
    refCount := i.refCount + 1
    reclaimCount := i.reclaimCount + if i.refCount = 0 then 1 else 0 }

omit [DecidableEq P] [Fintype P] in
theorem revive_eq (hn : m.nodes n = some i) : m.revive n = .ok (m.setNode n (revived i)) := by
  by_cases hzero : i.refCount = 0 <;>
    simp [InodeCache.revive, inodeRefInc, node, InodeCache.setNode, revived, hn, hzero]

/-- What `lookup_sfs_nolock` returns: there is no inode with that number in memory, or it is found and
gets a reference. -/
def LookedUp (m : CacheSys P) (ino : BitVec 32) (r : Except CacheStop (Option NodeId × InodeCache)) :
    Prop :=
  r = .ok (none, m.toInodeCache) ∧ (∀ n i, m.nodes n = some i → i.ino ≠ ino) ∨
    ∃ n i, m.nodes n = some i ∧ i.ino = ino ∧ r = .ok (some n, m.setNode n (revived i))

omit [DecidableEq P] in
theorem Inv.lookup_spec (h : m.Inv) (ino : BitVec 32) :
    (∃ fuel, m.LookedUp ino (m.lookupSfsNolock fuel ino)) ∧
      ∀ fuel, m.lookupSfsNolock fuel ino = .error .outOfFuel ∨
        m.LookedUp ino (m.lookupSfsNolock fuel ino) := by
  obtain ⟨⟨n, r, hend⟩, hwalk⟩ := h.hash.find (fun n => (m.nodes n).any (·.ino = ino)) (sinHashfn ino)
  have hfound : ∀ fuel r, listFind m.hashList (fun n => (m.nodes n).any (·.ino = ino)) fuel
      (.head (sinHashfn ino)) = some r →
      m.LookedUp ino (m.lookupSfsNolock fuel ino) := by
    intro fuel r hfind
    obtain ⟨hsome, hnone⟩ := hwalk fuel r hfind
    cases r with
    | none =>
      refine .inl ⟨by simp [lookupSfsNolock, hfind], fun n i hn heq => ?_⟩
      have hmiss := hnone rfl n (by simp [hn]) (by simp [hn, heq])
      simp [hn, heq] at hmiss
    | some n =>
      obtain ⟨-, -, hhit⟩ := hsome n rfl
      obtain ⟨i, hn, hino⟩ := (Option.any_eq_true _ _).mp hhit
      refine .inr ⟨n, i, hn, of_decide_eq_true hino, ?_⟩
      simp only [lookupSfsNolock, hfind, revive_eq hn]
      rfl
  refine ⟨⟨n, hfound n r hend⟩, fun fuel => ?_⟩
  cases hfind : listFind m.hashList (fun n => (m.nodes n).any (·.ino = ino)) fuel
    (.head (sinHashfn ino)) with
  | none => exact .inl (by simp [lookupSfsNolock, hfind])
  | some r => exact .inr (hfound fuel r hfind)

/-- An inode that is found gets a reference, and when it had none also one more to wait for. -/
theorem Inv.revive (h : m.Inv) (hn : m.nodes n = some i) (hp : m.place p = .loading ino)
    (hlock : m.lock = none) :
    Inv (((m.withNode n (revived i)).leave p).hold p n (m.held p n + 1)) := by
  have hset := shares_set m.held p n (m.held p n + 1)
  have hnot : ∀ k, m.place p ≠ .reclaiming k := by simp [hp]
  have hcount := headcount_goto (x := .out) hnot (by simp)
  refine h.count (e := revived i) hn rfl ?_ ?_ (fun _ hne => shares_set_of_ne hne)
    (fun k _ => hcount k) (owner_goto h.owner (.inl hlock) .out)
    (fun q k hq => of_update (by simp) hq) fun q k hq => ?_
  · show i.refCount + 1 = shares (setShares m.held p n (m.held p n + 1)) n
    rw [h.refs n i hn]
    omega
  · show i.reclaimCount + (if i.refCount = 0 then 1 else 0) =
      (headcount (update m.place p .out) (.reclaiming n) : Int) +
        if shares (setShares m.held p n (m.held p n + 1)) n = 0 then 0 else 1
    have hne : shares (setShares m.held p n (m.held p n + 1)) n ≠ 0 := by omega
    rw [hcount, h.reclaims n i hn, h.refs n i hn, if_neg hne]
    split <;> split <;> omega
  · have hq' : m.Removing q k := hq.imp (of_update (by simp)) (of_update (by simp))
    exact absurd hq' (h.not_removing_of_unlocked hlock)

theorem Inv.exec_loadLocked (h : m.Inv) (hp : m.place p = .loading ino) (hlock : m.lock = none)
    (fuel : Nat) (memory : Bool) :
    m.exec fuel (.loadLocked p memory) = .error .outOfFuel ∨
      ∃ m', m.exec fuel (.loadLocked p memory) = .ok m' ∧ After m p m' := by
  have hnot : ∀ k, m.place p ≠ .reclaiming k := by simp [hp]
  rcases (h.lookup_spec ino).2 fuel with hlook | ⟨hlook, hnone⟩ | ⟨n, i, hn, -, hlook⟩
  · refine .inl ?_
    simp only [exec, hp, hlook, bind, Except.bind]
  · refine .inr ?_
    cases memory with
    | false =>
      refine ⟨m.leave p, ?_, .of_inv (h.leave (.inl hlock) hnot) rfl⟩
      simp only [exec, hp, hlook, ok_bind]
      rfl
    | true =>
      have hinv : Inv { m.goto p (.reading ino) with lock := some p } := by
        refine h.move (headcount_goto hnot (by simp)) (owner_goto h.owner (.inl hlock) (.reading ino))
          (fun q k hq => ?_) fun q k hq => hq.imp (of_update (by simp)) (of_update (by simp))
        by_cases hqp : q = p
        · obtain rfl : ino = k := by simpa [hqp] using hq
          exact hnone
        · rw [goto_place, update_of_ne hqp] at hq
          exact h.reading q k hq
      refine ⟨_, ?_, .of_inv hinv rfl⟩
      simp only [exec, hp, hlook, ok_bind]
      rfl
  · refine .inr ⟨_, ?_, .of_inv (h.revive hn hp hlock) rfl⟩
    simp only [exec, hp, hlook, ok_bind]
    rfl

/-- An inode has been read, and there was none with its number. -/
theorem Inv.create (h : m.Inv) (hn : m.nodes n = none) (hp : m.place p = .reading ino)
    (hself : m'.nodes n = some i) (hi : i.ino = ino ∧ i.refCount = 1 ∧ i.reclaimCount = 1)
    (hother : ∀ k, k ≠ n → m'.nodes k = m.nodes k)
    (hlist : m'.hashList = listAddAfter m.hashList (.head (sinHashfn ino)) (.entry n))
    (hheld : m'.held = setShares m.held p n (m.held p n + 1))
    (hplace : m'.place = (m.leave p).place) (hlock : m'.lock = (m.leave p).lock)
    (hmade : m'.made = update m.made n (m.made n + 1)) (hkilled : m'.killed = m.killed) :
    Inv m' := by
  obtain ⟨hino, href, hreclaim⟩ := hi
  obtain ⟨hshares, hcount⟩ := h.gone n hn
  have hmine : m.held p n = 0 := shares_eq_zero.mp hshares p
  have hnot : ∀ k, m.place p ≠ .reclaiming k := by simp [hp]
  have hleave := h.leave (.inr ((h.owner p).mpr (by simp [hp, CachePlace.locked]))) hnot
  have hmove : ∀ k, headcount m'.place (.reclaiming k) = headcount m.place (.reclaiming k) := by
    rw [hplace]
    exact headcount_goto hnot (by simp)
  have hset : shares m'.held n = 1 := by
    have := shares_set m.held p n (m.held p n + 1)
    rw [hheld]
    omega
  have hsame : ∀ k, k ≠ n → shares m'.held k = shares m.held k := fun k hk => by
    rw [hheld]
    exact shares_set_of_ne hk
  have hold : ∀ k j, m'.nodes k = some j → k = n ∧ j = i ∨ k ≠ n ∧ m.nodes k = some j := by
    intro k j hj
    by_cases hk : k = n
    · subst hk
      exact .inl ⟨rfl, Option.some.inj (hj.symm.trans hself)⟩
    · exact .inr ⟨hk, (hother k hk).symm.trans hj⟩
  exact {
    hash := by
      rw [hlist]
      refine h.hash.insert (by simp [hn]) (fun k => ?_) (fun k hk => ?_) (by simp [hself, hino])
      · by_cases hkn : k = n
        · simp [hkn, hself]
        · simp [hkn, hother k hkn]
      · have hkn : k ≠ n := fun heq => by simp [heq, hn] at hk
        rw [hother k hkn]
    unique := fun a b j j' ha hb hab => by
      rcases hold a j ha with ⟨rfl, rfl⟩ | ⟨-, ha'⟩
      · rcases hold b j' hb with ⟨rfl, -⟩ | ⟨-, hb'⟩
        · rfl
        · exact absurd (hab.symm.trans hino) (h.reading p ino hp b j' hb')
      · rcases hold b j' hb with ⟨rfl, rfl⟩ | ⟨-, hb'⟩
        · exact absurd (hab.trans hino) (h.reading p ino hp a j ha')
        · exact h.unique a b j j' ha' hb' hab
    refs := fun k j hj => by
      rcases hold k j hj with ⟨rfl, rfl⟩ | ⟨hk, hj'⟩
      · rw [hset, href]
        rfl
      · rw [hsame k hk]
        exact h.refs k j hj'
    reclaims := fun k j hj => by
      rw [hmove]
      rcases hold k j hj with ⟨rfl, rfl⟩ | ⟨hk, hj'⟩
      · simp [hset, hcount, hreclaim]
      · rw [hsame k hk]
        exact h.reclaims k j hj'
    gone := fun k hk => by
      have hkn : k ≠ n := fun heq => by simp [heq, hself] at hk
      rw [hsame k hkn, hmove]
      exact h.gone k ((hother k hkn).symm.trans hk)
    owner := by
      rw [hlock, hplace]
      exact hleave.owner
    reading := fun q k hq => by
      have hfree := hleave.unlocked rfl q
      rw [← hplace, hq] at hfree
      cases hfree
    removing := fun q k hq => absurd (hplace ▸ hq) (hleave.not_removing_of_unlocked rfl)
    log := fun k => by
      have hlog := h.log k
      rw [hmade, hkilled]
      by_cases hk : k = n
      · subst hk
        simpa [hn, hself] using hlog
      · simpa [hk, hother k hk] using hlog }

theorem Inv.exec_loadRead (h : m.Inv) (hp : m.place p = .reading ino) (fuel : Nat)
    (nlinks : Option (BitVec 16)) {a : Option NodeId} (ha : ∀ n, a = some n → m.nodes n = none) :
    m.exec fuel (.loadRead p nlinks a) = .error .nlinks ∨
      ∃ m', m.exec fuel (.loadRead p nlinks a) = .ok m' ∧ After m p m' := by
  have hlock : m.lock = some p := (h.owner p).mpr (by simp [hp, CachePlace.locked])
  have hleave := h.leave (.inr hlock) (by simp [hp])
  cases nlinks with
  | none => exact .inr ⟨m.leave p, by simp [exec, hp], .of_inv hleave rfl⟩
  | some k =>
    by_cases hk : k = 0
    · exact .inl (by simp [exec, hp, hk])
    cases a with
    | none => exact .inr ⟨m.leave p, by simpa [exec, hp] using hk, .of_inv hleave rfl⟩
    | some n =>
      have hlinks : (m.sfsCreateInode n ino k).sfsSetLinks n = .ok
          { m.sfsCreateInode n ino k with
            hashList := listAddAfter m.hashList (.head (sinHashfn ino)) (.entry n) } := by
        simp [sfsSetLinks, sfsCreateInode, InodeCache.setNode, node]
      have hinv : Inv { (({ m with toInodeCache := { m.sfsCreateInode n ino k with
            hashList := listAddAfter m.hashList (.head (sinHashfn ino)) (.entry n) } } :
            CacheSys P).leave p).hold p n (m.held p n + 1) with
          made := update m.made n (m.made n + 1) } :=
        h.create (ha n rfl) hp (update_self ..) ⟨rfl, rfl, rfl⟩
          (fun j hj => update_of_ne hj ..) rfl rfl rfl rfl rfl rfl
      refine .inr ⟨_, ?_, .of_inv hinv rfl⟩
      simp only [exec, hp, hk, if_false, hlinks, ok_bind]
      rfl

/-! ### Runs -/

theorem Inv.exec (h : m.Inv) (hlegal : m.Legal op) (fuel : Nat) :
    (m.exec fuel op = .error .nlinks ∨ m.exec fuel op = .error .outOfFuel) ∨
      ∃ m', m.exec fuel op = .ok m' ∧ After m op.proc m' := by
  cases op with
  | load p ino => exact .inr (h.exec_load hlegal fuel)
  | loadLocked p memory =>
    obtain ⟨⟨ino, hp⟩, hlock⟩ := hlegal
    exact (h.exec_loadLocked hp hlock fuel memory).imp_left .inr
  | loadRead p nlinks a =>
    obtain ⟨⟨ino, hp⟩, ha⟩ := hlegal
    exact (h.exec_loadRead hp fuel nlinks ha).imp_left .inl
  | refInc p n => exact .inr (h.exec_refInc hlegal.2 fuel)
  | refDec p n => exact .inr (h.exec_refDec hlegal.1 hlegal.2 fuel)
  | pass p q n => exact .inr (h.exec_pass hlegal fuel)
  | edit p n dirty nlinks => exact .inr (h.exec_edit hlegal.2 fuel dirty nlinks)
  | reclaimLocked p =>
    obtain ⟨⟨n, hp⟩, hlock⟩ := hlegal
    exact .inr (h.exec_reclaimLocked hp hlock fuel)
  | truncated p success dirty =>
    obtain ⟨n, hp⟩ := hlegal
    exact .inr (h.exec_truncated hp fuel success dirty)
  | synced p success =>
    obtain ⟨n, hp⟩ := hlegal
    exact .inr (h.exec_synced hp fuel success)

theorem Inv.step (h : m.Inv) (hstep : m.Step m' op) : After m op.proc m' := by
  obtain ⟨hlegal, fuel, hexec⟩ := hstep
  rcases h.exec hlegal fuel with (herr | herr) | ⟨m'', hok, hafter⟩
  · exact nomatch hexec.symm.trans herr
  · exact nomatch hexec.symm.trans herr
  · exact Except.ok.inj (hok.symm.trans hexec) ▸ hafter

omit [DecidableEq P] in
theorem Start.inv (h : m.Start) : m.Inv := by
  obtain ⟨hnodes, hlist, hlock, hplace, hheld, hlog⟩ := h
  exact {
    hash := .init hlist (by simp [hnodes])
    unique := fun n _ i _ hn => nomatch (hnodes n).symm.trans hn
    refs := fun n i hn => nomatch (hnodes n).symm.trans hn
    reclaims := fun n i hn => nomatch (hnodes n).symm.trans hn
    gone := fun n _ => ⟨shares_eq_zero.mpr fun p => hheld p n, headcount_eq_zero.mpr fun p => by
      simp [hplace]⟩
    owner := fun p => by simp [hlock, hplace, CachePlace.locked]
    reading := fun p ino hp => nomatch (hplace p).symm.trans hp
    removing := fun p n hp => by simp [hplace] at hp
    log := fun n => by simp [hlog, hnodes] }

theorem Reachable.inv (h : m.Reachable) : m.Inv := by
  induction h with
  | start h => exact h.inv
  | step _ hstep ih => exact (ih.step hstep).inv

/-- **The inode cache.** In every state that the processes can reach: no two inodes in memory have the
same number. No assertion of `inode_ref_dec`, `sfs_reclaim` and `inode_kill` fails in the next step,
and none uses an inode that is not in memory. A step kills an inode only when its `ref_count` is 0, no
process has a reference to it, and no other process is in `sfs_reclaim` for it. An inode is killed at
most once after it has been made. A lookup comes to its end, and what it returns is in memory, with
that number. -/
theorem inode_cache_safe (h : m.Reachable) :
    (∀ n n' i i', m.nodes n = some i → m.nodes n' = some i' → i.ino = i'.ino → n = n') ∧
    (∀ op, m.Legal op → ∀ fuel, m.exec fuel op ≠ .error .refCount ∧
      m.exec fuel op ≠ .error .reclaimCount ∧ m.exec fuel op ≠ .error .killRef ∧
      m.exec fuel op ≠ .error .freed) ∧
    (∀ op m', m.Step m' op → ∀ n, m'.killed n = m.killed n ∨
      m'.killed n = m.killed n + 1 ∧ Kills m m' op.proc n) ∧
    (∀ n, m.made n = m.killed n + if (m.nodes n).isSome then 1 else 0) ∧
    ∀ ino, (∃ fuel, m.LookedUp ino (m.lookupSfsNolock fuel ino)) ∧
      ∀ fuel, m.lookupSfsNolock fuel ino = .error .outOfFuel ∨
        m.LookedUp ino (m.lookupSfsNolock fuel ino) := by
  have hinv := h.inv
  refine ⟨hinv.unique, fun op hlegal fuel => ?_, fun op m' hstep => (hinv.step hstep).killed,
    hinv.log, hinv.lookup_spec⟩
  rcases hinv.exec hlegal fuel with (heq | heq) | ⟨m', heq, -⟩ <;> rw [heq] <;> simp

section Example

instance (x : CachePlace) : Decidable (∃ ino, x = .loading ino) := by
  cases x <;> first | exact .isTrue ⟨_, rfl⟩ | exact .isFalse nofun

instance (x : CachePlace) : Decidable (∃ ino, x = .reading ino) := by
  cases x <;> first | exact .isTrue ⟨_, rfl⟩ | exact .isFalse nofun

instance (x : CachePlace) : Decidable (∃ n, x = .reclaiming n) := by
  cases x <;> first | exact .isTrue ⟨_, rfl⟩ | exact .isFalse nofun

instance (x : CachePlace) : Decidable (∃ n, x = .truncating n) := by
  cases x <;> first | exact .isTrue ⟨_, rfl⟩ | exact .isFalse nofun

instance (x : CachePlace) : Decidable (∃ n, x = .syncing n) := by
  cases x <;> first | exact .isTrue ⟨_, rfl⟩ | exact .isFalse nofun

instance (f : NodeId → Option SfsNode) (a : Option NodeId) :
    Decidable (∀ n, a = some n → f n = none) :=
  match a with
  | none => .isTrue nofun
  | some n => decidable_of_iff (f n = none) (by simp)

omit [Fintype P] in
instance (m : CacheSys P) (op : CacheOp P) : Decidable (m.Legal op) := by
  cases op <;> unfold Legal <;> infer_instance

/-- Two processes, and nothing in memory. -/
def blank : CacheSys (Fin 2) where
  nodes _ := none
  hashList := ⟨id, id⟩
  lock := none
  place _ := .out
  held _ _ := 0
  made _ := 0
  killed _ := 0

theorem blank_reachable : blank.Reachable :=
  .start ⟨fun _ => rfl, fun _ => ⟨rfl, rfl⟩, rfl, fun _ => rfl, fun _ _ => rfl, fun _ => ⟨rfl, rfl⟩⟩

/-- A process drops the last reference to an inode, and another one finds it before it is removed. -/
theorem inode_cache_safe_revived : ∃ m : CacheSys (Fin 2), m.Reachable ∧
    m.place 0 = .reclaiming 7 ∧ (m.nodes 7).map (·.reclaimCount) = some 2 ∧
    m.made 7 = m.killed 7 + 1 := by
  obtain ⟨m, hexec, hm⟩ := (Option.any_eq_true _ _).mp (show (execAll Legal (exec 9) blank
      [.load 0 5, .loadLocked 0 true, .loadRead 0 (some 1) (some 7), .refDec 0 7, .load 1 5,
        .loadLocked 1 true]).any (fun m => m.place 0 = .reclaiming 7 ∧
          (m.nodes 7).map (·.reclaimCount) = some 2 ∧ (m.nodes 7).isSome) = true by decide +kernel)
  obtain ⟨hplace, hcount, hsome⟩ := of_decide_eq_true hm
  have hreach := execAll_keeps (fun _ _ _ h hl hop => h.step ⟨hl, 9, hop⟩) hexec blank_reachable
  have hlog := (inode_cache_safe hreach).2.2.2.1 7
  rw [if_pos hsome] at hlog
  exact ⟨m, hreach, hplace, hcount, hlog⟩

end Example

end CacheSys

end UcoreMips.Kernel
