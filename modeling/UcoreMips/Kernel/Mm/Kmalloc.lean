import UcoreMips.Kernel.Mm.SlobHeap
import UcoreMips.Lib.Ledger

/-!
# UcoreMips.Kernel.Mm.Kmalloc

**The blocks the heap has handed out.** The state of the heap is put together with an account
of what it owns: the pages it has taken and the blocks `slob_alloc` has handed out. Calls of
`kmalloc` and `kfree`, and writes of the callers into their blocks, take such states to others.

The account balances as long as no call meets a free list of one block in one of the ways
it cannot deal with (`Clean`):

* the only block is the one the call would take from: it is its own predecessor, so it stays in
  the list or `slobfree` is left pointing at it;
* the block given back lies directly below the only block: the two are merged, and
  the old block is linked to the merged one all the same;
* the page taken would leave a single block, from which the call then takes.

With `arena` in the list none of this happens, but `kmalloc(0)` can take `arena`. A block
of no bytes at the end of a page, moreover, has the address of the next page, and `kfree`
takes it for the big block there if there is one.
-/

namespace UcoreMips.Kernel

open UcoreMips.Lib
open Finset (disjoint_left union_empty union_comm)
open Function (update_of_ne)
open List Run

/-- The heap, with the pages it has taken and the blocks handed out and not yet freed. -/
structure Heap where
  slob : Slob
  arena : Nat
  taken : List Nat
  live : Finset Run

namespace Heap

def pageRun (p : Nat) : Run := ⟨p, pageUnits⟩

/-- `arena` and the pages taken. -/
def owned (w : Heap) : Finset Nat := insert w.arena (cells (w.taken.map pageRun))

def boot (arena : Nat) : Heap := ⟨Slob.init arena, arena, [], ∅⟩

/-- The block of a `bigblock_t`. -/
def descriptor (bb : Bigblock) : Run := ⟨bb.addr, slobUnits bigblockSize⟩

/-- A block given to a caller of `kmalloc`, not one that describes a big block. -/
def Small (w : Heap) (r : Run) : Prop :=
  r ∈ w.live ∧ ∀ bb ∈ w.slob.bigblocks, bb.addr ≠ r.start

/-! ### Calls -/

/-- What happens to the heap. The pages that `alloc_pages` would supply, in turn, and the pages
for a big block are given with the call. -/
inductive Op where
  | kmalloc (size : Nat) (supply : List Nat) (bigPages : Option Nat)
  | kfree (block : Run)
  | kfreeBig (bb : Bigblock)
  | write (a units next : Nat)

/-- The pages that `alloc_pages` will supply. -/
def supplied (w : Heap) (supply : List Nat) : Heap :=
  { w with slob := { w.slob with pages := supply } }

/-- What the kernel computes. -/
def call (w : Heap) : Op → Nat → Except Stop (Option Nat × Slob)
  | .kmalloc size supply bigPages, fuel =>
    Slob.kmalloc fuel (w.supplied supply).slob size bigPages
  | .kfree r, fuel => return (none, ← Slob.kfree fuel w.slob (r.start + 1))
  | .kfreeBig bb, fuel => return (none, ← Slob.kfree fuel w.slob bb.pages)
  | .write a units next, _ => return (none, (w.slob.setUnits a units).setNext a next)

/-- The block handed out by a `kmalloc` with this result. -/
def handed (size : Nat) : Option Nat × Slob → Finset Run
  | (none, _) => ∅
  | (some ptr, s) =>
    if size < pageSize - slobUnit then {⟨ptr - 1, slobUnits (size + slobUnit)⟩}
    else (s.bigblocks.head?.map descriptor).toFinset

/-- The pages of the supply that have been used. -/
def used (supply : List Nat) (t : Slob) : List Nat :=
  supply.take (supply.length - t.pages.length)

/-- The account after a call. -/
def after (w : Heap) : Op → Option Nat × Slob → Heap
  | .kmalloc size supply _, r =>
    { w with
      slob := r.2
      taken := used supply r.2 ++ w.taken
      live := w.live ∪ handed size r }
  | .kfree b, r => { w with slob := r.2, live := w.live.erase b }
  | .kfreeBig bb, r => { w with slob := r.2, live := w.live.erase (descriptor bb) }
  | .write .., r => { w with slob := r.2 }

/-- What callers and the page allocator promise: pages are new, what is freed is live, and
callers write into their own blocks, behind the header. -/
def Legal (w : Heap) : Op → Prop
  | .kmalloc _ supply bigPages =>
    (∀ p ∈ supply, p ≠ 0 ∧ Disjoint (pageRun p).toFinset w.owned) ∧
      ∀ q ∈ bigPages, q ≠ 0 ∧ q % pageUnits = 0 ∧ ∀ bb ∈ w.slob.bigblocks, bb.pages ≠ q
  | .kfree r => w.Small r
  | .kfreeBig bb => bb ∈ w.slob.bigblocks
  | .write a _ _ => ∃ r, w.Small r ∧ r.start < a ∧ a < r.stop

/-- A block of the free list, as it is found from `slobfree`. -/
def OnList (s : Slob) (a : Nat) : Prop :=
  Relation.ReflTransGen (fun x y => s.next x = y) s.slobfree a

/-- The units `slob_alloc` is asked for. -/
def request (size : Nat) : Nat :=
  if size < pageSize - slobUnit then slobUnits (size + slobUnit) else slobUnits bigblockSize

/-- The call does not meet a single free block where it matters. -/
def Clean (w : Heap) : Op → Prop
  | .kmalloc size supply _ =>
    ¬(w.slob.Alone ∧ request size ≤ w.slob.units w.slob.slobfree) ∧
      ((∀ a, OnList w.slob a → w.slob.units a < request size) →
        ∀ p ∈ supply.head?, ∃ a, OnList w.slob a ∧ a + w.slob.units a ≠ p ∧ p + pageUnits ≠ a)
  | .kfree r =>
    ¬(w.slob.Alone ∧ r.stop = w.slob.slobfree) ∧ ∀ bb ∈ w.slob.bigblocks, bb.pages ≠ r.start + 1
  | .kfreeBig bb => ¬(w.slob.Alone ∧ (descriptor bb).stop = w.slob.slobfree)
  | .write .. => True

/-- A call that returns. -/
def Step (w w' : Heap) (op : Op) : Prop :=
  w.Legal op ∧ ∃ r, Returns (w.call op) r ∧ w' = w.after op r

/-- The account of the heap balances: the free list goes around separated blocks, the blocks
handed out are apart from these and from each other, and no unit is lost. -/
structure Sound (w : Heap) (L : List Run) : Prop where
  list : w.slob.FreeList L
  reach : ∀ a, OnList w.slob a ↔ a ∈ starts L
  free : ∀ r ∈ w.live, ∀ f ∈ L, Disjoint r.toFinset f.toFinset
  live : ∀ r ∈ w.live, ∀ r' ∈ w.live, r ≠ r' → Disjoint r.toFinset r'.toFinset
  all : cells L ∪ w.live.biUnion Run.toFinset = w.owned
  total : (L.map Run.len).sum + ∑ r ∈ w.live, r.len = 1 + pageUnits * w.taken.length

/-- The computation comes to an end, with a value or a failed assertion. -/
def Ends (f : Nat → Except Stop (Option Nat × Slob)) : Prop :=
  ∃ N r, r ≠ .error .outOfFuel ∧ ∀ fuel ≥ N, f fuel = r

/-! ### The invariant -/

/-- The headers of the small blocks, and the blocks that describe big ones. -/
structure Blocks (s : Slob) (live : Finset Run) : Prop where
  header : ∀ r ∈ live, (∀ bb ∈ s.bigblocks, bb.addr ≠ r.start) → s.units r.start = r.len
  described : ∀ bb ∈ s.bigblocks, descriptor bb ∈ live ∧ bb.pages ≠ 0 ∧ bb.pages % pageUnits = 0
  addrs : (s.bigblocks.map Bigblock.addr).Nodup
  pages : (s.bigblocks.map Bigblock.pages).Nodup

structure Inv (w : Heap) (L : List Run) : Prop where
  list : w.slob.FreeList L
  ledger : Ledger Run.toFinset w.owned (cells L) w.live
  pos : ∀ r ∈ w.live, 0 < r.len
  zero : 0 ∉ w.owned
  card : w.owned.card = 1 + pageUnits * w.taken.length
  blocks : Blocks w.slob w.live

variable {w : Heap} {L : List Run} {s : Slob} {a arena : Nat}

theorem onList_iff (h : s.FreeList L) (a : Nat) : OnList s a ↔ a ∈ starts L :=
  h.ring.reach_iff h.slobfree

theorem Inv.sound (h : w.Inv L) : w.Sound L := by
  refine ⟨h.list, onList_iff h.list, fun r hr f hf => ?_, h.ledger.apart, h.ledger.all, ?_⟩
  · refine Finset.disjoint_of_subset_right (fun i hi => ?_) (h.ledger.unfree r hr)
    rw [Run.toFinset, Finset.mem_Ico] at hi
    exact mem_cells.mpr ⟨f, hf, hi⟩
  · have hcard := h.ledger.card_eq
    rw [h.card, h.list.sep.card_cells] at hcard
    rw [hcard]
    exact congrArg _ (Finset.sum_congr rfl fun r _ => r.card_toFinset.symm)

/-- The units of a block of the list, as its header has them. -/
theorem Inv.onList (h : w.Inv L) (ha : OnList w.slob a) :
    ∃ r ∈ L, r.start = a ∧ w.slob.units a = r.len := by
  obtain ⟨r, hr, rfl⟩ := mem_starts.mp ((onList_iff h.list a).mp ha)
  exact ⟨r, hr, rfl, h.list.units r hr⟩

theorem boot_inv (ha : arena ≠ 0) : (boot arena).Inv [⟨arena, 1⟩] := by
  have howned : (boot arena).owned = {arena} := insert_empty_eq _
  have hcells : cells [⟨arena, 1⟩] = {arena} := by
    rw [cells, cells, union_empty, Run.toFinset, Run.stop, Nat.Ico_succ_singleton]
  have hlist : (Slob.init arena).FreeList [⟨arena, 1⟩] := by
    refine ⟨rfl, Separated.cons_iff.mpr ⟨Nat.one_pos, forall_mem_nil _, Separated.nil⟩, ?_,
      mem_singleton.mpr rfl⟩
    intro r hr
    cases mem_singleton.mp hr
    exact if_pos rfl
  refine ⟨hlist, ?_, fun r hr => absurd hr (Finset.notMem_empty r), ?_, ?_,
    fun r hr => absurd hr (Finset.notMem_empty r), forall_mem_nil _, nodup_nil,
    nodup_nil⟩
  · rw [howned, hcells]
    exact Ledger.init Run.toFinset {arena}
  · exact fun h => ha (Finset.mem_singleton.mp h).symm
  · rfl

/-! ### What the calls of the heap do to it -/

variable {r : Run} {t : Slob} {live : Finset Run} {bb : Bigblock} {v n : Nat}

/-- The first unit of a live block is not free. -/
theorem Inv.start_notMem (h : w.Inv L) (hr : r ∈ w.live) : r.start ∉ cells L :=
  disjoint_left.mp (h.ledger.unfree r hr) (start_mem (h.pos r hr))

/-- Live blocks that start at the same unit are one. -/
theorem Inv.eq_of_start (h : w.Inv L) {r' : Run} (hr : r ∈ w.live) (hr' : r' ∈ w.live)
    (hstart : r.start = r'.start) : r = r' := by
  by_contra hne
  refine disjoint_left.mp (h.ledger.apart r hr r' hr' hne) (start_mem (h.pos r hr)) ?_
  rw [hstart]
  exact start_mem (h.pos r' hr')

theorem Blocks.congr (h : Blocks s live)
    (hunits : ∀ r ∈ live, t.units r.start = s.units r.start) (hbig : t.bigblocks = s.bigblocks) :
    Blocks t live := by
  refine ⟨fun r hr hsmall => ?_, ?_, ?_, ?_⟩
  · rw [hunits r hr]
    exact h.header r hr (hbig ▸ hsmall)
  · rw [hbig]
    exact h.described
  · rw [hbig]
    exact h.addrs
  · rw [hbig]
    exact h.pages

/-- A big block is found by its pages. -/
theorem Blocks.find (h : Blocks s live)
    (hmem : bb ∈ s.bigblocks) : s.bigblocks.find? (·.pages = bb.pages) = some bb := by
  have hsome : (s.bigblocks.find? (·.pages = bb.pages)).isSome :=
    List.find?_isSome.mpr ⟨bb, hmem, decide_eq_true rfl⟩
  obtain ⟨b, hb⟩ := Option.isSome_iff_exists.mp hsome
  have hpages : b.pages = bb.pages := by simpa using List.find?_some hb
  rw [hb, inj_on_of_nodup_map h.pages (mem_of_find?_eq_some hb) hmem hpages]

/-- A page taken. -/
theorem Inv.grow (h : w.Inv L) {p : Nat} {ps : List Nat} {L' : List Run} (hp : p ≠ 0)
    (hfresh : Disjoint (pageRun p).toFinset w.owned)
    (hfreed : Slob.Freed { w.slob with pages := ps } L (pageRun p) t L') :
    Inv { w with slob := t, taken := p :: w.taken } L' := by
  have howned : ({ w with slob := t, taken := p :: w.taken } : Heap).owned =
      w.owned ∪ (pageRun p).toFinset := by
    rw [owned, owned, map_cons, cells, union_comm, ← Finset.insert_union, union_comm]
  have hledger := h.ledger.grow hfresh
  rw [← hfreed.cells, ← howned] at hledger
  refine ⟨hfreed.list, hledger, h.pos, ?_, ?_, ?_⟩
  · rw [howned, Finset.mem_union, mem_toFinset]
    rintro (h0 | ⟨h0, -⟩)
    · exact h.zero h0
    · exact hp (Nat.le_zero.mp h0)
  · rw [howned, Finset.card_union_of_disjoint hfresh.symm, h.card, card_toFinset, pageRun,
      length_cons, Nat.mul_succ, Nat.add_assoc]
  · refine h.blocks.congr (fun r hr => hfreed.units r.start ?_) hfreed.bigblocks
    exact disjoint_left.mp (hledger.unfree r hr) (start_mem (h.pos r hr))

/-- A block is handed out once. -/
theorem Inv.fresh (h : w.Inv L) {L' : List Run} (htaken : Slob.Taken w.slob L v n t L') :
    ⟨v, n⟩ ∉ w.live := by
  intro hlive
  exact h.start_notMem hlive (htaken.inside (start_mem (h.pos _ hlive)))

/-- A block handed out. -/
theorem Inv.take (h : w.Inv L) {L' : List Run} (hn : 0 < n)
    (htaken : Slob.Taken w.slob L v n t L') :
    Inv { w with slob := t, live := insert ⟨v, n⟩ w.live } L' := by
  have hledger : Ledger Run.toFinset w.owned (cells L') (insert ⟨v, n⟩ w.live) := by
    rw [htaken.cells]
    exact h.ledger.take htaken.inside
  have hpos : ∀ r ∈ insert ⟨v, n⟩ w.live, 0 < r.len := fun r hr =>
    (Finset.mem_insert.mp hr).elim (fun heq => heq ▸ hn) (h.pos r)
  have hv : v ∈ cells L := htaken.inside (Finset.mem_Ico.mpr ⟨le_rfl, Nat.lt_add_of_pos_right hn⟩)
  refine ⟨htaken.list, hledger, hpos, h.zero, h.card, fun r hr hsmall => ?_, ?_, ?_, ?_⟩
  · rcases Finset.mem_insert.mp hr with rfl | hr'
    · exact htaken.header
    · rw [htaken.units r.start]
      · exact h.blocks.header r hr' (htaken.bigblocks ▸ hsmall)
      · exact disjoint_left.mp (hledger.unfree r hr) (start_mem (hpos r hr))
      · rintro rfl
        exact h.start_notMem hr' hv
  · intro bb hbb
    obtain ⟨hlive, hbig⟩ := h.blocks.described bb (htaken.bigblocks ▸ hbb)
    exact ⟨Finset.mem_insert_of_mem hlive, hbig⟩
  · rw [show t.bigblocks = w.slob.bigblocks from htaken.bigblocks]
    exact h.blocks.addrs
  · rw [show t.bigblocks = w.slob.bigblocks from htaken.bigblocks]
    exact h.blocks.pages

/-- A live block lies apart from the blocks of the list. -/
theorem Inv.apart (h : w.Inv L) {f : Run} (hr : r ∈ w.live) (hf : f ∈ L) :
    r.stop ≤ f.start ∨ f.stop ≤ r.start :=
  le_or_le_of_disjoint (h.pos r hr) (h.list.sep.nonempty f hf) (h.sound.free r hr f hf)

/-- A block given back: in `u` its header may have been written, and its entry in the list
of big blocks is gone. -/
theorem Inv.release (h : w.Inv L) (hr : r ∈ w.live) {u : Slob} (size : Nat)
    (hnext : ∀ a ≠ r.start, u.next a = w.slob.next a) (hunits : ∀ a ≠ r.start, u.units a = w.slob.units a)
    (hfree : u.slobfree = w.slob.slobfree) (hsub : u.bigblocks.Sublist w.slob.bigblocks)
    (hbig : ∀ bb ∈ w.slob.bigblocks, bb ∈ u.bigblocks ↔ bb.addr ≠ r.start)
    (hsize : if size = 0 then u.units r.start = r.len else slobUnits size = r.len)
    (halone : ¬(w.slob.Alone ∧ r.stop = w.slob.slobfree)) :
    ∃ t L', Returns (fun fuel => Slob.slobFree fuel u r.start size) t ∧
      Inv { w with slob := t, live := w.live.erase r } L' ∧ t.pages = u.pages ∧
      t.bigblocks = u.bigblocks := by
  have hne : ∀ a ∈ cells L, a ≠ r.start := by
    rintro a ha rfl
    exact h.start_notMem hr ha
  have hlist : u.FreeList L :=
    h.list.congr (fun a ha => hnext a (hne a ha)) (fun a ha => hunits a (hne a ha)) hfree
  have hzero : r.start ≠ 0 := by
    intro h0
    refine h.zero (h.ledger.area_subset hr ?_)
    rw [← h0]
    exact start_mem (h.pos r hr)
  obtain ⟨t, L', hfreed, hret⟩ := Slob.slobFree_spec hlist hzero (h.pos r hr)
    (fun f hf => h.apart hr hf) hsize (by
      rw [hlist.alone_iff, ← h.list.alone_iff, hfree]
      exact fun h1 h2 => halone ⟨h1, h2⟩)
  have hledger := h.ledger.release hr
  rw [← hfreed.cells] at hledger
  refine ⟨t, L', ⟨L.length + 1, hret⟩, ⟨hfreed.list, hledger, ?_, h.zero, h.card, ?_⟩,
    hfreed.pages, hfreed.bigblocks⟩
  · exact fun r' hr' => h.pos r' (Finset.mem_of_mem_erase hr')
  · have hmem : ∀ bb, bb ∈ t.bigblocks ↔ bb ∈ w.slob.bigblocks ∧ bb.addr ≠ r.start := by
      intro bb
      rw [hfreed.bigblocks]
      exact ⟨fun hbb => ⟨hsub.subset hbb, (hbig bb (hsub.subset hbb)).mp hbb⟩,
        fun hbb => (hbig bb hbb.1).mpr hbb.2⟩
    refine ⟨fun r' hr' hsmall => ?_, fun bb hbb => ?_, ?_, ?_⟩
    · obtain ⟨hne', hlive⟩ := Finset.mem_erase.mp hr'
      have hstart : r'.start ≠ r.start := fun heq => hne' (h.eq_of_start hlive hr heq)
      rw [hfreed.units r'.start (disjoint_left.mp (hledger.unfree r' hr')
        (start_mem (h.pos r' hlive))), hunits _ hstart]
      refine h.blocks.header r' hlive fun bb hbb heq => ?_
      exact hsmall bb ((hmem bb).mpr ⟨hbb, heq ▸ hstart⟩) heq
    · obtain ⟨hbb, haddr⟩ := (hmem bb).mp hbb
      obtain ⟨hlive, hpages⟩ := h.blocks.described bb hbb
      exact ⟨Finset.mem_erase.mpr ⟨fun heq => haddr (congrArg Run.start heq), hlive⟩, hpages⟩
    · rw [show t.bigblocks = u.bigblocks from hfreed.bigblocks]
      exact h.blocks.addrs.sublist (hsub.map _)
    · rw [show t.bigblocks = u.bigblocks from hfreed.bigblocks]
      exact h.blocks.pages.sublist (hsub.map _)

/-- The pages that will be supplied are not part of the account. -/
theorem Inv.supplied (h : w.Inv L) (supply : List Nat) : (w.supplied supply).Inv L :=
  { h with list := { h.list with }, blocks := { h.blocks with } }

theorem used_eq {us supply : List Nat} (h : supply = us ++ t.pages) : used supply t = us := by
  rw [used, h, length_append, Nat.add_sub_cancel, take_left]

/-- The account after `slob_alloc` has used pages of the supply. -/
def charge (w : Heap) (t : Slob) : Heap :=
  { w with slob := t, taken := used w.slob.pages t ++ w.taken }

/-- A call of `slob_alloc` for `n` units keeps the account. -/
inductive AllocInv (w : Heap) (L : List Run) (n : Nat) : Option Nat → Slob → Prop
  | none {t : Slob} (hbig : t.bigblocks = w.slob.bigblocks) (hinv : (w.charge t).Inv L) :
      AllocInv w L n none t
  | some {v : Nat} {t : Slob} {L' : List Run} (hfresh : ⟨v, n⟩ ∉ w.live)
      (hgap : v + n ≠ t.slobfree) (hbig : t.bigblocks = w.slob.bigblocks)
      (hinv : Inv { w.charge t with live := insert ⟨v, n⟩ w.live } L') :
      AllocInv w L n (some v) t

section SlobAlloc

variable {size : Nat} (hsupply : ∀ p ∈ w.slob.pages, p ≠ 0 ∧ Disjoint (pageRun p).toFinset w.owned)
  (halone : ¬(w.slob.Alone ∧ slobUnits size ≤ w.slob.units w.slob.slobfree))
  (hpage : (∀ a, OnList w.slob a → w.slob.units a < slobUnits size) → ∀ p ∈ w.slob.pages.head?, ∃ a, OnList w.slob a ∧ a + w.slob.units a ≠ p ∧ p + pageUnits ≠ a)

include hsupply halone hpage

/-- What `slob_alloc` needs, of a call that is legal and clean: the block it takes is not the only one,
and a page it takes leaves others. -/
theorem Inv.alloc_ready (h : w.Inv L) :
    ((∃ r ∈ L, slobUnits size ≤ r.len) → L.length ≠ 1) ∧
      ∀ p ∈ w.slob.pages.head?, p ≠ 0 ∧ (∀ r ∈ L, p + pageUnits ≤ r.start ∨ r.stop ≤ p) ∧
        ((∀ r ∈ L, r.len < slobUnits size) → ∃ a ∈ L, a.stop ≠ p ∧ p + pageUnits ≠ a.start) := by
  constructor
  · rintro ⟨r, hr, hroom⟩ hlen
    obtain ⟨z, rfl⟩ := length_eq_one_iff.mp hlen
    refine halone ⟨h.list.alone_iff.mpr hlen, ?_⟩
    rw [mem_singleton.mp h.list.slobfree, h.list.units z mem_cons_self, ← mem_singleton.mp hr]
    exact hroom
  · intro p hp
    obtain ⟨hp0, hdisj⟩ := hsupply p (mem_of_mem_head? hp)
    refine ⟨hp0, fun r hr => ?_, fun hsmall => ?_⟩
    · refine le_or_le_of_disjoint (r := pageRun p) (Nat.zero_lt_succ 511)
        (h.list.sep.nonempty r hr) (Finset.disjoint_of_subset_right (fun i hi => ?_) hdisj)
      exact h.ledger.free_subset (mem_cells.mpr ⟨r, hr, mem_toFinset.mp hi⟩)
    · have hfull : ∀ a, OnList w.slob a → w.slob.units a < slobUnits size := by
        intro a ha
        obtain ⟨r, hr, -, hlen⟩ := h.onList ha
        exact hlen ▸ hsmall r hr
      obtain ⟨a, ha, h1, h2⟩ := hpage hfull p hp
      obtain ⟨r, hr, rfl, hlen⟩ := h.onList ha
      rw [hlen] at h1
      exact ⟨r, hr, h1, h2⟩

theorem Inv.alloc (h : w.Inv L) (hn : 0 < slobUnits size) (hsize : size + slobUnit < pageSize) :
    ∃ v t, AllocInv w L (slobUnits size) v t ∧
      Returns (fun fuel => Slob.slobAlloc fuel w.slob size) (v, t) := by
  obtain ⟨hone, hsup⟩ := h.alloc_ready hsupply halone hpage
  obtain ⟨v, t, halloc, hret⟩ := Slob.slobAlloc_spec h.list hn hsize hone hsup
  refine ⟨v, t, ?_, hret⟩
  cases halloc with
  | none hpages =>
    have hused : used w.slob.pages w.slob = [] := used_eq rfl
    refine .none rfl ?_
    rw [charge, hused]
    exact h
  | @hit v t L' htaken =>
    have hused : used w.slob.pages t = [] := used_eq htaken.pages.symm
    have hinv : Inv { w.charge t with live := insert ⟨v, slobUnits size⟩ w.live } L' := by
      rw [charge, hused]
      exact h.take hn htaken
    exact .some (h.fresh htaken) htaken.gap htaken.bigblocks hinv
  | @page p pages u K v t L' hpages hfreed htaken =>
    have hused : used w.slob.pages t = [p] :=
      used_eq (by rw [hpages, htaken.pages, hfreed.pages]; rfl)
    obtain ⟨hp0, hdisj⟩ := hsupply p (hpages ▸ mem_cons_self)
    have hgrown := h.grow hp0 hdisj hfreed
    have hinv : Inv { w.charge t with live := insert ⟨v, slobUnits size⟩ w.live } L' := by
      rw [charge, hused]
      exact hgrown.take hn htaken
    exact .some (hgrown.fresh htaken) htaken.gap (htaken.bigblocks.trans hfreed.bigblocks) hinv

end SlobAlloc

/-- A unit of a live block is not free. -/
theorem Inv.notMem_cells (h : w.Inv L) (hr : r ∈ w.live) (ha : a ∈ r.toFinset) : a ∉ cells L :=
  disjoint_left.mp (h.ledger.unfree r hr) ha

/-- A unit of a live block is in no other. -/
theorem Inv.eq_of_mem (h : w.Inv L) {r' : Run} (hr : r ∈ w.live) (hr' : r' ∈ w.live)
    (ha : a ∈ r.toFinset) (ha' : a ∈ r'.toFinset) : r = r' := by
  by_contra hne
  exact disjoint_left.mp (h.ledger.apart r hr r' hr' hne) ha ha'

/-- Writes that leave the list and the headers alone. -/
theorem Inv.congr (h : w.Inv L) (hnext : ∀ a ∈ cells L, t.next a = w.slob.next a)
    (hunits : ∀ a ∈ cells L, t.units a = w.slob.units a) (hfree : t.slobfree = w.slob.slobfree)
    (hblocks : Blocks t w.live) :
    Inv { w with slob := t } L :=
  { h with list := h.list.congr hnext hunits hfree, blocks := hblocks }

variable {u : Nat}

/-- A caller writes into its block. -/
theorem Inv.write (h : w.Inv L) (hr : r ∈ w.live) (h1 : r.start < a) (h2 : a < r.stop) :
    Inv { w with slob := (w.slob.setUnits a u).setNext a n } L := by
  have ha : a ∈ r.toFinset := mem_toFinset.mpr ⟨h1.le, h2⟩
  have hne : ∀ i ∈ cells L, i ≠ a := by
    rintro i hi rfl
    exact h.notMem_cells hr ha hi
  refine h.congr (fun i hi => update_of_ne (hne i hi) ..)
    (fun i hi => update_of_ne (hne i hi) ..) rfl
    (h.blocks.congr (fun r' hr' => update_of_ne ?_ ..) rfl)
  rintro rfl
  exact h1.ne (congrArg Run.start (h.eq_of_mem hr hr' ha (start_mem (h.pos r' hr'))))

/-- A block comes to describe a big one. -/
theorem Inv.pushBigblock (h : w.Inv L) {bb q : Nat} (order : Nat)
    (hr : ⟨bb, slobUnits bigblockSize⟩ ∈ w.live) (hsmall : ∀ b ∈ w.slob.bigblocks, b.addr ≠ bb)
    (hq : q ≠ 0) (halign : q % pageUnits = 0) (hnew : ∀ b ∈ w.slob.bigblocks, b.pages ≠ q) :
    Inv { w with slob := w.slob.pushBigblock bb order q } L := by
  have hmem : ∀ i, i = bb ∨ i = bb + 1 → i ∈ Run.toFinset ⟨bb, slobUnits bigblockSize⟩ := by
    intro i hi
    rw [mem_toFinset, Run.stop, show slobUnits bigblockSize = 2 from rfl]
    dsimp only
    omega
  have hne : ∀ i ∈ cells L, i ≠ bb ∧ i ≠ bb + 1 := by
    intro i hi
    refine ⟨?_, ?_⟩ <;> rintro rfl
    · exact h.notMem_cells hr (hmem _ (.inl rfl)) hi
    · exact h.notMem_cells hr (hmem _ (.inr rfl)) hi
  refine h.congr (fun i hi => update_of_ne (hne i hi).1 ..)
    (fun i hi => (update_of_ne (hne i hi).2 ..).trans
      (update_of_ne (hne i hi).1 ..)) rfl ⟨fun r hr' hr'' => ?_, ?_, ?_, ?_⟩
  · have hstart : r.start ≠ bb := (hr'' _ mem_cons_self).symm
    have hsecond : r.start ≠ bb + 1 := by
      intro heq
      have hin := start_mem (h.pos r hr')
      have := h.eq_of_mem hr hr' (hmem _ (.inr heq)) hin
      exact hstart (congrArg Run.start this).symm
    refine (update_of_ne hsecond ..).trans ((update_of_ne hstart ..).trans ?_)
    exact h.blocks.header r hr' fun b hb => hr'' b (mem_cons_of_mem _ hb)
  · exact forall_mem_cons.mpr ⟨⟨hr, hq, halign⟩, h.blocks.described⟩
  · refine nodup_cons.mpr ⟨fun hin => ?_, h.blocks.addrs⟩
    obtain ⟨b, hb, heq⟩ := mem_map.mp hin
    exact hsmall b hb heq
  · refine nodup_cons.mpr ⟨fun hin => ?_, h.blocks.pages⟩
    obtain ⟨b, hb, heq⟩ := mem_map.mp hin
    exact hnew b hb heq

/-! ### Calls keep the account -/

/-- What `kmalloc` can come to: nothing, a new small block, or the pages of a new big one. -/
inductive Kmalloced (w : Heap) (size : Nat) (bigPages : Option Nat) : Option Nat × Slob → Prop
  | none {t : Slob} (hbig : t.bigblocks = w.slob.bigblocks) : Kmalloced w size bigPages (none, t)
  | small {v : Nat} {t : Slob} (hsize : size < pageSize - slobUnit)
      (hfresh : ⟨v, slobUnits (size + slobUnit)⟩ ∉ w.live) (hbig : t.bigblocks = w.slob.bigblocks) :
      Kmalloced w size bigPages (some (v + 1), t)
  | big {q bb : Nat} {t : Slob} (hsize : ¬size < pageSize - slobUnit) (hq : bigPages = some q)
      (hbig : t.bigblocks = ⟨bb, Slob.findOrder size, q⟩ :: w.slob.bigblocks) :
      Kmalloced w size bigPages (some q, t)

section Kmalloc

variable {size : Nat} {supply : List Nat} {bigPages : Option Nat}

theorem Inv.kmallocSmall (h : w.Inv L) (hlegal : w.Legal (.kmalloc size supply bigPages))
    (hclean : w.Clean (.kmalloc size supply bigPages)) (hsize : size < pageSize - slobUnit)
    (hassert : size + slobUnit + slobUnit < pageSize) :
    ∃ r L', Returns (w.call (.kmalloc size supply bigPages)) r ∧
      (w.after (.kmalloc size supply bigPages) r).Inv L' ∧ Kmalloced w size bigPages r := by
  obtain ⟨halone, hpage⟩ := hclean
  rw [request, if_pos hsize] at halone hpage
  obtain ⟨v, t, halloc, N, hret⟩ := Inv.alloc (w := w.supplied supply) hlegal.1 halone
    hpage (h.supplied supply) (by unfold slobUnits slobUnit; omega) hassert
  have hcall : Returns (w.call (.kmalloc size supply bigPages)) (v.map (· + 1), t) := by
    refine ⟨N, fun fuel hfuel => ?_⟩
    rw [call, Slob.kmalloc, if_pos hsize]
    dsimp only [bind, Except.bind, pure, Except.pure] at hret ⊢
    rw [hret fuel hfuel]
  cases halloc with
  | none hbig hinv =>
    refine ⟨_, L, hcall, ?_, .none hbig⟩
    rw [after, Option.map_none, handed, union_empty]
    exact hinv
  | @some v t L' hfresh hgap hbig hinv =>
    refine ⟨_, L', hcall, ?_, .small hsize hfresh hbig⟩
    rw [after, Option.map_some, handed, if_pos hsize, Nat.add_sub_cancel, union_comm,
      ← Finset.insert_eq]
    exact hinv

variable {t : Slob}

theorem call_big_none (bigPages : Option Nat) (hsize : ¬size < pageSize - slobUnit)
    (halloc : Returns (fun fuel => Slob.slobAlloc fuel (w.supplied supply).slob bigblockSize) (none, t)) :
    Returns (w.call (.kmalloc size supply bigPages)) (none, t) := by
  obtain ⟨N, hret⟩ := halloc
  refine ⟨N, fun fuel hfuel => ?_⟩
  rw [call, Slob.kmalloc, if_neg hsize]
  dsimp only [bind, Except.bind, pure, Except.pure] at hret ⊢
  rw [hret fuel hfuel]

theorem call_big_some {bb : Nat} (q : Nat) (hsize : ¬size < pageSize - slobUnit)
    (halloc : Returns (fun fuel => Slob.slobAlloc fuel (w.supplied supply).slob bigblockSize)
      (some bb, t)) : Returns (w.call (.kmalloc size supply (some q)))
        (some q, t.pushBigblock bb (Slob.findOrder size) q) := by
  obtain ⟨N, hret⟩ := halloc
  refine ⟨N, fun fuel hfuel => ?_⟩
  rw [call, Slob.kmalloc, if_neg hsize]
  dsimp only [bind, Except.bind, pure, Except.pure] at hret ⊢
  rw [hret fuel hfuel]

/-- The assertion of `slob_alloc`, for sizes that just fit in a page. -/
theorem call_assertion (bigPages : Option Nat) (hsize : size < pageSize - slobUnit)
    (hassert : ¬size + slobUnit + slobUnit < pageSize) (fuel : Nat) :
    w.call (.kmalloc size supply bigPages) fuel = .error .assertion := by
  rw [call, Slob.kmalloc, if_pos hsize, Slob.slobAlloc, if_pos hassert]
  rfl

theorem Inv.kmallocBig (h : w.Inv L) (hlegal : w.Legal (.kmalloc size supply bigPages))
    (hclean : w.Clean (.kmalloc size supply bigPages)) (hsize : ¬size < pageSize - slobUnit) :
    ∃ r L', Returns (w.call (.kmalloc size supply bigPages)) r ∧
      (w.after (.kmalloc size supply bigPages) r).Inv L' ∧ Kmalloced w size bigPages r := by
  obtain ⟨hsupply, hbigPages⟩ := hlegal
  obtain ⟨halone, hpage⟩ := hclean
  rw [request, if_neg hsize] at halone hpage
  obtain ⟨v, t, halloc, hret⟩ := Inv.alloc (w := w.supplied supply) hsupply halone hpage
    (h.supplied supply) (by decide) (by decide)
  cases halloc with
  | none hbig hinv =>
    refine ⟨(none, t), L, call_big_none bigPages hsize hret, ?_, .none hbig⟩
    rw [after, handed, union_empty]
    exact hinv
  | @some bb t L' hfresh hgap hbig hinv =>
    have hsmall : ∀ b ∈ t.bigblocks, b.addr ≠ bb := by
      rintro b hb rfl
      exact hfresh (h.blocks.described b (hbig ▸ hb)).1
    have hlive : (⟨bb, slobUnits bigblockSize⟩ : Run) ∈
        insert ⟨bb, slobUnits bigblockSize⟩ w.live := Finset.mem_insert_self _ _
    cases bigPages with
    | some q =>
      obtain ⟨hq, halign, hnew⟩ := hbigPages q rfl
      refine ⟨(some q, t.pushBigblock bb (Slob.findOrder size) q), L', call_big_some q hsize hret, ?_,
        .big hsize rfl (congrArg _ hbig)⟩
      have hpush := hinv.pushBigblock (Slob.findOrder size) hlive hsmall hq halign
        fun b hb => hnew b (hbig ▸ hb)
      rw [after, handed, if_neg hsize, union_comm]
      exact hpush
    | none =>
      obtain ⟨N, hret⟩ := hret
      obtain ⟨u, K, ⟨M, hfree⟩, hrel, hpages, hbig'⟩ := hinv.release hlive bigblockSize
        (u := t.fillBigblock bb (Slob.findOrder size) 0)
        (fun a ha => update_of_ne ha ..) (fun a ha => update_of_ne ha ..) rfl
        (List.Sublist.refl _) (fun b hb => iff_of_true hb (hsmall b hb)) rfl fun h1 => hgap h1.2
      refine ⟨(none, u), K, ⟨max N M, fun fuel hfuel => ?_⟩, ?_, .none (hbig'.trans hbig)⟩
      · rw [call, Slob.kmalloc, if_neg hsize]
        dsimp only [bind, Except.bind, pure, Except.pure] at hret hfree ⊢
        rw [hret fuel ((le_max_left N M).trans hfuel)]
        dsimp only
        rw [hfree fuel ((le_max_right N M).trans hfuel)]
      · have hused : used supply u = used supply t := by
          rw [used, used, hpages]
          rfl
        rw [after, handed, union_empty, hused]
        rw [show w.live = (insert ⟨bb, slobUnits bigblockSize⟩ w.live).erase
          ⟨bb, slobUnits bigblockSize⟩ from (Finset.erase_insert hfresh).symm]
        exact hrel

end Kmalloc

theorem Inv.kfree (h : w.Inv L) (hlegal : w.Legal (.kfree r)) (hclean : w.Clean (.kfree r)) :
    ∃ u L', Returns (w.call (.kfree r)) u ∧ (w.after (.kfree r) u).Inv L' ∧
      u.2.bigblocks = w.slob.bigblocks := by
  obtain ⟨hlive, hsmall⟩ := hlegal
  obtain ⟨halone, hpages⟩ := hclean
  obtain ⟨t, L', ⟨N, hfree⟩, hinv, -, hbig⟩ := h.release hlive 0 (u := w.slob) (fun _ _ => rfl)
    (fun _ _ => rfl) rfl (List.Sublist.refl _) (fun b hb => iff_of_true hb (hsmall b hb))
    (h.blocks.header r hlive hsmall) halone
  refine ⟨(none, t), L', ⟨N, fun fuel hfuel => ?_⟩, hinv, hbig⟩
  have hfind : w.slob.bigblocks.find? (·.pages = r.start + 1) = none :=
    List.find?_eq_none.mpr fun b hb => by simpa using hpages b hb
  rw [call, Slob.kfree, if_neg (Nat.succ_ne_zero _), hfind, ite_self]
  dsimp only [bind, Except.bind, pure, Except.pure] at hfree ⊢
  rw [Nat.add_sub_cancel, hfree fuel hfuel]

theorem Inv.kfreeBig (h : w.Inv L) (hlegal : w.Legal (.kfreeBig bb))
    (hclean : w.Clean (.kfreeBig bb)) :
    ∃ u L', Returns (w.call (.kfreeBig bb)) u ∧ (w.after (.kfreeBig bb) u).Inv L' ∧
      u.2.bigblocks = w.slob.bigblocks.erase bb := by
  have hmem : bb ∈ w.slob.bigblocks := hlegal
  obtain ⟨hlive, hzero, halign⟩ := h.blocks.described bb hmem
  have hkept : ∀ b ∈ w.slob.bigblocks, b ∈ w.slob.bigblocks.erase bb ↔ b.addr ≠ bb.addr := by
    intro b hb
    rw [(List.Nodup.of_map _ h.blocks.addrs).mem_erase_iff, and_iff_left hb]
    exact not_congr ⟨congrArg Bigblock.addr, inj_on_of_nodup_map h.blocks.addrs hb hmem⟩
  obtain ⟨t, L', ⟨N, hfree⟩, hinv, -, hbig⟩ := h.release hlive bigblockSize
    (u := { w.slob with bigblocks := w.slob.bigblocks.erase bb }) (fun _ _ => rfl)
    (fun _ _ => rfl) rfl erase_sublist hkept rfl hclean
  refine ⟨(none, t), L', ⟨N, fun fuel hfuel => ?_⟩, hinv, hbig⟩
  rw [call, Slob.kfree, if_neg hzero, if_pos halign, h.blocks.find hmem]
  dsimp only [bind, Except.bind, pure, Except.pure, descriptor] at hfree ⊢
  rw [hfree fuel hfuel]

theorem Inv.writes (h : w.Inv L) (hlegal : w.Legal (.write a u n)) :
    ∃ r L', Returns (w.call (.write a u n)) r ∧ (w.after (.write a u n) r).Inv L' := by
  obtain ⟨r, ⟨hlive, -⟩, h1, h2⟩ := hlegal
  exact ⟨_, L, Returns.pure _, h.write hlive h1 h2⟩

/-- Whatever happens, it ends: with the account kept, or in the assertion of `slob_alloc`. -/
theorem Inv.step (h : w.Inv L) {op : Op} (hlegal : w.Legal op) (hclean : w.Clean op) :
    (∀ fuel, w.call op fuel = .error .assertion) ∨
      ∃ r L', Returns (w.call op) r ∧ (w.after op r).Inv L' := by
  cases op with
  | kmalloc size supply bigPages =>
    by_cases hsize : size < pageSize - slobUnit
    · by_cases hassert : size + slobUnit + slobUnit < pageSize
      · obtain ⟨r, L', hret, hinv, -⟩ := h.kmallocSmall hlegal hclean hsize hassert
        exact .inr ⟨r, L', hret, hinv⟩
      · exact .inl (call_assertion bigPages hsize hassert)
    · obtain ⟨r, L', hret, hinv, -⟩ := h.kmallocBig hlegal hclean hsize
      exact .inr ⟨r, L', hret, hinv⟩
  | kfree r =>
    obtain ⟨u, L', hret, hinv, -⟩ := h.kfree hlegal hclean
    exact .inr ⟨u, L', hret, hinv⟩
  | kfreeBig bb =>
    obtain ⟨u, L', hret, hinv, -⟩ := h.kfreeBig hlegal hclean
    exact .inr ⟨u, L', hret, hinv⟩
  | write a u n => exact .inr (h.writes hlegal)

/-- Every state of a run of clean calls has the invariant. -/
theorem Inv.run (ha : arena ≠ 0)
    (hrun : Relation.ReflTransGen (fun t u => ∃ op, Step t u op ∧ t.Clean op) (boot arena) w) :
    ∃ L, w.Inv L := by
  induction hrun with
  | refl => exact ⟨_, boot_inv ha⟩
  | tail _ hstep ih =>
    obtain ⟨L, hinv⟩ := ih
    obtain ⟨op, ⟨hlegal, r, hret, rfl⟩, hclean⟩ := hstep
    rcases hinv.step hlegal hclean with hstop | ⟨r', L', hret', hinv'⟩
    · obtain ⟨N, hret⟩ := hret
      exact nomatch (hstop N).symm.trans (hret N le_rfl)
    · rw [hret.unique hret']
      exact ⟨L', hinv'⟩

/-- **The heap keeps its account** in every state that clean calls reach from the start, and
the searches of every clean call come to an end. -/
theorem heap_sound_of_clean {arena : Nat} {w : Heap} (ha : arena ≠ 0)
    (hrun : Relation.ReflTransGen (fun t u => ∃ op, Step t u op ∧ t.Clean op) (boot arena) w) :
    (∃ L, w.Sound L) ∧ ∀ op, w.Legal op → w.Clean op → Ends (w.call op) := by
  obtain ⟨L, hinv⟩ := Inv.run ha hrun
  refine ⟨⟨L, hinv.sound⟩, fun op hlegal hclean => ?_⟩
  rcases hinv.step hlegal hclean with hstop | ⟨r, L', ⟨N, hret⟩, -⟩
  · exact ⟨0, .error .assertion, by simp, fun fuel _ => hstop fuel⟩
  · exact ⟨N, .ok r, by simp, hret⟩

theorem heap_sound_of_clean_page :
    ∃ r, Returns ((boot 1000).call (.kmalloc 16 [2048] none)) r ∧
      (∃ L, ((boot 1000).after (.kmalloc 16 [2048] none) r).Sound L) ∧
      ∀ op, ((boot 1000).after (.kmalloc 16 [2048] none) r).Legal op →
        ((boot 1000).after (.kmalloc 16 [2048] none) r).Clean op →
        Ends (((boot 1000).after (.kmalloc 16 [2048] none) r).call op) := by
  have hlegal : (boot 1000).Legal (.kmalloc 16 [2048] none) := by
    refine ⟨fun p hp => ?_, fun q hq => (nomatch hq)⟩
    cases mem_singleton.mp hp
    exact ⟨by decide, disjoint_left.mpr fun i hi hin => by
      rw [mem_toFinset] at hi
      rw [show i = 1000 from by simpa [owned, boot, cells] using hin] at hi
      exact absurd hi.1 (by decide)⟩
  have hclean : (boot 1000).Clean (.kmalloc 16 [2048] none) := by
    refine ⟨fun h => absurd h.2 (by decide), fun _ p hp => ⟨1000, .refl, ?_⟩⟩
    cases hp
    decide
  rcases (boot_inv (show 1000 ≠ 0 by decide)).step hlegal hclean with hstop | ⟨r, L, hret, -⟩
  · cases hstop 10
  · exact ⟨r, hret, heap_sound_of_clean (by decide) (.single ⟨_, ⟨hlegal, r, hret, rfl⟩, hclean⟩)⟩

/-- The heap whose only block, `arena`, has been handed out and is still in the list. -/
def selfLinked : Slob := ((boot 1000).supplied []).slob.take 1 1000 1000

theorem selfLinked_findFrom (fuel : Nat) :
    selfLinked.findFrom 1000 fuel 1000 = .error .outOfFuel := by
  induction fuel with
  | zero => rfl
  | succ fuel ih => exact ih

theorem selfLinked_slobFree (fuel : Nat) :
    Slob.slobFree fuel selfLinked 1000 0 = .error .outOfFuel := by
  rw [Slob.slobFree, if_neg (by decide)]
  dsimp only [bind, Except.bind]
  rw [if_neg (by decide), show selfLinked.slobfree = 1000 from rfl, selfLinked_findFrom]

/-- The first `kmalloc(0)` is given `arena`, which stays in the free list; to free it the
search goes around `arena` forever. -/
theorem arena_stays_free :
    ∃ w, Step (boot 1000) w (.kmalloc 0 [] none) ∧ (¬∃ L, w.Sound L) ∧
      ∃ op, w.Legal op ∧ ¬Ends (w.call op) := by
  have hlegal : (boot 1000).Legal (.kmalloc 0 [] none) :=
    ⟨fun p hp => (nomatch hp), fun q hq => (nomatch hq)⟩
  have hret : Returns ((boot 1000).call (.kmalloc 0 [] none)) (some 1001, selfLinked) := by
    refine ⟨1, fun fuel hfuel => ?_⟩
    obtain ⟨k, rfl⟩ := Nat.exists_eq_add_of_le' hfuel
    rfl
  refine ⟨_, ⟨hlegal, _, hret, rfl⟩, ?_, .kfree ⟨1000, 1⟩, ?_, ?_⟩
  · rintro ⟨L, hsound⟩
    obtain ⟨f, hf, hstart⟩ := mem_starts.mp hsound.list.slobfree
    have hlive := hsound.free ⟨1000, 1⟩ (by decide) f hf
    refine disjoint_left.mp hlive (start_mem Nat.one_pos) ?_
    rw [show (1000 : Nat) = f.start from hstart.symm]
    exact start_mem (hsound.list.sep.nonempty f hf)
  · exact ⟨by decide, fun bb hbb => (nomatch hbb)⟩
  · rintro ⟨N, r, hne, hend⟩
    refine hne ((hend N le_rfl).symm.trans ?_)
    show (do return (none, ← Slob.slobFree N selfLinked 1000 0) :
      Except Stop (Option Nat × Slob)) = .error .outOfFuel
    rw [selfLinked_slobFree]
    rfl

end Heap

end UcoreMips.Kernel
