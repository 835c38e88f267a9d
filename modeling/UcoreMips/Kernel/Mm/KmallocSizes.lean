import UcoreMips.Kernel.Mm.Kmalloc

/-!
# UcoreMips.Kernel.Mm.KmallocSizes

**What `kmalloc` gives for a size.** The three size classes do not meet:

* `__kmalloc` takes sizes below 4088 for small ones, and `slob_alloc` asserts that there is room for
  16 more bytes in a page, so sizes from 4080 on fail the assertion;
* `find_order` shifts the size until it is 4096 at most, and what it shifts out is lost
  (`OrderTooSmall`).

`kfree` finds out from the address whether a block is a small one. A small block may be page-aligned:
its header is then the last unit of a page. If it has any bytes the page behind belongs to the heap
too, and no big block is there (`Paged`); a block of no bytes can have a big block behind it.
-/

namespace UcoreMips.Kernel

open UcoreMips.Lib Finset

namespace Slob

/-- The call of `__slob_free_pages` that `kfree` makes: the address, and the number of pages. -/
def freedPages (s : Slob) (block : Nat) : Option (Nat × Nat) :=
  if block = 0 then none
  else (if block % pageUnits = 0 then s.bigblocks.find? (·.pages = block) else none).map
    fun bb => (block, 1 <<< bb.order)

/-! ### `find_order` -/

/-- The sizes that come down to 4096 with a remainder. -/
def OrderTooSmall (size : Nat) : Prop := ∃ k, 1 ≤ k ∧ 4096 * 2 ^ k < size ∧ size < 4097 * 2 ^ k

/-- The order is the least one for which the size, shifted, is 4096 at most. -/
theorem findOrderFrom_spec (size : Nat) : size < 4097 * 2 ^ findOrderFrom size ∧
    (findOrderFrom size = 0 ∨ ∃ k, findOrderFrom size = k + 1 ∧ 4097 * 2 ^ k ≤ size) := by
  fun_induction findOrderFrom size with
  | case1 size hlt ih =>
    obtain ⟨hub, hlb⟩ := ih
    refine ⟨?_, .inr ⟨findOrderFrom (size / 2), rfl, ?_⟩⟩
    · omega
    · rcases hlb with h0 | ⟨k, hk, hle⟩
      · rw [h0]
        omega
      · rw [hk, Nat.pow_succ]
        omega
  | case2 size hle =>
    refine ⟨?_, .inl rfl⟩
    omega

variable {size : Nat}

/-- A block of the order found has room, except for the sizes that lose a remainder. -/
theorem order_suffices_iff (h : size < 2 ^ 31) :
    size ≤ pageSize * 2 ^ findOrder size ↔ ¬OrderTooSmall size := by
  rw [findOrder, if_pos h, pageSize]
  obtain ⟨hub, hlb⟩ := findOrderFrom_spec size
  constructor
  · rintro hle ⟨k, -, hlo, hhi⟩
    -- the order found is at most `k`, as the size shifted by `k` is 4096
    have hkle : findOrderFrom size ≤ k := by
      rcases hlb with h0 | ⟨j, hj, hjle⟩
      · omega
      · have hpow : 2 ^ j < 2 ^ k := by omega
        rw [hj]
        exact (Nat.pow_lt_pow_iff_right (by decide)).mp hpow
    have hmono : 2 ^ findOrderFrom size ≤ 2 ^ k := Nat.pow_le_pow_right (by decide) hkle
    omega
  · intro hno
    by_contra hlt
    refine hno ⟨findOrderFrom size, ?_, by omega, hub⟩
    by_contra h0
    rw [show findOrderFrom size = 0 by omega] at hlt hub
    omega

end Slob

namespace Heap

/-! ### Big blocks and the pages of the heap -/

/-- What the page allocator promises: it hands out pages that are in use nowhere. -/
def Paged (w : Heap) : Op → Prop
  | .kmalloc _ supply bigPages =>
    (∀ p ∈ supply, ∀ bb ∈ w.slob.bigblocks, bb.pages ∉ (pageRun p).toFinset) ∧
      ∀ q ∈ bigPages, q ∉ w.owned ∧ ∀ p ∈ supply, q ∉ (pageRun p).toFinset
  | _ => True

/-- The call does not meet a single free block where it matters, and does not free a block of no bytes
in front of a big one. -/
def Tidy (w : Heap) : Op → Prop
  | .kfree r =>
    ¬(w.slob.Alone ∧ r.stop = w.slob.slobfree) ∧
      (r.len = 1 → ∀ bb ∈ w.slob.bigblocks, bb.pages ≠ r.start + 1)
  | op => w.Clean op

/-- The big blocks are no pages of the heap. -/
def BigApart (w : Heap) : Prop := ∀ bb ∈ w.slob.bigblocks, bb.pages ∉ w.owned

variable {w : Heap} {L : List Run} {op : Op}

/-- A small block with bytes has the unit behind its header, so no big block is there. -/
theorem Inv.clean (h : w.Inv L) (hbig : w.BigApart) (hlegal : w.Legal op) (htidy : w.Tidy op) :
    w.Clean op := by
  cases op with
  | kfree r =>
    refine ⟨htidy.1, fun bb hbb heq => ?_⟩
    by_cases hone : r.len = 1
    · exact htidy.2 hone bb hbb heq
    · have hpos := h.pos r hlegal.1
      have hmem : r.start + 1 ∈ r.toFinset := by
        rw [Run.mem_toFinset, Run.stop]
        omega
      exact hbig bb hbb (heq ▸ h.ledger.area_subset hlegal.1 hmem)
  | kmalloc size supply bigPages => exact htidy
  | kfreeBig bb => exact htidy
  | write a u n => exact htidy

/-- What `kmalloc` adds to the heap are pages of the supply. -/
theorem mem_owned_after {supply : List Nat} {bigPages : Option Nat}
    {r : Option Nat × Slob} {i : Nat} (hi : i ∈ (w.after (.kmalloc size supply bigPages) r).owned) :
    i ∈ w.owned ∨ ∃ p ∈ supply, i ∈ (pageRun p).toFinset := by
  rw [owned, after, List.map_append, cells_append, mem_insert, mem_union] at hi
  rcases hi with rfl | hused | htaken
  · exact .inl (mem_insert_self _ _)
  · obtain ⟨run, hrun, hin⟩ := mem_cells.mp hused
    obtain ⟨p, hp, rfl⟩ := List.mem_map.mp hrun
    exact .inr ⟨p, (List.take_subset ..) hp, Run.mem_toFinset.mpr hin⟩
  · exact .inl (mem_insert_of_mem htaken)

section Kmalloc

variable {size : Nat} {supply : List Nat} {bigPages : Option Nat} {r : Option Nat × Slob}

/-- What a call of `kmalloc` that returns has done. -/
theorem Inv.kmalloced (h : w.Inv L) (hlegal : w.Legal (.kmalloc size supply bigPages))
    (hclean : w.Clean (.kmalloc size supply bigPages))
    (hret : Returns (w.call (.kmalloc size supply bigPages)) r) :
    (∃ L', (w.after (.kmalloc size supply bigPages) r).Inv L') ∧ Kmalloced w size bigPages r := by
  by_cases hsize : size < pageSize - slobUnit
  · by_cases hassert : size + slobUnit + slobUnit < pageSize
    · obtain ⟨r', L', hret', hinv, hk⟩ := h.kmallocSmall hlegal hclean hsize hassert
      obtain rfl := hret.unique hret'
      exact ⟨⟨L', hinv⟩, hk⟩
    · obtain ⟨N, hN⟩ := hret
      exact nomatch (call_assertion bigPages hsize hassert N).symm.trans (hN N le_rfl)
  · obtain ⟨r', L', hret', hinv, hk⟩ := h.kmallocBig hlegal hclean hsize
    obtain rfl := hret.unique hret'
    exact ⟨⟨L', hinv⟩, hk⟩

theorem BigApart.kmalloc (hbig : w.BigApart) (hpaged : w.Paged (.kmalloc size supply bigPages))
    (hk : Kmalloced w size bigPages r) : (w.after (.kmalloc size supply bigPages) r).BigApart := by
  have hold : ∀ bb ∈ w.slob.bigblocks,
      bb.pages ∉ (w.after (.kmalloc size supply bigPages) r).owned := by
    intro bb hbb hin
    rcases mem_owned_after hin with hin | ⟨p, hp, hin⟩
    · exact hbig bb hbb hin
    · exact hpaged.1 p hp bb hbb hin
  intro bb hbb
  cases hk with
  | none hsame => exact hold bb (hsame ▸ hbb)
  | small hsize hfresh hsame => exact hold bb (hsame ▸ hbb)
  | @big q addr t hsize hq hnew =>
    have hcons : bb ∈ (⟨addr, Slob.findOrder size, q⟩ :: w.slob.bigblocks : List Bigblock) := hnew ▸ hbb
    rcases List.mem_cons.mp hcons with rfl | hbb
    · intro hin
      obtain ⟨hout, hsupply⟩ := hpaged.2 q hq
      rcases mem_owned_after hin with hin | ⟨p, hp, hin⟩
      · exact hout hin
      · exact hsupply p hp hin
    · exact hold bb hbb

end Kmalloc

/-- A tidy call keeps the account, and the big blocks apart from the heap. -/
theorem Inv.tidyStep (h : w.Inv L) (hbig : w.BigApart) {w' : Heap} (hstep : Step w w' op)
    (hpaged : w.Paged op) (htidy : w.Tidy op) : (∃ L', w'.Inv L') ∧ w'.BigApart := by
  obtain ⟨hlegal, r, hret, rfl⟩ := hstep
  have hclean := h.clean hbig hlegal htidy
  cases op with
  | kmalloc size supply bigPages =>
    obtain ⟨hinv, hk⟩ := h.kmalloced hlegal hclean hret
    exact ⟨hinv, hbig.kmalloc hpaged hk⟩
  | kfree b =>
    obtain ⟨r', L', hret', hinv, hsame⟩ := h.kfree hlegal hclean
    obtain rfl := hret.unique hret'
    exact ⟨⟨L', hinv⟩, fun bb hbb => hbig bb (hsame ▸ hbb)⟩
  | kfreeBig b =>
    obtain ⟨r', L', hret', hinv, hsame⟩ := h.kfreeBig hlegal hclean
    obtain rfl := hret.unique hret'
    exact ⟨⟨L', hinv⟩, fun bb hbb => hbig bb (List.mem_of_mem_erase (hsame ▸ hbb))⟩
  | write a u n =>
    obtain ⟨r', L', hret', hinv⟩ := h.writes hlegal
    obtain rfl := hret.unique hret'
    obtain rfl := hret.unique (Returns.pure _)
    exact ⟨⟨L', hinv⟩, hbig⟩

/-- The states that tidy calls reach from the start. -/
def TidyRun (arena : Nat) : Heap → Prop :=
  Relation.ReflTransGen (fun t u => ∃ op, Step t u op ∧ t.Paged op ∧ t.Tidy op) (boot arena)

theorem TidyRun.inv {arena : Nat} (ha : arena ≠ 0) (hrun : TidyRun arena w) :
    (∃ L, w.Inv L) ∧ w.BigApart := by
  induction hrun with
  | refl => exact ⟨⟨_, boot_inv ha⟩, fun bb hbb => nomatch hbb⟩
  | tail _ hstep ih =>
    obtain ⟨⟨L, hinv⟩, hbig⟩ := ih
    obtain ⟨op, hstep, hpaged, htidy⟩ := hstep
    exact hinv.tidyStep hbig hstep hpaged htidy

/-! ### What is given, and what is given back -/

/-- The bytes from `p` on lie in a block that was reserved for this call: as many units as the header
says, or the pages that were asked for. -/
def Reserved (w w' : Heap) (size p : Nat) : Prop :=
  if size < pageSize - slobUnit then
    ∃ b : Run, b ∉ w.live ∧ w'.Small b ∧ w'.slob.units b.start = b.len ∧ p = b.start + 1 ∧
      slobUnit * p + size ≤ slobUnit * b.stop
  else
    ∃ bb ∈ w'.slob.bigblocks, bb ∉ w.slob.bigblocks ∧ bb.pages = p ∧ bb.order = Slob.findOrder size ∧
      size ≤ pageSize * 2 ^ bb.order

/-- `kmalloc` fails no assertion, and returns `NULL` or a pointer to at least `size` bytes. -/
def Serves (w : Heap) (size : Nat) (supply : List Nat) (bigPages : Option Nat) : Prop :=
  ∃ r, Returns (w.call (.kmalloc size supply bigPages)) r ∧
    ∀ p, r.1 = some p → Reserved w (w.after (.kmalloc size supply bigPages) r) size p

/-- The call returns, and the units of the block have come to those of the free list. -/
def GivesBack (w : Heap) (op : Op) (b : Run) : Prop :=
  ∃ u L L', Returns (w.call op) u ∧ w.slob.FreeList L ∧ u.2.FreeList L' ∧
    cells L' = cells L ∪ b.toFinset

/-- The heap can give `n` units, from the list or from a page. -/
def Available (w : Heap) (n : Nat) (supply : List Nat) : Prop :=
  supply ≠ [] ∨ ∃ a, OnList w.slob a ∧ n ≤ w.slob.units a

/-- The sizes that fail the assertion, and those that get too few pages if they get any. -/
def Shortchanged (w : Heap) (size : Nat) (supply : List Nat) (bigPages : Option Nat) : Prop :=
  4080 ≤ size ∧ size < 4088 ∨
    Slob.OrderTooSmall size ∧ bigPages ≠ none ∧ w.Available (slobUnits bigblockSize) supply

theorem OrderTooSmall.not_small (h : Slob.OrderTooSmall size) : ¬size < pageSize - slobUnit := by
  obtain ⟨k, hk, hlt, -⟩ := h
  have hpow : 2 ^ 1 ≤ 2 ^ k := Nat.pow_le_pow_right (by decide) hk
  unfold pageSize slobUnit
  omega

section Serves

variable {size : Nat} {supply : List Nat} {bigPages : Option Nat}

/-- A small block is reserved. -/
theorem Inv.reserved_small {v : Nat} {t : Slob} {L' : List Run} (h : w.Inv L)
    (hinv : (w.after (.kmalloc size supply bigPages) (some (v + 1), t)).Inv L')
    (hsize : size < pageSize - slobUnit) (hfresh : ⟨v, slobUnits (size + slobUnit)⟩ ∉ w.live)
    (hbig : t.bigblocks = w.slob.bigblocks) :
    Reserved w (w.after (.kmalloc size supply bigPages) (some (v + 1), t)) size (v + 1) := by
  have hlive : (⟨v, slobUnits (size + slobUnit)⟩ : Run) ∈
      (w.after (.kmalloc size supply bigPages) (some (v + 1), t)).live := by
    rw [after, handed, if_pos hsize, Nat.add_sub_cancel]
    exact mem_union_right _ (mem_singleton_self _)
  have hsmall : ∀ bb ∈ t.bigblocks, bb.addr ≠ v := by
    intro bb hbb heq
    have hold := (h.blocks.described bb (hbig ▸ hbb)).1
    have hsame := hinv.eq_of_start (mem_union_left _ hold) hlive heq
    exact hfresh (hsame ▸ hold)
  rw [Reserved, if_pos hsize]
  refine ⟨_, hfresh, ⟨hlive, hsmall⟩, hinv.blocks.header _ hlive hsmall, rfl, ?_⟩
  simp only [Run.stop, slobUnits, slobUnit]
  omega

section Clean

variable (h : w.Inv L) (hlegal : w.Legal (.kmalloc size supply bigPages))
  (hclean : w.Clean (.kmalloc size supply bigPages))

include h hlegal hclean

/-- Whether `slob_alloc` finds a block. -/
theorem Inv.alloc_isSome_iff (hsize : ¬size < pageSize - slobUnit) :
    (w.Available (slobUnits bigblockSize) supply → ∃ bb t, Returns
      (fun fuel => Slob.slobAlloc fuel (w.supplied supply).slob bigblockSize) (some bb, t)) ∧
    (¬w.Available (slobUnits bigblockSize) supply → ∃ t, Returns
      (fun fuel => Slob.slobAlloc fuel (w.supplied supply).slob bigblockSize) (none, t)) := by
  obtain ⟨halone, hpage⟩ := hclean
  rw [request, if_neg hsize] at halone hpage
  have hs := h.supplied supply
  obtain ⟨hone, hsup⟩ := Inv.alloc_ready (w := w.supplied supply) hlegal.1 halone hpage hs
  constructor
  · intro havail
    by_cases hroom : ∃ r ∈ L, slobUnits bigblockSize ≤ r.len
    · obtain ⟨v, t, L', -, hret⟩ := Slob.alloc_hit hs.list (by decide) hroom (hone hroom)
      exact ⟨v, t, L.length + 1, hret⟩
    · obtain ⟨v, t, halloc, hret⟩ :=
        @Slob.slobAlloc_spec _ _ bigblockSize hs.list (by decide) (by decide) hone hsup
      cases halloc with
      | none hpages =>
        rcases havail with hne | ⟨a, ha, hle⟩
        · exact absurd hpages hne
        · obtain ⟨r, hr, -, hlen⟩ := h.onList ha
          exact absurd ⟨r, hr, hlen ▸ hle⟩ hroom
      | hit _ => exact ⟨_, _, hret⟩
      | page _ _ _ => exact ⟨_, _, hret⟩
  · intro hno
    refine ⟨_, Slob.slobAlloc_none hs.list (by decide) (fun r hr => ?_) ?_⟩
    · by_contra hle
      exact hno (.inr ⟨r.start, (onList_iff h.list r.start).mpr (mem_starts.mpr ⟨r, hr, rfl⟩), by
        rw [h.list.units r hr]
        omega⟩)
    · by_contra hne
      exact hno (.inl hne)

/-- `kmalloc` gives what was asked exactly where it does not fail the assertion, and the order is large
enough or there are no pages anyway. -/
theorem Inv.serves_iff (hlt : size < 2 ^ 30) :
    w.Serves size supply bigPages ↔ ¬w.Shortchanged size supply bigPages := by
  have hsuffices := Slob.order_suffices_iff (show size < 2 ^ 31 by omega)
  by_cases hsize : size < pageSize - slobUnit
  · by_cases hassert : size + slobUnit + slobUnit < pageSize
    · obtain ⟨r, L', hret, hinv, hk⟩ := h.kmallocSmall hlegal hclean hsize hassert
      refine iff_of_true ⟨r, hret, fun p hp => ?_⟩ ?_
      · cases hk with
        | none _ => cases hp
        | small _ hfresh hbig =>
          obtain rfl := Option.some.inj hp
          exact h.reserved_small hinv hsize hfresh hbig
        | big hno _ _ => exact absurd hsize hno
      · rintro (⟨hge, -⟩ | ⟨htoo, -⟩)
        · unfold pageSize slobUnit at hassert
          omega
        · exact OrderTooSmall.not_small htoo hsize
    · refine iff_of_false ?_ ?_
      · rintro ⟨r, ⟨N, hret⟩, -⟩
        exact nomatch (call_assertion bigPages hsize hassert N).symm.trans (hret N le_rfl)
      · refine not_not.mpr (.inl ?_)
        unfold pageSize slobUnit at hassert hsize
        omega
  · obtain ⟨hsome, hnone⟩ := h.alloc_isSome_iff hlegal hclean hsize
    obtain ⟨r, L', hret, hinv, hk⟩ := h.kmallocBig hlegal hclean hsize
    constructor
    · rintro ⟨r', hret', hserve⟩ (⟨-, hlt'⟩ | ⟨htoo, hpages, havail⟩)
      · unfold pageSize slobUnit at hsize
        omega
      · obtain ⟨q, rfl⟩ := Option.ne_none_iff_exists'.mp hpages
        obtain ⟨bb, t, halloc⟩ := hsome havail
        obtain rfl := hret'.unique (call_big_some q hsize halloc)
        have hreserved := hserve q rfl
        rw [Reserved, if_neg hsize] at hreserved
        obtain ⟨b, -, -, -, horder, hle⟩ := hreserved
        exact hsuffices.mp (horder ▸ hle) htoo
    · intro hno
      refine ⟨r, hret, fun p hp => ?_⟩
      rw [Reserved, if_neg hsize]
      cases hk with
      | none _ => cases hp
      | small hlt' _ _ => exact absurd hlt' hsize
      | @big q bb t _ hq hbig =>
        obtain rfl := Option.some.inj hp
        have havail : w.Available (slobUnits bigblockSize) supply := by
          by_contra hno
          obtain ⟨t', hnone⟩ := hnone hno
          exact nomatch hret.unique (call_big_none bigPages hsize hnone)
        have hfits : ¬Slob.OrderTooSmall size := fun htoo =>
          hno (.inr ⟨htoo, by rw [hq]; exact Option.some_ne_none _, havail⟩)
        refine ⟨_, hbig ▸ List.mem_cons_self, fun hold => ?_, rfl, rfl, hsuffices.mpr hfits⟩
        exact (hlegal.2 q hq).2.2 _ hold rfl

end Clean

end Serves

/-- `kfree` of a small block. -/
theorem Inv.givesBack (h : w.Inv L) (hbig : w.BigApart) {b : Run} (hsmall : w.Small b)
    (htidy : w.Tidy (.kfree b)) :
    w.slob.freedPages (b.start + 1) = none ∧ w.GivesBack (.kfree b) b := by
  have hlegal : w.Legal (.kfree b) := hsmall
  have hclean := h.clean hbig hlegal htidy
  obtain ⟨u, L', hret, hinv, -⟩ := h.kfree hlegal hclean
  constructor
  · have hfind : w.slob.bigblocks.find? (·.pages = b.start + 1) = none :=
      List.find?_eq_none.mpr fun bb hbb => by simpa using hclean.2 bb hbb
    rw [Slob.freedPages, if_neg (Nat.succ_ne_zero _), hfind, ite_self, Option.map_none]
  · exact ⟨u, L, L', hret, h.list, hinv.list, hinv.ledger.free_unique (h.ledger.release hsmall.1)⟩

/-- `kfree` of a big block. -/
theorem Inv.givesBack_big (h : w.Inv L) {bb : Bigblock} (hmem : bb ∈ w.slob.bigblocks)
    (htidy : w.Tidy (.kfreeBig bb)) :
    w.slob.freedPages bb.pages = some (bb.pages, 1 <<< bb.order) ∧
      w.GivesBack (.kfreeBig bb) (descriptor bb) := by
  obtain ⟨hlive, hzero, halign⟩ := h.blocks.described bb hmem
  obtain ⟨u, L', hret, hinv, -⟩ := h.kfreeBig hmem htidy
  constructor
  · rw [Slob.freedPages, if_neg hzero, if_pos halign, h.blocks.find hmem, Option.map_some]
  · exact ⟨u, L, L', hret, h.list, hinv.list, hinv.ledger.free_unique (h.ledger.release hlive)⟩

/-- **`kmalloc` gives at least what was asked, and `kfree` takes it back.** In every state that tidy
calls reach, a tidy `kmalloc` of less than 2³⁰ bytes gives what was asked if and only if the call is
not shortchanged; a tidy `kfree` of a small block gives back its units and no pages, and one of a big
block gives back the pages that were asked for, and the units that described it. -/
theorem kmalloc_serves_iff {arena : Nat} (ha : arena ≠ 0) (hrun : TidyRun arena w) :
    (∀ size supply bigPages, size < 2 ^ 30 → w.Legal (.kmalloc size supply bigPages) →
      w.Tidy (.kmalloc size supply bigPages) →
      (w.Serves size supply bigPages ↔ ¬w.Shortchanged size supply bigPages)) ∧
    (∀ b, w.Small b → w.Tidy (.kfree b) →
      w.slob.freedPages (b.start + 1) = none ∧ w.GivesBack (.kfree b) b) ∧
    ∀ bb ∈ w.slob.bigblocks, w.Tidy (.kfreeBig bb) →
      w.slob.freedPages bb.pages = some (bb.pages, 1 <<< bb.order) ∧
        w.GivesBack (.kfreeBig bb) (descriptor bb) := by
  obtain ⟨⟨L, hinv⟩, hbig⟩ := hrun.inv ha
  refine ⟨fun size supply bigPages hlt hlegal htidy => ?_, fun b => hinv.givesBack hbig, fun bb hbb =>
    hinv.givesBack_big hbb⟩
  exact hinv.serves_iff hlegal htidy hlt

/-- The first page of the heap, and pages for a big block. -/
theorem boot_legal (size : Nat) : (boot 1000).Legal (.kmalloc size [2048] (some 4096)) := by
  constructor
  · refine List.forall_mem_singleton.mpr ⟨by decide, disjoint_left.mpr fun i hi hin => ?_⟩
    rw [Run.mem_toFinset] at hi
    rw [show i = 1000 from by simpa [owned, boot, cells] using hin] at hi
    exact absurd hi.1 (by decide)
  · rintro q ⟨rfl⟩
    exact ⟨by decide, by decide, List.forall_mem_nil _⟩

theorem boot_tidy (hsize : 1 < request size) :
    (boot 1000).Tidy (.kmalloc size [2048] (some 4096)) := by
  constructor
  · rintro ⟨-, hle⟩
    exact absurd (hsize.trans_le hle) (by decide)
  · rintro - p ⟨rfl⟩
    exact ⟨1000, .refl, by decide, by decide⟩

/-- The first call for 100 bytes. -/
theorem kmalloc_serves_iff_small : (boot 1000).Serves 100 [2048] (some 4096) := by
  have h := (kmalloc_serves_iff (show 1000 ≠ 0 by decide) Relation.ReflTransGen.refl).1 100 [2048]
    (some 4096) (by decide) (boot_legal 100) (boot_tidy (by decide))
  refine h.mpr ?_
  rintro (⟨hge, -⟩ | ⟨htoo, -⟩)
  · exact absurd hge (by decide)
  · exact OrderTooSmall.not_small htoo (by decide)

/-- A call for 4080 bytes fails the assertion; one for 8193 bytes gives two pages. -/
theorem kmalloc_shortchanges :
    (∀ fuel, (boot 1000).call (.kmalloc 4080 [2048] (some 4096)) fuel = .error .assertion) ∧
    ¬(boot 1000).Serves 4080 [2048] (some 4096) ∧ ¬(boot 1000).Serves 8193 [2048] (some 4096) ∧
    pageSize * 2 ^ Slob.findOrder 8193 = 8192 := by
  have hinv := boot_inv (show 1000 ≠ 0 by decide)
  refine ⟨call_assertion (some 4096) (by decide) (by decide), ?_, ?_, ?_⟩
  · rw [hinv.serves_iff (boot_legal 4080) (boot_tidy (by decide)) (by decide), not_not]
    exact .inl (by decide)
  · rw [hinv.serves_iff (boot_legal 8193) (boot_tidy (by decide)) (by decide), not_not]
    exact .inr ⟨⟨1, by decide⟩, by decide, .inl (by decide)⟩
  · rw [Slob.findOrder, if_pos (by decide), Slob.findOrderFrom, if_pos (by decide), Slob.findOrderFrom,
      if_neg (by decide)]
    rfl

end Heap

end UcoreMips.Kernel
