import UcoreMips.Kernel.Mm.Slob
import UcoreMips.Lib.Result
import UcoreMips.Lib.Runs

/-!
# UcoreMips.Kernel.Mm.SlobHeap

**The free list of the heap.** The blocks of the list, in increasing order, are separated
runs of units, and following `next` goes around them (`FreeList`). What `slob_free` and
`slob_alloc` do to the list is said here in terms of the runs; the blocks handed out come
into it in the next module.

* The search of `slob_free` for a block `b` goes around the list in the order "blocks
  above `b`, then blocks below": it passes every block but the last one of these, and `b`
  belongs after that one.
* A list of one block is the case in which both fail. The block is then its own
  predecessor: `slob_alloc` leaves `slobfree` on the block it hands out, and `slob_free` of
  the block directly below merges with it and links it in as well. The lemmas
  below exclude these cases.
-/

namespace UcoreMips.Kernel

open UcoreMips.Lib
open Function (update update_of_ne update_self)
open List

/-- The first units of the blocks. -/
def starts (rs : List Run) : List Nat := rs.map Run.start

theorem starts_append (rs rs' : List Run) : starts (rs ++ rs') = starts rs ++ starts rs' :=
  map_append

variable {rs : List Run} {a : Nat}

theorem mem_starts : a ∈ starts rs ↔ ∃ r ∈ rs, r.start = a :=
  mem_map

theorem starts_nodup (h : Separated rs) : (starts rs).Nodup := by
  refine pairwise_map.mpr (h.order.imp fun {a b} hab => ?_)
  unfold Run.Before Run.stop at hab
  exact fun heq => by omega

namespace Slob

/-- The blocks of the free list, in increasing order. -/
structure FreeList (s : Slob) (L : List Run) : Prop where
  ring : Loop s.next (starts L)
  sep : Separated L
  units : ∀ r ∈ L, s.units r.start = r.len
  slobfree : s.slobfree ∈ starts L

variable {t : Slob} {L : List Run}

/-- The list looks at the headers of its own blocks only. -/
theorem FreeList.congr {s : Slob} (h : s.FreeList L)
    (hnext : ∀ a ∈ cells L, t.next a = s.next a) (hunits : ∀ a ∈ cells L, t.units a = s.units a)
    (hfree : t.slobfree = s.slobfree) : t.FreeList L := by
  have hin : ∀ r ∈ L, r.start ∈ cells L := fun r hr => h.sep.start_mem hr
  refine ⟨h.ring.congr fun a ha => ?_, h.sep, fun r hr => ?_, hfree ▸ h.slobfree⟩
  · obtain ⟨r, hr, rfl⟩ := mem_starts.mp ha
    exact hnext r.start (hin r hr)
  · exact (hunits r.start (hin r hr)).trans (h.units r hr)

section Around

variable {s : Slob} {as bs L : List Run}

/-- A list, gone around from one of its blocks. -/
theorem loop_around {f : Nat → Nat} (h : Loop f (starts (as ++ bs))) :
    Loop f (starts (bs ++ as)) := by
  rw [starts_append] at h ⊢
  exact h.rotate

/-- The free list is a single block. -/
def Alone (s : Slob) : Prop := s.next s.slobfree = s.slobfree

/-- The blocks in the order `slob_alloc` looks at them: `slobfree` comes last. -/
theorem FreeList.walk (h : s.FreeList L) :
    ∃ ys w, (ys ++ [w]).IsRotated L ∧ w.start = s.slobfree ∧
      Path s.next s.slobfree (starts ys) s.slobfree ∧ ∀ y ∈ ys, y.start ≠ s.slobfree := by
  obtain ⟨w, hw, hstart⟩ := mem_starts.mp h.slobfree
  obtain ⟨cs, ds, rfl⟩ := append_of_mem hw
  refine ⟨ds ++ cs, w, ?_, hstart, ?_, fun y hy => ?_⟩
  · have : (ds ++ (cs ++ [w])).IsRotated ((cs ++ [w]) ++ ds) := isRotated_append
    rwa [← append_assoc, append_assoc cs, singleton_append] at this
  · rw [← hstart]
    exact loop_around h.ring
  · rw [← hstart]
    exact h.sep.start_ne y (perm_append_comm.mem_iff.mp hy)

/-- A list of one block goes around that block. -/
theorem FreeList.alone_iff (h : s.FreeList L) : s.Alone ↔ L.length = 1 := by
  obtain ⟨ys, w, hrot, -, hpath, hys⟩ := h.walk
  rw [← hrot.perm.length_eq]
  cases ys with
  | nil => exact iff_of_true hpath rfl
  | cons y ys =>
    refine iff_of_false (fun halone => ?_) (by simp)
    exact hys y mem_cons_self (hpath.1.symm.trans halone)

end Around

/-! ### Searching for the place of a block -/

section Find

variable {s : Slob} {b c y fuel : Nat} {ys : List Nat}

/-- The search stops at this address. -/
def Stops (s : Slob) (b cur : Nat) : Prop :=
  b > cur ∧ b < s.next cur ∨ cur ≥ s.next cur ∧ (b > cur ∨ b < s.next cur)

/-- The search goes on from `y` to `z`. -/
def Passes (b y z : Nat) : Prop := ¬(b > y ∧ b < z) ∧ ¬(y ≥ z ∧ (b > y ∨ b < z))

theorem findFrom_here (hstop : s.Stops b c) : s.findFrom b (fuel + 1) c = .ok c := by
  unfold findFrom
  split
  · rfl
  · rename_i hno
    rw [if_pos (hstop.resolve_left hno)]

/-- The search along a path on which it passes every node but the last. -/
theorem findFrom_path (hpath : Path s.next y ys c) (hpass : (y :: (ys ++ [c])).Pairwise (Passes b))
    (hstop : s.Stops b c) (hfuel : ys.length + 1 < fuel) : s.findFrom b fuel y = .ok c := by
  induction ys generalizing y fuel with
  | nil =>
    obtain ⟨fuel, rfl⟩ := Nat.exists_eq_add_of_le' (Nat.succ_le_of_lt hfuel)
    have hnext : s.next y = c := hpath
    obtain ⟨h1, h2⟩ := (pairwise_cons.mp hpass).1 c (by simp)
    show s.findFrom b (fuel + 1 + 1) y = _
    rw [findFrom, hnext, if_neg h1, if_neg h2]
    exact findFrom_here hstop
  | cons z ys ih =>
    obtain ⟨hnext, hpath⟩ := hpath
    obtain ⟨hy, hpass⟩ := pairwise_cons.mp hpass
    obtain ⟨h1, h2⟩ := hy z (by simp)
    cases fuel with
    | zero => omega
    | succ fuel =>
      rw [findFrom, hnext, if_neg h1, if_neg h2]
      exact ih hpath hpass (by simp only [length_cons] at hfuel; omega)

/-- The search from anywhere in a loop. -/
theorem findFrom_loop {R : List Nat} (hring : Loop s.next (R ++ [c]))
    (hpass : (R ++ [c]).Pairwise (Passes b)) (hstop : s.Stops b c) (hy : y ∈ R ++ [c])
    (hfuel : R.length + 1 < fuel) : s.findFrom b fuel y = .ok c := by
  rcases mem_append.mp hy with hy | hy
  · obtain ⟨us, ws, rfl⟩ := append_of_mem hy
    rw [append_assoc, cons_append] at hring hpass
    have hpath : Path s.next y (ws ++ c :: us) y := by
      have := hring.rotate
      rwa [cons_append, append_assoc, singleton_append] at this
    refine findFrom_path (Path.append.mp hpath).1 (pairwise_append.mp hpass).2.1 hstop ?_
    simp only [length_append, length_cons] at hfuel
    omega
  · rw [mem_singleton.mp hy]
    obtain ⟨fuel, rfl⟩ := Nat.exists_eq_add_of_le' (Nat.lt_of_le_of_lt (Nat.zero_le _) hfuel)
    exact findFrom_here hstop

end Find

/-! ### Giving a block back -/

section Free

variable {s : Slob} {as bs : List Run} {b : Run} {fuel : Nat}

/-- Going around from the block above `b`, the search passes all but the last block. -/
theorem passes_around (hsep : Separated (as ++ bs)) (hb : Between as b bs) :
    (starts (bs ++ as)).Pairwise (Passes b.start) := by
  obtain ⟨has, hbs, -⟩ := Separated.append_iff.mp hsep
  have hpos := hb.nonempty
  refine pairwise_map.mpr (pairwise_append.mpr ⟨?_, ?_, ?_⟩)
  · refine (hbs.order.imp_of_mem fun {x y} hx hy hxy => ?_)
    have := hb.above x hx
    unfold Run.Before Run.stop at *
    unfold Passes
    omega
  · refine (has.order.imp_of_mem fun {x y} hx hy hxy => ?_)
    have := hb.below y hy
    have := has.nonempty y hy
    unfold Run.Before Run.stop at *
    unfold Passes
    omega
  · intro x hx y hy
    have := hb.above x hx
    have := hb.below y hy
    have := has.nonempty y hy
    unfold Run.stop at *
    unfold Passes
    omega

variable {xs : List Nat} {x size : Nat}

/-- The last block on the way around is the one below `b`. -/
theorem getLastD_around {a : Run} (hx : starts (bs ++ (as ++ [a])) = x :: xs) :
    xs.getLastD x = a.start := by
  have hcat : starts (bs ++ (as ++ [a])) = starts (bs ++ as) ++ [a.start] := by
    rw [← append_assoc, starts_append]
    rfl
  have hget : (x :: xs).getLastD 0 = a.start := by
    rw [← hx, hcat, getLastD_concat]
  rwa [getLastD_cons] at hget

section Stops

variable (hsep : Separated (as ++ bs)) (hb : Between as b bs) (hx : starts (bs ++ as) = x :: xs)
  (hring : Loop s.next (x :: xs))

include hsep hb hx hring

/-- It stops at the last one. -/
theorem stops_last : s.Stops b.start (xs.getLastD x) := by
  have hpos := hb.nonempty
  unfold Stops
  rw [hring.next_last]
  rcases eq_nil_or_concat' as with rfl | ⟨as', a, rfl⟩
  · -- `b` is below the whole list, and the list goes up from `x` to its last block
    cases bs with
    | nil => cases hx
    | cons r bs =>
      obtain ⟨-, hbefore, -⟩ := Separated.cons_iff.mp hsep
      obtain ⟨rfl, rfl⟩ := List.cons.inj hx
      have hbr := hb.above r mem_cons_self
      have hlast : r.start ≤ (starts (bs ++ [])).getLastD r.start := by
        rcases mem_cons.mp (getLastD_mem_cons (l := starts (bs ++ [])) (a := r.start)) with heq | hin
        · exact heq.ge
        · obtain ⟨y, hy, heq⟩ := mem_starts.mp hin
          rw [append_nil] at hy
          have hry := hbefore y hy
          unfold Run.Before Run.stop at hry
          omega
      unfold Run.stop at hbr
      exact .inr ⟨hlast, .inr (by omega)⟩
  · -- the last block is the one below `b`
    have hlast := getLastD_around hx
    have hab := hb.below a (by simp)
    have ha := hsep.nonempty a (by simp)
    unfold Run.stop at hab
    rw [hlast]
    cases bs with
    | cons r bs =>
      obtain ⟨rfl, -⟩ := List.cons.inj hx
      have hbr := hb.above r mem_cons_self
      unfold Run.stop at hbr
      exact .inl ⟨by omega, by omega⟩
    | nil =>
      have hmem : x ∈ starts (as' ++ [a]) := by
        rw [show starts (as' ++ [a]) = x :: xs from hx]
        exact mem_cons_self
      obtain ⟨y, hy, rfl⟩ := mem_starts.mp hmem
      have hya : y.start ≤ a.start := by
        rw [append_nil] at hsep
        obtain ⟨-, -, hbefore⟩ := Separated.append_iff.mp hsep
        rcases mem_append.mp hy with hy | hy
        · have := hbefore y hy a mem_cons_self
          unfold Run.Before Run.stop at this
          omega
        · exact (congrArg Run.start (mem_singleton.mp hy)).le
      exact .inr ⟨hya, .inl (by omega)⟩

/-- The search finds the block below `b`, from anywhere in the list. -/
theorem findFrom_around {y : Nat} (hy : y ∈ x :: xs) (hfuel : fuel > (as ++ bs).length) :
    s.findFrom b.start fuel y = .ok (xs.getLastD x) := by
  obtain ⟨R, c, hRc⟩ := (eq_nil_or_concat' (x :: xs)).resolve_left (cons_ne_nil x xs)
  have hlast : xs.getLastD x = c := by
    have hget := congrArg (List.getLastD · 0) hRc
    rwa [getLastD_cons, getLastD_concat] at hget
  have hlen : R.length + 1 = (as ++ bs).length := by
    have := congrArg List.length (hx.trans hRc)
    simp only [starts, length_map, length_append, length_singleton] at this ⊢
    omega
  rw [hlast]
  exact findFrom_loop (hRc ▸ hring) (hRc ▸ hx ▸ passes_around hsep hb)
    (hlast ▸ stops_last hsep hb hx hring) (hRc ▸ hy) (by omega)

end Stops

/-- The units of the block put in, after the merge with `x`. -/
def unitsAbove (s : Slob) (b x : Nat) : Nat → Nat :=
  if b + s.units b = x then update s.units b (s.units b + s.units x) else s.units

theorem unitsAbove_of_ne {b : Nat} (h : a ≠ b) : s.unitsAbove b x a = s.units a := by
  unfold unitsAbove
  split
  · exact update_of_ne h ..
  · rfl

/-- What `linkAfter` writes. -/
theorem linkAfter_eq {b : Nat} (hab : a ≠ b) (hx : s.next a = x) : s.linkAfter b a =
      { s with
        units :=
          if a + s.units a = b then
            update (s.unitsAbove b x) a (s.units a + s.unitsAbove b x b)
          else s.unitsAbove b x
        next :=
          update (update s.next b (if b + s.units b = x then s.next x else x)) a
            (if a + s.units a = b then if b + s.units b = x then s.next x else x else b)
        slobfree := a } := by
  subst hx
  by_cases hskip : b + s.units b = s.next a <;> by_cases hjoin : a + s.units a = b <;>
    simp [linkAfter, setUnits, setNext, unitsAbove, hskip, hjoin, hab, update_of_ne]

theorem linkAfter_bigblocks (s : Slob) (b cur : Nat) :
    (s.linkAfter b cur).bigblocks = s.bigblocks := by
  unfold linkAfter
  dsimp only
  split <;> split <;> rfl

theorem linkAfter_pages (s : Slob) (b cur : Nat) : (s.linkAfter b cur).pages = s.pages := by
  unfold linkAfter
  dsimp only
  split <;> split <;> rfl

/-- The block `b` and the list above it, after the merge with the block above. -/
structure MergedAbove (s : Slob) (as : List Run) (b : Run) (bs : List Run) (x : Nat)
    (xs : List Nat) (c : Run) (bs' : List Run) : Prop where
  between : Between as c bs'
  apart : ∀ y ∈ bs', c.Before y
  sublist : bs'.Sublist bs
  start : c.start = b.start
  cells : cells (as ++ c :: bs') = cells (as ++ b :: bs)
  ring : (if b.start + s.units b.start = x then xs else x :: xs) = starts (bs' ++ as)
  units : s.unitsAbove b.start x b.start = c.len

theorem mergedAbove (hsep : Separated (as ++ bs)) (hb : Between as b bs) (hx : starts (bs ++ as) = x :: xs)
    (hu : ∀ r ∈ as ++ bs, s.units r.start = r.len) (hub : s.units b.start = b.len) :
    ∃ c bs', MergedAbove s as b bs x xs c bs' := by
  have hpos := hb.nonempty
  by_cases hskip : b.start + s.units b.start = x
  · -- the blocks below `b` start below it, so `x` is the block above
    cases bs with
    | nil =>
      have hmem : x ∈ starts as := by
        rw [show starts as = x :: xs from hx]
        exact mem_cons_self
      obtain ⟨a, ha, rfl⟩ := mem_starts.mp hmem
      have hab := hb.below a ha
      unfold Run.stop at hab
      omega
    | cons r bs =>
      obtain ⟨rfl, rfl⟩ := List.cons.inj hx
      have htouch : b.stop = r.start := by rw [← hskip, hub, Run.stop]
      obtain ⟨hbetween, hapart⟩ := hb.right hsep htouch
      refine ⟨⟨b.start, b.len + r.len⟩, bs, hbetween, hapart, sublist_cons_self r bs, rfl, ?_,
        if_pos hskip, ?_⟩
      · rw [cells_append, cells_append, cells_touch htouch]
      · rw [unitsAbove, if_pos hskip, update_self, hub, hu r (by simp)]
  · refine ⟨b, bs, hb, hb.apart_right hsep fun r hr heq => hskip ?_, List.Sublist.refl _, rfl, rfl,
      (if_neg hskip).trans hx.symm, ?_⟩
    · cases bs with
      | nil => cases hr
      | cons r' bs =>
        obtain ⟨rfl, -⟩ := List.cons.inj hx
        cases hr
        rw [hub, ← heq, Run.stop]
    · rw [unitsAbove, if_neg hskip, hub]

/-- One block of a list is new, and the units are written there and at `n` only. -/
theorem units_insert {U : Nat → Nat} {n : Nat} {d : Run} (hsep : Separated (as ++ d :: bs))
    (hd : U d.start = d.len) (hU : ∀ i, i ≠ d.start → i ≠ n → U i = s.units i)
    (hunits : ∀ r ∈ as ++ bs, s.units r.start = r.len) (hn : ∀ r ∈ as ++ bs, r.start ≠ n) :
    ∀ r ∈ as ++ d :: bs, U r.start = r.len := by
  intro r hr
  rcases mem_cons.mp (perm_middle.mem_iff.mp hr) with rfl | hr
  · exact hd
  · rw [hU _ (hsep.start_ne r hr) (hn r hr), hunits r hr]

/-- What putting a block in after the one below it comes to. -/
theorem linkAfter_spec (hlist : s.FreeList (as ++ bs)) (hb : Between as b bs)
    (hx : starts (bs ++ as) = x :: xs) (hub : s.units b.start = b.len) (halone : xs = [] → b.stop ≠ x) :
    ∃ L, (s.linkAfter b.start (xs.getLastD x)).FreeList L ∧ cells L = cells (as ++ b :: bs) ∧
      ∀ i ∉ cells L, (s.linkAfter b.start (xs.getLastD x)).units i = s.units i := by
  have hsep := hlist.sep
  have hne := Between.start_ne hsep hb
  have hmem : ∀ n ∈ x :: xs, ∃ r ∈ as ++ bs, r.start = n := by
    intro n hn
    obtain ⟨r, hr, rfl⟩ := mem_starts.mp (hx ▸ hn)
    exact ⟨r, perm_append_comm.mem_iff.mp hr, rfl⟩
  have hnotin : b.start ∉ x :: xs := by
    intro hin
    obtain ⟨r, hr, heq⟩ := hmem _ hin
    exact hne r hr heq
  have hring : Loop s.next (x :: xs) := hx ▸ loop_around hlist.ring
  have hnd : (x :: xs).Nodup := by
    rw [← hx]
    exact ((perm_append_comm.map Run.start).nodup_iff).mp (starts_nodup hsep)
  have hbin : b.start ∈ cells (as ++ b :: bs) := by
    have := hb.nonempty
    exact mem_cells.mpr ⟨b, by simp, le_rfl, by unfold Run.stop; omega⟩
  have hcur : xs.getLastD x ∈ x :: xs := getLastD_mem_cons
  have hcurb : xs.getLastD x ≠ b.start := fun heq => hnotin (heq ▸ hcur)
  have hlink := hring.link hnd hnotin (b.start + s.units b.start = x)
    (xs.getLastD x + s.units (xs.getLastD x) = b.start)
    fun hskip hxs => halone hxs (by rw [← hskip, hub, Run.stop])
  obtain ⟨c, bs', hm⟩ := mergedAbove hsep hb hx hlist.units hub
  have hsep' : Separated (as ++ bs') := hsep.sublist (hm.sublist.append_left as)
  rw [linkAfter_eq hcurb hring.next_last]
  rw [hm.ring] at hlink
  by_cases hjoin : xs.getLastD x + s.units (xs.getLastD x) = b.start
  · simp only [if_pos hjoin, append_nil] at hlink ⊢
    rcases eq_nil_or_concat' as with rfl | ⟨as', a, rfl⟩
    · obtain ⟨r, hr, heq⟩ := hmem _ hcur
      have := hb.above r hr
      unfold Run.stop at this
      have := hb.nonempty
      omega
    · have hlast := getLastD_around hx
      rw [hlast] at hjoin hlink ⊢
      have hua : s.units a.start = a.len := hlist.units a (by simp)
      have htouch : a.stop = c.start := by rw [hm.start, ← hjoin, hua, Run.stop]
      have hsepL : Separated (as' ++ ⟨a.start, a.len + c.len⟩ :: bs') := by
        refine Between.left ?_ hm.between hm.apart htouch
        rwa [append_assoc, singleton_append] at hsep'
      have hcells : cells (as' ++ ⟨a.start, a.len + c.len⟩ :: bs') =
          cells ((as' ++ [a]) ++ b :: bs) := by
        rw [← hm.cells, append_assoc, cells_append, cells_touch htouch, cells_append,
          singleton_append]
      have hsub : (as' ++ bs').Sublist ((as' ++ [a]) ++ bs) :=
        (sublist_append_left as' [a]).append hm.sublist
      refine ⟨as' ++ ⟨a.start, a.len + c.len⟩ :: bs', ⟨?_, hsepL, ?_, ?_⟩, hcells, ?_⟩
      · have := loop_around hlink
        simpa [starts] using this
      · refine units_insert (n := b.start) hsepL ?_ (fun i ha hn => ?_)
          (fun r hr => hlist.units r (hsub.subset hr)) fun r hr => hne r (hsub.subset hr)
        · dsimp only
          rw [update_self, hm.units, hua]
        · dsimp only at ha ⊢
          rw [update_of_ne ha, unitsAbove_of_ne hn]
      · exact mem_starts.mpr ⟨_, mem_append_right _ mem_cons_self, rfl⟩
      · intro i hi
        have hin := hsepL.start_mem (mem_append_right as' mem_cons_self)
        have ha : i ≠ a.start := by
          rintro rfl
          exact hi hin
        rw [update_of_ne ha, unitsAbove_of_ne]
        rintro rfl
        exact hi (hcells ▸ hbin)
  · simp only [if_neg hjoin] at hlink ⊢
    have hsepL : Separated (as ++ c :: bs') := by
      refine hm.between.apart hsep' hm.apart fun a ha heq => hjoin ?_
      obtain ⟨as', rfl⟩ := List.getLast?_eq_some_iff.mp ha
      rw [getLastD_around hx, hlist.units a (by simp), ← hm.start, ← heq, Run.stop]
    have hsub : (as ++ bs').Sublist (as ++ bs) := hm.sublist.append_left as
    refine ⟨as ++ c :: bs', ⟨?_, hsepL, ?_, ?_⟩, hm.cells, ?_⟩
    · have hcat : starts (bs' ++ as) ++ [b.start] = starts (bs' ++ (as ++ [c])) := by
        simp [starts, hm.start]
      rw [hcat] at hlink
      have := loop_around hlink
      rwa [append_assoc, singleton_append] at this
    · refine units_insert (n := b.start) hsepL (hm.start ▸ hm.units) (fun i _ hn => ?_)
        (fun r hr => hlist.units r (hsub.subset hr)) fun r hr => hne r (hsub.subset hr)
      exact unitsAbove_of_ne hn
    · have hin : xs.getLastD x ∈ starts (bs' ++ as) := by
        rw [← hm.ring]
        split
        · rename_i hskip
          cases xs with
          | nil => exact absurd (by rw [← hskip, hub, Run.stop]) (halone rfl)
          | cons y ys =>
            rw [getLastD_cons]
            exact getLastD_mem_cons
        · exact hcur
      obtain ⟨r, hr, heq⟩ := mem_starts.mp hin
      refine mem_starts.mpr ⟨r, ?_, heq⟩
      rcases mem_append.mp hr with hr | hr
      · exact mem_append_right _ (mem_cons_of_mem c hr)
      · exact mem_append_left _ hr
    · intro i hi
      refine unitsAbove_of_ne ?_
      rintro rfl
      exact hi (hm.cells ▸ hbin)

/-- What `slob_free` does: the units of `b` come to those of the list. -/
structure Freed (s : Slob) (L : List Run) (b : Run) (t : Slob) (L' : List Run) : Prop where
  list : t.FreeList L'
  cells : cells L' = cells L ∪ b.toFinset
  units : ∀ i ∉ Lib.cells L', t.units i = s.units i
  bigblocks : t.bigblocks = s.bigblocks
  pages : t.pages = s.pages

theorem slobFree_spec (hlist : s.FreeList L) (hb : b.start ≠ 0)
    (hlen : 0 < b.len) (hdisj : ∀ r ∈ L, b.stop ≤ r.start ∨ r.stop ≤ b.start)
    (hsize : if size = 0 then s.units b.start = b.len else slobUnits size = b.len)
    (halone : s.Alone → b.stop ≠ s.slobfree) :
    ∃ t L', Freed s L b t L' ∧ ∀ fuel > L.length, slobFree fuel s b.start size = .ok t := by
  obtain ⟨as, bs, rfl, hbetween⟩ := hlist.sep.between hlen hdisj
  have hne := Between.start_ne hlist.sep hbetween
  -- the block with its header written
  obtain ⟨u, hu, hlist', hub, hframe⟩ : ∃ u,
      (if size ≠ 0 then s.setUnits b.start (slobUnits size) else s) = { s with units := u } ∧
      ({ s with units := u } : Slob).FreeList (as ++ bs) ∧ u b.start = b.len ∧
      ∀ i ≠ b.start, u i = s.units i := by
    by_cases hz : size = 0
    · rw [if_pos hz] at hsize
      exact ⟨s.units, if_neg (not_not.mpr hz), hlist, hsize, fun _ _ => rfl⟩
    · rw [if_neg hz] at hsize
      refine ⟨update s.units b.start b.len, ?_, ⟨hlist.ring, hlist.sep, fun r hr => ?_,
        hlist.slobfree⟩, update_self .., fun i hi => update_of_ne hi ..⟩
      · rw [if_pos hz, setUnits, hsize]
      · exact (update_of_ne (hne r hr) ..).trans (hlist.units r hr)
  obtain ⟨x, xs, hx⟩ : ∃ x xs, starts (bs ++ as) = x :: xs := by
    obtain ⟨r, hr, -⟩ := mem_starts.mp hlist.slobfree
    refine exists_cons_of_ne_nil (ne_nil_of_mem (mem_starts.mpr ⟨r, ?_, rfl⟩))
    exact perm_append_comm.mem_iff.mp hr
  have hring : Loop s.next (x :: xs) := hx ▸ loop_around hlist.ring
  have hsingle : xs = [] → b.stop ≠ x := by
    rintro rfl hstop
    have hlen1 : (as ++ bs).length = 1 := by
      have := congrArg List.length hx
      simpa [starts, Nat.add_comm] using this
    have hfree : s.slobfree ∈ [x] := by
      rw [← hx]
      exact (perm_append_comm.map Run.start).mem_iff.mp hlist.slobfree
    exact halone (hlist.alone_iff.mpr hlen1) (hstop.trans (mem_singleton.mp hfree).symm)
  obtain ⟨L', hL', hcells, hunits⟩ := linkAfter_spec hlist' hbetween hx hub hsingle
  have hbin : b.start ∈ cells (as ++ b :: bs) :=
    mem_cells.mpr ⟨b, by simp, le_rfl, by unfold Run.stop; omega⟩
  refine ⟨_, L', ⟨hL', ?_, fun i hi => ?_, linkAfter_bigblocks .., linkAfter_pages ..⟩,
    fun fuel hfuel => ?_⟩
  · rw [hcells, cells_append, cells, cells_append, Finset.union_left_comm, Finset.union_comm]
  · rw [hunits i hi]
    refine hframe i ?_
    rintro rfl
    exact hi (hcells ▸ hbin)
  · rw [slobFree, if_neg hb]
    dsimp only [bind, Except.bind, pure, Except.pure]
    rw [hu]
    have hy : s.slobfree ∈ x :: xs := by
      rw [← hx]
      exact (perm_append_comm.map Run.start).mem_iff.mp hlist.slobfree
    rw [findFrom_around (s := { s with units := u }) hlist.sep hbetween hx hring hy hfuel]

end Free

/-! ### Taking a block -/

section Alloc

variable {s : Slob} {as bs L : List Run} {v : Run} {n fuel : Nat}

/-- What `slob_alloc` does: the first `n` units of the block `v` are taken from the list. -/
structure Taken (s : Slob) (L : List Run) (v n : Nat) (t : Slob) (L' : List Run) : Prop where
  list : t.FreeList L'
  inside : Run.toFinset ⟨v, n⟩ ⊆ cells L
  cells : cells L' = cells L \ Run.toFinset ⟨v, n⟩
  header : t.units v = n
  units : ∀ i ∉ Lib.cells L', i ≠ v → t.units i = s.units i
  gap : v + n ≠ t.slobfree
  bigblocks : t.bigblocks = s.bigblocks
  pages : t.pages = s.pages

/-- What `take` writes. -/
theorem take_eq {p c : Nat} (hpc : p ≠ c) :
    s.take n p c =
      if s.units c = n then { s with next := update s.next p (s.next c), slobfree := p }
      else
        { s with
          units := update (update s.units (c + n) (s.units c - n)) c n
          next := update (update s.next p (c + n)) (c + n) (s.next c)
          slobfree := p } := by
  unfold take
  split
  · rfl
  · simp [setUnits, setNext, update_of_ne, hpc.symm]

/-- A block is taken from a list that has others. -/
theorem take_spec {x : Nat} {xs : List Nat} (hlist : s.FreeList (as ++ v :: bs)) (hn : 0 < n)
    (hroom : n ≤ v.len) (hx : starts (bs ++ as) = x :: xs) :
    Taken s (as ++ v :: bs) v.start n (s.take n (xs.getLastD x) v.start)
      (as ++ (carve v n ++ bs)) := by
  obtain ⟨hsep', hcells'⟩ := hlist.sep.carve hroom
  have hring : Loop s.next (v.start :: x :: xs) := by
    have := loop_around hlist.ring
    rwa [cons_append, show starts (v :: (bs ++ as)) = v.start :: x :: xs from
      congrArg (v.start :: ·) hx] at this
  have hnd : (v.start :: x :: xs).Nodup := by
    have := starts_nodup hlist.sep
    rw [← hx]
    exact ((perm_append_comm.map Run.start).nodup_iff).mp this
  have hrot : Loop s.next (x :: (xs ++ [v.start])) :=
    Loop.rotate (show Loop s.next ([v.start] ++ x :: xs) from hring)
  have herase : Loop (update s.next (xs.getLastD x) x) (x :: xs) :=
    hrot.erase ((perm_append_singleton v.start (x :: xs)).nodup_iff.mpr hnd)
  have hnext : s.next v.start = x := hring.next_first
  have hlast : xs.getLastD x ∈ x :: xs := getLastD_mem_cons
  have hne : xs.getLastD x ≠ v.start := fun heq => (nodup_cons.mp hnd).1 (heq ▸ hlast)
  have hinside : Finset.Ico v.start (v.start + n) ⊆ cells (as ++ v :: bs) := by
    intro i hi
    rw [Finset.mem_Ico] at hi
    exact mem_cells.mpr ⟨v, by simp, hi.1, by unfold Run.stop; omega⟩
  have huv : s.units v.start = v.len := hlist.units v (by simp)
  -- `prev` is the start of another block
  have hgap : v.start + n ≠ xs.getLastD x := by
    intro heq
    rw [← heq, ← hx] at hlast
    obtain ⟨r, hr, hstart⟩ := mem_starts.mp hlast
    have hr' : r ∈ as ++ bs := perm_append_comm.mem_iff.mp hr
    have hrL := (List.Sublist.append_left (sublist_cons_self v bs) as).subset hr'
    have hapart := hlist.sep.apart hrL (by simp : v ∈ as ++ v :: bs)
    have hvr := hlist.sep.start_ne r hr'
    have := hlist.sep.nonempty r hrL
    unfold Run.Before Run.stop at hapart
    rcases hapart with rfl | h1 | h1 <;> omega
  rw [take_eq hne, huv, hnext]
  by_cases hexact : v.len = n
  · have hcarve : carve v n = [] := if_neg (by omega)
    rw [if_pos hexact]
    rw [hcarve, nil_append] at hsep' hcells' ⊢
    refine ⟨⟨?_, hsep', fun r hr => hlist.units r ?_, ?_⟩, hinside, hcells', ?_, fun _ _ _ => rfl,
      hgap, rfl, rfl⟩
    · rw [← hx] at herase
      exact loop_around herase
    · exact (List.Sublist.append_left (sublist_cons_self v bs) as).subset hr
    · rw [← hx] at hlast
      exact (perm_append_comm.map Run.start).mem_iff.mp hlast
    · exact huv.trans hexact
  · have hcarve : carve v n = [⟨v.start + n, v.len - n⟩] := if_pos (by omega)
    rw [if_neg hexact]
    rw [hcarve, singleton_append] at hsep' hcells' ⊢
    have hin := hsep'.start_mem (mem_append_right as mem_cons_self)
    refine ⟨⟨?_, hsep', ?_, ?_⟩, hinside, hcells', update_self .., fun i hi hv => ?_,
      hgap, rfl, rfl⟩
    · have hnew : v.start + n ∉ x :: xs := by
        rw [← hx]
        intro hmem
        obtain ⟨r, hr, heq⟩ := mem_starts.mp hmem
        exact hsep'.start_ne r (perm_append_comm.mem_iff.mp hr) heq
      have hins := herase.insert (nodup_cons.mp hnd).2 hnew
      have hcat : x :: (xs ++ [v.start + n]) =
          starts (bs ++ (as ++ [⟨v.start + n, v.len - n⟩])) := by
        rw [← append_assoc, starts_append, hx]
        rfl
      rw [Function.update_idem, hcat] at hins
      have := loop_around hins
      rwa [append_assoc, singleton_append] at this
    · refine units_insert (s := s) (n := v.start) hsep' ?_ (fun i hi hv => ?_) (fun r hr => ?_)
        fun r hr heq => ?_
      · exact (update_of_ne (by dsimp only; omega) ..).trans (update_self ..)
      · exact (update_of_ne hv ..).trans (update_of_ne hi ..)
      · exact hlist.units r ((List.Sublist.append_left (sublist_cons_self v bs) as).subset hr)
      · refine (nodup_cons.mp hnd).1 ?_
        rw [← hx]
        exact mem_starts.mpr ⟨r, perm_append_comm.mem_iff.mp hr, heq⟩
    · rw [← hx] at hlast
      obtain ⟨r, hr, heq⟩ := mem_starts.mp hlast
      refine mem_starts.mpr ⟨r, ?_, heq⟩
      rcases mem_append.mp hr with hr | hr
      · exact mem_append_right as (mem_cons_of_mem _ hr)
      · exact mem_append_left _ hr
    · have hne' : i ≠ v.start + n := by
        rintro rfl
        exact hi hin
      exact (update_of_ne hv ..).trans (update_of_ne hne' ..)

/-- The blocks of the list that have no room are passed over. -/
theorem allocFrom_skip {p c : Nat} {us : List Nat} (hpath : Path s.next p us c)
    (hskip : ∀ u ∈ us, s.units u < n ∧ u ≠ s.slobfree) :
    s.allocFrom n (fuel + us.length) p (s.next p) = s.allocFrom n fuel (us.getLastD p) c := by
  induction us generalizing p with
  | nil => rw [show s.next p = c from hpath, length_nil, Nat.add_zero, getLastD_nil]
  | cons u us ih =>
    obtain ⟨hnext, hpath⟩ := hpath
    obtain ⟨⟨hsmall, hne⟩, hskip⟩ := forall_mem_cons.mp hskip
    rw [length_cons, ← Nat.add_assoc, allocFrom, hnext, if_neg (by omega), if_neg hne,
      ih hpath hskip, getLastD_cons]

/-- A list, gone around from one of its blocks. -/
theorem split_of_isRotated {zs : List Run} (h : (v :: zs).IsRotated L) :
    ∃ as bs, L = as ++ v :: bs ∧ zs = bs ++ as := by
  obtain ⟨k, hk, rfl⟩ := isRotated_iff_mod.mp h
  rw [rotate_eq_drop_append_take hk]
  cases k with
  | zero => exact ⟨[], zs, (append_nil _), (append_nil _).symm⟩
  | succ k => exact ⟨zs.drop k, zs.take k, rfl, (take_append_drop k zs).symm⟩

/-- A block is found when there is one. -/
theorem alloc_hit (hlist : s.FreeList L) (hn : 0 < n) (hroom : ∃ r ∈ L, n ≤ r.len)
    (halone : L.length ≠ 1) :
    ∃ v t L', Taken s L v n t L' ∧
      ∀ fuel > L.length, s.allocFrom n fuel s.slobfree (s.next s.slobfree) = .ok (some v, t) := by
  obtain ⟨ys, w, hrot, hw, hpath, hys⟩ := hlist.walk
  -- the first block on the way that has room
  obtain ⟨v, hv⟩ : ∃ v, (ys ++ [w]).find? (fun r => decide (n ≤ r.len)) = some v := by
    obtain ⟨r, hr, hlen⟩ := hroom
    exact Option.isSome_iff_exists.mp (List.find?_isSome.mpr
      ⟨r, hrot.perm.mem_iff.mpr hr, decide_eq_true hlen⟩)
  obtain ⟨hvroom, us, ws, hsplit, hus⟩ := List.find?_eq_some_iff_append.mp hv
  have hwalk : Path s.next s.slobfree (starts us) v.start := by
    have hround : Path s.next s.slobfree (starts (ys ++ [w])) (s.next w.start) := by
      rw [starts_append]
      exact Path.append.mpr ⟨hw ▸ hpath, rfl⟩
    rw [hsplit, starts_append] at hround
    exact (Path.append.mp hround).1
  have hskip : ∀ u ∈ starts us, s.units u < n ∧ u ≠ s.slobfree := by
    intro u hu
    obtain ⟨r, hr, rfl⟩ := mem_starts.mp hu
    have hrL : r ∈ L := hrot.perm.mem_iff.mp (hsplit ▸ mem_append_left _ hr)
    have hsmall : r.len < n := by simpa using hus r hr
    have hpre : us <+: ys := by
      refine (prefix_concat_iff.mp ⟨_, hsplit.symm⟩).resolve_left fun heq => ?_
      rw [heq] at hsplit
      simp at hsplit
    exact ⟨hlist.units r hrL ▸ hsmall, hys r (hpre.subset hr)⟩
  have hrotv : (v :: (ws ++ us)).IsRotated L := by
    refine List.IsRotated.trans ?_ hrot
    rw [hsplit, ← cons_append]
    exact isRotated_append
  obtain ⟨as, bs, rfl, hzs⟩ := split_of_isRotated hrotv
  obtain ⟨x, xs, hx⟩ : ∃ x xs, starts (bs ++ as) = x :: xs := by
    refine exists_cons_of_ne_nil fun hnil => halone ?_
    have := congrArg List.length hnil
    simp only [starts, length_map, length_append, length_cons, length_nil] at this ⊢
    omega
  have hprev : (starts us).getLastD s.slobfree = xs.getLastD x := by
    rw [← hzs] at hx
    rcases eq_nil_or_concat' us with rfl | ⟨us', u, rfl⟩
    · rcases eq_nil_or_concat' ws with rfl | ⟨ws', z, rfl⟩
      · cases hx
      · have hcat : ys ++ [w] = (v :: ws') ++ [z] := hsplit
        obtain ⟨-, hwz⟩ := append_inj' hcat rfl
        rw [append_nil] at hx
        have hlast : xs.getLastD x = z.start :=
          getLastD_around (show starts ([] ++ (ws' ++ [z])) = x :: xs from hx)
        rw [hlast, ← (List.cons.inj hwz).1, hw]
        rfl
    · rw [getLastD_around hx, starts_append]
      exact getLastD_concat ..
  refine ⟨v.start, _, _, take_spec hlist hn (of_decide_eq_true hvroom) hx, fun fuel hfuel => ?_⟩
  obtain ⟨k, rfl⟩ : ∃ k, fuel = k + 1 + (starts us).length := by
    have := congrArg List.length hzs
    refine ⟨fuel - 1 - (starts us).length, ?_⟩
    simp only [starts, length_map, length_append, length_cons] at this hfuel ⊢
    omega
  rw [allocFrom_skip hwalk hskip, allocFrom, hlist.units v (by simp),
    if_pos (of_decide_eq_true hvroom), hprev]

/-- With no block large enough the search comes back to `slobfree`. -/
theorem alloc_miss (hlist : s.FreeList L) (hroom : ∀ r ∈ L, r.len < n) :
    ¬n ≤ s.units s.slobfree ∧
      ∃ p, ∀ fuel, s.allocFrom n (fuel + L.length) s.slobfree (s.next s.slobfree) =
        s.allocFrom n (fuel + 1) p s.slobfree := by
  obtain ⟨ys, w, hrot, -, hpath, hys⟩ := hlist.walk
  refine ⟨?_, (starts ys).getLastD s.slobfree, fun fuel => ?_⟩
  · obtain ⟨w, hw, hstart⟩ := mem_starts.mp hlist.slobfree
    rw [← hstart, hlist.units w hw, not_le]
    exact hroom w hw
  have hlen : fuel + L.length = fuel + 1 + (starts ys).length := by
    have := hrot.perm.length_eq
    simp only [starts, length_map, length_append, length_singleton] at this ⊢
    omega
  rw [hlen]
  refine allocFrom_skip hpath fun u hu => ?_
  obtain ⟨y, hy, rfl⟩ := mem_starts.mp hu
  have hyL : y ∈ L := hrot.perm.mem_iff.mp (mem_append_left [w] hy)
  exact ⟨hlist.units y hyL ▸ hroom y hyL, hys y hy⟩

/-- A page put into the list lies in one block of it. -/
theorem Freed.mem_page {L' : List Run} {b : Run} (h : Freed s L b t L')
    (hb : 0 < b.len) : ∃ r ∈ L', r.start ≤ b.start ∧ b.stop ≤ r.stop := by
  have hsub : ∀ i, b.start ≤ i → i < b.stop → i ∈ Lib.cells L' := by
    intro i h1 h2
    rw [h.cells, Run.toFinset]
    exact Finset.mem_union_right _ (Finset.mem_Ico.mpr ⟨h1, h2⟩)
  obtain ⟨r, hr, h1, h2⟩ := mem_cells.mp (hsub b.start le_rfl (by unfold Run.stop; omega))
  refine ⟨r, hr, h1, ?_⟩
  by_contra hlt
  exact (h.list.sep.mem_iff.mp hr).right (hsub r.stop h2.le (by omega))

/-- A block that the page neither overlaps nor touches stays as it is. -/
theorem Freed.mem_apart {L' : List Run} {a b : Run} (h : Freed s L b t L')
    (hlist : s.FreeList L) (ha : a ∈ L) (hab : a.Before b ∨ b.Before a) :
    a ∈ L' := by
  obtain ⟨hpos, hin, hright, hleft⟩ := hlist.sep.mem_iff.mp ha
  refine h.list.sep.mem_iff.mpr ⟨hpos, fun i h1 h2 => ?_, fun hmem => ?_, fun i hi hmem => ?_⟩
  · rw [h.cells]
    exact Finset.mem_union_left _ (hin i h1 h2)
  all_goals
    rw [h.cells, Finset.mem_union, Run.toFinset, Finset.mem_Ico] at hmem
    unfold Run.Before at hab
  · rcases hmem with hmem | hmem
    · exact hright hmem
    · unfold Run.stop at *
      omega
  · rcases hmem with hmem | hmem
    · exact hleft i hi hmem
    · unfold Run.stop at *
      omega

/-- What a call of `slob_alloc` can come to. -/
inductive Allocated (s : Slob) (L : List Run) (n : Nat) : Option Nat → Slob → Prop
  | none (hpages : s.pages = []) : Allocated s L n none s
  | hit {v t L'} (htaken : Taken s L v n t L') : Allocated s L n (some v) t
  | page {p pages u K v t L'} (hpages : s.pages = p :: pages)
      (hfreed : Freed { s with pages := pages } L ⟨p, pageUnits⟩ u K)
      (htaken : Taken u K v n t L') : Allocated s L n (some v) t

/-- With no room and no page there is no block. -/
theorem slobAlloc_none (hlist : s.FreeList L) (hsize : size + slobUnit < pageSize)
    (hsmall : ∀ r ∈ L, r.len < slobUnits size) (hpages : s.pages = []) :
    Returns (fun fuel => slobAlloc fuel s size) (none, s) := by
  obtain ⟨hfull, q, hmiss⟩ := alloc_miss hlist hsmall
  refine ⟨L.length, fun fuel hfuel => ?_⟩
  obtain ⟨k, rfl⟩ := Nat.exists_eq_add_of_le' hfuel
  dsimp only
  rw [slobAlloc, if_neg (not_not.mpr hsize)]
  rw [hmiss k, allocFrom, if_neg hfull, if_pos rfl, hpages]

/-- `slob_alloc` does one of these and comes to an end, where the block is not the only one
and a page would not leave a single block. -/
theorem slobAlloc_spec (hlist : s.FreeList L) (hn : 0 < slobUnits size)
    (hsize : size + slobUnit < pageSize)
    (halone : (∃ r ∈ L, slobUnits size ≤ r.len) → L.length ≠ 1)
    (hpage : ∀ p ∈ s.pages.head?, p ≠ 0 ∧ (∀ r ∈ L, p + pageUnits ≤ r.start ∨ r.stop ≤ p) ∧
      ((∀ r ∈ L, r.len < slobUnits size) → ∃ a ∈ L, a.stop ≠ p ∧ p + pageUnits ≠ a.start)) :
    ∃ v t, Allocated s L (slobUnits size) v t ∧
      Returns (fun fuel => slobAlloc fuel s size) (v, t) := by
  have hunfold : ∀ fuel, slobAlloc fuel s size =
      s.allocFrom (slobUnits size) fuel s.slobfree (s.next s.slobfree) := by
    intro fuel
    rw [slobAlloc, if_neg (not_not.mpr hsize)]
  by_cases hroom : ∃ r ∈ L, slobUnits size ≤ r.len
  · obtain ⟨v, t, L', htaken, hret⟩ := alloc_hit hlist hn hroom (halone hroom)
    exact ⟨some v, t, .hit htaken, L.length + 1, fun fuel hfuel => (hunfold fuel).trans
      (hret fuel hfuel)⟩
  · have hsmall : ∀ r ∈ L, r.len < slobUnits size := fun r hr =>
      not_le.mp fun hle => hroom ⟨r, hr, hle⟩
    obtain ⟨hfull, q, hmiss⟩ := alloc_miss hlist hsmall
    cases hpages : s.pages with
    | nil => exact ⟨none, s, .none hpages, slobAlloc_none hlist hsize hsmall hpages⟩
    | cons p pages =>
      obtain ⟨hp0, hdisj, hapart⟩ := hpage p (by rw [hpages]; rfl)
      obtain ⟨a, ha, hap, hpa⟩ := hapart hsmall
      have hlist' : ({ s with pages := pages } : Slob).FreeList L :=
        { hlist with }
      have hpos : 0 < (⟨p, pageUnits⟩ : Run).len := Nat.zero_lt_succ 511
      have hsingle : ({ s with pages := pages } : Slob).Alone →
          (⟨p, pageUnits⟩ : Run).stop ≠ s.slobfree := by
        intro h1 hstop
        obtain ⟨w, rfl⟩ := length_eq_one_iff.mp (hlist'.alone_iff.mp h1)
        rw [mem_singleton.mp hlist.slobfree, ← mem_singleton.mp ha] at hstop
        exact hpa hstop
      obtain ⟨u, K, hfreed, hfree⟩ :=
        slobFree_spec (b := ⟨p, pageUnits⟩) hlist' hp0 hpos hdisj
          (show if pageSize = 0 then _ else slobUnits pageSize = pageUnits from rfl) hsingle
      obtain ⟨r, hr, hr1, hr2⟩ := hfreed.mem_page hpos
      have haK : a ∈ K := by
        refine hfreed.mem_apart hlist' ha ?_
        have := hdisj a ha
        unfold Run.Before Run.stop at *
        dsimp only at *
        omega
      have hrlen : slobUnits size ≤ r.len := by
        unfold slobUnits slobUnit pageSize pageUnits Run.stop at *
        dsimp only at *
        omega
      have hlen : K.length ≠ 1 := by
        intro h1
        obtain ⟨z, rfl⟩ := length_eq_one_iff.mp h1
        have hra : r = a := (mem_singleton.mp hr).trans (mem_singleton.mp haK).symm
        have := hdisj a ha
        have := hlist.sep.nonempty a ha
        rw [hra] at hr1 hr2
        unfold Run.stop at *
        dsimp only at *
        omega
      obtain ⟨v, t, L', htaken, hret⟩ := alloc_hit hfreed.list hn ⟨r, hr, hrlen⟩ hlen
      refine ⟨some v, t, .page hpages hfreed htaken, max (L.length + 1) (K.length + 1) + L.length,
        fun fuel hfuel => ?_⟩
      obtain ⟨k, rfl⟩ : ∃ k, fuel = k + L.length := Nat.exists_eq_add_of_le' (by omega)
      dsimp only
      rw [hunfold, hmiss k, allocFrom, if_neg hfull, if_pos rfl, hpages]
      dsimp only [ok_bind]
      rw [hfree k (by omega)]
      exact hret k (by omega)

end Alloc

end Slob

end UcoreMips.Kernel
