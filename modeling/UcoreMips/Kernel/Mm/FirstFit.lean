import UcoreMips.Kernel.Mm.DefaultPmm
import UcoreMips.Lib.Result
import UcoreMips.Lib.Runs

/-!
# UcoreMips.Kernel.Mm.FirstFit

**The page manager keeps the free pages.** The state stands for a list of runs
(`Repr`): the free list goes over the first pages of the runs, `property` and
`PG_property` of those pages are set, and the runs are separated, so that they are the
maximal runs of the set of free pages.

Each loop of the source is a function on lists of runs: the search is `List.find?`, the
loop that merges is `absorb`, and the one that adds finds the place of `Separated.insert`.
One lemma for each loop says so, by induction on the part of the list that is still ahead;
the operations follow from these.
-/

namespace UcoreMips.Kernel

open UcoreMips.Lib
open List Nat

/-- The nodes of the first pages of runs. -/
def runNodes (rs : List Run) : List FreeLink := rs.map fun r => .pageLink r.start

theorem runNodes_append (rs rs' : List Run) : runNodes (rs ++ rs') = runNodes rs ++ runNodes rs' :=
  map_append

variable {rs : List Run} {p : Nat}

theorem mem_runNodes : FreeLink.pageLink p ∈ runNodes rs ↔ ∃ r ∈ rs, r.start = p := by
  simp [runNodes]

/-- The node of a page that is the first of no run is new to the ring. -/
theorem notMem_ring (h : ∀ r ∈ rs, r.start ≠ p) :
    FreeLink.pageLink p ∉ FreeLink.freeList :: runNodes rs := by
  rw [mem_cons, mem_runNodes, not_or]
  exact ⟨FreeLink.noConfusion, fun ⟨r, hr, heq⟩ => h r hr heq⟩

/-! ### The descriptors of the pages -/

/-- Among the pages from `lo` to `hi`, the first pages of the runs and no others have
`PG_property`; they carry the lengths. -/
structure Heads (lo hi : Nat) (pages : Nat → Page) (rs : List Run) : Prop where
  property : ∀ r ∈ rs, (pages r.start).property = r.len
  flag : ∀ i, lo ≤ i → i < hi → ((pages i).pageProperty = true ↔ ∃ r ∈ rs, r.start = i)
  unreserved : ∀ i, lo ≤ i → i < hi → (pages i).pageReserved = false

namespace Heads

variable {lo hi : Nat} {s : Pmm} {r : Run} {rs rs' : List Run}

theorem congr {pages : Nat → Page} (h : Heads lo hi pages rs) (hrs : ∀ r, r ∈ rs' ↔ r ∈ rs) :
    Heads lo hi pages rs' where
  property r hr := h.property r ((hrs r).mp hr)
  flag i h1 h2 := by
    rw [h.flag i h1 h2]
    exact exists_congr fun r => and_congr_left fun _ => (hrs r).symm
  unreserved := h.unreserved

/-- One page changes, and with it the runs that start there. -/
theorem edit {k : Nat} {pages pages' : Nat → Page} (h : Heads lo hi pages rs)
    (hother : ∀ i, i ≠ k → pages' i = pages i)
    (hreserved : (pages' k).pageReserved = (pages k).pageReserved)
    (hflag : lo ≤ k → k < hi → ((pages' k).pageProperty = true ↔ ∃ r ∈ rs', r.start = k))
    (hself : ∀ r ∈ rs', r.start = k → (pages' k).property = r.len)
    (hrs : ∀ r, r.start ≠ k → (r ∈ rs' ↔ r ∈ rs)) : Heads lo hi pages' rs' := by
  refine ⟨fun r hr => ?_, fun i h1 h2 => ?_, fun i h1 h2 => ?_⟩
  · by_cases hk : r.start = k
    · rw [hk, hself r hr hk]
    · rw [hother _ hk, h.property r ((hrs r hk).mp hr)]
  · by_cases hk : i = k
    · rw [hk, hflag (hk ▸ h1) (hk ▸ h2)]
    · rw [hother i hk, h.flag i h1 h2]
      exact exists_congr fun r => and_congr_left fun heq => (hrs r (heq ▸ hk)).symm
  · by_cases hk : i = k
    · rw [hk, hreserved, h.unreserved _ (hk ▸ h1) (hk ▸ h2)]
    · rw [hother i hk, h.unreserved i h1 h2]

theorem mem_cons_of_start_ne {x : Run} (hx : x.start ≠ r.start) : x ∈ r :: rs ↔ x ∈ rs :=
  mem_cons.trans (or_iff_right fun heq => hx (congrArg Run.start heq))

/-- A page becomes the first one of a run. -/
theorem add (h : Heads lo hi s.pages rs) (hnew : ∀ x ∈ rs, x.start ≠ r.start) :
    Heads lo hi ((s.setProperty r.start r.len).setPageProperty r.start).pages (r :: rs) := by
  refine h.edit (k := r.start) (fun i hi => ?_) ?_ (fun _ _ => ?_) (fun x hx heq => ?_)
    fun x => mem_cons_of_start_ne
  · simp [Pmm.setProperty, Pmm.setPageProperty, Pmm.modify, hi]
  · simp [Pmm.setProperty, Pmm.setPageProperty, Pmm.modify]
  · simp [Pmm.setProperty, Pmm.setPageProperty, Pmm.modify]
  · rcases mem_cons.mp hx with rfl | hx
    · simp [Pmm.setProperty, Pmm.setPageProperty, Pmm.modify]
    · exact absurd heq (hnew x hx)

/-- A page is no longer the first one of a run. -/
theorem remove (h : Heads lo hi s.pages (r :: rs)) (hnew : ∀ x ∈ rs, x.start ≠ r.start) :
    Heads lo hi (s.clearPageProperty r.start).pages rs := by
  refine h.edit (k := r.start) (fun i hi => ?_) ?_ (fun _ _ => ?_)
    (fun x hx heq => absurd heq (hnew x hx)) fun x hx => (mem_cons_of_start_ne hx).symm
  · simp [Pmm.clearPageProperty, Pmm.modify, hi]
  · simp [Pmm.clearPageProperty, Pmm.modify]
  · simpa [Pmm.clearPageProperty, Pmm.modify] using hnew

/-- The length of a run changes. -/
theorem resize (h : Heads lo hi s.pages (r :: rs)) (hnew : ∀ x ∈ rs, x.start ≠ r.start) (m : Nat) :
    Heads lo hi (s.setProperty r.start m).pages (⟨r.start, m⟩ :: rs) := by
  refine h.edit (k := r.start) (fun i hi => ?_) ?_ (fun h1 h2 => ?_) (fun x hx heq => ?_)
    fun x hx => ?_
  · simp [Pmm.setProperty, Pmm.modify, hi]
  · simp [Pmm.setProperty, Pmm.modify]
  · simpa [Pmm.setProperty, Pmm.modify] using h.flag _ h1 h2
  · rcases mem_cons.mp hx with rfl | hx
    · simp [Pmm.setProperty, Pmm.modify]
    · exact absurd heq (hnew x hx)
  · exact (mem_cons_of_start_ne (r := ⟨r.start, m⟩) hx).trans (mem_cons_of_start_ne hx).symm

end Heads

namespace Pmm

/-! ### The loops -/

section Loops

variable {s : Pmm} {bs todo : List Run} {c : Run} {lo hi n fuel : Nat}

/-- The loop of `default_list_add` finds the place of the run. -/
theorem defaultListAddFrom_spec (done : List Run)
    (hring : Ring s.links .freeList (runNodes (done ++ (todo ++ bs))))
    (hprop : ∀ r ∈ c :: (todo ++ bs), (s.pages r.start).property = r.len)
    (hpos : ∀ r ∈ c :: (todo ++ bs), 0 < r.len)
    (htodo : ∀ r ∈ todo, r.Before c) (hbs : ∀ r ∈ bs, c.Before r) (hfuel : todo.length < fuel) :
    s.defaultListAddFrom c.start fuel ((runNodes done).getLastD .freeList) =
      .ok { s with
        links := listAddBefore s.links ((runNodes bs).headD .freeList) (.pageLink c.start) } := by
  induction todo generalizing done fuel with
  | nil =>
    obtain ⟨fuel, rfl⟩ := exists_eq_succ_of_ne_zero (ne_of_gt hfuel)
    rw [runNodes_append] at hring
    rw [defaultListAddFrom, hring.next_last]
    cases bs with
    | nil => rfl
    | cons b bs =>
      have hbefore := hbs b mem_cons_self
      have hc := hprop c mem_cons_self
      have hcpos := hpos c mem_cons_self
      unfold Run.Before Run.stop at hbefore
      show (if c.start = b.start then _ else if c.start < b.start then _ else _) = _
      rw [if_neg (by omega), if_pos (by omega), hc, if_pos (by omega)]
      rfl
  | cons r todo ih =>
    obtain ⟨fuel, rfl⟩ := exists_eq_succ_of_ne_zero (ne_of_gt (lt_of_le_of_lt (zero_le _) hfuel))
    have hbefore := htodo r mem_cons_self
    have hr := hprop r (by simp)
    have hrpos := hpos r (by simp)
    have hnext : s.links.next ((runNodes done).getLastD .freeList) = .pageLink r.start := by
      rw [runNodes_append] at hring
      exact hring.next_last
    unfold Run.Before Run.stop at hbefore
    rw [defaultListAddFrom, hnext]
    dsimp only
    rw [if_neg (by omega), if_neg (by omega), hr, if_pos (by omega)]
    have hdone : FreeLink.pageLink r.start = (runNodes (done ++ [r])).getLastD .freeList := by
      rw [runNodes_append]
      exact getLastD_concat.symm
    rw [hdone]
    refine ih _ ?_ ?_ ?_ (fun x hx => htodo x (mem_cons_of_mem r hx)) ?_
    · rwa [append_assoc, singleton_append]
    · exact fun x hx => hprop x (by simp only [mem_cons, cons_append] at hx ⊢; tauto)
    · exact fun x hx => hpos x (by simp only [mem_cons, cons_append] at hx ⊢; tauto)
    · exact lt_of_succ_lt_succ hfuel

/-- The search takes the first run that is long enough. -/
theorem firstFit_spec (done : List Run) (hring : Ring s.links .freeList (runNodes (done ++ todo)))
    (hprop : ∀ r ∈ todo, (s.pages r.start).property = r.len) (hfuel : todo.length < fuel) :
    s.firstFit n fuel ((runNodes done).getLastD .freeList) =
      .ok ((todo.find? fun r => n ≤ r.len).map Run.start) := by
  induction todo generalizing done fuel with
  | nil =>
    obtain ⟨fuel, rfl⟩ := exists_eq_succ_of_ne_zero (ne_of_gt hfuel)
    rw [runNodes_append] at hring
    rw [firstFit, hring.next_last]
    rfl
  | cons r todo ih =>
    obtain ⟨fuel, rfl⟩ := exists_eq_succ_of_ne_zero (ne_of_gt (lt_of_le_of_lt (zero_le _) hfuel))
    have hnext : s.links.next ((runNodes done).getLastD .freeList) = .pageLink r.start := by
      rw [runNodes_append] at hring
      exact hring.next_last
    rw [firstFit, hnext]
    dsimp only
    rw [hprop r mem_cons_self]
    by_cases hn : n ≤ r.len
    · rw [if_pos hn, List.find?_cons_of_pos (by simpa using hn)]
      rfl
    · have hdone : FreeLink.pageLink r.start = (runNodes (done ++ [r])).getLastD .freeList := by
        rw [runNodes_append]
        exact getLastD_concat.symm
      rw [if_neg hn, List.find?_cons_of_neg (by simpa using hn), hdone]
      refine ih _ ?_ (fun x hx => hprop x (mem_cons_of_mem r hx)) (lt_of_succ_lt_succ hfuel)
      rwa [append_assoc, singleton_append]

/-- The loops over consecutive pages. -/
theorem forPages_spec {check : Page → Bool} {reset : Page → Page}
    (hcheck : ∀ i, p ≤ i → i < p + n → check (s.pages i) = true) :
    s.forPages check reset p n =
      .ok { s with pages := fun i =>
        if p ≤ i ∧ i < p + n then reset (s.pages i) else s.pages i } := by
  induction n generalizing s p with
  | zero =>
    have hnone : ∀ i, ¬(p ≤ i ∧ i < p + 0) := fun i h => by omega
    simp only [forPages, hnone, if_false]
  | succ n ih =>
    rw [forPages, if_pos (hcheck p le_rfl (by omega))]
    have hrest : ∀ i, p + 1 ≤ i → i < p + 1 + n → check ((s.modify p reset).pages i) = true := by
      intro i h1 h2
      have hne : i ≠ p := by omega
      show check (Function.update s.pages p _ i) = true
      rw [Function.update_of_ne hne]
      exact hcheck i (by omega) (by omega)
    rw [ih hrest]
    congr 2
    funext i
    by_cases hi : i = p
    · subst hi
      have h1 : ¬(i + 1 ≤ i ∧ i < i + 1 + n) := by omega
      have h2 : i ≤ i ∧ i < i + (n + 1) := by omega
      rw [if_neg h1, if_pos h2]
      exact Function.update_self ..
    · have hiff : (p + 1 ≤ i ∧ i < p + 1 + n) ↔ (p ≤ i ∧ i < p + (n + 1)) := by omega
      simp only [modify, Function.update_of_ne hi, hiff]

/-- The loop that merges is `absorb`. -/
theorem mergeFrom_spec (done : List Run) (hring : Ring s.links .freeList (runNodes (done ++ todo)))
    (hheads : Heads lo hi s.pages (c :: (done ++ todo))) (hsep : Separated (done ++ todo))
    (hdist : ∀ r ∈ done ++ todo, r.start ≠ c.start) (hfuel : todo.length ≤ fuel) :
    ∃ t, s.mergeFrom c.start fuel ((runNodes todo).headD .freeList) =
        .ok ((absorb c todo).1.start, t) ∧ t.nrFree = s.nrFree ∧
      Ring t.links .freeList (runNodes (done ++ (absorb c todo).2)) ∧
      Heads lo hi t.pages ((absorb c todo).1 :: (done ++ (absorb c todo).2)) := by
  induction todo generalizing s done c fuel with
  | nil =>
    refine ⟨s, ?_, rfl, hring, hheads⟩
    cases fuel <;> rfl
  | cons r todo ih =>
    cases fuel with
    | zero => exact absurd hfuel (not_succ_le_zero _)
    | succ fuel =>
      have hnodes : runNodes (done ++ r :: todo) =
          runNodes done ++ .pageLink r.start :: runNodes todo := runNodes_append _ _
      have hnext : s.links.next (.pageLink r.start) = (runNodes todo).headD .freeList := by
        rw [hnodes] at hring
        exact hring.next_mem
      have hc : (s.pages c.start).property = c.len := hheads.property c mem_cons_self
      have hr : (s.pages r.start).property = r.len := hheads.property r (by simp)
      have hrc : r.start ≠ c.start := hdist r (by simp)
      have hrest := hsep.start_ne
      have hsep' : Separated (done ++ todo) :=
        hsep.sublist ((sublist_cons_self r todo).append_left done)
      have hsub : ∀ x ∈ done ++ todo, x ∈ done ++ r :: todo := fun x hx =>
        ((sublist_cons_self r todo).append_left done).subset hx
      have hdel : Ring (listDel s.links (.pageLink r.start)) .freeList
          (runNodes (done ++ todo)) := by
        rw [hnodes] at hring
        rw [runNodes_append]
        exact listDel_ring hring
      have hfuel' : todo.length ≤ fuel := le_of_succ_le_succ hfuel
      show ∃ t, s.mergeFrom c.start (fuel + 1) (.pageLink r.start) = _ ∧ _
      rw [mergeFrom, hnext, hc, hr, absorb]
      by_cases h1 : c.stop = r.start
      · -- `r` follows: it is taken off the list
        rw [if_pos (show c.start + c.len = r.start from h1), if_pos h1]
        refine ih (c := ⟨c.start, c.len + r.len⟩) done hdel ?_ hsep' (fun x hx => hdist x (hsub x hx))
          hfuel'
        refine Heads.remove (r := r) ?_ ?_
        · refine (hheads.resize hdist (c.len + r.len)).congr fun x => ?_
          simp only [mem_cons, mem_append]
          tauto
        · exact forall_mem_cons.mpr ⟨hrc.symm, hrest⟩
      · rw [if_neg (show ¬c.start + c.len = r.start from h1), if_neg h1]
        by_cases h2 : r.stop = c.start
        · -- `r` goes before: the block now begins there
          rw [if_pos (show r.start + r.len = c.start from h2), if_pos h2]
          refine ih (c := ⟨r.start, r.len + c.len⟩) done hdel ?_ hsep' hrest hfuel'
          refine Heads.remove (r := c) ?_ ?_
          · have hperm : Heads lo hi s.pages (r :: c :: (done ++ todo)) := by
              refine hheads.congr fun x => ?_
              simp only [mem_cons, mem_append]
              tauto
            have hnew : ∀ x ∈ c :: (done ++ todo), x.start ≠ r.start :=
              forall_mem_cons.mpr ⟨hrc.symm, hrest⟩
            refine (hperm.resize hnew (r.len + c.len)).congr fun x => ?_
            simp only [mem_cons]
            tauto
          · exact forall_mem_cons.mpr ⟨hrc, fun x hx => hdist x (hsub x hx)⟩
        · rw [if_neg (show ¬r.start + r.len = c.start from h2), if_neg h2]
          have hassoc : done ++ r :: todo = done ++ [r] ++ todo := append_cons ..
          rw [hassoc] at hring hheads hsep hdist
          obtain ⟨t, ht, hnr, hring', hheads'⟩ := ih _ hring hheads hsep hdist hfuel'
          refine ⟨t, ht, hnr, ?_, ?_⟩
          · rwa [append_cons]
          · rwa [append_cons]

end Loops

/-! ### The operations -/

/-- The state stands for the runs: they are what the free list, the page descriptors and
`nr_free` say, and they lie between `lo` and `hi`. -/
structure Repr (lo hi : Nat) (s : Pmm) (rs : List Run) : Prop where
  ring : Ring s.links .freeList (runNodes rs)
  sep : Separated rs
  within : cells rs ⊆ Finset.Ico lo hi
  heads : Heads lo hi s.pages rs
  nrFree : s.nrFree = (cells rs).card

section Operations

variable {lo hi fuel n base : Nat} {s : Pmm} {rs : List Run} {r : Run}

/-- There are no more runs than pages. -/
theorem length_le (hsep : Separated rs) (hwithin : cells rs ⊆ Finset.Ico lo hi) :
    rs.length ≤ hi - lo := by
  calc rs.length = (rs.map Run.len).length := (length_map _).symm
    _ ≤ (rs.map Run.len).sum := by
        refine length_le_sum_of_one_le _ fun m hm => ?_
        obtain ⟨r, hr, rfl⟩ := mem_map.mp hm
        exact hsep.nonempty r hr
    _ = (cells rs).card := hsep.card_cells.symm
    _ ≤ (Finset.Ico lo hi).card := Finset.card_le_card hwithin
    _ = hi - lo := card_Ico lo hi

/-- `default_list_add` of a run that touches no other. -/
theorem defaultListAdd_spec {c : Run} (hring : Ring s.links .freeList (runNodes rs))
    (hheads : Heads lo hi s.pages (c :: rs)) (hsep : Separated rs) (hpos : 0 < c.len)
    (hapart : ∀ r ∈ rs, c.Before r ∨ r.Before c) (hwithin : cells (c :: rs) ⊆ Finset.Ico lo hi)
    (hnr : s.nrFree = (cells (c :: rs)).card) (hfuel : hi - lo < fuel) :
    ∃ t rs', s.defaultListAdd fuel c.start = .ok t ∧ t.Repr lo hi rs' ∧
      cells rs' = cells (c :: rs) := by
  obtain ⟨as, bs, rfl, has, hbs, hins⟩ := hsep.insert hpos hapart
  have hnotin : ∀ x ∈ as ++ bs, x.start ≠ c.start := hins.start_ne
  have hlen : as.length < fuel := by
    have hle := length_le hsep
      ((show cells (as ++ bs) ⊆ cells (c :: (as ++ bs)) from Finset.subset_union_right).trans
        hwithin)
    rw [length_append] at hle
    omega
  have hloop := defaultListAddFrom_spec [] hring hheads.property
    (forall_mem_cons.mpr ⟨hpos, hsep.nonempty⟩) has hbs hlen
  have hmem : ∀ r, r ∈ as ++ c :: bs ↔ r ∈ c :: (as ++ bs) := fun r => perm_middle.mem_iff
  have hcells : cells (as ++ c :: bs) = cells (c :: (as ++ bs)) := by
    ext i
    rw [mem_cells, mem_cells]
    exact exists_congr fun r => and_congr_left fun _ => hmem r
  refine ⟨_, as ++ c :: bs, hloop, ⟨?_, hins, hcells ▸ hwithin, hheads.congr hmem, ?_⟩, hcells⟩
  · have hnew := notMem_ring hnotin
    rw [runNodes_append] at hring hnew ⊢
    exact listAddBefore_ring hring hnew rfl
  · rw [hcells]
    exact hnr

/-- `default_init_memmap` on an empty list. -/
theorem defaultInitMemmap_spec (hn : 0 < n)
    (hres : ∀ i, base ≤ i → i < base + n → (s.pages i).pageReserved = true) (hfuel : n < fuel) :
    ∃ t, s.defaultInit.defaultInitMemmap fuel base n = .ok t ∧
      ∃ rs, t.Repr base (base + n) rs ∧ cells rs = Finset.Ico base (base + n) := by
  have hcells : cells [⟨base, n⟩] = Finset.Ico base (base + n) := Finset.union_empty _
  unfold defaultInitMemmap
  rw [if_neg (ne_of_gt hn), forPages_spec (s := s.defaultInit) hres]
  generalize hs1 : ({ s.defaultInit with pages := _ } : Pmm) = s1
  have hheads : Heads base (base + n) s1.pages [] := by
    subst hs1
    refine ⟨forall_mem_nil _, fun i h1 h2 => ?_, fun i h1 h2 => ?_⟩
    · dsimp only
      rw [if_pos ⟨h1, h2⟩]
      exact iff_of_false Bool.noConfusion fun ⟨r, hr, _⟩ => absurd hr not_mem_nil
    · dsimp only
      rw [if_pos ⟨h1, h2⟩]
  have hadd := hheads.add (r := ⟨base, n⟩) (forall_mem_nil _)
  have hring : Ring s1.links .freeList (runNodes []) := by
    subst hs1
    exact listInit_ring s.links .freeList
  have hnr : s1.nrFree + n = (cells [⟨base, n⟩]).card := by
    subst hs1
    rw [hcells, card_Ico]
    show 0 + n = _
    omega
  have hspec : ∃ t rs, defaultListAdd fuel
      { (s1.setProperty base n).setPageProperty base with nrFree := s1.nrFree + n } base = .ok t ∧
      t.Repr base (base + n) rs ∧ cells rs = cells [⟨base, n⟩] := by
    refine defaultListAdd_spec (c := ⟨base, n⟩) ?_ ?_ Separated.nil hn (forall_mem_nil _)
      hcells.subset ?_ ?_
    · exact hring
    · exact hadd
    · exact hnr
    · omega
  obtain ⟨t, rs, ht, hrepr, hrs⟩ := hspec
  exact ⟨t, ht, rs, hrepr, hrs.trans hcells⟩

/-- `default_alloc_pages`, when no run is long enough. -/
theorem defaultAllocPages_none (hs : s.Repr lo hi rs) (hn : 0 < n)
    (hnone : rs.find? (fun r => n ≤ r.len) = none) (hfuel : hi - lo < fuel) :
    s.defaultAllocPages fuel n = .ok (none, s) := by
  have hlen := length_le hs.sep hs.within
  have hloop : s.firstFit n fuel .freeList = .ok none := by
    rw [← Option.map_none, ← hnone]
    exact firstFit_spec [] hs.ring hs.heads.property (by omega)
  unfold defaultAllocPages
  rw [if_neg (ne_of_gt hn)]
  by_cases hfew : s.nrFree < n
  · exact if_pos hfew
  · dsimp only [bind, Except.bind, pure, Except.pure]
    rw [if_neg hfew, hloop]

/-- `default_alloc_pages`, from the first run that is long enough. -/
theorem defaultAllocPages_some (hs : s.Repr lo hi rs) (hn : 0 < n)
    (hsome : rs.find? (fun r => n ≤ r.len) = some r) (hfuel : hi - lo < fuel) :
    ∃ t rs', s.defaultAllocPages fuel n = .ok (some r.start, t) ∧ t.Repr lo hi rs' ∧
      cells rs' = cells rs \ Finset.Ico r.start (r.start + n) := by
  have hlen := length_le hs.sep hs.within
  have hloop : s.firstFit n fuel .freeList = .ok (some r.start) := by
    rw [← Option.map_some, ← hsome]
    exact firstFit_spec [] hs.ring hs.heads.property (by omega)
  obtain ⟨hfit, as, bs, rfl, -⟩ := List.find?_eq_some_iff_append.mp hsome
  have hfit : n ≤ r.len := by simpa using hfit
  obtain ⟨hsep', hcells⟩ := hs.sep.carve hfit
  have hdist := hs.sep.start_ne
  -- the pages taken were free
  have hsub : Finset.Ico r.start (r.start + n) ⊆ cells (as ++ r :: bs) := by
    intro i hi
    rw [Finset.mem_Ico] at hi
    exact mem_cells.mpr ⟨r, by simp, hi.1, by unfold Run.stop; omega⟩
  have hcard : s.nrFree - n = (cells (as ++ (carve r n ++ bs))).card := by
    rw [hcells, Finset.card_sdiff_of_subset hsub, Nat.card_Ico, hs.nrFree, Nat.add_sub_cancel_left]
  have hmany : ¬s.nrFree < n := by
    have := Finset.card_le_card hsub
    rw [card_Ico, ← hs.nrFree] at this
    omega
  have hnodes : runNodes (as ++ r :: bs) = runNodes as ++ .pageLink r.start :: runNodes bs :=
    runNodes_append _ _
  have hring := hs.ring
  rw [hnodes] at hring
  have hdel := listDel_ring hring
  have hheads : Heads lo hi s.pages (r :: (as ++ bs)) :=
    hs.heads.congr fun x => perm_middle.mem_iff.symm
  have hprop : (s.pages r.start).property = r.len := hheads.property r mem_cons_self
  unfold defaultAllocPages
  rw [if_neg (ne_of_gt hn)]
  dsimp only [bind, Except.bind, pure, Except.pure]
  rw [if_neg hmany, hloop]
  dsimp only
  rw [hprop]
  by_cases hlt : n < r.len
  · -- the rest of the run stays, at its place in the list
    rw [if_pos hlt]
    rw [carve, if_pos hlt] at hsep' hcells hcard
    have hnew : ∀ x ∈ r :: (as ++ bs), x.start ≠ r.start + n := by
      refine forall_mem_cons.mpr ⟨by omega, fun x hx => ?_⟩
      exact hsep'.start_ne x hx
    have hadd := hheads.add (r := ⟨r.start + n, r.len - n⟩) hnew
    have hswap : Heads lo hi ((s.setProperty (r.start + n) (r.len - n)).setPageProperty
        (r.start + n)).pages (r :: ⟨r.start + n, r.len - n⟩ :: (as ++ bs)) := by
      refine hadd.congr fun x => ?_
      simp only [mem_cons]
      tauto
    have hrem := hswap.remove (forall_mem_cons.mpr ⟨by dsimp only; omega, hdist⟩)
    refine ⟨_, as ++ ⟨r.start + n, r.len - n⟩ :: bs, rfl, ⟨?_, hsep', ?_, ?_, hcard⟩, hcells⟩
    · have hfresh := notMem_ring fun x hx => hnew x (mem_cons_of_mem r hx)
      rw [runNodes_append] at hfresh
      rw [runNodes_append]
      exact listAddAfter_ring hdel hfresh (listDel_prev hring)
    · exact hcells.le.trans (Finset.sdiff_subset.trans hs.within)
    · exact hrem.congr fun x => perm_middle.mem_iff
  · rw [if_neg hlt]
    rw [carve, if_neg hlt, nil_append] at hsep' hcells hcard
    refine ⟨_, as ++ bs, rfl, ⟨?_, hsep', ?_, ?_, hcard⟩, hcells⟩
    · rw [runNodes_append]
      exact hdel
    · exact hcells.le.trans (Finset.sdiff_subset.trans hs.within)
    · exact hheads.remove hdist

/-- `default_free_pages`, of pages none of which is free. -/
theorem defaultFreePages_spec (hs : s.Repr lo hi rs) (hn : 0 < n)
    (hin : Finset.Ico base (base + n) ⊆ Finset.Ico lo hi)
    (hout : Disjoint (cells rs) (Finset.Ico base (base + n))) (hfuel : hi - lo < fuel) :
    ∃ t rs', s.defaultFreePages fuel base n = .ok t ∧ t.Repr lo hi rs' ∧
      cells rs' = cells rs ∪ Finset.Ico base (base + n) := by
  have hfar : ∀ i, base ≤ i → i < base + n → i ∉ cells rs := fun i h1 h2 hi =>
    Finset.disjoint_left.mp hout hi (Finset.mem_Ico.mpr ⟨h1, h2⟩)
  have hpage : ∀ i, base ≤ i → i < base + n → lo ≤ i ∧ i < hi := fun i h1 h2 =>
    Finset.mem_Ico.mp (hin (Finset.mem_Ico.mpr ⟨h1, h2⟩))
  have hstart : ∀ r ∈ rs, ¬(base ≤ r.start ∧ r.start < base + n) := fun r hr h =>
    hfar _ h.1 h.2 (Separated.start_mem hs.sep hr)
  have hcheck : ∀ i, base ≤ i → i < base + n →
      (!(s.pages i).pageReserved && !(s.pages i).pageProperty) = true := by
    intro i h1 h2
    obtain ⟨hlo, hhi⟩ := hpage i h1 h2
    have hflag : (s.pages i).pageProperty = false := by
      rw [← Bool.not_eq_true, hs.heads.flag i hlo hhi]
      rintro ⟨r, hr, rfl⟩
      exact hstart r hr ⟨h1, h2⟩
    rw [hs.heads.unreserved i hlo hhi, hflag]
    rfl
  unfold defaultFreePages
  rw [if_neg (ne_of_gt hn), forPages_spec hcheck]
  dsimp only [bind, Except.bind]
  generalize hs1 : ({ s with pages := _ } : Pmm) = s1
  have hring1 : Ring s1.links .freeList (runNodes rs) := by
    subst hs1
    exact hs.ring
  have hheads1 : Heads lo hi s1.pages rs := by
    subst hs1
    refine ⟨fun r hr => ?_, fun i h1 h2 => ?_, fun i h1 h2 => ?_⟩
    · dsimp only
      rw [if_neg (hstart r hr), hs.heads.property r hr]
    · dsimp only
      split
      · rename_i hi
        refine iff_of_false Bool.noConfusion ?_
        rintro ⟨r, hr, rfl⟩
        exact hstart r hr hi
      · exact hs.heads.flag i h1 h2
    · dsimp only
      split
      · rfl
      · exact hs.heads.unreserved i h1 h2
  have hdist : ∀ r ∈ rs, r.start ≠ base := fun r hr heq => hstart r hr ⟨heq.ge, by omega⟩
  have hadd := hheads1.add (r := ⟨base, n⟩) hdist
  have hlen := length_le hs.sep hs.within
  obtain ⟨t, ht, hnr, hring, hheads⟩ := mergeFrom_spec
    (s := (s1.setProperty base n).setPageProperty base) (c := ⟨base, n⟩) [] hring1 hadd hs.sep
    hdist (show rs.length ≤ fuel by omega)
  have hfirst : ((s1.setProperty base n).setPageProperty base).links.next .freeList =
      (runNodes rs).headD .freeList := by
    rw [← nil_append (runNodes rs)] at hring1
    exact hring1.next_last
  rw [hfirst, ht]
  -- two runs without a page in common lie one after the other
  have hclear : ∀ r ∈ rs, (⟨base, n⟩ : Run).stop ≤ r.start ∨ r.stop ≤ base := by
    intro r hr
    by_contra hover
    have hrpos := hs.sep.nonempty r hr
    unfold Run.stop at hover
    dsimp only at hover
    refine hfar (max base r.start) (by omega) (by omega) (mem_cells.mpr ⟨r, hr, by omega, ?_⟩)
    unfold Run.stop
    omega
  have habs := absorb_spec (c := ⟨base, n⟩) hs.sep hn hclear
  have hcells : cells ((absorb ⟨base, n⟩ rs).1 :: (absorb ⟨base, n⟩ rs).2) =
      cells rs ∪ Finset.Ico base (base + n) := by
    rw [habs.cells, Finset.union_comm]
    rfl
  have hcard : t.nrFree + n = (cells ((absorb ⟨base, n⟩ rs).1 :: (absorb ⟨base, n⟩ rs).2)).card := by
    have hnr1 : t.nrFree = s.nrFree := by
      rw [hnr]
      subst hs1
      rfl
    rw [hcells, Finset.card_union_of_disjoint hout, card_Ico, hnr1, hs.nrFree,
      Nat.add_sub_cancel_left]
  have hspec : ∃ u rs', defaultListAdd fuel { t with nrFree := t.nrFree + n }
      (absorb ⟨base, n⟩ rs).1.start = .ok u ∧ u.Repr lo hi rs' ∧
      cells rs' = cells ((absorb ⟨base, n⟩ rs).1 :: (absorb ⟨base, n⟩ rs).2) := by
    refine defaultListAdd_spec ?_ hheads (hs.sep.sublist habs.sublist) habs.nonempty habs.apart
      ?_ ?_ hfuel
    · exact hring
    · rw [hcells]
      exact Finset.union_subset hs.within hin
    · exact hcard
  obtain ⟨u, rs', hu, hrepr, hrs'⟩ := hspec
  exact ⟨u, rs', hu, hrepr, hrs'.trans hcells⟩

end Operations

/-! ### Runs of the manager -/

/-- The state is the one for the set `F` of free pages among the pages from `lo` to `hi`. -/
structure Manages (lo hi : Nat) (s : Pmm) (F : Finset Nat) : Prop where
  /-- The free list is the list of the maximal runs of free pages, in increasing order. -/
  freeList : ∃ rs : List Run, Ring s.links .freeList (runNodes rs) ∧
    rs.Pairwise (fun a b => a.start < b.start) ∧ ∀ r, r ∈ rs ↔ MaximalRun F r
  property : ∀ r, MaximalRun F r → (s.pages r.start).property = r.len
  flag : ∀ i, lo ≤ i → i < hi →
    ((s.pages i).pageProperty = true ↔ ∃ len, MaximalRun F ⟨i, len⟩)
  nrFree : s.nrFree = F.card

/-- The lowest run of at least `n` free pages begins at `p`. -/
def LowestFit (F : Finset Nat) (n p : Nat) : Prop :=
  ∃ len, n ≤ len ∧ MaximalRun F ⟨p, len⟩ ∧ ∀ r, MaximalRun F r → n ≤ r.len → p ≤ r.start

/-- One call of the manager, with the set of free pages: the pages handed out leave it, and
pages may be given back, in any ranges, that are not in it. -/
inductive Call (fuel lo hi : Nat) : Pmm × Finset Nat → Pmm × Finset Nat → Prop
  | alloc {s t : Pmm} {F : Finset Nat} {n p : Nat} (hn : 0 < n)
      (h : s.defaultAllocPages fuel n = .ok (some p, t)) :
      Call fuel lo hi (s, F) (t, F \ Finset.Ico p (p + n))
  | allocNone {s t : Pmm} {F : Finset Nat} {n : Nat} (hn : 0 < n)
      (h : s.defaultAllocPages fuel n = .ok (none, t)) : Call fuel lo hi (s, F) (t, F)
  | free {s t : Pmm} {F : Finset Nat} {base n : Nat} (hn : 0 < n)
      (hin : Finset.Ico base (base + n) ⊆ Finset.Ico lo hi \ F)
      (h : s.defaultFreePages fuel base n = .ok t) :
      Call fuel lo hi (s, F) (t, F ∪ Finset.Ico base (base + n))

section Runs

variable {lo hi fuel n : Nat} {s : Pmm} {rs : List Run} {F : Finset Nat}

theorem Repr.manages (hs : s.Repr lo hi rs) : s.Manages lo hi (cells rs) where
  freeList := ⟨rs, hs.ring, hs.sep.order.imp fun hab => (le_add_right _ _).trans_lt hab,
    fun _ => hs.sep.mem_iff⟩
  property r hr := hs.heads.property r (hs.sep.mem_iff.mpr hr)
  flag i h1 h2 := by
    rw [hs.heads.flag i h1 h2]
    constructor
    · rintro ⟨r, hr, rfl⟩
      exact ⟨r.len, hs.sep.mem_iff.mp hr⟩
    · rintro ⟨len, hr⟩
      exact ⟨_, hs.sep.mem_iff.mpr hr, rfl⟩
  nrFree := hs.nrFree

/-- The first run of the list that is long enough is the lowest one. -/
theorem lowestFit_of_find (hsep : Separated rs)
    (h : rs.find? (fun r => n ≤ r.len) = some r) : LowestFit (cells rs) n r.start := by
  obtain ⟨hfit, as, bs, rfl, has⟩ := List.find?_eq_some_iff_append.mp h
  refine ⟨r.len, by simpa using hfit, hsep.mem_iff.mp (by simp), fun x hx hn => ?_⟩
  rcases mem_append.mp (hsep.mem_iff.mpr hx) with hx | hx
  · have hshort := has x hx
    simp only [Bool.not_eq_true', decide_eq_false_iff_not] at hshort
    exact absurd hn hshort
  · obtain ⟨-, hrbs, -⟩ := Separated.append_iff.mp hsep
    rcases mem_cons.mp hx with rfl | hx
    · exact le_rfl
    · have hlt := (Separated.cons_iff.mp hrbs).2.1 x hx
      exact (le_add_right _ _).trans hlt.le

/-- What a request comes to. -/
theorem defaultAllocPages_spec (hs : s.Repr lo hi rs) (hfuel : hi - lo < fuel) (hn : 0 < n) :
    (∃ p t rs', s.defaultAllocPages fuel n = .ok (some p, t) ∧ LowestFit (cells rs) n p ∧
        t.Repr lo hi rs' ∧ cells rs' = cells rs \ Finset.Ico p (p + n)) ∨
      (s.defaultAllocPages fuel n = .ok (none, s) ∧ ∀ r, MaximalRun (cells rs) r → r.len < n) := by
  cases hfind : rs.find? (fun r => n ≤ r.len) with
  | none =>
    refine .inr ⟨defaultAllocPages_none hs hn hfind hfuel, fun r hr => ?_⟩
    have hshort := List.find?_eq_none.mp hfind r (hs.sep.mem_iff.mpr hr)
    simpa using hshort
  | some r =>
    obtain ⟨t, rs', ht, hrepr, hcells⟩ := defaultAllocPages_some hs hn hfind hfuel
    exact .inl ⟨r.start, t, rs', ht, lowestFit_of_find hs.sep hfind, hrepr, hcells⟩

/-- One call keeps the representation. -/
theorem Repr.call (hs : s.Repr lo hi rs) (hfuel : hi - lo < fuel) {t : Pmm} {F' : Finset Nat}
    (h : Call fuel lo hi (s, cells rs) (t, F')) : ∃ rs', t.Repr lo hi rs' ∧ cells rs' = F' := by
  cases h with
  | alloc hn h =>
    rcases defaultAllocPages_spec hs hfuel hn with ⟨p, t', rs', ht, -, hrepr, hcells⟩ | ⟨ht, -⟩
    · cases h.symm.trans ht
      exact ⟨rs', hrepr, hcells⟩
    · cases h.symm.trans ht
  | allocNone hn h =>
    rcases defaultAllocPages_spec hs hfuel hn with ⟨p, t', rs', ht, -⟩ | ⟨ht, -⟩
    · cases h.symm.trans ht
    · cases h.symm.trans ht
      exact ⟨rs, hs, rfl⟩
  | free hn hin h =>
    rw [Finset.subset_sdiff] at hin
    obtain ⟨t', rs', ht, hrepr, hcells⟩ := defaultFreePages_spec hs hn hin.1 hin.2.symm hfuel
    cases h.symm.trans ht
    exact ⟨rs', hrepr, hcells⟩

/-- **The first-fit manager.** After initialisation and any calls, the state is the one for
the set of free pages; a request is served from the lowest run that is long enough, and
refused, without a change, just when there is none; and no call fails. -/
theorem manages_free_pages (fuel : Nat) (s0 : Pmm) (base n : Nat) (hn : 0 < n)
    (hres : ∀ i, base ≤ i → i < base + n → (s0.pages i).pageReserved = true) (hfuel : n < fuel) :
    ∃ s1, s0.defaultInit.defaultInitMemmap fuel base n = .ok s1 ∧
      ∀ s F, Relation.ReflTransGen (Call fuel base (base + n))
          (s1, Finset.Ico base (base + n)) (s, F) →
        s.Manages base (base + n) F ∧
        (∀ m, 0 < m →
          (∃ p t, s.defaultAllocPages fuel m = .ok (some p, t) ∧ LowestFit F m p ∧
              t.Manages base (base + n) (F \ Finset.Ico p (p + m))) ∨
            (s.defaultAllocPages fuel m = .ok (none, s) ∧ ∀ r, MaximalRun F r → r.len < m)) ∧
        ∀ b m, 0 < m → Finset.Ico b (b + m) ⊆ Finset.Ico base (base + n) \ F →
          ∃ t, s.defaultFreePages fuel b m = .ok t ∧
            t.Manages base (base + n) (F ∪ Finset.Ico b (b + m)) := by
  obtain ⟨s1, h1, rs1, hrepr1, hcells1⟩ := defaultInitMemmap_spec hn hres hfuel
  refine ⟨s1, h1, fun s F hrun => ?_⟩
  have hlen : base + n - base < fuel := by omega
  have hinv : ∃ rs, s.Repr base (base + n) rs ∧ cells rs = F := by
    generalize hx : (s1, Finset.Ico base (base + n)) = x at hrun
    generalize hy : (s, F) = y at hrun
    induction hrun generalizing s F with
    | refl =>
      cases hx.trans hy.symm
      exact ⟨rs1, hrepr1, hcells1⟩
    | tail _ hcall ih =>
      rename_i mid _ _
      obtain ⟨rs, hrs, hF⟩ := ih mid.1 mid.2 rfl
      subst hy
      exact hrs.call hlen (by rw [hF]; exact hcall)
  obtain ⟨rs, hrs, rfl⟩ := hinv
  refine ⟨hrs.manages, fun m hm => ?_, fun b m hm hin => ?_⟩
  · rcases defaultAllocPages_spec hrs hlen hm with ⟨p, t, rs', ht, hlow, hrepr, hcells⟩ | hnone
    · exact .inl ⟨p, t, ht, hlow, hcells ▸ hrepr.manages⟩
    · exact .inr hnone
  · rw [Finset.subset_sdiff] at hin
    obtain ⟨t, rs', ht, hrepr, hcells⟩ := defaultFreePages_spec hrs hm hin.1 hin.2.symm hlen
    exact ⟨t, ht, hcells ▸ hrepr.manages⟩

end Runs

/-- The descriptors as `page_init` leaves them: every page is reserved. -/
def pageInit : Pmm where
  pages _ := { ref := 0, pageReserved := true, pageProperty := false, property := 0 }
  links := ⟨fun n => n, fun n => n⟩
  nrFree := 0

/-- Four pages, from the fourth on, of which one is handed out. -/
theorem manages_free_pages_four :
    ∃ s1, pageInit.defaultInit.defaultInitMemmap 5 3 4 = .ok s1 ∧ s1.Manages 3 7 (Finset.Ico 3 7) ∧
      ∃ p t, s1.defaultAllocPages 5 1 = .ok (some p, t) ∧ t.Manages 3 7 (Finset.Ico 3 7 \ {p}) := by
  obtain ⟨s1, h1, hrun⟩ := manages_free_pages 5 pageInit 3 4 (by decide)
    (fun _ _ _ => rfl) (by decide)
  obtain ⟨hmanages, halloc, -⟩ := hrun s1 _ .refl
  refine ⟨s1, h1, hmanages, ?_⟩
  rcases halloc 1 one_pos with ⟨p, t, ht, -, hm⟩ | ⟨-, hnone⟩
  · rw [Nat.Ico_succ_singleton] at hm
    exact ⟨p, t, ht, hm⟩
  · have hall : MaximalRun (Finset.Ico 3 7) ⟨3, 4⟩ :=
      ⟨by decide, fun i h1 h2 => Finset.mem_Ico.mpr ⟨h1, h2⟩, by decide, fun i hi => by
        rw [Finset.mem_Ico]; dsimp only at hi; omega⟩
    exact absurd (hnone _ hall) (by decide)

end Pmm

end UcoreMips.Kernel
