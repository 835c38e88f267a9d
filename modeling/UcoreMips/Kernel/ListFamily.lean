import UcoreMips.Kernel.Lists

/-!
# UcoreMips.Kernel.ListFamily

**Several lists through one field.** The wait queues run through the field `wait_link`, the lists of
the process hash table through `hash_link`: each list has a head of its own, and an element is on at
most one of them. `Family` says which elements are on which list; a change of one list leaves the
others alone (`Family.edit`).
-/

namespace UcoreMips.Kernel

open UcoreMips.Lib
open Function (update update_of_ne update_self)
open List

/-- The nodes of a family of lists: the heads, and a field of each element. -/
inductive FamilyNode (Q α : Type)
  | head (q : Q)
  | entry (a : α)
  deriving Repr, DecidableEq

/-- The elements of each list, in order. Of those on no list, the ones that are `known` have their
field initialised. -/
structure Family {Q α : Type} (l : Links (FamilyNode Q α)) (xs : Q → List α) (known : α → Prop) :
    Prop where
  ring : ∀ q, Ring l (.head q) ((xs q).map .entry)
  once : ∀ q r a, a ∈ xs q → a ∈ xs r → q = r
  apart : ∀ a, known a → (∀ q, a ∉ xs q) → l.next (.entry a) = .entry a

/-- `hash32`, which gives the list to look at. -/
def hash32 (val : BitVec 32) (bits : Nat) : BitVec 32 := (val * 0x9e370001#32) >>> (32 - bits)

/-- The loop that looks along a list, from the node `le` on, for an element. -/
def listFind {Q α : Type} (l : Links (FamilyNode Q α)) (hit : α → Bool) :
    Nat → FamilyNode Q α → Option (Option α)
  | 0, _ => none
  | fuel + 1, le =>
    match l.next le with
    | .head _ => some none
    | .entry a => if hit a then some (some a) else listFind l hit fuel (.entry a)

section Frame

variable {N : Type} [DecidableEq N] {l : Links N} {e prev next n : N}

/-- An insertion changes the pointers of the new node and of its neighbours only. -/
theorem listAddBetween_outside (he : n ≠ e) (hprev : n ≠ prev) (hnext : n ≠ next) :
    (listAddBetween l e prev next).next n = l.next n ∧
      (listAddBetween l e prev next).prev n = l.prev n := by
  simp [listAddBetween, he, hprev, hnext]

theorem listDelBetween_outside (hprev : n ≠ prev) (hnext : n ≠ next) :
    (listDelBetween l prev next).next n = l.next n ∧
      (listDelBetween l prev next).prev n = l.prev n := by
  simp [listDelBetween, hprev, hnext]

end Frame

namespace Family

variable {Q α : Type} {l l' : Links (FamilyNode Q α)} {xs : Q → List α} {ys us ws : List α}
  {known known' : α → Prop} {q : Q} {a : α}

section Known

variable (h : Family l xs known)

include h

theorem forget (hsub : ∀ a, known' a → known a) : Family l xs known' :=
  ⟨h.ring, h.once, fun a ha => h.apart a (hsub a ha)⟩

theorem nodup (q : Q) : (xs q).Nodup :=
  List.Nodup.of_map _ (nodup_cons.mp (h.ring q).nodup).2

theorem next_head (q : Q) : l.next (.head q) = ((xs q).map .entry).headD (.head q) := by
  have hr : Ring l (.head q) ([] ++ (xs q).map .entry) := h.ring q
  exact hr.next_last

theorem next_entry (hq : xs q = us ++ a :: ws) :
    l.next (.entry a) = (ws.map .entry).headD (.head q) := by
  have hr := h.ring q
  rw [hq, map_append, map_cons] at hr
  exact hr.next_mem

/-- The walk over the rest of a list. -/
theorem listFindFrom_spec (hit : α → Bool) (hq : xs q = us ++ ws)
    {le : FamilyNode Q α} (hle : l.next le = (ws.map .entry).headD (.head q)) (fuel : Nat) :
    (ws.length < fuel → ∃ r, listFind l hit fuel le = some r) ∧
      ∀ r, listFind l hit fuel le = some r →
        (∀ a, r = some a → a ∈ ws ∧ hit a) ∧ (r = none → ∀ a ∈ ws, hit a = false) := by
  induction fuel generalizing us ws le with
  | zero => exact ⟨by simp, fun r hr => nomatch hr⟩
  | succ fuel ih =>
    rw [listFind, hle]
    cases ws with
    | nil => exact ⟨fun _ => ⟨none, rfl⟩, fun r hr => by cases hr; simp⟩
    | cons a ws =>
      rw [map_cons, headD_cons]
      dsimp only
      split
      · next ha =>
        refine ⟨fun _ => ⟨some a, rfl⟩, fun r hr => ?_⟩
        cases hr
        simp [ha]
      · next ha =>
        have hq' : xs q = (us ++ [a]) ++ ws := by simpa using hq
        obtain ⟨hret, hspec⟩ := ih hq' (h.next_entry hq)
        refine ⟨fun hlen => hret (by simpa using hlen), fun r hr => ?_⟩
        obtain ⟨hsome, hnone⟩ := hspec r hr
        refine ⟨fun b hb => ⟨by simp [(hsome b hb).1], (hsome b hb).2⟩, fun hn b hb => ?_⟩
        rcases mem_cons.mp hb with rfl | hb
        · simpa using ha
        · exact hnone hn b hb

/-- The walk over a list finds what is on it. -/
theorem listFind_spec (hit : α → Bool) (fuel : Nat) :
    ((xs q).length < fuel → ∃ r, listFind l hit fuel (.head q) = some r) ∧
      ∀ r, listFind l hit fuel (.head q) = some r →
        (∀ a, r = some a → a ∈ xs q ∧ hit a) ∧ (r = none → ∀ a ∈ xs q, hit a = false) :=
  h.listFindFrom_spec hit (show xs q = [] ++ xs q from rfl) (h.next_head q) fuel

/-- An element that is on a list does not point to itself. -/
theorem next_ne (ha : a ∈ xs q) : l.next (.entry a) ≠ .entry a := by
  obtain ⟨us, ws, hq⟩ := append_of_mem ha
  have hnd := h.nodup q
  rw [hq, nodup_append, nodup_cons] at hnd
  rw [h.next_entry hq]
  cases ws with
  | nil => simp
  | cons w ws =>
    intro heq
    have hw : w = a := by simpa using heq
    exact hnd.2.1.1 (by simp [hw])

end Known

theorem head_mem (q : Q) (us : List α) :
    (us.map FamilyNode.entry).headD (.head q) ∈ FamilyNode.head q :: us.map .entry := by
  cases us <;> simp

/-- The head of each list is initialised. -/
theorem init (hl : ∀ q, l.next (.head q) = .head q ∧ l.prev (.head q) = .head q) :
    Family l (fun _ => []) (fun _ : α => False) where
  ring q := ⟨(hl q).1, (hl q).2, nodup_singleton _⟩
  once _ _ _ h := nomatch h
  apart _ h := h.elim

variable [DecidableEq Q] {r : Q} {b : α}

/-- Who is on which list when an element has come to the end of one. -/
theorem mem_addLast : b ∈ update xs q (xs q ++ [a]) r ↔ b ∈ xs r ∨ b = a ∧ r = q := by
  by_cases hr : r = q
  · simp [hr]
  · simp [hr]

/-- Who is on which list when an element has been taken off its own. -/
theorem mem_remove (h : Family l xs known) (hq : xs q = us ++ a :: ws) :
    b ∈ update xs q (us ++ ws) r ↔ b ∈ xs r ∧ b ≠ a := by
  by_cases hr : r = q
  · have hnd := nodup_cons.mp (nodup_middle.mp (hq ▸ h.nodup q))
    have hne : b ∈ us ++ ws → b ≠ a := fun hb heq => hnd.1 (heq ▸ hb)
    rw [hr, update_self, hq]
    simp only [mem_append, mem_cons] at hne ⊢
    tauto
  · rw [update_of_ne hr]
    exact ⟨fun hb => ⟨hb, fun heq => hr (h.once r q a (heq ▸ hb) (by simp [hq]))⟩, And.left⟩

variable [DecidableEq α]

/-- The test whether an element is on a list. -/
theorem empty_iff (h : Family l xs known) (ha : known a) :
    listEmpty l (.entry a) = true ↔ ∀ q, a ∉ xs q := by
  rw [listEmpty, decide_eq_true_iff]
  exact ⟨fun heq q hin => h.next_ne hin heq, h.apart a ha⟩

theorem head_empty_iff (h : Family l xs known) (q : Q) :
    listEmpty l (.head q) = true ↔ xs q = [] := by
  rw [listEmpty, decide_eq_true_iff, h.next_head]
  cases xs q <;> simp

/-- One list is edited, at its own nodes and at `a`. -/
theorem edit (h : Family l xs known) (hring : Ring l' (.head q) (ys.map .entry))
    (hfrom : ∀ b ∈ ys, b ∈ xs q ∨ b = a) (ha : ∀ r, r ≠ q → a ∉ xs r)
    (hsame : ∀ n, n ∉ FamilyNode.head q :: (xs q).map .entry → n ≠ .entry a →
      l'.next n = l.next n ∧ l'.prev n = l.prev n)
    (hknown : ∀ b, known' b → b ∉ xs q → b ≠ a → known b)
    (hapart : ∀ b, known' b → b ∉ ys → b ∈ xs q ∨ b = a → l'.next (.entry b) = .entry b) :
    Family l' (update xs q ys) known' where
  ring r := by
    by_cases hr : r = q
    · subst hr
      rwa [update_self]
    · rw [update_of_ne hr]
      have hout : ∀ n ∈ FamilyNode.head r :: (xs r).map FamilyNode.entry,
          n ∉ FamilyNode.head q :: (xs q).map .entry ∧ n ≠ .entry a := by
        intro n hn
        cases n with
        | head p =>
          have hp : p = r := by simpa using hn
          simp [hp, hr]
        | entry b =>
          have hb : b ∈ xs r := by simpa using hn
          have hbq : b ∉ xs q := fun hin => hr (h.once r q b hb hin)
          have hba : b ≠ a := fun heq => ha r hr (heq ▸ hb)
          simp [hbq, hba]
      exact (h.ring r).congr (fun n hn => (hsame n (hout n hn).1 (hout n hn).2).1)
        fun n hn => (hsame n (hout n hn).1 (hout n hn).2).2
  once r p b hr hp := by
    have hmem : ∀ r, r ≠ q → b ∈ update xs q ys r → b ∈ xs r := fun r hne hb => by
      rwa [update_of_ne hne] at hb
    by_cases hrq : r = q <;> by_cases hpq : p = q
    · rw [hrq, hpq]
    · subst hrq
      rw [update_self] at hr
      rcases hfrom b hr with hb | hb
      · exact h.once _ _ b hb (hmem p hpq hp)
      · exact absurd (hmem p hpq hp) (hb ▸ ha p hpq)
    · subst hpq
      rw [update_self] at hp
      rcases hfrom b hp with hb | hb
      · exact h.once _ _ b (hmem r hrq hr) hb
      · exact absurd (hmem r hrq hr) (hb ▸ ha r hrq)
    · exact h.once r p b (hmem r hrq hr) (hmem p hpq hp)
  apart b hb hout := by
    have hys : b ∉ ys := by simpa using hout q
    have hrest : ∀ r, r ≠ q → b ∉ xs r := fun r hr => by
      simpa [update_of_ne hr] using hout r
    by_cases hbq : b ∈ xs q
    · exact hapart b hb hys (.inl hbq)
    by_cases hba : b = a
    · exact hapart b hb hys (.inr hba)
    rw [(hsame (.entry b) (by simp [hbq]) (by simp [hba])).1]
    refine h.apart b (hknown b hb hbq hba) fun r => ?_
    by_cases hr : r = q
    · rwa [hr]
    · exact hrest r hr

/-! ### The operations of `list.h` -/

section Moves

variable (h : Family l xs known)

include h

/-- The field of an element is initialised. -/
theorem know (ha : ∀ q, a ∉ xs q) :
    Family (listInit l (.entry a)) xs (fun b => known b ∨ b = a) where
  ring q := by
    have hne : ∀ n ∈ FamilyNode.head q :: (xs q).map FamilyNode.entry, n ≠ .entry a := by
      intro n hn heq
      exact ha q (by simpa [heq] using hn)
    exact (h.ring q).congr (fun n hn => update_of_ne (hne n hn) ..)
      fun n hn => update_of_ne (hne n hn) ..
  once := h.once
  apart b hb hout := by
    by_cases hba : b = a
    · rw [hba]
      exact update_self ..
    · refine (update_of_ne (by simp [hba]) ..).trans ?_
      exact h.apart b (hb.resolve_right hba) hout

/-- An element is added between two nodes of a list. -/
theorem add {prev next : FamilyNode Q α} (ha : ∀ r, a ∉ xs r)
    (hprev : prev ∈ FamilyNode.head q :: (xs q).map .entry)
    (hnext : next ∈ FamilyNode.head q :: (xs q).map .entry)
    (hring : Ring (listAddBetween l (.entry a) prev next) (.head q) (ys.map .entry))
    (hys : ∀ b, b ∈ ys ↔ b ∈ xs q ∨ b = a) :
    Family (listAddBetween l (.entry a) prev next) (update xs q ys) known :=
  h.edit hring (fun b => (hys b).mp) (fun r _ => ha r)
    (fun _ hn hna => listAddBetween_outside hna (fun heq => hn (heq ▸ hprev)) fun heq =>
      hn (heq ▸ hnext))
    (fun _ hb _ _ => hb) fun b _ hout hin => absurd ((hys b).mpr hin) hout

/-- `list_add_before` at the head puts an element at the end. -/
theorem addLast (ha : ∀ r, a ∉ xs r) :
    Family (listAddBefore l (.head q) (.entry a)) (update xs q (xs q ++ [a])) known := by
  have hr : Ring l (.head q) ((xs q).map .entry ++ []) := by
    rw [append_nil]
    exact h.ring q
  refine h.add ha ?_ mem_cons_self ?_ fun b => by simp
  · rw [show l.prev (.head q) = _ from hr.prev_first]
    exact getLastD_mem_cons
  · rw [map_append]
    exact listAddBefore_ring hr (by simpa using ha q) rfl

/-- `list_add` at the head puts an element at the beginning. -/
theorem addFirst (ha : ∀ r, a ∉ xs r) :
    Family (listAddAfter l (.head q) (.entry a)) (update xs q (a :: xs q)) known := by
  have hr : Ring l (.head q) ([] ++ (xs q).map .entry) := h.ring q
  refine h.add ha mem_cons_self ?_ (listAddAfter_ring hr (by simpa using ha q) rfl) fun b =>
    mem_cons.trans or_comm
  rw [h.next_head]
  exact head_mem q (xs q)

/-- `list_del` leaves the field of the element as it was. -/
theorem delete (hq : xs q = us ++ a :: ws) :
    Family (listDel l (.entry a)) (update xs q (us ++ ws)) (fun b => known b ∧ b ≠ a) := by
  have hr := h.ring q
  rw [hq, map_append, map_cons] at hr
  have hmem : ∀ {b}, b ∈ us ++ ws → b ∈ xs q := fun hb => by
    rw [hq]
    simp only [mem_append, mem_cons] at hb ⊢
    tauto
  refine h.edit (a := a) ?_ (fun b hb => .inl (hmem hb)) (fun r hne hin => ?_) (fun n hn hna => ?_)
    (fun b hb _ _ => hb.1) fun b hb hys hin => ?_
  · rw [map_append]
    exact listDel_ring hr
  · exact hne (h.once r q a hin (by simp [hq]))
  · have hu : n ≠ (us.map FamilyNode.entry).getLastD (.head q) := by
      intro heq
      have hin : _ ∈ FamilyNode.head q :: us.map .entry := getLastD_mem_cons
      rw [← heq] at hin
      refine hn (mem_cons.mpr ((mem_cons.mp hin).imp_right fun hin => ?_))
      rw [hq, map_append]
      exact mem_append_left _ hin
    have hw : n ≠ (ws.map FamilyNode.entry).headD (.head q) := by
      intro heq
      have hin := head_mem q ws
      rw [← heq] at hin
      refine hn (mem_cons.mpr ((mem_cons.mp hin).imp_right fun hin => ?_))
      rw [hq, map_append, map_cons]
      exact mem_append_right _ (mem_cons_of_mem _ hin)
    rw [listDel, hr.prev_mem, hr.next_mem]
    exact listDelBetween_outside hu hw
  · refine absurd (hin.resolve_right hb.2) fun hin => hys ?_
    rw [hq] at hin
    simp only [mem_append, mem_cons] at hin ⊢
    tauto

/-- `list_del_init` takes an element out. -/
theorem remove (hq : xs q = us ++ a :: ws) :
    Family (listDelInit l (.entry a)) (update xs q (us ++ ws)) known := by
  have hknow := (h.delete hq).know fun r hin => ((h.mem_remove hq).mp hin).2 rfl
  refine ⟨hknow.ring, hknow.once, fun b hb hb' => hknow.apart b ?_ hb'⟩
  by_cases hba : b = a
  · exact .inr hba
  · exact .inl ⟨hb, hba⟩

end Moves

end Family

/-- The elements `mem` are on the lists, each on that of its key. -/
def Hashed {Q α : Type} (l : Links (FamilyNode Q α)) (mem : α → Prop) (key : α → Q) : Prop :=
  ∃ xs, Family l xs (fun _ => False) ∧ ∀ q a, a ∈ xs q ↔ mem a ∧ q = key a

namespace Hashed

variable {Q α : Type} {l : Links (FamilyNode Q α)} {mem mem' : α → Prop} {key key' : α → Q} {a : α}

theorem congr (h : Hashed l mem key) (hmem : ∀ b, mem' b ↔ mem b) (hkey : ∀ b, mem b → key' b = key b) :
    Hashed l mem' key' := by
  obtain ⟨xs, hfamily, hxs⟩ := h
  refine ⟨xs, hfamily, fun q b => ?_⟩
  rw [hxs, hmem]
  refine and_congr_right fun hb => ?_
  rw [hkey b hb]

/-- Every list can be walked to its end, and what is looked for on that of its key is found. -/
theorem find (h : Hashed l mem key) (hit : α → Bool) (q : Q) :
    (∃ fuel r, listFind l hit fuel (.head q) = some r) ∧
      ∀ fuel r, listFind l hit fuel (.head q) = some r →
        (∀ a, r = some a → mem a ∧ key a = q ∧ hit a) ∧
          (r = none → ∀ a, mem a → key a = q → hit a = false) := by
  obtain ⟨xs, hfamily, hxs⟩ := h
  refine ⟨⟨_, (hfamily.listFind_spec hit _).1 (Nat.lt_succ_self _)⟩, fun fuel r hr => ?_⟩
  obtain ⟨hsome, hnone⟩ := (hfamily.listFind_spec hit fuel).2 r hr
  constructor
  · intro a ha
    obtain ⟨hin, hhit⟩ := hsome a ha
    obtain ⟨hmem, hkey⟩ := (hxs q a).mp hin
    exact ⟨hmem, hkey.symm, hhit⟩
  · exact fun hn a ha hkey => hnone hn a ((hxs q a).mpr ⟨ha, hkey.symm⟩)

theorem init (hl : ∀ q, l.next (.head q) = .head q ∧ l.prev (.head q) = .head q)
    (hmem : ∀ b, ¬mem b) : Hashed l mem key :=
  ⟨_, Family.init hl, fun q b => by simp [hmem b]⟩

variable [DecidableEq Q] [DecidableEq α]

/-- An element is put at the beginning of the list of its key. -/
theorem insert {q : Q} (h : Hashed l mem key) (ha : ¬mem a) (hmem : ∀ b, mem' b ↔ mem b ∨ b = a)
    (hkey : ∀ b, mem b → key' b = key b) (hq : key' a = q) :
    Hashed (listAddAfter l (.head q) (.entry a)) mem' key' := by
  subst hq
  obtain ⟨xs, hfamily, hxs⟩ := h
  have hout : ∀ q, a ∉ xs q := fun q hq => ha ((hxs q a).mp hq).1
  refine ⟨_, hfamily.addFirst (q := key' a) hout, fun q b => ?_⟩
  rw [hmem]
  by_cases hb : b = a
  · subst hb
    by_cases hq : q = key' b
    · simp [hq]
    · simp [hq, hout q]
  · have hbq : b ∈ xs q ↔ mem b ∧ q = key' b := by
      rw [hxs]
      exact and_congr_right fun hb => by rw [hkey b hb]
    by_cases hq : q = key' a
    · subst hq
      simp [hb, hbq]
    · simp [hb, hq, hbq]

/-- An element is taken off its list. -/
theorem erase (h : Hashed l mem key) (ha : mem a) (hmem : ∀ b, mem' b ↔ mem b ∧ b ≠ a) :
    Hashed (listDel l (.entry a)) mem' key := by
  obtain ⟨xs, hfamily, hxs⟩ := h
  obtain ⟨us, ws, hsplit⟩ := append_of_mem ((hxs (key a) a).mpr ⟨ha, rfl⟩)
  refine ⟨_, (hfamily.delete hsplit).forget fun _ hf => hf.elim, fun q b => ?_⟩
  rw [hmem, and_right_comm, ← hxs]
  exact hfamily.mem_remove hsplit

end Hashed

end UcoreMips.Kernel
