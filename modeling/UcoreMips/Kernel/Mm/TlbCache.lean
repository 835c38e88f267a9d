import UcoreMips.Kernel.Mm.PageMap

/-!
# UcoreMips.Kernel.Mm.TlbCache

**The TLB as a cache of page-table entries.** The kernel records what is in the TLB in
three places: `TLB_P` and the slot number inside an entry, the key of each slot in
`tlb_algo_hi`, and the stack of idle slots. `Held` is the invariant that ties them to
the hardware: a slot in use holds a pair of pages of which at least one is marked, each
half valid just when its page is marked, and every marked page is in the slot it names.

The lemmas say how the invariant moves along the elementary steps: a pair gets a slot
(`Held.fill`), the other page of a pair joins it or leaves it (`Held.half`), a pair
leaves its slot (`Held.dropPair`). The kernel's functions are put together from these.
-/

namespace UcoreMips.Kernel

open Emulator (Word Mmu)
open Function (update_of_ne update_self)

/-- The entry is marked as being in the TLB. -/
def Marked (pte : Word) : Prop := pte &&& tlbP ≠ 0

instance (pte : Word) : Decidable (Marked pte) := inferInstanceAs (Decidable (_ ≠ _))

theorem not_marked_zero : ¬Marked 0 := by decide

/-! ### Writing a slot -/

/-- The hardware after a write of the pair around the page `odd` of a slot. -/
def writePair (m : Mmu) (i : Fin 16) (hi : Word) (odd : BitVec 1) (lo lo2 : Word) : Mmu :=
  if odd = 0 then m.writeTlb i hi lo lo2 else m.writeTlb i hi lo2 lo

section WritePair

variable (m : Mmu) (i : Fin 16) (hi : Word) (odd : BitVec 1) (lo lo2 : Word) {j : Fin 16}

theorem writePair_key : (writePair m i hi odd lo lo2).tlbKey = Function.update m.tlbKey i hi := by
  unfold writePair
  split <;> rfl

theorem writePair_self : (writePair m i hi odd lo lo2).tlbData odd i = lo := by
  unfold writePair Mmu.writeTlb
  split
  · rename_i h
    exact (update_self ..).trans (if_pos h)
  · rename_i h
    exact (update_self ..).trans (if_neg h)

theorem writePair_sibling : (writePair m i hi odd lo lo2).tlbData (~~~odd) i = lo2 := by
  have hcases : odd = 0 ∧ ~~~odd ≠ 0 ∨ odd ≠ 0 ∧ ~~~odd = 0 := by
    revert odd
    decide
  unfold writePair Mmu.writeTlb
  rcases hcases with ⟨h, h'⟩ | ⟨h, h'⟩
  · rw [if_pos h]
    exact (update_self ..).trans (if_neg h')
  · rw [if_neg h]
    exact (update_self ..).trans (if_pos h')

theorem writePair_data (hj : j ≠ i) (b : BitVec 1) :
    (writePair m i hi odd lo lo2).tlbData b j = m.tlbData b j := by
  unfold writePair Mmu.writeTlb
  split <;> simp [hj]

end WritePair

/-! ### The invariant -/

/-- The half of slot `i` for the page `v`: it holds the entry if that is marked, and then
the entry names the slot; otherwise it is invalid. -/
def HalfOk (pte : Vpage → Word) (m : Mmu) (i : Fin 16) (v : Vpage) : Prop :=
  Marked (pte v) ∧ tlbIdx (pte v) = i ∧ m.tlbData v.odd i = entryLo (pte v) ∨
    ¬Marked (pte v) ∧ m.tlbData v.odd i = entryLoInvalid

/-- The slots in use hold pairs of marked pages, and every marked page is in its slot. -/
structure Held (pte : Vpage → Word) (m : Mmu) (hi : Fin 16 → Word) (used : Set (Fin 16)) :
    Prop where
  slot : ∀ i ∈ used, ∃ v : Vpage, v.User ∧ Marked (pte v) ∧ m.tlbKey i = v.key ∧ hi i = v.key ∧
    HalfOk pte m i v ∧ HalfOk pte m i v.sibling
  page : ∀ v : Vpage, v.User → Marked (pte v) →
    tlbIdx (pte v) ∈ used ∧ m.tlbKey (tlbIdx (pte v)) = v.key

namespace Held

variable {pte pte' : Vpage → Word} {m m' : Mmu} {hi : Fin 16 → Word} {used : Set (Fin 16)}
  {v : Vpage} {i : Fin 16} {w : Word}

/-- A marked page that belongs to the key of a slot names the slot. -/
theorem idx_eq (h : Held pte m hi used) (hi' : i ∈ used) (hv : Marked (pte v))
    (hkey : m.tlbKey i = v.key) : tlbIdx (pte v) = i := by
  obtain ⟨u, -, -, hukey, -, hu, hsib⟩ := h.slot i hi'
  have hvpn : v.vpn2 = u.vpn2 := Vpage.key_inj.mp (hkey.symm.trans hukey)
  rcases Vpage.eq_or_eq_sibling hvpn with rfl | rfl
  · rcases hu with ⟨-, hidx, -⟩ | ⟨hnot, -⟩
    · exact hidx
    · exact absurd hv hnot
  · rcases hsib with ⟨-, hidx, -⟩ | ⟨hnot, -⟩
    · exact hidx
    · exact absurd hv hnot

/-- No two slots in use have the same key. -/
theorem key_inj (h : Held pte m hi used) (hi' : i ∈ used) (hj : j ∈ used)
    (hkey : m.tlbKey i = m.tlbKey j) : i = j := by
  obtain ⟨v, -, hv, hvkey, -⟩ := h.slot i hi'
  rw [← h.idx_eq hi' hv hvkey, h.idx_eq hj hv (hkey.symm.trans hvkey)]

/-- The slot of a marked page. -/
theorem halves (h : Held pte m hi used) (hu : v.User) (hv : Marked (pte v)) :
    hi (tlbIdx (pte v)) = v.key ∧ HalfOk pte m (tlbIdx (pte v)) v := by
  obtain ⟨hused, hkey⟩ := h.page v hu hv
  obtain ⟨u, -, -, hukey, hhi, huok, hsib⟩ := h.slot _ hused
  have hvpn : v.vpn2 = u.vpn2 := Vpage.key_inj.mp (hkey.symm.trans hukey)
  refine ⟨hhi.trans (Vpage.key_inj.mpr hvpn.symm), ?_⟩
  rcases Vpage.eq_or_eq_sibling hvpn with rfl | rfl
  · exact huok
  · exact hsib

/-- The slot of a pair without a marked page is not in use. -/
theorem key_ne (h : Held pte m hi used) (hv : ¬Marked (pte v)) (hs : ¬Marked (pte v.sibling))
    (hi' : i ∈ used) : m.tlbKey i ≠ v.key := by
  intro hkey
  obtain ⟨u, -, hu, hukey, -⟩ := h.slot i hi'
  have hvpn : u.vpn2 = v.vpn2 := Vpage.key_inj.mp (hukey.symm.trans hkey)
  rcases Vpage.eq_or_eq_sibling hvpn with rfl | rfl
  · exact hv hu
  · exact hs hu

/-- `HalfOk` looks at one entry and one half. -/
theorem half_congr (hpte : pte' v = pte v) (hdata : m'.tlbData v.odd i = m.tlbData v.odd i)
    (h : HalfOk pte m i v) : HalfOk pte' m' i v := by
  unfold HalfOk
  rw [hpte, hdata]
  exact h

section Held

variable (h : Held pte m hi used)

include h

/-- Entries that are not marked may change. -/
theorem update (hv : ¬Marked (pte v)) (hw : ¬Marked w) :
    Held (Function.update pte v w) m hi used := by
  have hne : ∀ {u}, Marked (pte u) → u ≠ v := fun hu huv => hv (huv ▸ hu)
  have hhalf : ∀ {i u}, HalfOk pte m i u → HalfOk (Function.update pte v w) m i u := by
    intro i u hok
    by_cases huv : u = v
    · subst huv
      rcases hok with ⟨hm, -⟩ | ⟨-, hdata⟩
      · exact absurd hm hv
      · exact .inr ⟨by rwa [update_self], hdata⟩
    · exact half_congr (update_of_ne huv ..) rfl hok
  constructor
  · intro i hi'
    obtain ⟨u, huser, hu, hkey, hhi, hok, hsib⟩ := h.slot i hi'
    refine ⟨u, huser, ?_, hkey, hhi, hhalf hok, hhalf hsib⟩
    rwa [update_of_ne (hne hu)]
  · intro u huser hu
    by_cases huv : u = v
    · subst huv
      rw [update_self] at hu
      exact absurd hu hw
    · rw [update_of_ne huv] at hu ⊢
      exact h.page u huser hu

/-- A pair gets an idle slot. -/
theorem fill (hu : v.User) (hv : ¬Marked (pte v))
    (hs : ¬Marked (pte v.sibling)) (hidle : i ∉ used) (hw : Marked w) (hidx : tlbIdx w = i) :
    Held (Function.update pte v w) (writePair m i v.key v.odd (entryLo w) entryLoInvalid)
      (Function.update hi i v.key) (insert i used) := by
  have hne : ∀ j ∈ used, j ≠ i := fun j hj hji => hidle (hji ▸ hj)
  constructor
  · intro j hj
    rcases hj with rfl | hj
    · refine ⟨v, hu, ?_, ?_, update_self .., .inl ⟨?_, ?_, ?_⟩, .inr ⟨?_, ?_⟩⟩
      · rwa [update_self]
      · rw [writePair_key, update_self]
      · rwa [update_self]
      · rwa [update_self]
      · rw [update_self, writePair_self]
      · rwa [update_of_ne v.sibling_ne]
      · exact writePair_sibling ..
    · obtain ⟨u, huser, hum, hkey, hhi, hok, hsib⟩ := h.slot j hj
      -- the page of another slot is none of the pair
      have hvpn : u.vpn2 ≠ v.vpn2 := fun heq =>
        h.key_ne hv hs hj (hkey.trans (Vpage.key_inj.mpr heq))
      have hu1 : u ≠ v := fun heq => hvpn (congrArg Vpage.vpn2 heq)
      have hu2 : u.sibling ≠ v := by
        rintro rfl
        exact hvpn rfl
      refine ⟨u, huser, ?_, ?_, ?_, ?_, ?_⟩
      · rwa [update_of_ne hu1]
      · rw [writePair_key, update_of_ne (hne j hj), hkey]
      · rw [update_of_ne (hne j hj), hhi]
      · exact half_congr (update_of_ne hu1 ..) (writePair_data _ _ _ _ _ _ (hne j hj) _) hok
      · exact half_congr (update_of_ne hu2 ..) (writePair_data _ _ _ _ _ _ (hne j hj) _) hsib
  · intro u huser hum
    rw [writePair_key]
    by_cases huv : u = v
    · subst huv
      rw [update_self, hidx]
      exact ⟨.inl rfl, update_self ..⟩
    · rw [update_of_ne huv] at hum ⊢
      obtain ⟨hused, hkey⟩ := h.page u huser hum
      rw [update_of_ne (hne _ hused)]
      exact ⟨.inr hused, hkey⟩

/-- The other page of a pair joins or leaves a slot in which a page stays: `w` is its new
entry, marked with the slot or not marked. -/
theorem half (hu : v.User) (hs : Marked (pte v.sibling)) (hidx : tlbIdx (pte v.sibling) = i)
    {lo : Word} (hw : Marked w ∧ tlbIdx w = i ∧ lo = entryLo w ∨ ¬Marked w ∧ lo = entryLoInvalid) :
    Held (Function.update pte v w)
      (writePair m i v.key v.odd lo (entryLo (pte v.sibling))) hi used := by
  obtain ⟨hused, hkey⟩ := h.page _ (Vpage.sibling_user.mpr hu) hs
  obtain ⟨hhi, -⟩ := h.halves (Vpage.sibling_user.mpr hu) hs
  rw [hidx] at hused hkey hhi
  rw [Vpage.sibling_key] at hkey hhi
  constructor
  · intro j hj
    by_cases hji : j = i
    · subst hji
      refine ⟨v.sibling, hu, ?_, ?_, hhi, .inl ⟨?_, ?_, ?_⟩, ?_⟩
      · rwa [update_of_ne v.sibling_ne]
      · rw [writePair_key, update_self]
        rfl
      · rwa [update_of_ne v.sibling_ne]
      · rwa [update_of_ne v.sibling_ne]
      · rw [update_of_ne v.sibling_ne]
        exact writePair_sibling ..
      · rw [Vpage.sibling_sibling]
        unfold HalfOk
        rw [update_self, writePair_self]
        exact hw
    · obtain ⟨u, huser, hum, hukey, huhi, hok, hsib⟩ := h.slot j hj
      have hvpn : u.vpn2 ≠ v.vpn2 := by
        intro heq
        apply hji
        exact h.key_inj hj hused ((hukey.trans (Vpage.key_inj.mpr heq)).trans hkey.symm)
      have hu1 : u ≠ v := fun heq => hvpn (congrArg Vpage.vpn2 heq)
      have hu2 : u.sibling ≠ v := by
        rintro rfl
        exact hvpn rfl
      refine ⟨u, huser, ?_, ?_, huhi, ?_, ?_⟩
      · rwa [update_of_ne hu1]
      · rw [writePair_key, update_of_ne hji, hukey]
      · exact half_congr (update_of_ne hu1 ..) (writePair_data _ _ _ _ _ _ hji _) hok
      · exact half_congr (update_of_ne hu2 ..) (writePair_data _ _ _ _ _ _ hji _) hsib
  · intro u huser hum
    have hkey' : ∀ {j}, m.tlbKey j = u.key → (writePair m i v.key v.odd lo
        (entryLo (pte v.sibling))).tlbKey j = u.key := by
      intro j hj
      rw [writePair_key]
      by_cases hji : j = i
      · rw [hji, update_self, ← hkey, ← hji, hj]
      · rw [update_of_ne hji, hj]
    by_cases huv : u = v
    · subst huv
      rw [update_self] at hum ⊢
      rcases hw with ⟨-, hwidx, -⟩ | ⟨hnot, -⟩
      · rw [hwidx]
        exact ⟨hused, hkey' hkey⟩
      · exact absurd hum hnot
    · rw [update_of_ne huv] at hum ⊢
      obtain ⟨huu, hukey⟩ := h.page u huser hum
      exact ⟨huu, hkey' hukey⟩

/-- A pair leaves its slot: neither of its pages is marked any more. -/
theorem dropPair (hi' : i ∈ used) (hkey : m.tlbKey i = v.key)
    (hpte : ∀ u : Vpage, u.User → u.vpn2 ≠ v.vpn2 → pte' u = pte u) (hv : ¬Marked (pte' v))
    (hs : ¬Marked (pte' v.sibling))
    (hm : ∀ j, j ≠ i → m'.tlbKey j = m.tlbKey j ∧ ∀ b, m'.tlbData b j = m.tlbData b j) :
    Held pte' m' hi (used \ {i}) := by
  constructor
  · rintro j ⟨hj, hji⟩
    obtain ⟨u, huser, hum, hukey, huhi, hok, hsib⟩ := h.slot j hj
    have hvpn : u.vpn2 ≠ v.vpn2 := by
      intro heq
      apply hji
      exact h.key_inj hj hi' ((hukey.trans (Vpage.key_inj.mpr heq)).trans hkey.symm)
    obtain ⟨hmkey, hmdata⟩ := hm j hji
    refine ⟨u, huser, ?_, hmkey.trans hukey, huhi, ?_, ?_⟩
    · rwa [hpte u huser hvpn]
    · exact half_congr (hpte u huser hvpn) (hmdata _) hok
    · exact half_congr (hpte u.sibling huser hvpn) (hmdata _) hsib
  · intro u huser hum
    have hvpn : u.vpn2 ≠ v.vpn2 := by
      intro heq
      rcases Vpage.eq_or_eq_sibling heq with rfl | rfl
      · exact hv hum
      · exact hs hum
    rw [hpte u huser hvpn] at hum ⊢
    obtain ⟨huu, hukey⟩ := h.page u huser hum
    have hne : tlbIdx (pte u) ≠ i := by
      intro heq
      rw [heq, hkey] at hukey
      exact hvpn (Vpage.key_inj.mp hukey).symm
    exact ⟨⟨huu, hne⟩, (hm _ hne).1.trans hukey⟩

/-- The invariant is about user pages, and about the keys of the slots in use. -/
theorem congr {hi' : Fin 16 → Word} (hpte : ∀ u : Vpage, u.User → pte' u = pte u) (hhi : ∀ i ∈ used, hi' i = hi i) :
    Held pte' m hi' used := by
  constructor
  · intro i hi'
    obtain ⟨u, huser, hum, hukey, huhi, hok, hsib⟩ := h.slot i hi'
    refine ⟨u, huser, ?_, hukey, (hhi i hi').trans huhi, ?_, ?_⟩
    · rwa [hpte u huser]
    · exact half_congr (hpte u huser) rfl hok
    · exact half_congr (hpte u.sibling huser) rfl hsib
  · intro u huser hum
    rw [hpte u huser] at hum ⊢
    exact h.page u huser hum

end Held

end Held

/-! ### The bookkeeping as a whole -/

/-- The slots that are not on the stack of idle ones. -/
def usedSlots (a : TlbAlgo) : Set (Fin 16) :=
  {i | ∀ j : Fin 16, j.val < a.n.val → a.empty j ≠ i}

/-- The stack has no slot twice. -/
def StackInj (a : TlbAlgo) : Prop :=
  ∀ j k : Fin 16, j.val < a.n.val → k.val < a.n.val → a.empty j = a.empty k → j = k

/-- The kernel's records and the hardware agree, for the entries `pte` of the current
directory. -/
structure TlbInv (pte : Vpage → Word) (m : Mmu) (a : TlbAlgo) : Prop where
  held : Held pte m a.hi (usedSlots a)
  stack : StackInj a
  idle : ∀ i, i ∉ usedSlots a → m.tlbKey i = entryHiInvalid

variable {m : Mmu} {a : TlbAlgo}

theorem TlbInv.congr {pte pte' : Vpage → Word} (h : TlbInv pte m a)
    (hpte : ∀ u : Vpage, u.User → pte' u = pte u) : TlbInv pte' m a :=
  ⟨h.held.congr hpte fun _ _ => rfl, h.stack, h.idle⟩

/-- A valid half-entry under a key that is not `ENTRYHI_INVALID` holds the entry of its
page, which is marked. -/
theorem TlbInv.valid {pte : Vpage → Word} (h : TlbInv pte m a) {i : Fin 16} {odd : BitVec 1}
    (hkey : m.tlbKey i ≠ entryHiInvalid) (hvalid : (m.tlbData odd i).getLsbD 1 = true) :
    ∃ v : Vpage, v.User ∧ v.odd = odd ∧ m.tlbKey i = v.key ∧ Marked (pte v) ∧
      m.tlbData odd i = entryLo (pte v) := by
  have hused : i ∈ usedSlots a := by
    by_contra hnot
    exact hkey (h.idle i hnot)
  obtain ⟨u, huser, -, hukey, -, hok, hsib⟩ := h.held.slot i hused
  have hhalf : ∀ v : Vpage, v.User → v.odd = odd → m.tlbKey i = v.key → HalfOk pte m i v →
      ∃ v : Vpage, v.User ∧ v.odd = odd ∧ m.tlbKey i = v.key ∧ Marked (pte v) ∧
        m.tlbData odd i = entryLo (pte v) := by
    rintro v hv rfl hvkey (⟨hm, -, hdata⟩ | ⟨-, hdata⟩)
    · exact ⟨v, hv, rfl, hvkey, hm, hdata⟩
    · rw [hdata] at hvalid
      exact absurd hvalid (by decide)
  have hodd : u.odd = odd ∨ u.sibling.odd = odd := by
    have hcases : ∀ a b : BitVec 1, a = b ∨ ~~~a = b := by decide
    exact hcases u.odd odd
  rcases hodd with hodd | hodd
  · exact hhalf u huser hodd hukey hok
  · exact hhalf u.sibling huser hodd hukey hsib

end UcoreMips.Kernel
