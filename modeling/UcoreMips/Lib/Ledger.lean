import Mathlib

/-!
# UcoreMips.Lib.Ledger

**What an allocator keeps account of.** A set of cells is owned. Part of it is free, and the
rest is parcelled out to blocks, each of which covers an area; no cell is in two places and
none is lost.

The three things that can happen are that more cells come to be owned (`Ledger.grow`), that a
block is handed out (`Ledger.take`) and that one is given back (`Ledger.release`).
-/

namespace UcoreMips.Lib

open Finset

variable {A B : Type} [DecidableEq A]

/-- The owned cells are free, or belong to just one of the live blocks. -/
structure Ledger (area : B → Finset A) (owned free : Finset A) (live : Finset B) : Prop where
  apart : ∀ b ∈ live, ∀ c ∈ live, b ≠ c → Disjoint (area b) (area c)
  unfree : ∀ b ∈ live, Disjoint (area b) free
  all : free ∪ live.biUnion area = owned

namespace Ledger

variable {area : B → Finset A} {owned free new : Finset A} {live : Finset B} {b : B}

theorem init (area : B → Finset A) (owned : Finset A) : Ledger area owned owned ∅ :=
  ⟨fun _ hb => absurd hb (notMem_empty _), fun _ hb => absurd hb (notMem_empty _),
    by rw [biUnion_empty, union_empty]⟩

theorem area_subset (h : Ledger area owned free live) (hb : b ∈ live) : area b ⊆ owned := by
  rw [← h.all]
  exact (subset_biUnion_of_mem area hb).trans subset_union_right

theorem free_subset (h : Ledger area owned free live) : free ⊆ owned := by
  rw [← h.all]
  exact subset_union_left

theorem grow (h : Ledger area owned free live) (hnew : Disjoint new owned) :
    Ledger area (owned ∪ new) (free ∪ new) live := by
  refine ⟨h.apart, fun b hb => ?_, ?_⟩
  · rw [disjoint_union_right]
    exact ⟨h.unfree b hb, (disjoint_of_subset_right (h.area_subset hb) hnew).symm⟩
  · rw [← h.all, union_right_comm]

theorem take [DecidableEq B] (h : Ledger area owned free live) (hsub : area b ⊆ free) :
    Ledger area owned (free \ area b) (insert b live) := by
  have hlive : ∀ c ∈ live, Disjoint (area c) (area b) := fun c hc =>
    disjoint_of_subset_right hsub (h.unfree c hc)
  refine ⟨?_, ?_, ?_⟩
  · intro c hc d hd hne
    rcases mem_insert.mp hc with hcb | hc <;> rcases mem_insert.mp hd with hdb | hd
    · exact absurd (hcb.trans hdb.symm) hne
    · exact hcb ▸ (hlive d hd).symm
    · exact hdb ▸ hlive c hc
    · exact h.apart c hc d hd hne
  · intro c hc
    rcases mem_insert.mp hc with rfl | hc
    · exact disjoint_sdiff
    · exact disjoint_of_subset_right sdiff_subset (h.unfree c hc)
  · rw [biUnion_insert, ← union_assoc, sdiff_union_of_subset hsub, h.all]

theorem release [DecidableEq B] (h : Ledger area owned free live) (hb : b ∈ live) :
    Ledger area owned (free ∪ area b) (live.erase b) := by
  refine ⟨?_, ?_, ?_⟩
  · exact fun c hc d hd => h.apart c (mem_of_mem_erase hc) d (mem_of_mem_erase hd)
  · intro c hc
    obtain ⟨hne, hc⟩ := mem_erase.mp hc
    rw [disjoint_union_right]
    exact ⟨h.unfree c hc, h.apart c hc b hb hne⟩
  · rw [union_assoc, ← biUnion_insert, insert_erase hb, h.all]

/-- What is free is what no live block has. -/
theorem free_unique {free' : Finset A} (h : Ledger area owned free live)
    (h' : Ledger area owned free' live) : free = free' := by
  have hsub : ∀ {f g : Finset A}, Ledger area owned f live → Ledger area owned g live → f ⊆ g := by
    intro f g hf hg i hi
    have hin : i ∈ g ∪ live.biUnion area := hg.all ▸ hf.free_subset hi
    rcases mem_union.mp hin with hin | hin
    · exact hin
    · obtain ⟨b, hb, hib⟩ := mem_biUnion.mp hin
      exact absurd hi (disjoint_left.mp (hf.unfree b hb) hib)
  exact Finset.Subset.antisymm (hsub h h') (hsub h' h)

/-- The sizes add up. -/
theorem card_eq (h : Ledger area owned free live) :
    owned.card = free.card + ∑ b ∈ live, (area b).card := by
  have hdisj : Disjoint free (live.biUnion area) := by
    rw [disjoint_biUnion_right]
    exact fun b hb => (h.unfree b hb).symm
  rw [← h.all, card_union_of_disjoint hdisj, card_biUnion h.apart]

end Ledger

end UcoreMips.Lib
