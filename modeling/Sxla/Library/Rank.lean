import Mathlib.Data.Finset.Card
import Mathlib.Data.Finset.Range

/-!
# Ranks

The rank of an element is the number of elements ahead of it in a strict
order. Where the order compares any two elements of a finite set, the ranks
are the numbers below its size, each once, so the first `n` elements are as
many as there can be.
-/

namespace Rank

variable {α : Type} {lt : α → α → Prop} [DecidableRel lt] {s : Finset α} {x y : α} {n : Nat}

def rank (lt : α → α → Prop) [DecidableRel lt] (s : Finset α) (x : α) : Nat :=
  (s.filter (lt · x)).card

/-- Irreflexive, transitive and total on the set. -/
structure Orders (lt : α → α → Prop) (s : Finset α) : Prop where
  irrefl : ∀ x ∈ s, ¬ lt x x
  trans : ∀ x ∈ s, ∀ y ∈ s, ∀ z ∈ s, lt x y → lt y z → lt x z
  total : ∀ x ∈ s, ∀ y ∈ s, x ≠ y → lt x y ∨ lt y x

theorem Orders.rank_lt_rank (h : Orders lt s) (hx : x ∈ s) (hy : y ∈ s) (hlt : lt x y) :
    rank lt s x < rank lt s y := by
  apply Finset.card_lt_card
  refine Finset.ssubset_iff_subset_ne.mpr ⟨fun z hz => ?_, fun he => ?_⟩
  · rw [Finset.mem_filter] at hz ⊢
    exact ⟨hz.1, h.trans z hz.1 x hx y hy hz.2 hlt⟩
  · have hmem : x ∈ s.filter (lt · y) := Finset.mem_filter.mpr ⟨hx, hlt⟩
    rw [← he, Finset.mem_filter] at hmem
    exact h.irrefl x hx hmem.2

theorem Orders.rank_injective (h : Orders lt s) (hx : x ∈ s) (hy : y ∈ s)
    (he : rank lt s x = rank lt s y) : x = y := by
  by_contra hne
  rcases h.total x hx y hy hne with hlt | hlt
  · exact Nat.ne_of_lt (h.rank_lt_rank hx hy hlt) he
  · exact Nat.ne_of_gt (h.rank_lt_rank hy hx hlt) he

theorem Orders.rank_lt_card (h : Orders lt s) (hx : x ∈ s) : rank lt s x < s.card := by
  apply Finset.card_lt_card
  refine Finset.ssubset_iff_subset_ne.mpr ⟨Finset.filter_subset _ _, fun he => ?_⟩
  rw [← he, Finset.mem_filter] at hx
  exact h.irrefl x hx.1 hx.2

theorem Orders.image_rank [DecidableEq α] (h : Orders lt s) :
    s.image (rank lt s) = Finset.range s.card := by
  refine Finset.eq_of_subset_of_card_le (fun r hr => ?_) ?_
  · obtain ⟨x, hx, rfl⟩ := Finset.mem_image.mp hr
    exact Finset.mem_range.mpr (h.rank_lt_card hx)
  · rw [Finset.card_range, Finset.card_image_of_injOn]
    exact fun x hx y hy he => h.rank_injective hx hy he

/-- An element past the first `n` has `n` elements among them. -/
theorem Orders.le_card_first [DecidableEq α] (h : Orders lt s) (hx : x ∈ s)
    (hn : n ≤ rank lt s x) : n ≤ (s.filter (rank lt s · < n)).card := by
  have hlt := h.rank_lt_card hx
  have hsub : Finset.range n ⊆ (s.filter (rank lt s · < n)).image (rank lt s) := by
    intro r hr
    rw [Finset.mem_range] at hr
    have hmem : r ∈ s.image (rank lt s) := by
      rw [h.image_rank, Finset.mem_range]
      omega
    obtain ⟨y, hy, rfl⟩ := Finset.mem_image.mp hmem
    exact Finset.mem_image_of_mem _ (Finset.mem_filter.mpr ⟨hy, hr⟩)
  calc n = (Finset.range n).card := (Finset.card_range n).symm
    _ ≤ ((s.filter (rank lt s · < n)).image (rank lt s)).card := Finset.card_le_card hsub
    _ ≤ (s.filter (rank lt s · < n)).card := Finset.card_image_le

end Rank
