import Mathlib.Data.Set.Finite.Basic
import Sxla.Library.DepOrder

/-!
# Peeling a graph

What is left when entries that nothing names are taken away, over and over,
is the greatest set whose members are anchored or named by a member. It is
the part reached from the anchors along `uses` exactly when `names`, which
may relate more, neither leaves that part nor runs in a cycle outside it.
-/

namespace Peeling

open Relation

variable {α : Type*} {anchor : α → Prop} {names uses : α → α → Prop} {s : Set α} {x y : α}

/-- Every member is anchored or named by a member. -/
def Supported (anchor : α → Prop) (names : α → α → Prop) (c : Set α) : Prop :=
  ∀ y ∈ c, anchor y ∨ ∃ x ∈ c, names x y

def Reached (anchor : α → Prop) (uses : α → α → Prop) (y : α) : Prop :=
  ∃ x, anchor x ∧ ReflTransGen uses x y

/-- `names` between entries that are not reached. -/
def Adrift (anchor : α → Prop) (uses names : α → α → Prop) (x y : α) : Prop :=
  names x y ∧ ¬ Reached anchor uses x ∧ ¬ Reached anchor uses y

theorem reached_supported (h : ∀ x y, uses x y → names x y) :
    Supported anchor names {y | Reached anchor uses y} := by
  rintro y ⟨x, hx, hxy⟩
  rcases hxy.cases_tail with rfl | ⟨z, hxz, hzy⟩
  · exact .inl hx
  · exact .inr ⟨z, ⟨x, hx, hxz⟩, h z y hzy⟩

/-- A cycle supports itself. -/
theorem cycle_supported (h : ∀ x y, uses x y → names x y) (hx : TransGen uses x x) :
    Supported anchor names {y | TransGen uses x y} := by
  intro y hy
  obtain ⟨z, hxz, hzy⟩ := TransGen.tail'_iff.mp hy
  rcases reflTransGen_iff_eq_or_transGen.mp hxz with rfl | hxz
  · exact .inr ⟨z, hx, h z y hzy⟩
  · exact .inr ⟨z, hxz, h z y hzy⟩

theorem greatest_eq_reached_iff (hfin : s.Finite)
    (hs : IsGreatest {c | Supported anchor names c} s) (h : ∀ x y, uses x y → names x y) :
    s = {y | Reached anchor uses y} ↔
      (∀ x y, Reached anchor uses x → names x y → Reached anchor uses y) ∧
        ∀ x, ¬ TransGen (Adrift anchor uses names) x x := by
  constructor
  · intro heq
    constructor
    · intro x y hx hxy
      have hins : Supported anchor names (insert y s) := by
        rintro z (rfl | hz)
        · exact .inr ⟨x, .inr (heq ▸ hx), hxy⟩
        · exact (hs.1 z hz).imp_right fun ⟨w, hw, hwz⟩ => ⟨w, .inr hw, hwz⟩
      have hy : y ∈ s := hs.2 hins (Set.mem_insert y s)
      rwa [heq] at hy
    · intro x hx
      have hcycle := @cycle_supported _ anchor names _ x (fun _ _ h => And.left h) hx
      have hmem : x ∈ s := hs.2 hcycle hx
      obtain ⟨z, -, hzx⟩ := TransGen.tail'_iff.mp hx
      rw [heq] at hmem
      exact hzx.2.2 hmem
  · rintro ⟨hclosed, hacyclic⟩
    refine Set.Subset.antisymm (fun y hy => ?_) (hs.2 (reached_supported h))
    by_contra hny
    classical
    let dep : α → α → Prop := fun x y => Adrift anchor uses names x y ∧ x ∈ s
    let members := hfin.toFinset.toList
    have hmem : ∀ {z}, z ∈ members ↔ z ∈ s := by simp [members]
    -- some member that is not reached is named by no other such member
    obtain ⟨z, hz, hzn, hfirst⟩ := @DepOrder.exists_ready _ dep
      (members.filter (Reached anchor uses ·)) members
      (fun _ _ x hx => hmem.mpr hx.2)
      (fun x _ hx => hacyclic x (TransGen.mono (fun _ _ h => And.left h) x x hx))
      ⟨y, hmem.mpr hy, by simpa [hmem, hy] using hny⟩
    have hnz : ¬ Reached anchor uses z := by simpa [hmem, hmem.mp hz] using hzn
    rcases hs.1 z (hmem.mp hz) with ha | ⟨x, hx, hxz⟩
    · exact hnz ⟨z, ha, .refl⟩
    · by_cases hrx : Reached anchor uses x
      · exact hnz (hclosed x z hrx hxz)
      · have hlisted := hfirst x ⟨⟨hxz, hrx, hnz⟩, hx⟩
        exact hrx (by simpa using (List.mem_filter.mp hlisted).2)

end Peeling
