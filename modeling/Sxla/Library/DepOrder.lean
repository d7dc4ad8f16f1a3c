import Mathlib.Data.Set.Finite.Basic
import Mathlib.Data.List.Nodup
import Mathlib.Logic.Relation
import Mathlib.Order.WellFounded

/-!
# Dependency orders

`dep x y` says that `y` needs `x`. A list is ordered when whatever an entry
needs stands before it. Two facts connect ordered lists with cycles: no
entry of an ordered list depends on itself, and a finite set without cycles
that contains what its members need always has a next element to emit.
-/

namespace DepOrder

open Relation

variable {α : Type*} {dep : α → α → Prop} {order : List α}

/-- `x` stands before an occurrence of `y`. -/
def Before (order : List α) (x y : α) : Prop :=
  ∃ l r, order = l ++ y :: r ∧ x ∈ l

/-- Whatever an entry needs stands before it. -/
def Ordered (dep : α → α → Prop) (order : List α) : Prop :=
  ∀ l y r, order = l ++ y :: r → ∀ x, dep x y → x ∈ l

/-- No member depends on itself. -/
def Acyclic (dep : α → α → Prop) (s : α → Prop) : Prop :=
  ∀ x, s x → ¬ TransGen dep x x

theorem Ordered.nil : Ordered dep [] := by
  intro l y r h
  simp at h

theorem Ordered.concat (h : Ordered dep order) (hy : ∀ x, dep x y → x ∈ order) :
    Ordered dep (order ++ [y]) := by
  intro l z r he x hx
  rcases List.eq_nil_or_concat r with rfl | ⟨r', z', rfl⟩
  · obtain ⟨rfl, hz⟩ := List.append_inj' he rfl
    obtain rfl := List.cons.inj hz |>.1
    exact hy x hx
  · have he' : order ++ [y] = (l ++ z :: r') ++ [z'] := by simpa using he
    obtain ⟨rfl, _⟩ := List.append_inj' he' rfl
    exact h l z r' rfl x hx

theorem Ordered.map {β : Type*} {dep' : β → β → Prop} {f : α → β} (h : Ordered dep order)
    (hf : ∀ y ∈ order, ∀ x', dep' x' (f y) → ∃ x, f x = x' ∧ dep x y) :
    Ordered dep' (order.map f) := by
  intro l' y' r' he x' hx'
  obtain ⟨l, t, rfl, rfl, ht⟩ := List.map_eq_append_iff.mp he
  obtain ⟨y, r, rfl, rfl, rfl⟩ := List.map_eq_cons_iff.mp ht
  obtain ⟨x, rfl, hx⟩ := hf y (by simp) x' hx'
  exact List.mem_map_of_mem (h l y r rfl x hx)

/-- A direct dependency of an entry stands before it. -/
theorem Ordered.before (h : Ordered dep order) (hy : y ∈ order) (hx : dep x y) :
    Before order x y := by
  obtain ⟨l, r, rfl⟩ := List.append_of_mem hy
  exact ⟨l, r, rfl, h l y r rfl x hx⟩

theorem Before.mem_left (h : Before order x y) : x ∈ order := by
  obtain ⟨l, r, rfl, hx⟩ := h
  exact List.mem_append_left _ hx

/-- In a list without repetition, standing before is having the smaller
position. -/
theorem before_iff [DecidableEq α] (hn : order.Nodup) :
    Before order x y ↔ y ∈ order ∧ order.idxOf x < order.idxOf y := by
  constructor
  · rintro ⟨l, r, rfl, hx⟩
    have hy : y ∉ l := fun hm => List.disjoint_of_nodup_append hn hm (by simp)
    refine ⟨by simp, ?_⟩
    rw [List.idxOf_append_of_mem hx, List.idxOf_append_of_notMem hy]
    exact Nat.lt_of_lt_of_le (List.idxOf_lt_length_of_mem hx) (Nat.le_add_right _ _)
  · rintro ⟨hy, hlt⟩
    have hlen : order.idxOf y < order.length := List.idxOf_lt_length_of_mem hy
    refine ⟨order.take (order.idxOf y), order.drop (order.idxOf y + 1), ?_, ?_⟩
    · conv_lhs => rw [← List.take_append_drop (order.idxOf y) order]
      rw [List.drop_eq_getElem_cons hlen, List.getElem_idxOf]
    · exact List.mem_take_iff_idxOf_lt (List.idxOf_lt_length_iff.mp (hlt.trans hlen)) |>.mpr hlt

theorem Before.irrefl (hn : order.Nodup) : ¬ Before order x x := by
  classical
  intro h
  exact Nat.lt_irrefl _ ((before_iff hn).mp h).2

theorem Before.trans (hn : order.Nodup) (hxy : Before order x y) (hyz : Before order y z) :
    Before order x z := by
  classical
  rw [before_iff hn] at *
  exact ⟨hyz.1, hxy.2.trans hyz.2⟩

/-- The one occurrence of `y` splits the list, so what is before it is known. -/
theorem Before.mem_of_split (hn : (l ++ y :: r).Nodup) (h : Before (l ++ y :: r) x y) :
    x ∈ l := by
  classical
  have hy : y ∉ l := fun hm => List.disjoint_of_nodup_append hn hm (by simp)
  have hlt := ((before_iff hn).mp h).2
  rw [List.idxOf_append_of_notMem hy, List.idxOf_cons_self, Nat.add_zero] at hlt
  by_contra hx
  rw [List.idxOf_append_of_notMem hx] at hlt
  omega

/-- Paths of dependencies run forward through an ordered list. -/
theorem Ordered.before_of_transGen (h : Ordered dep order) (hn : order.Nodup) (hy : y ∈ order)
    (hxy : TransGen dep x y) : Before order x y := by
  induction hxy using TransGen.head_induction_on with
  | single hx => exact h.before hy hx
  | head hx _ ih => exact (h.before ih.mem_left hx).trans hn ih

theorem Ordered.acyclic (h : Ordered dep order) (hn : order.Nodup) :
    Acyclic dep (· ∈ order) :=
  fun _ hx hc => Before.irrefl hn (h.before_of_transGen hn hx hc)

/-- Among the members still missing from `order`, one needs nothing that is
missing. -/
theorem exists_ready {s : List α} (hclosed : ∀ y ∈ s, ∀ x, dep x y → x ∈ s)
    (hacyc : Acyclic dep (· ∈ s)) (hmiss : ∃ y ∈ s, y ∉ order) :
    ∃ y ∈ s, y ∉ order ∧ ∀ x, dep x y → x ∈ order := by
  let r : {x // x ∈ s} → {x // x ∈ s} → Prop := fun x y => TransGen dep x.1 y.1
  have : IsTrans _ r := ⟨fun _ _ _ => TransGen.trans⟩
  have : Std.Irrefl r := ⟨fun x => hacyc x.1 x.2⟩
  have : Finite {x // x ∈ s} := List.finite_toSet s
  have hwf : WellFounded r := Finite.wellFounded_of_trans_of_irrefl r
  obtain ⟨y, hy, hym⟩ := hmiss
  obtain ⟨m, hm, hmin⟩ := hwf.has_min {x | x.1 ∉ order} ⟨⟨y, hy⟩, hym⟩
  refine ⟨m.1, m.2, hm, fun x hx => ?_⟩
  by_contra hxo
  exact hmin ⟨x, hclosed m.1 m.2 x hx⟩ hxo (.single hx)

end DepOrder
