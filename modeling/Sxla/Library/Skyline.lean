import Mathlib.Data.List.Basic
import Mathlib.Data.Set.Insert
import Mathlib.Order.Defs.Unbundled

/-!
# Minimal points of a growing set

`IsSkyline lt S pts`: the list holds the points of `S` that no point of `S`
is before, and every point of `S` is one of them or behind one. Adding a
point drops the points behind it, and dropping points that stay covered
changes nothing, so the skyline does not depend on the order of arrival.
-/

namespace Skyline

variable {α : Type} {lt : α → α → Prop} {S T : Set α} {pts : List α} {q : α}

structure IsSkyline (lt : α → α → Prop) (S : Set α) (pts : List α) : Prop where
  minimal : ∀ x, x ∈ pts ↔ x ∈ S ∧ ∀ y ∈ S, ¬ lt y x
  covers : ∀ x ∈ S, ∃ p ∈ pts, lt p x ∨ p = x
  nodup : pts.Nodup

theorem isSkyline_nil : IsSkyline lt ∅ [] := by
  constructor <;> simp

section StrictOrder

variable [IsStrictOrder α lt]

/-- A point behind a kept one adds nothing. -/
theorem IsSkyline.insert_covered (h : IsSkyline lt S pts) (hq : ∃ e ∈ pts, lt e q ∨ e = q) :
    IsSkyline lt (insert q S) pts := by
  obtain ⟨e, he, heq⟩ := hq
  have heS := (h.minimal e).mp he
  refine ⟨fun x => ?_, fun x hx => ?_, h.nodup⟩
  · rw [h.minimal x]
    constructor
    · rintro ⟨hx, hmin⟩
      refine ⟨.inr hx, fun y hy => ?_⟩
      rcases hy with rfl | hy
      · rcases heq with hlt | rfl
        · exact fun hqx => hmin e heS.1 (IsTrans.trans _ _ _ hlt hqx)
        · exact hmin _ heS.1
      · exact hmin y hy
    · rintro ⟨hx, hmin⟩
      rcases hx with rfl | hx
      · rcases heq with hlt | rfl
        · exact absurd hlt (hmin e (.inr heS.1))
        · exact heS
      · exact ⟨hx, fun y hy => hmin y (.inr hy)⟩
  · rcases hx with rfl | hx
    · exact ⟨e, he, heq⟩
    · exact h.covers x hx

/-- A point no kept one is before replaces the points behind it. -/
theorem IsSkyline.insert_new [DecidableRel lt] (h : IsSkyline lt S pts)
    (hq : ∀ e ∈ pts, ¬ lt e q ∧ e ≠ q) :
    IsSkyline lt (insert q S) (pts.filter (fun p => ¬ lt q p) ++ [q]) := by
  have hmin : ∀ y ∈ S, ¬ lt y q := by
    intro y hy hlt
    obtain ⟨p, hp, hpy⟩ := h.covers y hy
    rcases hpy with hpy | rfl
    · exact (hq p hp).1 (IsTrans.trans _ _ _ hpy hlt)
    · exact (hq _ hp).1 hlt
  refine ⟨fun x => ?_, fun x hx => ?_, ?_⟩
  · simp only [List.mem_append, List.mem_filter, decide_eq_true_eq, List.mem_singleton,
      h.minimal x]
    constructor
    · rintro (⟨⟨hx, hall⟩, hqx⟩ | rfl)
      · refine ⟨.inr hx, fun y hy => ?_⟩
        rcases hy with rfl | hy
        · exact hqx
        · exact hall y hy
      · refine ⟨.inl rfl, fun y hy => ?_⟩
        rcases hy with rfl | hy
        · exact irrefl _
        · exact hmin y hy
    · rintro ⟨hx, hall⟩
      rcases hx with rfl | hx
      · exact .inr rfl
      · exact .inl ⟨⟨hx, fun y hy => hall y (.inr hy)⟩, hall q (.inl rfl)⟩
  · have hmem : ∀ p ∈ pts, ¬ lt q p → p ∈ pts.filter (fun p => ¬ lt q p) ++ [q] := by
      intro p hp hqp
      simp [hp, hqp]
    rcases hx with rfl | hx
    · exact ⟨x, by simp, .inr rfl⟩
    · obtain ⟨p, hp, hpx⟩ := h.covers x hx
      by_cases hqp : lt q p
      · refine ⟨q, by simp, .inl ?_⟩
        rcases hpx with hpx | rfl
        · exact IsTrans.trans _ _ _ hqp hpx
        · exact hqp
      · exact ⟨p, hmem p hp hqp, hpx⟩
  · simp only [List.nodup_append, List.nodup_cons, List.not_mem_nil, not_false_eq_true,
      List.nodup_nil, and_true, List.mem_singleton, List.mem_filter]
    exact ⟨h.nodup.filter _, trivial, fun p hp _ hb he => (hq p hp.1).2 (he.trans hb)⟩

theorem exists_isSkyline (l : List α) : ∃ pts, IsSkyline lt {p | p ∈ l} pts := by
  classical
  induction l with
  | nil => exact ⟨[], by simpa using isSkyline_nil⟩
  | cons q l ih =>
    obtain ⟨pts, h⟩ := ih
    have hset : {p | p ∈ q :: l} = insert q {p | p ∈ l} := by
      ext p
      simp
    rw [hset]
    by_cases hq : ∃ e ∈ pts, lt e q ∨ e = q
    · exact ⟨pts, h.insert_covered hq⟩
    · refine ⟨_, h.insert_new fun e he => ⟨fun hlt => hq ⟨e, he, .inl hlt⟩, fun heq => ?_⟩⟩
      exact hq ⟨e, he, .inr heq⟩

/-- Points that stay covered may be left out. -/
theorem IsSkyline.exact (h : IsSkyline lt S pts) (hsub : S ⊆ T)
    (hcov : ∀ x ∈ T, ∃ p ∈ S, lt p x ∨ p = x) (x : α) : x ∈ pts ↔ x ∈ T ∧ ∀ y ∈ T, ¬ lt y x := by
  rw [h.minimal x]
  constructor
  · rintro ⟨hx, hmin⟩
    refine ⟨hsub hx, fun y hy hlt => ?_⟩
    obtain ⟨p, hp, hpy⟩ := hcov y hy
    rcases hpy with hpy | rfl
    · exact hmin p hp (IsTrans.trans _ _ _ hpy hlt)
    · exact hmin _ hp hlt
  · rintro ⟨hx, hmin⟩
    obtain ⟨p, hp, hpx⟩ := hcov x hx
    rcases hpx with hpx | rfl
    · exact absurd hpx (hmin p (hsub hp))
    · exact ⟨hp, fun y hy => hmin y (hsub hy)⟩

end StrictOrder

end Skyline
