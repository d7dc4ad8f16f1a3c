import Mathlib.Data.List.Basic

/-!
# Linked lists over a successor function

`Chain next stop x l`: from `x` on, following `next` visits exactly the cells
`l` and ends at `stop`. A chain only depends on the successors of its own
cells, and bypassing one cell removes it from the list.
-/

namespace Linked

inductive Chain {α : Type} (next : α → Option α) (stop : α) : α → List α → Prop
  | nil : Chain next stop stop []
  | cons : x ≠ stop → next x = some y → Chain next stop y l → Chain next stop x (x :: l)

variable {α : Type} {next next' : α → Option α} {stop x p q : α} {l pre post : List α}

theorem Chain.congr (h : Chain next stop x l) (hn : ∀ y ∈ l, next' y = next y) :
    Chain next' stop x l := by
  induction h with
  | nil => exact .nil
  | cons hx hy _ ih =>
    rw [List.forall_mem_cons] at hn
    exact .cons hx (hn.1.trans hy) (ih hn.2)

theorem Chain.head_eq (h : Chain next stop x (p :: l)) : x = p := by
  cases h
  rfl

theorem Chain.eq_nil (h : Chain next stop stop l) : l = [] := by
  cases h with
  | nil => rfl
  | cons hx => exact absurd rfl hx

theorem Chain.of_ne (h : Chain next stop x l) (hx : x ≠ stop) :
    ∃ y t, l = x :: t ∧ next x = some y ∧ Chain next stop y t := by
  cases h with
  | nil => exact absurd rfl hx
  | cons _ hy ht => exact ⟨_, _, rfl, hy, ht⟩

theorem Chain.tail (h : Chain next stop x (p :: l)) :
    ∃ y, next p = some y ∧ p ≠ stop ∧ Chain next stop y l := by
  cases h with
  | cons hx hy ht => exact ⟨_, hy, hx, ht⟩

theorem Chain.bypass (h : Chain next stop x (pre ++ p :: q :: post)) (hp : next' p = next q)
    (hn : ∀ y ∈ pre ++ post, next' y = next y) : Chain next' stop x (pre ++ p :: post) := by
  induction pre generalizing x with
  | nil =>
    obtain ⟨y, hy, hstop, ht⟩ := h.tail
    obtain ⟨z, hz, -, hpost⟩ := ht.tail
    rw [h.head_eq]
    exact .cons hstop (hp.trans hz) (hpost.congr hn)
  | cons c pre ih =>
    rw [List.cons_append, List.forall_mem_cons] at hn
    obtain ⟨y, hy, hstop, ht⟩ := h.tail
    rw [h.head_eq]
    exact .cons hstop (hn.1.trans hy) (ih ht hn.2)

end Linked
