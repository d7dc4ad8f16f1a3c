import Mathlib.Data.List.Nodup
import Mathlib.Data.List.Perm.Basic

/-!
# Interleaved stores

Parties each have a list of stores to numbered cells, and a schedule takes
the next store of any party until none is left. Where no two stores name the
same cell, every schedule leaves the same cells.
-/

namespace Interleave

/-- A schedule of the parties' lists. -/
inductive Merges : List (List α) → List α → Prop
  | done {ls : List (List α)} (h : ∀ l ∈ ls, l = []) : Merges ls []
  | step {ls : List (List α)} {k : Nat} {x : α} {rest out : List α}
      (hk : ls[k]? = some (x :: rest)) (h : Merges (ls.set k rest) out) : Merges ls (x :: out)

theorem flatten_set {ls : List (List α)} {k : Nat} {x : α} {rest : List α}
    (hk : ls[k]? = some (x :: rest)) : (x :: (ls.set k rest).flatten).Perm ls.flatten := by
  induction ls generalizing k with
  | nil => cases hk
  | cons l ls ih =>
    cases k with
    | zero =>
      cases hk
      exact .refl _
    | succ k =>
      rw [List.set_cons_succ, List.flatten_cons, List.flatten_cons]
      exact List.perm_middle.symm.trans ((ih hk).append_left l)

theorem Merges.perm {ls : List (List α)} {out : List α} (h : Merges ls out) :
    out.Perm ls.flatten := by
  induction h with
  | done h =>
    rw [List.flatten_eq_nil_iff.mpr h]
  | step hk _ ih => exact (ih.cons _).trans (flatten_set hk)

/-- Whole parties, one behind the other, are a schedule. -/
theorem exists_merges (ls : List (List α)) : ∃ out, Merges ls out := by
  induction hn : ls.flatten.length generalizing ls with
  | zero => exact ⟨[], .done (List.flatten_eq_nil_iff.mp (List.length_eq_zero_iff.mp hn))⟩
  | succ n ih =>
    obtain ⟨l, hl, hne⟩ : ∃ l ∈ ls, l ≠ [] := by
      by_contra hall
      push Not at hall
      rw [List.flatten_eq_nil_iff.mpr hall] at hn
      cases hn
    obtain ⟨k, hk⟩ := List.getElem?_of_mem hl
    obtain ⟨x, rest, rfl⟩ := List.exists_cons_of_ne_nil hne
    have hlen := (flatten_set hk).length_eq
    rw [List.length_cons, hn] at hlen
    obtain ⟨out, hout⟩ := ih (ls.set k rest) (Nat.succ.inj hlen)
    exact ⟨x :: out, .step hk hout⟩

/-- The cells after some stores. -/
def write (cells : List β) (stores : List (Nat × β)) : List β :=
  stores.foldl (fun cells s => cells.set s.1 s.2) cells

theorem length_write (cells : List β) (stores : List (Nat × β)) :
    (write cells stores).length = cells.length := by
  induction stores generalizing cells with
  | nil => rfl
  | cons s stores ih => exact (ih _).trans List.length_set

/-- A cell that no store names keeps its content. -/
theorem write_frame {cells : List β} {stores : List (Nat × β)} {i : Nat}
    (h : i ∉ stores.map (·.1)) : (write cells stores)[i]? = cells[i]? := by
  induction stores generalizing cells with
  | nil => rfl
  | cons s stores ih =>
    rw [List.map_cons, List.mem_cons, not_or] at h
    exact (ih h.2).trans (List.getElem?_set_ne (Ne.symm h.1))

/-- A cell that one store names has what it stores. -/
theorem write_store {cells : List β} {stores : List (Nat × β)} {i : Nat} {v : β}
    (hnodup : (stores.map (·.1)).Nodup) (hi : i < cells.length) (h : (i, v) ∈ stores) :
    (write cells stores)[i]? = some v := by
  induction stores generalizing cells with
  | nil => cases h
  | cons s stores ih =>
    obtain ⟨hs, hnodup⟩ := List.nodup_cons.mp hnodup
    rcases List.mem_cons.mp h with rfl | h
    · exact (write_frame hs).trans (List.getElem?_set_self hi)
    · exact ih hnodup (by rwa [List.length_set]) h

end Interleave
