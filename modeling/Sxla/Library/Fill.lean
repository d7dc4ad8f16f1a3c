import Sxla.Library.Ends
import Sxla.Library.RowMajor

/-!
# Loops that fill an array

A nest of counting loops, one for each axis and the last axis innermost, with
one write in the middle. Such a nest under a fixed outer place `q` writes the
`q`-th block of the array and nothing else; `ends_fills` adds one loop.
-/

namespace RowMajor

open Checked

variable {α ε : Type} {E : ε → Prop} {q m p place : Nat} {dims idx : List Nat}
  {F : List Nat → α} {out out' : List α}

/-- Block `q` holds `F`, and all else is as it was. -/
structure Fills (q : Nat) (dims : List Nat) (F : List Nat → α) (out out' : List α) : Prop where
  length_eq : out'.length = out.length
  entry : ∀ idx, InBounds dims idx → out'[q * dims.prod + offset dims idx]? = some (F idx)
  frame : ∀ p, p < q * dims.prod ∨ (q + 1) * dims.prod ≤ p → out'[p]? = out[p]?

/-- Block `q` of extents `m :: dims` is made of the blocks `q * m + i`. -/
theorem block_le {i : Nat} (hi : i < m) (w : Nat) :
    q * (m * w) ≤ (q * m + i) * w ∧ (q * m + i + 1) * w ≤ (q + 1) * (m * w) := by
  constructor
  · rw [← Nat.mul_assoc]
    exact Nat.mul_le_mul_right _ (Nat.le_add_right _ _)
  · rw [← Nat.mul_assoc, Nat.succ_mul q m]
    exact Nat.mul_le_mul_right _ (Nat.add_le_add_left hi _)

/-- The write in the middle. -/
theorem fills_set (h : q < out.length) (x : α) : Fills q [] (fun _ => x) out (out.set q x) where
  length_eq := List.length_set
  entry := by
    rintro idx ⟨⟩
    simp [offset, h]
  frame := by
    intro p hp
    refine List.getElem?_set_ne ?_
    simp only [List.prod_nil] at hp
    omega

/-- One more loop. -/
theorem ends_fills {body : List α → Nat → Except ε (List α)}
    (hbody : ∀ i < m, ∀ s, s.length = out.length →
      Ends E (Fills (q * m + i) dims (fun idx => F (i :: idx)) s) (body s i)) :
    Ends E (Fills q (m :: dims) F out) ((List.range m).foldlM body out) := by
  have hloop := Ends.range (n := m) (s := out) (E := E) (f := body)
    (I := fun i s => s.length = out.length ∧
      (∀ i' < i, ∀ idx, InBounds dims idx →
        s[(q * m + i') * dims.prod + offset dims idx]? = some (F (i' :: idx))) ∧
      ∀ p, p < q * (m * dims.prod) ∨ (q + 1) * (m * dims.prod) ≤ p → s[p]? = out[p]?)
    ?_ ⟨rfl, fun _ hi => absurd hi (Nat.not_lt_zero _), fun _ _ => rfl⟩
  · refine hloop.weaken fun out' hout' => ?_
    obtain ⟨hlen, hentry, hframe⟩ := hout'
    refine ⟨hlen, ?_, by simpa only [List.prod_cons] using hframe⟩
    rintro _ (_ | ⟨hi, hidx⟩)
    rename_i i idx
    rw [List.prod_cons, offset, ← hentry i hi idx hidx]
    ring_nf
  · rintro i hi s ⟨hlen, hentry, hframe⟩
    refine (hbody i hi s hlen).weaken fun s' hs' => ?_
    obtain ⟨hlo, hhi⟩ := block_le (q := q) hi dims.prod
    refine ⟨hs'.length_eq.trans hlen, fun i' hi' idx hidx => ?_, fun p hp => ?_⟩
    · rcases Nat.lt_succ_iff_lt_or_eq.mp hi' with hi' | rfl
      · have hoff : (q * m + i') * dims.prod + offset dims idx < (q * m + i) * dims.prod :=
          flat_lt (Nat.add_lt_add_left hi' _) (offset_lt hidx)
        rw [hs'.frame _ (.inl hoff), hentry i' hi' idx hidx]
      · exact hs'.entry idx hidx
    · rw [hs'.frame p (hp.imp (fun h => h.trans_le hlo) hhi.trans), hframe p hp]

end RowMajor
