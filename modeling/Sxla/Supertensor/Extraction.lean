import Sxla.Supertensor.Wpa

/-!
# What extraction guarantees

The facts about an extracted polytope that the search and the gate rely on,
and that truncation keeps.
-/

namespace Sxla

namespace SchedulePolytope

open Wpa

/-- The constraints name ops of the polytope only. -/
structure NamesOps (poly : SchedulePolytope) : Prop where
  divs : ∀ d ∈ poly.divisibilityConstraints, d.opIndex < poly.opCount
  rows : ∀ row ∈ poly.globalConstraints.rows, ∀ e ∈ row.entries, e.1 < poly.opCount

structure Extracted (a : IrArena) (poly : SchedulePolytope) : Prop where
  hw : poly.hw = .reference
  flops_length : poly.opFlops.length = poly.opCount
  minHbm_length : poly.opMinHbm.length = poly.opCount
  bounds : ∀ b ∈ poly.opBounds, ∃ info ∈ collectTensorOps a, b = emitOpBounds a .reference info
  minHbm : ∀ i b, poly.opBounds[i]? = some b →
    poly.minHbm i = 0 ∨ poly.minHbm i = poly.outBytes i ∧ b.memMin = .hbm
  divs : ∀ d ∈ poly.divisibilityConstraints, d.opIndex < poly.opCount
  rows : ∀ row ∈ poly.globalConstraints.rows, ∀ e ∈ row.entries, e.1 < poly.opCount

variable {a : IrArena} {poly : SchedulePolytope}

theorem Extracted.namesOps (h : poly.Extracted a) : poly.NamesOps := ⟨h.divs, h.rows⟩

theorem memMin_of_memMax {hw : HardwareModel} {info : TensorOpInfo}
    (h : (emitOpBounds a hw info).memMax = .hbm) : (emitOpBounds a hw info).memMin = .hbm := by
  unfold emitOpBounds at h ⊢
  simp only at h ⊢
  split at h
  · cases h
  · next hc => rw [if_neg hc]

theorem extractPolytope_extracted (a : IrArena) : (extractPolytope a .reference).Extracted a where
  hw := rfl
  flops_length := by simp [extractPolytope, opCount]
  minHbm_length := by simp [extractPolytope, opCount]
  bounds := by
    intro b hb
    obtain ⟨info, hi, rfl⟩ := List.mem_map.mp hb
    exact ⟨info, hi, rfl⟩
  minHbm := by
    intro i b hb
    simp only [extractPolytope, List.getElem?_map, Option.map_eq_some_iff] at hb
    obtain ⟨info, hi, rfl⟩ := hb
    simp only [SchedulePolytope.minHbm, SchedulePolytope.outBytes, extractPolytope,
      List.getD_eq_getElem?_getD, List.getElem?_map, hi, Option.map_some, Option.getD_some,
      minHbmOf]
    split
    · next h => exact .inr ⟨rfl, memMin_of_memMax h.2⟩
    · exact .inl rfl
  divs := by
    intro d hd
    simp only [extractPolytope, divisibility, List.mem_flatMap, List.mem_map, Prod.exists] at hd
    obtain ⟨info, i, hi, dim, axis, _, rfl⟩ := hd
    have hlt := (List.getElem?_eq_some_iff.mp (List.mem_zipIdx_iff_getElem?.mp hi)).1
    simpa [extractPolytope, opCount] using (Nat.mod_le i 0x10000).trans_lt hlt
  rows := by
    intro row hrow e he
    simp only [extractPolytope, List.mem_map, List.mem_range] at hrow
    obtain ⟨i, hi, rfl⟩ := hrow
    simp only [levelRow, List.mem_singleton] at he
    subst he
    simpa [extractPolytope, opCount] using (Nat.mod_le i 0x10000).trans_lt hi

-- ---------------------------------------------------------------------------
-- Truncation
-- ---------------------------------------------------------------------------

/-- Picking entries by position. -/
theorem select_getElem? {l : List α} {keep : List Nat} (h : ∀ k ∈ keep, k < l.length) (i : Nat) :
    (keep.filterMap (l[·]?))[i]? = keep[i]?.bind (l[·]?) := by
  induction keep generalizing i with
  | nil => simp
  | cons k keep ih =>
    have hk := h k (by simp)
    have ih := ih fun k hk => h k (List.mem_cons_of_mem _ hk)
    cases i <;> simp [List.getElem?_eq_getElem hk, ih]

theorem select_length {l : List α} {keep : List Nat} (h : ∀ k ∈ keep, k < l.length) :
    (keep.filterMap (l[·]?)).length = keep.length := by
  induction keep with
  | nil => rfl
  | cons k keep ih =>
    have hk := h k (by simp)
    have ih := ih fun k hk => h k (List.mem_cons_of_mem _ hk)
    simp [List.getElem?_eq_getElem hk, ih]

theorem select_getD {l : List Nat} {keep : List Nat} (h : ∀ k ∈ keep, k < l.length) {i k : Nat}
    (hk : keep[i]? = some k) : (keep.filterMap (l[·]?)).getD i 0 = l.getD k 0 := by
  simp [List.getD_eq_getElem?_getD, select_getElem? h, hk]

theorem dominantOps_lt : ∀ k ∈ poly.dominantOps, k < poly.opCount := by
  intro k hk
  simp only [dominantOps, List.mem_mergeSort] at hk
  simpa using List.mem_of_mem_take hk

theorem remap_lt {keep : List Nat} {old new : Nat} (h : remap keep old = some new) :
    new < keep.length :=
  (List.idxOf?_eq_some_iff.mp h).1

theorem mem_of_mapM_option {f : α → Option β} {l : List α} {m : List β}
    (h : l.mapM f = some m) : ∀ y ∈ m, ∃ x ∈ l, f x = some y := by
  induction l generalizing m with
  | nil =>
    cases h
    simp
  | cons x l ih =>
    simp only [List.mapM_cons, Option.pure_def, Option.bind_eq_bind, Option.bind_eq_some_iff,
      Option.some.injEq] at h
    obtain ⟨y, hy, ys, hys, rfl⟩ := h
    intro z hz
    rcases List.mem_cons.mp hz with rfl | hz
    · exact ⟨x, by simp, hy⟩
    · obtain ⟨x', hx', hf⟩ := ih hys z hz
      exact ⟨x', List.mem_cons_of_mem _ hx', hf⟩

theorem Extracted.truncate (h : poly.Extracted a) (hout : poly.opOutBytes.length = poly.opCount) :
    (truncatePolytope poly).Extracted a := by
  unfold truncatePolytope
  split
  · exact h
  · have hb : ∀ k ∈ poly.dominantOps, k < poly.opBounds.length := dominantOps_lt
    have hf : ∀ k ∈ poly.dominantOps, k < poly.opFlops.length := by
      simpa [h.flops_length, opCount] using hb
    have hm : ∀ k ∈ poly.dominantOps, k < poly.opMinHbm.length := by
      simpa [h.minHbm_length, opCount] using hb
    have ho : ∀ k ∈ poly.dominantOps, k < poly.opOutBytes.length := by
      simpa [hout, opCount] using hb
    have hcount : (poly.dominantOps.filterMap (poly.opBounds[·]?)).length =
        poly.dominantOps.length := select_length hb
    constructor
    · exact h.hw
    · exact (select_length hf).trans hcount.symm
    · exact (select_length hm).trans hcount.symm
    · intro b hmem
      obtain ⟨k, _, hk⟩ := List.mem_filterMap.mp hmem
      exact h.bounds b (List.mem_of_getElem? hk)
    · intro i b hi
      simp only [select_getElem? hb, Option.bind_eq_some_iff] at hi
      obtain ⟨k, hk, hkb⟩ := hi
      simpa only [SchedulePolytope.minHbm, SchedulePolytope.outBytes, select_getD hm hk,
        select_getD ho hk] using h.minHbm k b hkb
    · intro d hd
      obtain ⟨d', _, hd'⟩ := List.mem_filterMap.mp hd
      obtain ⟨k, hk, rfl⟩ := Option.map_eq_some_iff.mp hd'
      exact (remap_lt hk).trans_eq hcount.symm
    · intro row hrow e he
      obtain ⟨row', _, hrow'⟩ := List.mem_filterMap.mp hrow
      obtain ⟨entries, hentries, rfl⟩ := Option.map_eq_some_iff.mp hrow'
      obtain ⟨e', _, he'⟩ := mem_of_mapM_option hentries e he
      obtain ⟨k, hk, rfl⟩ := Option.map_eq_some_iff.mp he'
      exact (remap_lt hk).trans_eq hcount.symm

end SchedulePolytope

/-- The search of an arena's truncated polytope. -/
def searchOf (a : IrArena) (workers : Nat) (enablePrune : Bool) : SearchConfig :=
  ⟨truncatePolytope (extractPolytope a .reference), workers, enablePrune⟩

theorem searchOf_extracted (a : IrArena) (workers : Nat) (enablePrune : Bool) :
    (searchOf a workers enablePrune).poly.Extracted a :=
  (SchedulePolytope.extractPolytope_extracted a).truncate (by simp [extractPolytope,
    SchedulePolytope.opCount])

end Sxla
