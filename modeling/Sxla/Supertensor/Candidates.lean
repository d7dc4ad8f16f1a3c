import Sxla.Supertensor.Extraction

/-!
# Candidates and their bounds

The schedules the enumeration can reach, and the bound of a prefix: no
completion costs less on any axis.
-/

namespace Sxla

open SchedulePolytope

/-- Drawn from the domains op by op, with every prefix accepted. -/
structure Feasible (poly : SchedulePolytope) (ops : List PackedOpSched) : Prop where
  drawn : ∀ i s, ops[i]? = some s → s ∈ opDomain poly i
  checked : ∀ d, 0 < d → d ≤ ops.length → feasiblePrefix poly (ops.take d) d = true

/-- A schedule of every op. -/
structure Candidate (poly : SchedulePolytope) (ops : List PackedOpSched) : Prop extends
  Feasible poly ops where
  length : ops.length = poly.opCount

/-- One schedule for each op, placed between the op's levels. -/
structure Placed (poly : SchedulePolytope) (ops : List PackedOpSched) : Prop where
  length : ops.length = poly.opCount
  inRange : ∀ (i : Nat) (s : PackedOpSched) (b : OpBounds), ops[i]? = some s →
    poly.opBounds[i]? = some b → s.mem.any b.memInRange = true

def pointOf (poly : SchedulePolytope) (ops : List PackedOpSched) : FrontierPoint :=
  ⟨evaluate ops poly, ops⟩

variable {poly : SchedulePolytope} {a : IrArena} {ops full : List PackedOpSched}
  {s : PackedOpSched} {b : OpBounds}

theorem mem_opDomain {i : Nat} : s ∈ opDomain poly i ↔
    ∃ b, poly.opBounds[i]? = some b ∧ s ∈ b.domain := by
  unfold opDomain
  split
  · next h => simp [h]
  · next b h => simp [h]

theorem mem_domain : s ∈ b.domain ↔
    ∃ mem ∈ b.mems, ∃ tile ∈ b.tiles, ∃ fuse ∈ b.fuses, ∃ vw ∈ b.widths,
      s = ⟨b.opId, tile, fuse, mem.code, vw⟩ := by
  simp [OpBounds.domain, eq_comm]

theorem Candidate.placed (h : Candidate poly ops) : Placed poly ops where
  length := h.length
  inRange i s b hs hb := by
    obtain ⟨b', hb', hs⟩ := mem_opDomain.mp (h.drawn i s hs)
    rw [hb] at hb'
    cases hb'
    obtain ⟨mem, hmem, tile, _, fuse, _, vw, _, rfl⟩ := mem_domain.mp hs
    simpa [PackedOpSched.mem] using (List.mem_filter.mp hmem).2

theorem Feasible.take (h : Feasible poly ops) (d : Nat) : Feasible poly (ops.take d) where
  drawn i s hs := by
    rw [List.getElem?_take] at hs
    split at hs
    · exact h.drawn i s hs
    · cases hs
  checked e he hle := by
    rw [List.length_take] at hle
    rw [List.take_take, Nat.min_eq_left (hle.trans (Nat.min_le_left ..))]
    exact h.checked e he (hle.trans (Nat.min_le_right ..))

/-- A feasible prefix grows by one drawn and checked op. -/
theorem Feasible.append (h : Feasible poly ops) (hs : s ∈ opDomain poly ops.length)
    (hc : feasiblePrefix poly (ops ++ [s]) (ops.length + 1) = true) :
    Feasible poly (ops ++ [s]) where
  drawn i t ht := by
    rw [List.getElem?_append] at ht
    split at ht
    · exact h.drawn i t ht
    · next hi =>
      obtain ⟨hlt, ht⟩ := List.getElem?_eq_some_iff.mp ht
      have hzero : i - ops.length = 0 := by simpa using hlt
      have hlen : i = ops.length := by omega
      subst hlen
      simpa [← ht] using hs
  checked d hd hle := by
    rw [List.length_append, List.length_singleton] at hle
    rcases Nat.lt_or_eq_of_le hle with hlt | rfl
    · rw [List.take_append_of_le_length (Nat.le_of_lt_succ hlt)]
      exact h.checked d hd (Nat.le_of_lt_succ hlt)
    · rwa [List.take_of_length_le (by simp)]

-- ---------------------------------------------------------------------------
-- Lower bounds
-- ---------------------------------------------------------------------------

theorem sum_le_sum {l m : List Nat}
    (h : ∀ (i x : Nat), l[i]? = some x → ∃ y, m[i]? = some y ∧ x ≤ y) : l.sum ≤ m.sum := by
  induction l generalizing m with
  | nil => simp
  | cons x l ih =>
    obtain ⟨y, hy, hxy⟩ := h 0 x rfl
    cases m with
    | nil => cases hy
    | cons z m =>
      cases hy
      have ih := ih fun i x hx => h (i + 1) x hx
      simp only [List.sum_cons]
      omega

@[simp] theorem overOps_getElem? {f : PackedOpSched → Nat → Nat} {i : Nat} :
    (overOps ops f)[i]? = ops[i]?.map (f · i) := by
  simp only [overOps, List.getElem?_map, List.getElem?_zipIdx, Nat.zero_add, Option.map_map]
  rfl

@[simp] theorem overOps_length {f : PackedOpSched → Nat → Nat} :
    (overOps ops f).length = ops.length := by
  simp [overOps]

theorem ceilDiv_anti {n d e : Nat} (he : 0 < e) (hed : e ≤ d) : ceilDiv n d ≤ ceilDiv n e := by
  have hceil : ∀ c k, 0 < c → ((n + c - 1) / c ≤ k ↔ n ≤ k * c) := by
    intro c k hc
    rw [Nat.div_le_iff_le_mul_add_pred hc, Nat.mul_comm c k]
    omega
  have hd : 0 < d := he.trans_le hed
  simp only [ceilDiv, hd.ne', he.ne', ↓reduceIte]
  rw [hceil d _ hd]
  have hself := (hceil e ((n + e - 1) / e) he).mp le_rfl
  exact hself.trans (Nat.mul_le_mul_left _ hed)

/-- No placement and width beats the register peak. -/
theorem peakFlops_le (mem : MemLevel) (width : Nat) :
    peakFlops .reference mem width ≤ 32 := by
  cases mem <;> simp only [peakFlops, HardwareModel.reference, Saturating.mul] <;> omega

theorem constCyclesLb_le (hx : poly.Extracted a) (hc : Placed poly full) :
    poly.constCyclesLb ≤ (evaluate full poly).cycles := by
  refine le_trans ?_ (le_max_left _ _)
  refine Saturating.sum_le_of_le (sum_le_sum fun i x hi => ?_)
  simp only [List.getElem?_map, Option.map_eq_some_iff] at hi
  obtain ⟨flops, hflops, rfl⟩ := hi
  have hlt : i < full.length := by
    rw [hc.length, ← hx.flops_length]
    exact (List.getElem?_eq_some_iff.mp hflops).1
  refine ⟨poly.computeTerm full[i] i, by simp [List.getElem?_eq_getElem hlt], ?_⟩
  have hpeak := peakFlops_le (placement full[i]) full[i].vecWidth
  simp only [computeTerm, SchedulePolytope.flops, List.getD_eq_getElem?_getD, hflops,
    Option.getD_some, hx.hw, HardwareModel.reference] at hpeak ⊢
  exact ceilDiv_anti (by omega) (by omega)

theorem hbmOut_le_evaluate :
    Saturating.sum (overOps full poly.hbmOut) ≤ (evaluate full poly).hbmBytes := by
  simp only [evaluate, Saturating.foldl_foldl]
  exact Saturating.sum_le_of_le (by simp)

theorem hbmLowerOut_le {i : Nat} : poly.hbmLowerOut s i ≤ poly.hbmOut s i := by
  unfold hbmLowerOut hbmOut placement
  split <;> simp [*]

/-- An op whose output is forced off chip is placed there. -/
theorem minHbm_le {i : Nat} (hx : poly.Extracted a) (hc : Placed poly full)
    (hs : full[i]? = some s) : poly.minHbm i ≤ poly.hbmOut s i := by
  have hlt : i < poly.opBounds.length := by
    rw [show poly.opBounds.length = full.length from hc.length.symm]
    exact (List.getElem?_eq_some_iff.mp hs).1
  obtain ⟨b, hb⟩ : ∃ b, poly.opBounds[i]? = some b := ⟨_, List.getElem?_eq_getElem hlt⟩
  rcases hx.minHbm i b hb with hzero | ⟨hout, hmin⟩
  · omega
  · obtain ⟨mem, hmem, hrange⟩ := (Option.any_eq_true _ _).mp (hc.inRange i s b hs hb)
    have hhbm : mem = .hbm := by
      cases mem <;> simp_all [OpBounds.memInRange, MemLevel.code]
    simp [hbmOut, placement, hmem, hhbm, hout]

/-- The prefix's traffic and what the remaining ops must add. -/
theorem hbmLower_le {d : Nat} (hx : poly.Extracted a) (hc : Placed poly full)
    (hd : d ≤ poly.opCount) :
    (overOps (full.take d) poly.hbmLowerOut ++ (poly.opMinHbm.take poly.opCount).drop d).sum ≤
      (overOps full poly.hbmOut).sum := by
  refine sum_le_sum fun i x hi => ?_
  have hlen : (overOps (full.take d) poly.hbmLowerOut).length = d := by
    simp [hc.length, hd]
  rw [List.getElem?_append, hlen] at hi
  split at hi
  · next hid =>
    simp only [overOps_getElem?, List.getElem?_take, hid, ↓reduceIte, Option.map_eq_some_iff] at hi
    obtain ⟨s, hs, rfl⟩ := hi
    exact ⟨poly.hbmOut s i, by simp [hs], hbmLowerOut_le⟩
  · next hid =>
    rw [List.getElem?_drop, Nat.add_sub_cancel' (Nat.le_of_not_lt hid), List.getElem?_take] at hi
    split at hi
    · next hin =>
      rw [← hc.length] at hin
      refine ⟨poly.hbmOut full[i] i, by simp [List.getElem?_eq_getElem hin], ?_⟩
      have hmin := minHbm_le hx hc (List.getElem?_eq_getElem hin)
      simpa [minHbm, List.getD_eq_getElem?_getD, hi] using hmin
    · cases hi

theorem sramLower_le {d : Nat} :
    Saturating.sum (overOps (full.take d) poly.sramLowerOut) ≤ (evaluate full poly).sramUsage := by
  refine Saturating.sum_le_of_le (sum_le_sum fun i x hi => ?_)
  simp only [overOps_getElem?, List.getElem?_take] at hi
  split at hi
  · obtain ⟨s, hs, rfl⟩ := Option.map_eq_some_iff.mp hi
    refine ⟨poly.sramOut s i, by simp [hs], ?_⟩
    unfold sramLowerOut sramOut placement
    split <;> simp_all
  · cases hi

/-- No completion of a prefix costs less than the prefix's bound. -/
theorem prefixBound_le {d : Nat} (hx : poly.Extracted a) (hc : Placed poly full)
    (hd : d ≤ poly.opCount) :
    (poly.prefixBound (full.take d) d).cycles ≤ (evaluate full poly).cycles ∧
      (poly.prefixBound (full.take d) d).hbmBytes ≤ (evaluate full poly).hbmBytes ∧
      (poly.prefixBound (full.take d) d).sramUsage ≤ (evaluate full poly).sramUsage := by
  refine ⟨constCyclesLb_le hx hc, le_trans ?_ hbmOut_le_evaluate, ?_⟩
  · have hsum := hbmLower_le hx hc hd
    simp only [List.sum_append] at hsum
    simp only [prefixBound, remainingMin, Saturating.sum_eq, Saturating.add, List.take_take,
      Nat.min_self]
    have hmod := Nat.mod_le ((poly.opMinHbm.take poly.opCount).drop d).sum 0x10000000000000000
    omega
  · simpa only [prefixBound, List.take_take, Nat.min_self] using sramLower_le

/-- A point that dominates a prefix's bound dominates every completion. -/
theorem dominates_of_prefixBound {d : Nat} {c : CostPoint} (hx : poly.Extracted a)
    (hc : Candidate poly full) (hd : d ≤ poly.opCount)
    (h : dominates c (poly.prefixBound (full.take d) d) = true) :
    dominates c (evaluate full poly) = true := by
  obtain ⟨hcycles, hhbm, hsram⟩ := prefixBound_le hx hc.placed hd
  simp only [dominates_iff] at h ⊢
  omega

end Sxla
