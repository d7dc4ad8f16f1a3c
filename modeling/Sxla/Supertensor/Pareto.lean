import Mathlib.Data.List.Sort
import Sxla.Library.Skyline
import Sxla.Supertensor.Cost

/-!
# The Pareto frontier

Insertion filters by dominance, keeps the least schedule of each cost, and
clips the list to its capacity by a total order. Until the capacity trips
the frontier is the skyline of what was offered, in any order.
-/

namespace Sxla

/-- The word compared from its top bits down. -/
def NodeId.fields (id : NodeId) : List Nat :=
  [id.top, id.unused, id.levelBits, id.generation, id.index]

/-- Every field, in the order the comparison visits them. -/
def PackedOpSched.key (s : PackedOpSched) : List Nat :=
  s.opId.fields ++ [s.tile.t0, s.tile.t1, s.tile.t2] ++ s.fuseTarget.fields ++
    [s.memLevel, s.vecWidth]

def PackedOpSched.cmp (a b : PackedOpSched) : Ordering := compare a.key b.key

/-- Op by op, then by length. -/
def schedLex (a b : List PackedOpSched) : Ordering := List.compareLex PackedOpSched.cmp a b

structure FrontierPoint where
  cost : CostPoint
  sched : List PackedOpSched
deriving DecidableEq, Repr

def totalOrder (a b : FrontierPoint) : Ordering :=
  (compare a.cost.cycles b.cost.cycles).then
    ((compare a.cost.hbmBytes b.cost.hbmBytes).then (schedLex a.sched b.sched))

structure ParetoFrontier where
  points : List FrontierPoint
  cap : Nat
  evicted : Bool
deriving DecidableEq, Repr

namespace ParetoFrontier

def new : ParetoFrontier := ⟨[], 64, false⟩

/-- The existing point makes the offered one superfluous. -/
def rejects (existing point : FrontierPoint) : Bool :=
  dominates existing.cost point.cost ||
    existing.cost = point.cost && schedLex existing.sched point.sched != .gt

/-- The offered point replaces the existing one. -/
def replaces (point p : FrontierPoint) : Bool :=
  dominates point.cost p.cost || p.cost = point.cost && schedLex p.sched point.sched == .gt

def insert (f : ParetoFrontier) (point : FrontierPoint) : ParetoFrontier :=
  if f.points.any (rejects · point) then f
  else
    let points := f.points.filter (!replaces point ·) ++ [point]
    if points.length > f.cap then
      { f with
        points := (points.mergeSort fun a b => totalOrder a b != .gt).take f.cap
        evicted := true }
    else
      { f with points }

/-- `min_by` keeps the first of equal points. -/
def best (f : ParetoFrontier) : Option FrontierPoint :=
  match f.points with
  | [] => none
  | p :: ps => some (ps.foldl (fun b q => if totalOrder b q = .gt then q else b) p)

def topK (f : ParetoFrontier) (k : Nat) : List FrontierPoint :=
  (f.points.mergeSort fun a b => totalOrder a b != .gt).take k

def isEmpty (f : ParetoFrontier) : Bool := f.points.isEmpty

end ParetoFrontier

-- ---------------------------------------------------------------------------
-- The packed anchor
-- ---------------------------------------------------------------------------

def ANCHOR_NONE : Nat := 0xffffffffffffffff

/-- Twenty-one ones. -/
def ANCHOR_SAT : Nat := 0x1fffff

def packAnchor (cost : CostPoint) : Nat :=
  min cost.cycles ANCHOR_SAT <<< 42 ||| min cost.hbmBytes ANCHOR_SAT <<< 21 |||
    min cost.sramUsage ANCHOR_SAT

def unpackAnchor (word : Nat) : CostPoint :=
  if word = ANCHOR_NONE then ⟨Saturating.u64Max, Saturating.u64Max, Saturating.u64Max⟩
  else ⟨word >>> 42 &&& ANCHOR_SAT, word >>> 21 &&& ANCHOR_SAT, word &&& ANCHOR_SAT⟩

/-- No field of the cost is clipped when it is packed. -/
def FitsAnchor (cost : CostPoint) : Prop :=
  cost.cycles ≤ ANCHOR_SAT ∧ cost.hbmBytes ≤ ANCHOR_SAT ∧ cost.sramUsage ≤ ANCHOR_SAT

instance (cost : CostPoint) : Decidable (FitsAnchor cost) := by
  unfold FitsAnchor
  infer_instance

theorem packAnchor_eq (cost : CostPoint) :
    packAnchor cost = min cost.cycles ANCHOR_SAT * 0x40000000000 +
      min cost.hbmBytes ANCHOR_SAT * 0x200000 + min cost.sramUsage ANCHOR_SAT := by
  have hh : min cost.hbmBytes ANCHOR_SAT < 2 ^ 21 := by simp only [ANCHOR_SAT]; omega
  have hs : min cost.sramUsage ANCHOR_SAT < 2 ^ 21 := by simp only [ANCHOR_SAT]; omega
  have hhs : min cost.hbmBytes ANCHOR_SAT <<< 21 + min cost.sramUsage ANCHOR_SAT < 2 ^ 42 := by
    rw [Nat.shiftLeft_eq]
    omega
  rw [packAnchor, Nat.or_assoc, ← Nat.shiftLeft_add_eq_or_of_lt hs,
    ← Nat.shiftLeft_add_eq_or_of_lt hhs, Nat.shiftLeft_eq, Nat.shiftLeft_eq]
  omega

theorem packAnchor_ne_none (cost : CostPoint) : packAnchor cost ≠ ANCHOR_NONE := by
  rw [packAnchor_eq]
  simp only [ANCHOR_NONE, ANCHOR_SAT]
  omega

/-- Packing loses nothing but what it clips. -/
theorem unpack_packAnchor (cost : CostPoint) : unpackAnchor (packAnchor cost) =
    ⟨min cost.cycles ANCHOR_SAT, min cost.hbmBytes ANCHOR_SAT, min cost.sramUsage ANCHOR_SAT⟩ := by
  rw [unpackAnchor, if_neg (packAnchor_ne_none cost), packAnchor_eq,
    show ANCHOR_SAT = 2 ^ 21 - 1 from rfl]
  simp only [Nat.shiftRight_eq_div_pow, Nat.and_two_pow_sub_one_eq_mod, CostPoint.mk.injEq]
  omega

theorem unpack_packAnchor_of_fits {cost : CostPoint} (h : FitsAnchor cost) :
    unpackAnchor (packAnchor cost) = cost := by
  obtain ⟨hc, hh, hs⟩ := h
  simp [unpack_packAnchor, hc, hh, hs]

-- ---------------------------------------------------------------------------
-- The orders
-- ---------------------------------------------------------------------------

theorem PackedOpSched.eq_of_key {a b : PackedOpSched} (h : a.key = b.key) : a = b := by
  obtain ⟨⟨_, _, _, _, _⟩, ⟨_, _, _⟩, ⟨_, _, _, _, _⟩, _, _⟩ := a
  obtain ⟨⟨_, _, _, _, _⟩, ⟨_, _, _⟩, ⟨_, _, _, _, _⟩, _, _⟩ := b
  simp only [PackedOpSched.key, NodeId.fields, List.cons_append, List.nil_append,
    List.cons.injEq, and_true] at h
  simp [h]

instance : Std.TransCmp PackedOpSched.cmp :=
  inferInstanceAs (Std.TransCmp (compareOn PackedOpSched.key))

instance : Std.LawfulEqCmp PackedOpSched.cmp where
  compare_self := Std.ReflOrd.compare_self (α := List Nat)
  eq_of_compare h := PackedOpSched.eq_of_key (Std.LawfulEqOrd.eq_of_compare h)

instance : Std.TransCmp schedLex :=
  inferInstanceAs (Std.TransCmp (List.compareLex PackedOpSched.cmp))

instance : Std.LawfulEqCmp schedLex :=
  inferInstanceAs (Std.LawfulEqCmp (List.compareLex PackedOpSched.cmp))

instance : Std.TransCmp fun a b : FrontierPoint => schedLex a.sched b.sched where
  eq_swap := Std.OrientedCmp.eq_swap
  isLE_trans := Std.TransCmp.isLE_trans

instance : Std.TransCmp totalOrder :=
  inferInstanceAs (Std.TransCmp (compareLex (compareOn (·.cost.cycles))
    (compareLex (compareOn (·.cost.hbmBytes))
      fun a b : FrontierPoint => schedLex a.sched b.sched)))

namespace ParetoFrontier

/-- Better on cost, or the lesser schedule at the same cost. -/
def Before (p q : FrontierPoint) : Prop :=
  dominates p.cost q.cost = true ∨ p.cost = q.cost ∧ schedLex p.sched q.sched = .lt

instance : DecidableRel Before := fun p q => by
  unfold Before
  infer_instance

instance : IsStrictOrder FrontierPoint Before where
  irrefl p := by
    have hp : schedLex p.sched p.sched = .eq := Std.ReflCmp.compare_self
    simp [Before, dominates_irrefl, hp]
  trans p q r := by
    rintro (hpq | ⟨hc, hl⟩) (hqr | ⟨hc', hl'⟩)
    · exact .inl (dominates_trans hpq hqr)
    · exact .inl (hc' ▸ hpq)
    · exact .inl (hc ▸ hqr)
    · exact .inr ⟨hc.trans hc', Std.TransCmp.lt_trans hl hl'⟩

variable {f : ParetoFrontier} {p q : FrontierPoint} {S : Set FrontierPoint}

theorem rejects_iff : rejects p q = true ↔ Before p q ∨ p = q := by
  obtain ⟨pc, ps⟩ := p
  obtain ⟨qc, qs⟩ := q
  have heq : schedLex ps qs = .eq ↔ ps = qs := Std.LawfulEqCmp.compare_eq_iff_eq
  cases h : schedLex ps qs <;> simp [rejects, Before, h, ← heq]

theorem replaces_iff : replaces p q = true ↔ Before p q := by
  simp only [replaces, Before, Bool.or_eq_true, Bool.and_eq_true, decide_eq_true_eq, beq_iff_eq,
    Std.OrientedCmp.gt_iff_lt, eq_comm (a := p.cost)]

@[simp] theorem insert_cap : (f.insert q).cap = f.cap := by
  unfold insert
  simp only
  split
  · rfl
  · split <;> rfl

theorem insert_evicted (h : f.evicted = true) : (f.insert q).evicted = true := by
  unfold insert
  simp only
  split
  · exact h
  · split
    · rfl
    · exact h

/-- Until the capacity trips, insertion keeps the skyline of the offers. -/
theorem insert_isSkyline (h : Skyline.IsSkyline Before S f.points)
    (hfree : (f.insert q).evicted = false) :
    Skyline.IsSkyline Before (Insert.insert q S) (f.insert q).points := by
  unfold ParetoFrontier.insert at hfree ⊢
  simp only at hfree ⊢
  split at hfree
  · next hrej =>
    rw [if_pos hrej]
    simp only [List.any_eq_true, rejects_iff] at hrej
    exact h.insert_covered hrej
  · next hrej =>
    rw [if_neg hrej]
    split at hfree
    · cases hfree
    · next hcap =>
      rw [if_neg hcap]
      simp only [List.any_eq_true, rejects_iff, not_exists, not_and, not_or] at hrej
      have hfilter : f.points.filter (!replaces q ·) = f.points.filter (fun p => ¬ Before q p) := by
        refine List.filter_congr fun p _ => ?_
        simp [← replaces_iff]
      simp only [hfilter]
      exact h.insert_new hrej

/-- Insertion never makes a point up. -/
theorem mem_insert (h : p ∈ (f.insert q).points) : p ∈ f.points ∨ p = q := by
  unfold ParetoFrontier.insert at h
  simp only at h
  split at h
  · exact .inl h
  · have hmem : p ∈ f.points.filter (!replaces q ·) ++ [q] := by
      split at h
      · exact List.mem_mergeSort.mp (List.mem_of_mem_take h)
      · exact h
    simp only [List.mem_append, List.mem_filter, List.mem_singleton] at hmem
    exact hmem.imp_left (·.1)

theorem best_mem (h : f.best = some p) : p ∈ f.points := by
  unfold best at h
  split at h
  · cases h
  · next r rs hr =>
    cases h
    have hfold : ∀ (l : List FrontierPoint) (b : FrontierPoint),
        l.foldl (fun b q => if totalOrder b q = .gt then q else b) b ∈ b :: l := by
      intro l
      induction l with
      | nil => simp
      | cons x l ih =>
        intro b
        rcases List.mem_cons.mp (ih (if totalOrder b x = .gt then x else b)) with hb | hl
        · simp only [List.foldl_cons, hb]
          split <;> simp
        · exact List.mem_cons_of_mem _ (List.mem_cons_of_mem _ hl)
    rw [hr]
    exact hfold rs r

theorem totalOrder_trans {r : FrontierPoint} (hpq : totalOrder p q != .gt)
    (hqr : totalOrder q r != .gt) : totalOrder p r != .gt := by
  simp only [bne_iff_ne, ne_eq, ← Ordering.isLE_iff_ne_gt] at *
  exact Std.TransCmp.isLE_trans hpq hqr

theorem totalOrder_total (p q : FrontierPoint) :
    totalOrder p q != .gt || totalOrder q p != .gt := by
  cases h : totalOrder p q <;>
    simp [@Std.OrientedCmp.eq_swap _ totalOrder _ q p, h]

theorem sorted_points (points : List FrontierPoint) :
    (points.mergeSort fun a b => totalOrder a b != .gt).Pairwise fun a b =>
      totalOrder a b != .gt :=
  @List.pairwise_mergeSort _ (fun a b => totalOrder a b != .gt)
    (fun _ _ _ => totalOrder_trans) totalOrder_total points

/-- The best points depend on the set of points only, where the schedule
determines the cost. -/
theorem topK_congr {g : ParetoFrontier} (hp : f.points.Perm g.points)
    (hdet : ∀ x ∈ f.points, ∀ y ∈ f.points, x.sched = y.sched → x = y) (k : Nat) :
    f.topK k = g.topK k := by
  have hsort : f.points.mergeSort (fun a b => totalOrder a b != .gt) =
      g.points.mergeSort (fun a b => totalOrder a b != .gt) := by
    refine List.Perm.eq_of_pairwise ?_ (sorted_points _)
      (sorted_points _)
      ((List.mergeSort_perm _ _).trans (hp.trans (List.mergeSort_perm _ _).symm))
    intro a b ha hb hab hba
    refine hdet a (List.mem_mergeSort.mp ha) b (hp.mem_iff.mpr (List.mem_mergeSort.mp hb)) ?_
    simp only [bne_iff_ne, ne_eq, ← Ordering.isLE_iff_ne_gt] at hab hba
    have heq := Std.OrientedCmp.isLE_antisymm hab hba
    simp only [totalOrder, Ordering.then_eq_eq] at heq
    exact Std.LawfulEqCmp.eq_of_compare heq.2.2
  rw [topK, topK, hsort]

end ParetoFrontier

end Sxla
