import Mathlib
import Sxla.Runtime.Safety

/-!
# Tiling

Tile edges start at a cache line's reach, and the largest is halved until the
tile fits the budget. The loop stops at the latest when all edges are one, and
it only halves those that the shape has dims for: a budget below one element
is never met, and is given up on at the full rank alone.
-/

namespace Sxla

open Shape (saturatingMul)

def TILE_CACHE_LINE : Nat := 64

inductive TileError where
  | rankTooLarge
deriving DecidableEq, Repr

/-- `edges` has an entry for each of `MAX_RANK` axes. -/
structure TilePlan where
  edges : List Nat
  rank : Nat
deriving DecidableEq, Repr

namespace Tile

def tileElems (shape : Shape) (edges : List Nat) : Nat :=
  (edges.zipIdx.take shape.rank).foldl
    (fun n e => saturatingMul n (min e.1 ((shape.dim e.2).getD 1))) 1

def tileBytes (shape : Shape) (edges : List Nat) : Nat := saturatingMul (tileElems shape edges) 8

def larger (edges : List Nat) (largest a : Nat) : Nat :=
  if edges.getD a 0 > edges.getD largest 0 then a else largest

/-- The first of the largest edges. -/
def largest (rank : Nat) (edges : List Nat) : Nat :=
  (List.range' 1 (rank - 1)).foldl (larger edges) 0

/-- The next edges; none where the loop breaks. -/
def step (shape : Shape) (budgetBytes : UInt32) (edges : List Nat) : Option (List Nat) :=
  if tileBytes shape edges ≤ budgetBytes.toNat ∨ edges = List.replicate MAX_RANK 1 then none
  else
    let l := largest shape.rank edges
    some (edges.set l (max (edges.getD l 0 / 2) 1))

/-- The loop, for so many rounds at most. -/
def loop (shape : Shape) (budgetBytes : UInt32) : Nat → List Nat → Option (List Nat)
  | 0, _ => none
  | fuel + 1, edges =>
    match step shape budgetBytes edges with
    | none => some edges
    | some edges => loop shape budgetBytes fuel edges

end Tile

/-- What `tile_shapes` returns within so many rounds of its loop. -/
def tileShapes (shape : Shape) (budgetBytes : UInt32) (fuel : Nat) :
    Option (Except TileError TilePlan) :=
  (Tile.loop shape budgetBytes fuel (List.replicate MAX_RANK TILE_CACHE_LINE)).map fun edges =>
    .ok ⟨edges, shape.rank⟩

namespace Tile

variable {shape : Shape} {budgetBytes : UInt32} {edges edges' : List Nat} {fuel rank a : Nat}

-- ---------------------------------------------------------------------------
-- The edges
-- ---------------------------------------------------------------------------

/-- As many edges as there are axes, each a power of two up to 64. -/
structure Ok (edges : List Nat) : Prop where
  length : edges.length = MAX_RANK
  pow : ∀ e ∈ edges, ∃ k ≤ 6, e = 2 ^ k

/-- The elements of a tile, counted exactly. -/
def size (shape : Shape) (edges : List Nat) : Nat :=
  ((edges.zip shape.dims).map fun e => min e.1 e.2).prod

theorem ok_start : Ok (List.replicate MAX_RANK TILE_CACHE_LINE) := by
  refine ⟨List.length_replicate, fun e he => ?_⟩
  rw [List.eq_of_mem_replicate he]
  exact ⟨6, by decide, rfl⟩

namespace Ok

theorem one_le (h : Ok edges) {e : Nat} (he : e ∈ edges) : 1 ≤ e := by
  obtain ⟨k, -, rfl⟩ := h.pow e he
  exact Nat.one_le_two_pow

theorem le_line (h : Ok edges) {e : Nat} (he : e ∈ edges) : e ≤ TILE_CACHE_LINE := by
  obtain ⟨k, hk, rfl⟩ := h.pow e he
  exact Nat.pow_le_pow_right Nat.two_pos hk

theorem getD_mem (h : Ok edges) (ha : a < MAX_RANK) : edges.getD a 0 ∈ edges := by
  have hlt : a < edges.length := h.length ▸ ha
  rw [List.getD_eq_getElem?_getD, List.getElem?_eq_getElem hlt]
  exact List.getElem_mem hlt

/-- Half of an edge, where it is more than one. -/
theorem halve (h : Ok edges) (ha : a < MAX_RANK) : Ok (edges.set a (max (edges.getD a 0 / 2) 1)) := by
  refine ⟨List.length_set.trans h.length, fun e he => ?_⟩
  rcases List.mem_or_eq_of_mem_set he with he | rfl
  · exact h.pow e he
  · obtain ⟨k, hk, hpow⟩ := h.pow _ (h.getD_mem ha)
    rw [hpow]
    cases k with
    | zero => exact ⟨0, by decide, rfl⟩
    | succ k =>
      refine ⟨k, Nat.le_of_succ_le hk, ?_⟩
      rw [Nat.pow_succ, Nat.mul_div_cancel _ Nat.two_pos]
      exact Nat.max_eq_left Nat.one_le_two_pow

end Ok

theorem sides_bounds (h : Ok edges) :
    ∀ x ∈ (edges.zip shape.dims).map (fun e => min e.1 e.2), 0 < x ∧ x ≤ TILE_CACHE_LINE := by
  intro x hx
  obtain ⟨⟨e, d⟩, hed, rfl⟩ := List.mem_map.mp hx
  obtain ⟨he, hd⟩ := List.of_mem_zip hed
  exact ⟨Nat.lt_min.mpr ⟨h.one_le he, shape.dims_pos d hd⟩, (Nat.min_le_left ..).trans (h.le_line he)⟩

theorem size_pos (h : Ok edges) : 0 < size shape edges :=
  List.prod_pos fun x hx => (sides_bounds h x hx).1

/-- No tile comes near the limit of `i64`. -/
theorem size_le (h : Ok edges) : size shape edges ≤ 16777216 := by
  have hlen : ((edges.zip shape.dims).map fun e => min e.1 e.2).length ≤ 4 := by
    rw [List.length_map, List.length_zip, h.length]
    exact Nat.min_le_left ..
  calc size shape edges ≤ 64 ^ ((edges.zip shape.dims).map fun e => min e.1 e.2).length :=
        List.prod_le_pow_card _ _ fun x hx => (sides_bounds h x hx).2
    _ ≤ 64 ^ 4 := Nat.pow_le_pow_right (by decide) hlen

theorem tileElems_eq (h : Ok edges) : tileElems shape edges = size shape edges := by
  have hmap : (edges.zipIdx.take shape.rank).map (fun e => min e.1 ((shape.dim e.2).getD 1)) =
      (edges.zip shape.dims).map fun e => min e.1 e.2 := by
    apply List.ext_getElem?
    intro i
    have hrank : shape.dims.length ≤ edges.length := h.length.symm ▸ shape.rank_le
    rw [List.getElem?_map, List.getElem?_take, List.getElem?_zipIdx, List.getElem?_map, Shape.rank]
    by_cases hi : i < shape.dims.length
    · have hi' : i < edges.length := Nat.lt_of_lt_of_le hi hrank
      have hzip : i < (edges.zip shape.dims).length := by
        rw [List.length_zip]
        exact Nat.lt_min.mpr ⟨hi', hi⟩
      have hdim : shape.dim i = some shape.dims[i] := List.getElem?_eq_getElem hi
      rw [if_pos hi, List.getElem?_eq_getElem hi', List.getElem?_eq_getElem hzip, List.getElem_zip]
      simp only [Option.map_some, Nat.zero_add, hdim, Option.getD_some]
    · have hzip : (edges.zip shape.dims).length ≤ i := by
        rw [List.length_zip]
        exact (Nat.min_le_right ..).trans (Nat.le_of_not_lt hi)
      rw [if_neg hi, List.getElem?_eq_none hzip]
      rfl
  have hsize : size shape edges ≤ 16777216 := size_le h
  have hpos : ∀ x ∈ (edges.zip shape.dims).map (fun e => min e.1 e.2), 0 < x :=
    fun x hx => (sides_bounds h x hx).1
  have hfold := foldl_saturatingMul hpos (by decide : 1 < 2 ^ 63)
  rw [← hmap, List.foldl_map, hmap] at hfold
  change tileElems shape edges = min (1 * size shape edges) _ at hfold
  rw [hfold]
  omega

theorem tileBytes_eq (h : Ok edges) : tileBytes shape edges = 8 * size shape edges := by
  have hsize : size shape edges ≤ 16777216 := size_le h
  rw [tileBytes, tileElems_eq h, saturatingMul]
  omega

-- ---------------------------------------------------------------------------
-- A round
-- ---------------------------------------------------------------------------

/-- The scan finds an edge of the first ones that none of them exceeds. -/
theorem scan_spec (edges : List Nat) (n : Nat) :
    (List.range' 1 n).foldl (larger edges) 0 ≤ n ∧
      ∀ a ≤ n, edges.getD a 0 ≤ edges.getD ((List.range' 1 n).foldl (larger edges) 0) 0 := by
  induction n with
  | zero =>
    refine ⟨Nat.le_refl 0, fun a ha => ?_⟩
    rw [Nat.le_zero.mp ha]
    exact Nat.le_refl _
  | succ n ih =>
    obtain ⟨hle, hmax⟩ := ih
    rw [List.range'_concat, List.foldl_append, List.foldl_cons, List.foldl_nil, Nat.one_mul,
      Nat.add_comm 1 n]
    unfold larger at hle hmax ⊢
    split
    · next hlt =>
      refine ⟨Nat.le_refl _, fun a ha => ?_⟩
      rcases Nat.le_succ_iff.mp ha with ha | rfl
      · exact (hmax a ha).trans (Nat.le_of_lt hlt)
      · exact Nat.le_refl _
    · next hge =>
      refine ⟨Nat.le_succ_of_le hle, fun a ha => ?_⟩
      rcases Nat.le_succ_iff.mp ha with ha | rfl
      · exact hmax a ha
      · exact Nat.le_of_not_lt hge

theorem largest_lt (rank : Nat) (edges : List Nat) : largest rank edges < max rank 1 := by
  have hle := (scan_spec edges (rank - 1)).1
  rw [largest]
  omega

theorem le_largest (edges : List Nat) (ha : a < rank) :
    edges.getD a 0 ≤ edges.getD (largest rank edges) 0 :=
  (scan_spec edges (rank - 1)).2 a (Nat.le_sub_one_of_lt ha)

/-- A round that does not break halves the largest edge. -/
theorem step_some (h : Ok edges) (hstep : step shape budgetBytes edges = some edges') :
    budgetBytes.toNat < 8 * size shape edges ∧ edges ≠ List.replicate MAX_RANK 1 ∧
      edges' = edges.set (largest shape.rank edges)
        (max (edges.getD (largest shape.rank edges) 0 / 2) 1) := by
  unfold step at hstep
  dsimp only at hstep
  split at hstep
  · cases hstep
  · next hgo =>
    rw [tileBytes_eq h, not_or] at hgo
    exact ⟨Nat.lt_of_not_le hgo.1, hgo.2, (Option.some.inj hstep).symm⟩

/-- The loop breaks at a tile that fits, or at edges of one. -/
theorem step_none (h : Ok edges) : step shape budgetBytes edges = none ↔
    8 * size shape edges ≤ budgetBytes.toNat ∨ edges = List.replicate MAX_RANK 1 := by
  rw [← tileBytes_eq h]
  unfold step
  dsimp only
  split
  · next hstop => exact iff_of_true rfl hstop
  · next hgo => exact iff_of_false nofun hgo

theorem largest_lt_maxRank (shape : Shape) (edges : List Nat) :
    largest shape.rank edges < MAX_RANK :=
  Nat.lt_of_lt_of_le (largest_lt ..) (Nat.max_le.mpr ⟨shape.rank_le, by decide⟩)

theorem step_ok (h : Ok edges) (hstep : step shape budgetBytes edges = some edges') : Ok edges' := by
  obtain ⟨-, -, rfl⟩ := step_some h hstep
  exact h.halve (largest_lt_maxRank shape edges)

/-- With the edges of all live axes one, the tile is one element. -/
theorem size_of_ones (hones : ∀ a < shape.rank, edges[a]? = some 1) : size shape edges = 1 := by
  refine List.prod_eq_one fun x hx => ?_
  obtain ⟨⟨e, d⟩, hed, rfl⟩ := List.mem_map.mp hx
  obtain ⟨i, hi⟩ := List.mem_iff_getElem?.mp hed
  obtain ⟨he, hd⟩ := List.getElem?_zip_eq_some.mp hi
  have hlt : i < shape.rank := (List.getElem?_eq_some_iff.mp hd).1
  cases Option.some.inj ((hones i hlt).symm.trans he)
  exact Nat.min_eq_left (shape.dims_pos d (List.mem_of_getElem? hd))

-- ---------------------------------------------------------------------------
-- The loop
-- ---------------------------------------------------------------------------

theorem sum_set_lt {l : List Nat} {i e : Nat} (hi : i < l.length) (he : e < l.getD i 0) :
    (l.set i e).sum < l.sum := by
  induction l generalizing i with
  | nil => cases hi
  | cons x l ih =>
    cases i with
    | zero => exact Nat.add_lt_add_right he l.sum
    | succ i => exact Nat.add_lt_add_left (ih (Nat.lt_of_succ_lt_succ hi) he) x

/-- Where the largest edge is one, all live ones are. -/
theorem ones_of_largest (h : Ok edges)
    (hone : edges.getD (largest rank edges) 0 ≤ 1) (hrank : rank ≤ MAX_RANK) :
    ∀ a < rank, edges[a]? = some 1 := by
  intro a ha
  have hmem := h.getD_mem (Nat.lt_of_lt_of_le ha hrank)
  have hlt : a < edges.length := h.length.symm ▸ Nat.lt_of_lt_of_le ha hrank
  have hge := h.one_le hmem
  have hle := le_largest edges ha
  rw [List.getD_eq_getElem?_getD, List.getElem?_eq_getElem hlt, Option.getD_some] at hge hle
  rw [List.getElem?_eq_getElem hlt]
  exact congrArg some (Nat.le_antisymm (hle.trans hone) hge)

theorem eq_replicate_of_ones (h : Ok edges) (hones : ∀ a < MAX_RANK, edges[a]? = some 1) :
    edges = List.replicate MAX_RANK 1 := by
  apply List.ext_getElem?
  intro i
  rw [List.getElem?_replicate]
  split
  · next hi => exact hones i hi
  · next hi => exact List.getElem?_eq_none (h.length.symm ▸ Nat.le_of_not_lt hi)

/-- A round makes progress, given room for an element or all the axes. -/
theorem step_sum_lt (h : Ok edges) (hroom : shape.rank = MAX_RANK ∨ 8 ≤ budgetBytes.toNat)
    (hstep : step shape budgetBytes edges = some edges') : edges'.sum < edges.sum := by
  obtain ⟨hover, hne, rfl⟩ := step_some h hstep
  have hlt := largest_lt_maxRank shape edges
  have hlarge : 1 < edges.getD (largest shape.rank edges) 0 := by
    by_contra hone
    have hones := ones_of_largest h (Nat.le_of_not_lt hone) shape.rank_le
    rcases hroom with hrank | hbudget
    · exact hne (eq_replicate_of_ones h fun a ha => hones a (hrank.symm ▸ ha))
    · rw [size_of_ones hones] at hover
      exact absurd hbudget (Nat.not_le_of_lt hover)
  refine sum_set_lt (h.length.symm ▸ hlt) ?_
  omega

theorem loop_returns (h : Ok edges) (hroom : shape.rank = MAX_RANK ∨ 8 ≤ budgetBytes.toNat) :
    ∃ fuel last, loop shape budgetBytes fuel edges = some last ∧ Ok last ∧
      step shape budgetBytes last = none := by
  induction hsum : edges.sum using Nat.strong_induction_on generalizing edges with
  | _ n ih =>
    cases hstep : step shape budgetBytes edges with
    | none => exact ⟨1, edges, by rw [loop, hstep], h, hstep⟩
    | some edges' =>
      have hlt := step_sum_lt h hroom hstep
      obtain ⟨fuel, last, hloop, hend⟩ := ih _ (hsum ▸ hlt) (step_ok h hstep) rfl
      exact ⟨fuel + 1, last, by rw [loop, hstep]; exact hloop, hend⟩

/-- The last edge is none that a lower rank halves. -/
theorem loop_diverges (h : Ok edges) (hlast : edges[3]? = some TILE_CACHE_LINE)
    (hrank : shape.rank < MAX_RANK) (hbudget : budgetBytes.toNat < 8) :
    loop shape budgetBytes fuel edges = none := by
  induction fuel generalizing edges with
  | zero => rfl
  | succ fuel ih =>
    cases hstep : step shape budgetBytes edges with
    | none =>
      have hpos : 0 < size shape edges := size_pos h
      rcases (step_none h).mp hstep with hfits | hones
      · omega
      · rw [hones] at hlast
        cases hlast
    | some edges' =>
      rw [loop, hstep]
      refine ih (step_ok h hstep) ?_
      obtain ⟨-, -, rfl⟩ := step_some h hstep
      have hlt := largest_lt shape.rank edges
      rw [MAX_RANK] at hrank
      rw [List.getElem?_set_ne (by omega)]
      exact hlast

end Tile

/-- Tiling returns a plan of its kind, which fits or has no live edge above
one, at the full rank and for a budget of one element. -/
theorem tileShapes_iff (shape : Shape) (budgetBytes : UInt32) :
    (∃ fuel plan, tileShapes shape budgetBytes fuel = some (.ok plan) ∧
      (∀ e ∈ plan.edges, ∃ k ≤ 6, e = 2 ^ k) ∧
      (8 * Tile.size shape plan.edges ≤ budgetBytes.toNat ∨
        ∀ a < shape.rank, plan.edges[a]? = some 1)) ↔
    shape.rank = MAX_RANK ∨ 8 ≤ budgetBytes.toNat := by
  constructor
  · rintro ⟨fuel, plan, hplan, -⟩
    by_contra hroom
    rw [not_or] at hroom
    have hrank := Nat.lt_of_le_of_ne shape.rank_le hroom.1
    rw [tileShapes, Tile.loop_diverges Tile.ok_start rfl hrank (Nat.lt_of_not_le hroom.2)] at hplan
    cases hplan
  · intro hroom
    obtain ⟨fuel, last, hloop, hok, hstep⟩ := Tile.loop_returns Tile.ok_start hroom
    refine ⟨fuel, ⟨last, shape.rank⟩, by rw [tileShapes, hloop]; rfl, hok.pow, ?_⟩
    refine ((Tile.step_none hok).mp hstep).imp_right fun hones a ha => ?_
    have hlt : a < MAX_RANK := Nat.lt_of_lt_of_le ha shape.rank_le
    change last[a]? = some 1
    rw [hones, List.getElem?_replicate, if_pos hlt]

/-- Seven elements under no budget at all are tiled forever. -/
theorem tileShapes_diverges : ¬ ∀ (shape : Shape) (budgetBytes : UInt32),
    ∃ fuel plan, tileShapes shape budgetBytes fuel = some (.ok plan) ∧
      (∀ e ∈ plan.edges, ∃ k ≤ 6, e = 2 ^ k) ∧
      (8 * Tile.size shape plan.edges ≤ budgetBytes.toNat ∨
        ∀ a < shape.rank, plan.edges[a]? = some 1) := by
  intro hall
  obtain ⟨fuel, plan, hplan, -⟩ := hall ⟨[7], by decide, by decide, by decide⟩ 0
  rw [tileShapes, Tile.loop_diverges Tile.ok_start rfl (by decide) (by decide)] at hplan
  cases hplan

end Sxla
