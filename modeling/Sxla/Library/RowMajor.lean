import Mathlib.Algebra.BigOperators.Group.List.Basic
import Mathlib.Data.List.Forall2
import Mathlib.Tactic.Ring

/-!
# Row-major arrays

A list of entries read under a list of extents. `Permuted` and `Repeats` say
what it means to permute the axes of an array and to repeat it along new
ones; on matrices they come down to facts about flat places.
-/

namespace RowMajor

variable {α : Type} {data data' : List α} {dims dims' idx idx' : List Nat}
  {r c m n i j i' j' axis : Nat}

/-- The place of a multi-index. -/
def offset : List Nat → List Nat → Nat
  | _ :: ds, i :: is => i * ds.prod + offset ds is
  | _, _ => 0

abbrev InBounds (dims idx : List Nat) : Prop := List.Forall₂ (fun i d => i < d) idx dims

/-- Axis `i` of the result is axis `perm[i]` of the array. -/
structure Permuted (perm dims : List Nat) (data : List α) (dims' : List Nat) (data' : List α) :
    Prop where
  dims_eq : dims' = perm.map (dims.getD · 0)
  length_eq : data'.length = dims'.prod
  entry : ∀ idx, InBounds dims idx →
    data'[offset dims' (perm.map (idx.getD · 0))]? = data[offset dims idx]?

/-- Along an axis of extent one there is a single entry to repeat. -/
def clip (dims idx : List Nat) : List Nat := List.zipWith (fun d i => if d = 1 then 0 else i) dims idx

/-- The array repeated to larger extents, trailing axes aligned. -/
structure Repeats (dims : List Nat) (data : List α) (dims' : List Nat) (data' : List α) : Prop where
  length_eq : data'.length = dims'.prod
  entry : ∀ idx, InBounds dims' idx →
    data'[offset dims' idx]? =
      data[offset dims (clip dims (idx.drop (dims'.length - dims.length)))]?

/-- Extents an array can be repeated to. -/
def Compatible (dims dims' : List Nat) : Prop :=
  dims.length ≤ dims'.length ∧
    List.Forall₂ (fun d d' => d = 1 ∨ d = d') dims (dims'.drop (dims'.length - dims.length))

-- ---------------------------------------------------------------------------
-- Flat places
-- ---------------------------------------------------------------------------

theorem flat_lt (hi : i < m) (hj : j < n) : i * n + j < m * n := by
  calc i * n + j < i * n + n := Nat.add_lt_add_left hj _
    _ = (i + 1) * n := (Nat.succ_mul i n).symm
    _ ≤ m * n := Nat.mul_le_mul_right n hi

theorem flat_inj (hj : j < n) (hj' : j' < n) (h : i * n + j = i' * n + j') : i = i' ∧ j = j' := by
  have hn : 0 < n := Nat.zero_lt_of_lt hj
  have hdiv := congrArg (· / n) h
  have hmod := congrArg (· % n) h
  simp only [Nat.mul_add_mod_self_right, Nat.mod_eq_of_lt hj, Nat.mod_eq_of_lt hj'] at hmod
  simp only [Nat.mul_comm _ n, Nat.mul_add_div hn, Nat.div_eq_of_lt hj, Nat.div_eq_of_lt hj',
    Nat.add_zero] at hdiv
  exact ⟨hdiv, hmod⟩

theorem offset_matrix : offset [r, c] [i, j] = i * c + j := by
  simp [offset]

theorem inBounds_matrix : InBounds [r, c] idx ↔ ∃ i j, idx = [i, j] ∧ i < r ∧ j < c := by
  constructor
  · rintro (_ | ⟨hi, _ | ⟨hj, _ | _⟩⟩)
    exact ⟨_, _, rfl, hi, hj⟩
  · rintro ⟨i, j, rfl, hi, hj⟩
    exact .cons hi (.cons hj .nil)

-- ---------------------------------------------------------------------------
-- Multi-indices
-- ---------------------------------------------------------------------------

theorem offset_lt (h : InBounds dims idx) : offset dims idx < dims.prod := by
  induction h with
  | nil => simp [offset]
  | cons hi _ ih =>
    rw [List.prod_cons]
    exact flat_lt hi ih

theorem offset_append (h : idx.length = dims.length) :
    offset (dims ++ dims') (idx ++ idx') = offset dims idx * dims'.prod + offset dims' idx' := by
  induction dims generalizing idx with
  | nil =>
    obtain rfl := List.eq_nil_of_length_eq_zero h
    simp [offset]
  | cons d dims ih =>
    obtain ⟨i, idx, rfl⟩ := List.exists_cons_of_length_eq_add_one h
    simp only [List.cons_append, offset, List.prod_append, ih (Nat.succ.inj h)]
    ring

theorem insertIdx_append (l r : List Nat) (k : Nat) :
    (l ++ r).insertIdx l.length k = l ++ k :: r := by
  induction l with
  | nil => exact List.insertIdx_zero
  | cons x l ih =>
    rw [List.cons_append, List.length_cons, List.insertIdx_succ_cons, ih, List.cons_append]

/-- A multi-index without one axis, around that axis. -/
structure Around (dims : List Nat) (axis : Nat) (idx : List Nat) (before after : Nat) : Prop where
  before_lt : before < (dims.take axis).prod
  after_lt : after < (dims.drop (axis + 1)).prod
  erased : offset (dims.eraseIdx axis) idx = before * (dims.drop (axis + 1)).prod + after
  inserted : ∀ k, offset dims (idx.insertIdx axis k) =
    (before * dims.getD axis 1 + k) * (dims.drop (axis + 1)).prod + after

theorem around (h : axis < dims.length) (hidx : InBounds (dims.eraseIdx axis) idx) :
    ∃ before after, Around dims axis idx before after := by
  rw [List.eraseIdx_eq_take_drop_succ] at hidx
  obtain ⟨l, r, rfl, hl, hr⟩ : ∃ l r, idx = l ++ r ∧ InBounds (dims.take axis) l ∧
      InBounds (dims.drop (axis + 1)) r :=
    ⟨_, _, (List.take_append_drop _ idx).symm, List.forall₂_take_append idx _ _ hidx,
      List.forall₂_drop_append idx _ _ hidx⟩
  have hlen : l.length = (dims.take axis).length := hl.length_eq
  have hax : l.length = axis := by rw [hlen, List.length_take]; omega
  refine ⟨offset (dims.take axis) l, offset (dims.drop (axis + 1)) r, offset_lt hl, offset_lt hr,
    ?_, ?_⟩
  · rw [List.eraseIdx_eq_take_drop_succ, offset_append hlen]
  · intro k
    have hdims : dims = dims.take axis ++ dims.getD axis 1 :: dims.drop (axis + 1) := by
      rw [← List.getElem_eq_getD (h := h) 1, ← List.drop_eq_getElem_cons h, List.take_append_drop]
    rw [← hax, insertIdx_append, hax]
    conv_lhs => rw [hdims]
    rw [offset_append hlen, List.prod_cons, offset]
    ring

-- ---------------------------------------------------------------------------
-- Matrices
-- ---------------------------------------------------------------------------

/-- The two axes exchanged. -/
theorem permuted_swap (hl : data'.length = r * c)
    (h : ∀ i < r, ∀ j < c, data'[j * r + i]? = data[i * c + j]?) :
    Permuted [1, 0] [r, c] data [c, r] data' where
  dims_eq := rfl
  length_eq := by simp [hl, Nat.mul_comm]
  entry := by
    intro idx hidx
    obtain ⟨i, j, rfl, hi, hj⟩ := inBounds_matrix.mp hidx
    simpa [offset_matrix] using h i hi j hj

/-- A square array that equals its exchange. -/
def Symmetric (dims : List Nat) (data : List α) : Prop :=
  ∃ r, dims = [r, r] ∧ ∀ i < r, ∀ j < r, data[i * r + j]? = data[j * r + i]?

/-- Exchanging the axes leaves them in place on symmetric arrays only. -/
theorem permuted_id_of_swap (hl : data'.length = r * c)
    (h : ∀ i < r, ∀ j < c, data'[j * r + i]? = data[i * c + j]?) :
    Permuted [0, 1] [r, c] data [c, r] data' ↔ Symmetric [r, c] data := by
  constructor
  · intro hp
    have hdims := hp.dims_eq
    simp only [List.map_cons, List.map_nil, List.cons.injEq] at hdims
    obtain rfl : c = r := by simpa using hdims.1
    refine ⟨c, rfl, fun i hi j hj => ?_⟩
    have hentry := hp.entry [i, j] (inBounds_matrix.mpr ⟨i, j, rfl, hi, hj⟩)
    simp only [List.map_cons, List.map_nil, List.getD_cons_zero, List.getD_cons_succ,
      offset_matrix] at hentry
    rw [← hentry, h j hj i hi]
  · rintro ⟨_, hdims, hsym⟩
    obtain ⟨rfl, rfl⟩ : r = _ ∧ c = _ := by simpa using hdims
    refine ⟨rfl, by simp [hl], fun idx hidx => ?_⟩
    obtain ⟨i, j, rfl, hi, hj⟩ := inBounds_matrix.mp hidx
    simp only [List.map_cons, List.map_nil, List.getD_cons_zero, List.getD_cons_succ, offset_matrix]
    rw [h j hj i hi, hsym i hi j hj]

-- ---------------------------------------------------------------------------
-- Repetition
-- ---------------------------------------------------------------------------

theorem clip_of_inBounds (h : InBounds dims idx) : clip dims idx = idx := by
  induction h with
  | nil => rfl
  | @cons i d idx dims hi _ ih =>
    have hclip : clip (d :: dims) (i :: idx) = (if d = 1 then 0 else i) :: clip dims idx := rfl
    rw [hclip, ih]
    split
    · simp
      omega
    · rfl

/-- An array repeated to its own extents is itself. -/
theorem repeats_self (hl : data.length = dims.prod) : Repeats dims data dims data where
  length_eq := hl
  entry := by
    intro idx hidx
    rw [Nat.sub_self, List.drop_zero, clip_of_inBounds hidx]

end RowMajor
