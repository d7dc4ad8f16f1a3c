import Sxla.Runtime.Matmul

/-!
# The reduction kernel

The kernel walks the flat output places and rebuilds a strided input place
from the quotient and the remainder of each. `reduce_spec` reads both sides as
multi-indices: every output entry is the fold of the entries along the axis.
-/

namespace Sxla

open Checked RowMajor Interp

variable {table : List Value} {data : List F64} {shape : Shape} {axis : UInt8} {monoid : Monoid}
  {w : Value}
  {dst a ax k axisLen inner ob before after : Nat} {idx : List Nat}

/-- The fold along axis `ax` at the other indices `idx`, in increasing order. -/
def foldAlong (monoid : Monoid) (data : List F64) (dims : List Nat) (ax : Nat) (idx : List Nat) :
    F64 :=
  (List.range (dims.getD ax 1)).foldl
    (fun acc k => monoidApply monoid acc (data.getD (offset dims (idx.insertIdx ax k)) (.zero false)))
    (monoidIdentity monoid)

/-- The entries of a float value in row-major order. -/
def Value.floats : Value → List F64
  | .f64 x => [x]
  | .i64 _ => []
  | .tensor data _ => data

/-- The tensor without the axis, or the scalar when no axis is left. -/
structure IsReduction (monoid : Monoid) (data : List F64) (dims : List Nat) (ax : Nat) (w : Value) :
    Prop where
  dims_eq : w.shape.dims = dims.eraseIdx ax
  built : if dims.length = 1 then ∃ x, w = .f64 x
    else ∃ out s, w = .tensor out s ∧ Value.mkTensor out s = .ok w
  entry : ∀ idx, InBounds (dims.eraseIdx ax) idx →
    w.floats[offset (dims.eraseIdx ax) idx]? = some (foldAlong monoid data dims ax idx)
  inside : ∀ idx, InBounds (dims.eraseIdx ax) idx → ∀ k < dims.getD ax 1,
    offset dims (idx.insertIdx ax k) < data.length

namespace Interp

/-- The fold at a flat output place. -/
def rowFold (data : List F64) (axisLen inner : Nat) (monoid : Monoid) (ob : Nat) : F64 :=
  (List.range axisLen).foldl (fun acc k => monoidApply monoid acc
    (data.getD (ob / max inner 1 * axisLen * inner + ob % max inner 1 + k * inner) (.zero false)))
    (monoidIdentity monoid)

theorem reduceAt_eq (h : ∀ k < axisLen,
      ob / max inner 1 * axisLen * inner + ob % max inner 1 + k * inner < data.length) :
    reduceAt data axisLen inner monoid ob = .ok (rowFold data axisLen inner monoid ob) := by
  refine forRange_eq (fun k hk acc => ?_) _
  rw [index_eq (h k hk) (.zero false)]
  rfl

/-- The place that the kernel rebuilds from the quotient and the remainder. -/
theorem strided_place (h : after < inner) (k : Nat) :
    (before * inner + after) / max inner 1 * axisLen * inner +
      (before * inner + after) % max inner 1 + k * inner =
      (before * axisLen + k) * inner + after := by
  have hpos : 0 < inner := Nat.zero_lt_of_lt h
  rw [Nat.max_eq_left hpos, Nat.mul_comm before inner, Nat.mul_add_div hpos,
    Nat.mul_add_mod, Nat.div_eq_of_lt h, Nat.mod_eq_of_lt h]
  ring

/-- The fold at a place is the fold at its multi-index. -/
theorem rowFold_eq {dims : List Nat} (h : Around dims ax idx before after) :
    rowFold data (dims.getD ax 1) (dims.drop (ax + 1)).prod monoid (offset (dims.eraseIdx ax) idx) =
      foldAlong monoid data dims ax idx := by
  refine List.foldl_ext _ _ _ fun acc k _ => ?_
  rw [h.erased, h.inserted, strided_place h.after_lt]

/-- The flat output of the kernel. -/
def rowFolds (monoid : Monoid) (data : List F64) (dims : List Nat) (ax : Nat) : List F64 :=
  (List.range (dims.eraseIdx ax).prod).map
    (rowFold data (dims.getD ax 1) (dims.drop (ax + 1)).prod monoid)

theorem rowFolds_entry {dims : List Nat} (hax : ax < dims.length)
    (hidx : InBounds (dims.eraseIdx ax) idx) :
    (rowFolds monoid data dims ax)[offset (dims.eraseIdx ax) idx]? =
      some (foldAlong monoid data dims ax idx) := by
  obtain ⟨before, after, har⟩ := around hax hidx
  rw [rowFolds, List.getElem?_map, List.getElem?_range (offset_lt hidx)]
  exact congrArg some (rowFold_eq har)

theorem mapM_reduceAt {dims : List Nat} (hpos : ∀ d ∈ dims, 0 < d) (hax : ax < dims.length)
    (hl : data.length = dims.prod) :
    (List.range (dims.eraseIdx ax).prod).mapM
        (reduceAt data (dims.getD ax 1) (dims.drop (ax + 1)).prod monoid) =
      .ok (rowFolds monoid data dims ax) := by
  obtain ⟨hprod, herase⟩ := prod_split hax
  have hinner : 0 < (dims.drop (ax + 1)).prod :=
    List.prod_pos fun d hd => hpos d (List.mem_of_mem_drop hd)
  refine mapM_eq fun ob hob => reduceAt_eq fun k hk => ?_
  rw [hl, hprod]
  exact reduce_index_lt hinner (herase ▸ List.mem_range.mp hob) hk

/-- The kernel on a tensor. -/
theorem reduce_eq {s : Shape} (hget : table[a]? = some (.tensor data shape))
    (hax : axis.toNat < shape.dims.length) (hs : shapeOf (shape.dims.eraseIdx axis.toNat) = .ok s) :
    reduce table dst a axis monoid = (do
      let out ← (List.range s.numElements).mapM (reduceAt data (shape.dims.getD axis.toNat 1)
        (shape.dims.drop (axis.toNat + 1)).prod monoid)
      if s.dims.length = 0 then store table dst (.f64 (← index out 0))
      else store table dst (.tensor out s)) := by
  unfold reduce get
  rw [hget]
  simp only [ok_bind]
  rw [if_neg (Nat.not_le.mpr hax), hs]
  rfl

end Interp

/-- Less than the limit of a vector of doubles, the count is the product. -/
theorem length_of_mkTensor (h : Value.mkTensor data shape = .ok w)
    (hvec : data.length < 0x1000000000000000) : data.length = shape.dims.prod := by
  unfold Value.mkTensor at h
  split at h
  · cases h
  · rename_i hl
    rw [not_not, numElements_eq] at hl
    omega

/-- The entries along the axis are entries of the tensor. -/
theorem inserted_lt {dims : List Nat} (hax : ax < dims.length)
    (hidx : InBounds (dims.eraseIdx ax) idx) (hk : k < dims.getD ax 1) :
    offset dims (idx.insertIdx ax k) < dims.prod := by
  obtain ⟨before, after, har⟩ := around hax hidx
  rw [har.inserted, (prod_split hax).1]
  exact flat_lt (flat_lt har.before_lt hk) har.after_lt

theorem prod_eraseIdx_le {dims : List Nat} (hpos : ∀ d ∈ dims, 0 < d) (hax : ax < dims.length) :
    (dims.eraseIdx ax).prod ≤ dims.prod := by
  obtain ⟨hprod, herase⟩ := prod_split hax
  rw [hprod, herase]
  refine Nat.mul_le_mul_right _ (Nat.le_mul_of_pos_right _ ?_)
  rw [getD_of_lt hax]
  exact hpos _ (List.getElem_mem hax)

/-- Reduction along any axis of any tensor. A vector of doubles has fewer than
`2 ^ 60` entries. -/
theorem reduce_spec (hget : table[a]? = some (.tensor data shape))
    (hbuilt : Value.mkTensor data shape = .ok (.tensor data shape))
    (hvec : data.length < 0x1000000000000000) (hdst : dst < table.length)
    (hax : axis.toNat < shape.dims.length) :
    ∃ w, reduce table dst a axis monoid = .ok (table.set dst w) ∧
      IsReduction monoid data shape.dims axis.toNat w := by
  have hl := length_of_mkTensor hbuilt hvec
  have hfits : (shape.dims.eraseIdx axis.toNat).prod < 2 ^ 63 := by
    have hle := prod_eraseIdx_le shape.dims_pos hax
    omega
  obtain ⟨s, hs, hsd⟩ : ∃ s, shapeOf (shape.dims.eraseIdx axis.toNat) = .ok s ∧
      s.dims = shape.dims.eraseIdx axis.toNat :=
    shapeOf_ok ((List.length_eraseIdx_le _ _).trans shape.rank_le) fun d hd =>
      ⟨shape.dims_pos d (List.mem_of_mem_eraseIdx hd), shape.dims_lt d (List.mem_of_mem_eraseIdx hd)⟩
  have hcount : s.numElements = (shape.dims.eraseIdx axis.toNat).prod := by
    rw [numElements_of_lt (hsd ▸ hfits), hsd]
  have hentry : ∀ idx, InBounds (shape.dims.eraseIdx axis.toNat) idx →
      (rowFolds monoid data shape.dims axis.toNat)[offset (shape.dims.eraseIdx axis.toNat) idx]? =
        some (foldAlong monoid data shape.dims axis.toNat idx) := fun idx => rowFolds_entry hax
  have hinside : ∀ idx, InBounds (shape.dims.eraseIdx axis.toNat) idx →
      ∀ k < shape.dims.getD axis.toNat 1,
        offset shape.dims (idx.insertIdx axis.toNat k) < data.length := fun idx hidx k hk =>
    hl ▸ inserted_lt hax hidx hk
  have hrank : (shape.dims.eraseIdx axis.toNat).length = shape.dims.length - 1 :=
    List.length_eraseIdx_of_lt hax
  rw [reduce_eq hget hax hs, hcount, mapM_reduceAt shape.dims_pos hax hl, ok_bind]
  by_cases hone : shape.dims.length = 1
  · have hnil : shape.dims.eraseIdx axis.toNat = [] :=
      List.eq_nil_of_length_eq_zero (by rw [hrank, hone])
    have hbase : InBounds (shape.dims.eraseIdx axis.toNat) [] := by
      rw [hnil]
      exact .nil
    have hfirst := hentry [] hbase
    rw [hnil] at hfirst
    have hlast : index (rowFolds monoid data shape.dims axis.toNat) 0 =
        .ok (foldAlong monoid data shape.dims axis.toNat []) := by
      rw [index, show (rowFolds monoid data shape.dims axis.toNat)[0]? = _ from hfirst]
    rw [if_pos (by rw [hsd, hnil]; rfl), hlast, ok_bind, store, if_pos hdst]
    refine ⟨_, rfl, hnil.symm, ?_, ?_, hinside⟩
    · rw [if_pos hone]
      exact ⟨_, rfl⟩
    · rw [hnil]
      rintro idx ⟨⟩
      rfl
  · rw [if_neg (by rw [hsd, hrank]; omega), store, if_pos hdst]
    refine ⟨_, rfl, hsd, ?_, hentry, hinside⟩
    rw [if_neg hone]
    exact ⟨_, s, rfl, mkTensor_of_length (by rw [hsd, rowFolds]; simp) (hsd ▸ hfits)⟩

/-- Sums over the rows of a matrix. -/
theorem reduce_spec_rows :
    ∃ w, reduce [.tensor (indicator 2 6) wideShape] 0 0 1 .add = .ok [w] ∧
      IsReduction .add (indicator 2 6) wideShape.dims 1 w := by
  have hget : ([.tensor (indicator 2 6) wideShape] : List Value)[0]? =
      some (.tensor (indicator 2 6) wideShape) := rfl
  have hdst : 0 < ([.tensor (indicator 2 6) wideShape] : List Value).length := Nat.zero_lt_succ _
  have hax : (1 : UInt8).toNat < wideShape.dims.length := by decide
  exact reduce_spec hget rfl (by decide) hdst hax

end Sxla
