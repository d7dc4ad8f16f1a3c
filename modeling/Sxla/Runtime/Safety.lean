import Mathlib.Algebra.BigOperators.Group.List.Basic
import Mathlib.Algebra.Order.BigOperators.GroupWithZero.List
import Sxla.Jit.Driver
import Sxla.Library.RowMajor
import Sxla.Runtime.Runs

/-!
# When the interpreter panics

The kernels compute flat indices from the operands' shapes. For well-formed
values every one of them stays in range, apart from `matmul` with a
transposed operand: it steps through the operand's columns by the number of
rows. `Overruns` says when that leaves the data, and a run panics exactly
when it reaches such a step (`execute_panics_iff`).
-/

namespace Sxla

open Checked RowMajor

variable {libm : Libm} {table : List Value} {data : List F64} {shape : Shape} {v : Value}
  {dst slot a b : Nat}

namespace Value

/-- As many entries as the shape has places. -/
def Wf : Value → Prop
  | .tensor data shape => data.length = shape.dims.prod
  | _ => True

/-- What `Value::tensor` lets through. -/
def Sized : Value → Prop
  | .tensor data shape => data.length = shape.numElements
  | _ => True

/-- The places can be counted in an `i64`. -/
def Fits : Value → Prop
  | .tensor _ shape => shape.dims.prod < 2 ^ 63
  | _ => True

instance : DecidablePred Sized
  | .tensor data shape => inferInstanceAs (Decidable (data.length = shape.numElements))
  | .f64 _ | .i64 _ => .isTrue trivial

instance : DecidablePred Fits
  | .tensor _ shape => inferInstanceAs (Decidable (shape.dims.prod < 2 ^ 63))
  | .f64 _ | .i64 _ => .isTrue trivial

end Value

/-- The shapes under which a transposed operand is read past its end. -/
def Overruns (table : List Value) : Instr → Prop
  | .matmul _ a b ta tb =>
    ∃ da sa db sb m0 k0 k1 n1,
      table[a]? = some (.tensor da sa) ∧ table[b]? = some (.tensor db sb) ∧
      sa.dims = [m0, k0] ∧ sb.dims = [k1, n1] ∧
      (if ta then m0 else k0) = (if tb then n1 else k1) ∧
      (ta = true ∧ k0 < m0 ∨ tb = true ∧ n1 < k1)
  | _ => False

-- ---------------------------------------------------------------------------
-- Shapes and flat indices
-- ---------------------------------------------------------------------------

theorem foldl_saturatingMul {l : List Nat} (hl : ∀ d ∈ l, 0 < d) (ha : acc < 2 ^ 63) :
    l.foldl Shape.saturatingMul acc = min (acc * l.prod) 0x7fffffffffffffff := by
  induction l generalizing acc with
  | nil =>
    rw [List.foldl_nil, List.prod_nil, Nat.mul_one]
    omega
  | cons d l ih =>
    have hprod : 0 < l.prod := List.prod_pos fun d hd => hl d (List.mem_cons_of_mem _ hd)
    rw [List.foldl_cons, ih (fun d hd => hl d (List.mem_cons_of_mem _ hd))
      (by rw [Shape.saturatingMul]; omega), Shape.saturatingMul, List.prod_cons, ← Nat.mul_assoc]
    by_cases h : acc * d ≤ 0x7fffffffffffffff
    · rw [Nat.min_eq_left h]
    · have h := Nat.le_of_not_le h
      rw [Nat.min_eq_right h, Nat.min_eq_right (Nat.le_mul_of_pos_right _ hprod),
        Nat.min_eq_right (h.trans (Nat.le_mul_of_pos_right _ hprod))]

theorem numElements_eq (s : Shape) : s.numElements = min s.dims.prod 0x7fffffffffffffff := by
  rw [Shape.numElements, foldl_saturatingMul s.dims_pos (by omega), Nat.one_mul]

theorem numElements_of_lt {s : Shape} (h : s.dims.prod < 2 ^ 63) :
    s.numElements = s.dims.prod := by
  rw [numElements_eq]
  omega

theorem prod_dims_pos (s : Shape) : 0 < s.dims.prod := List.prod_pos s.dims_pos

theorem Value.Sized.wf {v : Value} (h : v.Sized) (hf : v.Fits) : v.Wf := by
  cases v with
  | tensor data shape => exact Eq.trans h (numElements_of_lt hf)
  | _ => trivial

-- ---------------------------------------------------------------------------
-- Table accesses
-- ---------------------------------------------------------------------------

namespace Interp

/-- A run that stops for a reason of the interpreter's own. -/
abbrev NoPanic (Q : α → Prop) : Run α → Prop := Ends (· ≠ .panic) Q

def TableWf (table : List Value) : Prop := ∀ v ∈ table, v.Wf

theorem fail_noPanic {Q : α → Prop} : NoPanic Q (fail e) := by simp [fail]

theorem get_noPanic : NoPanic (fun v => table[slot]? = some v) (get table slot) := by
  unfold get
  cases table[slot]? with
  | some v => rfl
  | none => exact fail_noPanic

theorem store_noPanic (ht : TableWf table) (hv : v.Wf) : NoPanic TableWf (store table slot v) := by
  refine .ite (fun _ w hw => ?_) fun _ => fail_noPanic
  rcases List.mem_or_eq_of_mem_set hw with hw | rfl
  · exact ht w hw
  · exact hv

theorem TableWf.of_get (ht : TableWf table) (h : table[slot]? = some v) : v.Wf :=
  ht v (List.mem_of_getElem? h)

/-- The entries of an operand, and its shape. -/
def operand : Value → List F64 × Shape
  | .f64 x => ([x], .scalar)
  | .i64 _ => ([], .scalar)
  | .tensor data shape => (data, shape)

/-- Loading an operand and then its shape. -/
theorem operand_noPanic (ht : TableWf table) {Q : β → Prop} {f : List F64 → Shape → Run β}
    (hf : ∀ v, table[slot]? = some v → (operand v).1.length = (operand v).2.dims.prod →
      NoPanic Q (f (operand v).1 (operand v).2)) :
    NoPanic Q (do
      let x ← loadF64s table slot
      let s ← tensorShape table slot
      f x s) := by
  unfold loadF64s tensorShape get
  cases hv : table[slot]? with
  | none => exact fail_noPanic
  | some v =>
    cases v with
    | f64 x => exact hf _ hv rfl
    | i64 x => exact fail_noPanic
    | tensor data shape => exact hf _ hv (ht.of_get hv)

theorem index_noPanic {E : Stop → Prop} (h : i < data.length) :
    Ends E (fun _ => True) (index data i) := by
  simp [index, List.getElem?_eq_getElem h]

theorem write_noPanic {E : Stop → Prop} {out : List F64} (h : i < out.length) :
    Ends E (fun out' => out'.length = out.length) (write out i x) := by
  simp [write, h]

theorem forRange_ends {E : Stop → Prop} {I : α → Prop} {body : Nat → α → Run α}
    (hbody : ∀ i < n, ∀ s, I s → Ends E I (body i s)) (hs : I s) :
    Ends E I (forRange n s body) :=
  .foldlM (fun i hi s hs => hbody i (List.mem_range.mp hi) s hs) hs

theorem forRange_visits {body : Nat → α → Run α} (h : forRange n s body = .ok t) (hi : i < n) :
    ∃ s' t', body i s' = .ok t' :=
  foldlM_visits h (List.mem_range.mpr hi)

theorem shapeOf_noPanic (dims : List Nat) : NoPanic (fun s => s.dims = dims) (shapeOf dims) := by
  unfold shapeOf
  split
  · split
    · rfl
    · exact fail_noPanic
  · exact fail_noPanic

-- ---------------------------------------------------------------------------
-- Elementwise kernels
-- ---------------------------------------------------------------------------

theorem divide_noPanic (x y : F64) : NoPanic (fun _ => True) (divide x y) :=
  .ite (fun _ => fail_noPanic) fun _ => trivial

theorem tensor_noPanic (ht : TableWf table) (hx : data.length = shape.dims.prod)
    {f : F64 → Run F64} (hf : ∀ x, NoPanic (fun _ => True) (f x)) :
    NoPanic TableWf (do
      let out ← data.mapM f
      store table slot (.tensor out shape)) :=
  (Ends.mapM fun x _ => hf x).bind fun _ hout => store_noPanic ht (hout.1.trans hx)

theorem binOp_noPanic (ht : TableWf table) {f : F64 → F64 → Run F64}
    (hf : ∀ x y, NoPanic (fun _ => True) (f x y)) : NoPanic TableWf (binOp table dst a b f) := by
  refine get_noPanic.bind fun va ha => get_noPanic.bind fun vb hb => ?_
  have hwa := ht.of_get ha
  have hwb := ht.of_get hb
  split
  · exact (hf _ _).bind fun v _ => store_noPanic ht trivial
  · refine (hf _ _).bind fun v _ => store_noPanic ht ?_
    split <;> trivial
  · exact tensor_noPanic ht hwb fun y => hf _ y
  · exact tensor_noPanic ht hwa fun x => hf x _
  · refine .ite (fun _ => fail_noPanic) fun hs => ?_
    simp only [not_or, not_not] at hs
    refine (Ends.mapM fun p _ => hf p.1 p.2).bind fun out hout => store_noPanic ht ?_
    have hlen : out.length = min _ _ := hout.1.trans List.length_zip
    rw [hs.2, Nat.min_self] at hlen
    rw [Value.Wf, hlen, hs.1]
    exact hwb
  · exact fail_noPanic

theorem unOp_noPanic (ht : TableWf table) : NoPanic TableWf (unOp table dst a f) := by
  refine get_noPanic.bind fun v hv => ?_
  have hw := ht.of_get hv
  split
  · exact store_noPanic ht trivial
  · exact store_noPanic ht (by simpa [Value.Wf] using hw)
  · exact fail_noPanic

theorem loadF64s_noPanic : NoPanic (fun _ => True) (loadF64s table slot) := by
  refine get_noPanic.bind fun v _ => ?_
  cases v
  · trivial
  · exact fail_noPanic
  · trivial

theorem dot_noPanic (ht : TableWf table) : NoPanic TableWf (dot table dst a b) := by
  refine loadF64s_noPanic.bind fun x _ => loadF64s_noPanic.bind fun y _ => ?_
  refine .ite (fun _ => fail_noPanic) fun hlen => ?_
  rw [not_not] at hlen
  refine .bind (P := fun _ => True) (forRange_ends (fun i hi acc _ => ?_) trivial) fun acc _ =>
    store_noPanic ht trivial
  exact (index_noPanic hi).bind fun _ _ => (index_noPanic (hlen ▸ hi)).bind fun _ _ => trivial

-- ---------------------------------------------------------------------------
-- Reduction
-- ---------------------------------------------------------------------------

theorem getD_of_lt {dims : List Nat} (h : axis < dims.length) : dims.getD axis 1 = dims[axis] := by
  simp [h]

/-- The extents around one axis. -/
theorem prod_split {dims : List Nat} (h : axis < dims.length) :
    dims.prod = (dims.take axis).prod * dims.getD axis 1 * (dims.drop (axis + 1)).prod ∧
      (dims.eraseIdx axis).prod = (dims.take axis).prod * (dims.drop (axis + 1)).prod := by
  constructor
  · conv_lhs => rw [← List.take_append_drop axis dims, List.drop_eq_getElem_cons h]
    rw [List.prod_append, List.prod_cons, getD_of_lt h, Nat.mul_assoc]
  · rw [List.eraseIdx_eq_take_drop_succ, List.prod_append]

/-- Entry `k` of the row that output place `ob` reduces. -/
theorem reduce_index_lt {before axisLen inner ob k : Nat} (hi : 0 < inner)
    (hob : ob < before * inner) (hk : k < axisLen) :
    ob / max inner 1 * axisLen * inner + ob % max inner 1 + k * inner <
      before * axisLen * inner := by
  rw [Nat.max_eq_left hi]
  have hrow : ob / inner < before := Nat.div_lt_of_lt_mul (Nat.mul_comm before inner ▸ hob)
  have hflat := flat_lt (flat_lt hrow hk) (Nat.mod_lt ob hi)
  calc ob / inner * axisLen * inner + ob % inner + k * inner
      = (ob / inner * axisLen + k) * inner + ob % inner := by ring
    _ < before * axisLen * inner := hflat

theorem reduce_noPanic (ht : TableWf table) (hf : ∀ v ∈ table, v.Fits) :
    NoPanic TableWf (reduce table dst a axis monoid) := by
  refine get_noPanic.bind fun v hv => ?_
  have hw := ht.of_get hv
  have hfits := hf v (List.mem_of_getElem? hv)
  split
  · exact store_noPanic ht trivial
  · exact fail_noPanic
  rename_i data shape
  refine .ite (fun _ => fail_noPanic) fun haxis => ?_
  rw [Nat.not_le] at haxis
  obtain ⟨hprod, herase⟩ := prod_split haxis
  refine (shapeOf_noPanic _).bind fun outShape hdims => ?_
  set before := (shape.dims.take axis.toNat).prod
  set axisLen := shape.dims.getD axis.toNat 1
  set inner := (shape.dims.drop (axis.toNat + 1)).prod
  have hinner : 0 < inner := List.prod_pos fun d hd => shape.dims_pos d (List.mem_of_mem_drop hd)
  have hlen : 0 < axisLen := by
    refine shape.dims_pos _ ?_
    rw [show axisLen = shape.dims[axis.toNat] from getD_of_lt haxis]
    exact List.getElem_mem haxis
  have hout : outShape.numElements = before * inner := by
    rw [← herase, ← hdims]
    refine numElements_of_lt (lt_of_le_of_lt ?_ hfits)
    rw [hdims, herase, hprod]
    exact Nat.mul_le_mul_right _ (Nat.le_mul_of_pos_right _ hlen)
  have hread : ∀ ob ∈ List.range outShape.numElements,
      NoPanic (fun _ => True) (reduceAt data axisLen inner monoid ob) := by
    intro ob hob
    refine forRange_ends (fun k hk acc _ => ?_) trivial
    refine (index_noPanic ?_).bind fun _ _ => trivial
    rw [show data.length = _ from hw, hprod]
    exact reduce_index_lt hinner (hout ▸ List.mem_range.mp hob) hk
  refine (Ends.mapM hread).bind fun out hres => ?_
  rw [List.length_range, hout, ← herase, ← hdims] at hres
  refine .ite (fun hr => ?_) fun _ => store_noPanic ht hres.1
  refine (index_noPanic ?_).bind fun _ _ => store_noPanic ht trivial
  rw [hres.1]
  exact prod_dims_pos outShape

-- ---------------------------------------------------------------------------
-- Transpose and convolution
-- ---------------------------------------------------------------------------

theorem transpose_noPanic (ht : TableWf table) : NoPanic TableWf (transpose table dst a) := by
  refine get_noPanic.bind fun v hv => ?_
  have hw := ht.of_get hv
  split
  swap
  · exact fail_noPanic
  rename_i data shape
  split
  swap
  · exact fail_noPanic
  rename_i r c hdims
  have hlen : data.length = r * c := by
    rw [show data.length = _ from hw, hdims]
    simp
  refine Ends.bind (P := fun out => out.length = r * c) ?_ fun out hout => ?_
  · refine forRange_ends (fun i hi out hout => ?_) (by simp [hlen])
    refine forRange_ends (fun j hj out hout => ?_) hout
    refine (index_noPanic (hlen ▸ flat_lt hi hj)).bind fun x _ => ?_
    refine (write_noPanic ?_).weaken fun _ h => h.trans hout
    rw [hout, Nat.mul_comm r c]
    exact flat_lt hj hi
  · refine (shapeOf_noPanic _).bind fun s hs => store_noPanic ht ?_
    rw [Value.Wf, hout, hs]
    simp [Nat.mul_comm]

theorem conv_noPanic (ht : TableWf table) :
    NoPanic TableWf (conv table dst a b padding stride) := by
  refine operand_noPanic ht fun va _ hxa => operand_noPanic ht fun vb _ hxb => ?_
  generalize (operand va).1 = xa, (operand va).2 = sa at hxa ⊢
  generalize (operand vb).1 = xb, (operand vb).2 = sb at hxb ⊢
  split
  swap
  · exact fail_noPanic
  rename_i n c h w f fc kh kw hsa hsb
  refine .ite (fun _ => fail_noPanic) fun hguard => .ite (fun _ => fail_noPanic) fun _ => ?_
  obtain ⟨_, hfc⟩ := not_or.mp hguard
  rw [not_not] at hfc
  subst hfc
  have hla : xa.length = n * c * h * w := by
    rw [hxa, hsa]
    simp [Nat.mul_assoc]
  have hlb : xb.length = f * c * kh * kw := by
    rw [hxb, hsb]
    simp [Nat.mul_assoc]
  generalize convAxis padding stride.toNat h kh = axisH
  generalize convAxis padding stride.toNat w kw = axisW
  obtain ⟨oh, padH⟩ := axisH
  obtain ⟨ow, padW⟩ := axisW
  refine .ite (fun _ => fail_noPanic) fun _ => ?_
  refine Ends.bind (P := fun out => out.length = n * f * oh * ow) ?_ fun out hout => ?_
  · refine forRange_ends (fun bn hbn out hout => ?_) (by simp)
    refine forRange_ends (fun bf hbf out hout => ?_) hout
    refine forRange_ends (fun oy hoy out hout => ?_) hout
    refine forRange_ends (fun ox hox out hout => ?_) hout
    refine Ends.bind (P := fun _ => True) ?_ fun acc _ => ?_
    · refine forRange_ends (fun cc hcc acc _ => ?_) trivial
      refine forRange_ends (fun ky hky acc _ => ?_) trivial
      refine forRange_ends (fun kx hkx acc _ => ?_) trivial
      refine .ite (fun _ => trivial) fun hin => ?_
      simp only [not_or, Nat.not_lt, ge_iff_le, Nat.not_le] at hin
      obtain ⟨_, hiy, _, hix⟩ := hin
      refine (index_noPanic ?_).bind fun _ _ => (index_noPanic ?_).bind fun _ _ => trivial
      · rw [hla]
        exact flat_lt (flat_lt (flat_lt hbn hcc) hiy) hix
      · rw [hlb]
        exact flat_lt (flat_lt (flat_lt hbf hcc) hky) hkx
    · refine (write_noPanic ?_).weaken fun _ h => h.trans hout
      rw [hout]
      exact flat_lt (flat_lt (flat_lt hbn hbf) hoy) hox
  · refine (shapeOf_noPanic _).bind fun s hs => store_noPanic ht ?_
    rw [Value.Wf, hout, hs]
    simp [Nat.mul_assoc]

-- ---------------------------------------------------------------------------
-- Sampling
-- ---------------------------------------------------------------------------

theorem rng_noPanic {dist : RngDist} (ht : TableWf table) (hf : ∀ v ∈ table, v.Fits) :
    NoPanic TableWf (rng libm table dst seed dist) := by
  refine get_noPanic.bind fun old hold => ?_
  have hfits := hf old (List.mem_of_getElem? hold)
  refine .ite (fun _ => ?_) fun hr => store_noPanic ht ?_
  · refine (index_noPanic ?_).bind fun _ _ => store_noPanic ht trivial
    simp
  · cases old with
    | tensor data shape =>
      have hpos := prod_dims_pos shape
      simp only [Value.Wf, Value.elementCount, Value.shape, List.length_map, List.length_range]
      rw [numElements_of_lt hfits]
      omega
    | _ => exact absurd rfl hr

-- ---------------------------------------------------------------------------
-- Matmul
-- ---------------------------------------------------------------------------

/-- A stored operand is read in range, unless it is transposed and taller
than wide. -/
theorem matmulIndex_lt {rows cols r c : Nat}
    (hr : r < if t then cols else rows) (hc : c < if t then rows else cols)
    (ht : t = true → rows ≤ cols) : matmulIndex rows cols r c t < rows * cols := by
  unfold matmulIndex
  cases t with
  | false => exact flat_lt hr hc
  | true =>
    have hle : c * rows ≤ c * cols := Nat.mul_le_mul_left c (ht rfl)
    have hlt : c * cols + r < rows * cols := flat_lt hc hr
    simp only [if_true]
    omega

/-- The last entry of a taller operand is out of range. -/
theorem matmulIndex_overruns {rows cols : Nat} (hpos : 0 < cols) (h : cols < rows) :
    rows * cols ≤ matmulIndex rows cols (cols - 1) (rows - 1) true := by
  obtain ⟨c, rfl⟩ : ∃ c, cols = c + 1 := ⟨cols - 1, by omega⟩
  obtain ⟨r, rfl⟩ : ∃ r, rows = r + 1 := ⟨rows - 1, by omega⟩
  simp only [matmulIndex, if_true, Nat.add_sub_cancel]
  have hle : r * (c + 2) ≤ r * (r + 1) := Nat.mul_le_mul_left r (by omega)
  calc (r + 1) * (c + 1) = r * c + r + (c + 1) := by ring
    _ ≤ r * c + r + (r + c) := Nat.add_le_add_left (by omega) _
    _ = r * (c + 2) + c := by ring
    _ ≤ r * (r + 1) + c := Nat.add_le_add_right hle c

/-- The loops of `matmul` on two matrices of the stored extents. -/
def matmulLoops (xa xb : List F64) (m0 k0 k1 n1 m n k : Nat) (ta tb : Bool) : Run (List F64) :=
  forRange m (List.replicate (m * n) (F64.zero false)) fun r out =>
    forRange n out fun c out => do
      let acc ← forRange k (F64.zero false) fun k acc => do
        let av ← index xa (matmulIndex m0 k0 r k ta)
        let bv ← index xb (matmulIndex k1 n1 k c tb)
        return acc.add (av.mul bv)
      write out (r * n + c) acc

variable {xa xb : List F64} {m0 k0 k1 n1 m n k : Nat} {ta tb : Bool}

theorem matmulLoops_ends {E : Stop → Prop}
    (hindex : ∀ r < m, ∀ c < n, ∀ j < k, Ends E (fun _ => True) (index xa (matmulIndex m0 k0 r j ta)) ∧
      Ends E (fun _ => True) (index xb (matmulIndex k1 n1 j c tb))) :
    Ends E (fun out => out.length = m * n) (matmulLoops xa xb m0 k0 k1 n1 m n k ta tb) := by
  refine forRange_ends (fun r hr out hout => ?_) (by simp)
  refine forRange_ends (fun c hc out hout => ?_) hout
  refine Ends.bind (P := fun _ => True) ?_ fun acc _ => ?_
  · refine forRange_ends (fun j hj acc _ => ?_) trivial
    obtain ⟨ha, hb⟩ := hindex r hr c hc j hj
    exact ha.bind fun _ _ => hb.bind fun _ _ => trivial
  · exact (write_noPanic (hout ▸ flat_lt hr hc)).weaken fun _ h => h.trans hout

theorem index_ok_lt (h : index data i = .ok x) : i < data.length := by
  unfold index at h
  split at h
  · exact (List.getElem?_eq_some_iff.mp ‹_›).1
  · cases h

/-- Loops that run to their end have read every index. -/
theorem matmulLoops_visits (h : matmulLoops xa xb m0 k0 k1 n1 m n k ta tb = .ok out)
    (hr : r < m) (hc : c < n) (hj : j < k) :
    matmulIndex m0 k0 r j ta < xa.length ∧ matmulIndex k1 n1 j c tb < xb.length := by
  obtain ⟨_, _, h⟩ := forRange_visits h hr
  obtain ⟨_, _, h⟩ := forRange_visits h hc
  obtain ⟨acc, h, _⟩ := bind_ok.mp h
  obtain ⟨_, _, h⟩ := forRange_visits h hj
  obtain ⟨av, ha, h⟩ := bind_ok.mp h
  obtain ⟨bv, hb, _⟩ := bind_ok.mp h
  exact ⟨index_ok_lt ha, index_ok_lt hb⟩

theorem operand_tensor {v : Value} (h : (operand v).2.dims = [m, n]) :
    ∃ data shape, v = .tensor data shape ∧ shape.dims = [m, n] := by
  cases v with
  | tensor data shape => exact ⟨data, shape, rfl, h⟩
  | _ => cases h

theorem effective_dims (t : Bool) (x y : Nat) :
    (if t = true then (y, x) else (x, y)) = (if t then y else x, if t then x else y) := by
  cases t <;> rfl

theorem matmul_noPanic (ht : TableWf table) (ho : ¬ Overruns table (.matmul dst a b ta tb)) :
    NoPanic TableWf (matmul table dst a b ta tb) := by
  refine operand_noPanic ht fun va ha hxa => operand_noPanic ht fun vb hb hxb => ?_
  split
  swap
  · exact fail_noPanic
  rename_i m0 k0 k1 n1 hsa hsb
  obtain ⟨da, sa, rfl, hda⟩ := operand_tensor hsa
  obtain ⟨db, sb, rfl, hdb⟩ := operand_tensor hsb
  rw [effective_dims ta, effective_dims tb]
  refine .ite (fun _ => fail_noPanic) fun hk => ?_
  rw [not_not] at hk
  have hla : da.length = m0 * k0 := by simpa [operand, hda] using hxa
  have hlb : db.length = k1 * n1 := by simpa [operand, hdb] using hxb
  have hsafe : ∀ P, (ta = true ∧ k0 < m0 ∨ tb = true ∧ n1 < k1) → P := fun P h =>
    absurd ⟨da, sa, db, sb, m0, k0, k1, n1, ha, hb, hda, hdb, hk, h⟩ ho
  refine Ends.bind (matmulLoops_ends fun r hr c hc j hj => ⟨?_, ?_⟩) fun out hout => ?_
  · refine index_noPanic (lt_of_lt_of_eq (matmulIndex_lt hr hj fun hta => ?_) hla.symm)
    exact Nat.le_of_not_lt fun hlt => hsafe _ (.inl ⟨hta, hlt⟩)
  · refine index_noPanic (lt_of_lt_of_eq (matmulIndex_lt (hk ▸ hj) hc fun htb => ?_) hlb.symm)
    exact Nat.le_of_not_lt fun hlt => hsafe _ (.inr ⟨htb, hlt⟩)
  · refine (shapeOf_noPanic _).bind fun s hs => store_noPanic ht ?_
    rw [Value.Wf, hout, hs]
    simp

theorem index_panics (i : Nat) : Ends (· = .panic) (fun _ => True) (index data i) := by
  unfold index
  split <;> trivial

theorem dim_pos {s : Shape} (h : s.dims = [x, y]) : 0 < x ∧ 0 < y :=
  ⟨s.dims_pos x (by simp [h]), s.dims_pos y (by simp [h])⟩

/-- The loops of `matmul` on effective extents `m`, `n` and `k`. -/
theorem matmulLoops_panics (hla : xa.length = m0 * k0) (hlb : xb.length = k1 * n1)
    (hm0 : 0 < m0) (hk0 : 0 < k0) (hk1 : 0 < k1) (hn1 : 0 < n1)
    (hk : (if ta then m0 else k0) = if tb then n1 else k1)
    (hbad : ta = true ∧ k0 < m0 ∨ tb = true ∧ n1 < k1) :
    matmulLoops xa xb m0 k0 k1 n1 (if ta then k0 else m0) (if tb then k1 else n1)
      (if ta then m0 else k0) ta tb = .error .panic := by
  cases hout : matmulLoops xa xb m0 k0 k1 n1 (if ta then k0 else m0) (if tb then k1 else n1)
      (if ta then m0 else k0) ta tb with
  | error e =>
    have hends : Ends (· = .panic) _ (matmulLoops xa xb m0 k0 k1 n1 (if ta then k0 else m0)
        (if tb then k1 else n1) (if ta then m0 else k0) ta tb) :=
      matmulLoops_ends fun r _ c _ j _ => ⟨index_panics _, index_panics _⟩
    rw [hout] at hends
    exact congrArg _ hends
  | ok out =>
    exfalso
    rcases hbad with ⟨rfl, hlt⟩ | ⟨rfl, hlt⟩
    · have hover := matmulIndex_overruns hk0 hlt
      have hc : 0 < if tb then k1 else n1 := by split <;> assumption
      have := (matmulLoops_visits (r := k0 - 1) (j := m0 - 1) hout
        (Nat.sub_one_lt_of_lt hk0) hc (Nat.sub_one_lt_of_lt hm0)).1
      omega
    · have hover := matmulIndex_overruns hn1 hlt
      have hr : 0 < if ta then k0 else m0 := by split <;> assumption
      have := (matmulLoops_visits (c := k1 - 1) (j := n1 - 1) hout hr
        (Nat.sub_one_lt_of_lt hk1) (hk ▸ Nat.sub_one_lt_of_lt hn1)).2
      omega

theorem ok_bind {x : α} {f : α → Run β} : (.ok x : Run α) >>= f = f x := rfl

theorem load_tensor (h : table[slot]? = some (.tensor data shape)) :
    loadF64s table slot = .ok data ∧ tensorShape table slot = .ok shape := by
  simp [loadF64s, tensorShape, get, h, bind, Except.bind, pure, Except.pure, Value.shape]

/-- The kernel on matrices that fit together is its loops. -/
theorem matmul_eq {sa sb : Shape} (ha : table[a]? = some (.tensor xa sa))
    (hb : table[b]? = some (.tensor xb sb)) (hda : sa.dims = [m0, k0]) (hdb : sb.dims = [k1, n1])
    (hk : (if ta then m0 else k0) = if tb then n1 else k1) :
    matmul table dst a b ta tb = (do
      let out ← matmulLoops xa xb m0 k0 k1 n1 (if ta then k0 else m0) (if tb then k1 else n1)
        (if ta then m0 else k0) ta tb
      store table dst
        (.tensor out (← shapeOf [if ta then k0 else m0, if tb then k1 else n1]))) := by
  obtain ⟨hxa, hsa⟩ := load_tensor ha
  obtain ⟨hxb, hsb⟩ := load_tensor hb
  unfold matmul
  rw [hxa, hsa, hxb, hsb]
  simp only [ok_bind, hda, hdb]
  simp only [effective_dims]
  rw [if_neg (not_not.mpr hk)]
  rfl

theorem matmul_panics (ht : TableWf table) (ho : Overruns table (.matmul dst a b ta tb)) :
    matmul table dst a b ta tb = .error .panic := by
  obtain ⟨da, sa, db, sb, m0, k0, k1, n1, ha, hb, hda, hdb, hk, hbad⟩ := ho
  have hla : da.length = m0 * k0 := by simpa [Value.Wf, hda] using ht.of_get ha
  have hlb : db.length = k1 * n1 := by simpa [Value.Wf, hdb] using ht.of_get hb
  obtain ⟨hm0, hk0⟩ := dim_pos hda
  obtain ⟨hk1, hn1⟩ := dim_pos hdb
  rw [matmul_eq ha hb hda hdb hk, matmulLoops_panics hla hlb hm0 hk0 hk1 hn1 hk hbad]
  rfl

-- ---------------------------------------------------------------------------
-- Instructions and programs
-- ---------------------------------------------------------------------------

theorem runInstr_noPanic {i : Instr} (ht : TableWf table) (hf : ∀ v ∈ table, v.Fits)
    (ho : ¬ Overruns table i) : NoPanic TableWf (runInstr libm table i) := by
  have hpure : ∀ x : F64, NoPanic (fun _ => True) (.ok x : Run F64) := fun _ => trivial
  cases i with
  | add dst a b | sub dst a b | mul dst a b | max dst a b | min dst a b =>
    exact binOp_noPanic ht fun _ _ => hpure _
  | div dst a b => exact binOp_noPanic ht divide_noPanic
  | neg dst a | relu dst a | exp dst a | log dst a => exact unOp_noPanic ht
  | dot dst a b => exact dot_noPanic ht
  | reduce dst a axis monoid => exact reduce_noPanic ht hf
  | matmul dst a b ta tb => exact matmul_noPanic ht ho
  | broadcast dst a | mov dst a =>
    exact get_noPanic.bind fun v hv => store_noPanic ht (ht.of_get hv)
  | transpose dst a => exact transpose_noPanic ht
  | conv dst a b padding stride => exact conv_noPanic ht
  | rng dst seed dist => exact rng_noPanic ht hf
  | constF64 dst v | constI64 dst v => exact store_noPanic ht trivial

theorem runInstr_panics {i : Instr} (ht : TableWf table) (ho : Overruns table i) :
    runInstr libm table i = .error .panic := by
  cases i with
  | matmul dst a b ta tb => exact matmul_panics ht ho
  | _ => exact absurd ho id

end Interp

open Interp

variable {program : TargetProgram} {params : List Value} {i : Instr} {rest : List Instr}

theorem initialTable_wf (h : ∀ v ∈ params, v.Wf) : TableWf (initialTable program params) := by
  intro v hv
  rcases List.mem_append.mp hv with hv | hv
  · exact h v hv
  · rw [List.eq_of_mem_replicate hv]
    trivial

/-- What one step keeps, every run keeps. -/
theorem Reaches.wf (h : Reaches libm program params table rest) (hargs : ∀ v ∈ params, v.Wf)
    (hfits : ∀ table rest, Reaches libm program params table rest → ∀ v ∈ table, v.Fits) :
    TableWf table := by
  obtain ⟨l, hl, hrun⟩ := h
  induction l using List.reverseRecOn generalizing table rest with
  | nil =>
    rw [List.foldlM_nil, pure_ok] at hrun
    exact hrun ▸ initialTable_wf hargs
  | append_singleton l i ih =>
    rw [foldlM_append_cons, bind_ok] at hrun
    obtain ⟨t, ht, hlast⟩ := hrun
    obtain ⟨u, hi, hu⟩ := bind_ok.mp hlast
    rw [List.foldlM_nil, pure_ok] at hu
    subst hu
    have hreach : Reaches libm program params t (i :: rest) := ⟨l, by simp [hl], ht⟩
    have hwf := ih (by simpa using hl) ht
    by_cases ho : Overruns t i
    · rw [runInstr_panics hwf ho] at hi
      cases hi
    · have hgood : NoPanic TableWf (runInstr libm t i) := runInstr_noPanic hwf (hfits _ _ hreach) ho
      rw [hi] at hgood
      exact hgood

/-- A run of well-formed arguments of countable size never panics exactly
when no multiplication it reaches overruns an operand. -/
theorem execute_panics_iff (hargs : ∀ v ∈ params, v.Sized)
    (hfits : ∀ table rest, Reaches libm program params table rest → ∀ v ∈ table, v.Fits) :
    execute libm program params ≠ .error .panic ↔
      ∀ table i rest, Reaches libm program params table (i :: rest) → ¬ Overruns table i := by
  have hwf : ∀ v ∈ params, v.Wf := fun v hv =>
    (hargs v hv).wf (hfits _ _ .start v (List.mem_append_left _ hv))
  constructor
  · rintro hne table i rest h ho
    have hstep : runInstr libm table i = .error .panic := runInstr_panics (h.wf hwf hfits) ho
    obtain ⟨l, hl, hrun⟩ := h
    refine hne ?_
    rw [execute, hl, foldlM_append_cons, hrun]
    simp only [bind, Except.bind, hstep]
  · intro hsafe
    have hrun : ∀ rest table, Reaches libm program params table rest →
        NoPanic (fun _ => True) (rest.foldlM (runInstr libm) table) := by
      intro rest
      induction rest with
      | nil => exact fun _ _ => trivial
      | cons i rest ih =>
        intro table h
        rw [List.foldlM_cons]
        refine (runInstr_noPanic (h.wf hwf hfits) (hfits _ _ h) (hsafe _ _ _ h)).and_eq.bind ?_
        exact fun t ht => ih t (h.step ht.2)
    have hends : NoPanic (fun _ => True) (execute libm program params) :=
      (hrun _ _ .start).bind fun table _ =>
        (Ends.mapM fun r _ => get_noPanic.weaken fun _ _ => trivial).weaken fun _ _ => trivial
    intro he
    rw [he] at hends
    exact hends rfl

/-- Transposes its argument. -/
def transposeArg : TargetProgram := ⟨[.transpose 1 0], [1], 2⟩

def columnShape : Shape := ⟨[2, 1], by decide, by decide, by decide⟩

/-- A matrix of two rows and one column. -/
def columnOfTwo : Value := .tensor [⟨1⟩, ⟨2⟩] columnShape

/-- The tables of a program of one instruction. -/
theorem reaches_single (hp : program.instrs = [i]) (h : Reaches libm program params table rest) :
    table = initialTable program params ∧ rest = [i] ∨
      runInstr libm (initialTable program params) i = .ok table ∧ rest = [] := by
  obtain ⟨l, hl, hrun⟩ := h
  rw [hp] at hl
  cases l with
  | nil =>
    rw [List.foldlM_nil, pure_ok] at hrun
    exact .inl ⟨hrun.symm, hl.symm⟩
  | cons j l =>
    obtain ⟨rfl, hnil⟩ := List.cons.inj hl
    obtain ⟨rfl, rfl⟩ := List.append_eq_nil_iff.mp hnil.symm
    rw [List.foldlM_cons, bind_ok] at hrun
    obtain ⟨t, ht, hu⟩ := hrun
    rw [List.foldlM_nil, pure_ok] at hu
    exact .inr ⟨hu ▸ ht, rfl⟩

theorem transposeArg_fits (h : Reaches libm transposeArg [columnOfTwo] table rest) :
    ∀ v ∈ table, v.Fits := by
  rcases reaches_single rfl h with ⟨rfl, _⟩ | ⟨hrun, _⟩
  · decide
  · have hok : runInstr libm (initialTable transposeArg [columnOfTwo]) (.transpose 1 0) =
      .ok [columnOfTwo, .tensor [⟨1⟩, ⟨2⟩] ⟨[1, 2], by decide, by decide, by decide⟩] := rfl
    rw [hok, Except.ok.injEq] at hrun
    subst hrun
    decide

theorem execute_panics_iff_transposeArg :
    execute .absent transposeArg [columnOfTwo] ≠ .error .panic := by
  refine (execute_panics_iff (by decide) fun _ _ => transposeArg_fits).mpr ?_
  intro table i rest h
  rcases reaches_single rfl h with ⟨_, hi⟩ | ⟨_, hi⟩
  · obtain ⟨rfl, _⟩ := List.cons.inj hi
    exact id
  · cases hi

/-- The transposed left operand has more rows than columns. -/
def columnMatmul : String :=
  "xir v1 func @main \x7b\n%0 = param 0 : tensor<f64>[2,1]\n%1 = param 1 : tensor<f64>[2,1]\n" ++
  "%2 = matmul ta=true tb=false %0, %1 : tensor<f64>[1,1]\n\x7d\n"

theorem columnMatmul_panics :
    (do
      let (a, roots) ← Driver.parseAndVerify columnMatmul
      let program ← Driver.compileTier0 a roots
      return execute .absent program [columnOfTwo, columnOfTwo]) =
      (.ok (.error .panic) : Except JitError (Run (List Value))) := by
  decide +kernel

end Sxla
