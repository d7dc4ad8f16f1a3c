import Sxla.Library.Fill
import Sxla.Runtime.Safety

/-!
# The matmul kernel

The product asked for takes an operand's transpose by exchanging the indices
under the operand's own row stride, its number of columns. The kernel steps
through a transposed operand by the number of rows instead. The two agree on
all data of given shapes exactly when every transposed operand is square or
has a single row (`multiplies_iff`).
-/

namespace Sxla

open Checked RowMajor Interp

variable {table : List Value} {data xa xb : List F64} {sa sb : Shape} {w : Value}
  {dst a b m0 k0 k1 n1 m n k r c i j : Nat} {ta tb t : Bool} {x y x' y' : Nat → Nat → F64}

/-- Entry `(r, c)` of a matrix of `cols` columns, or of its transpose. -/
def entryOf (data : List F64) (cols : Nat) (transposed : Bool) (r c : Nat) : F64 :=
  data.getD (if transposed then c * cols + r else r * cols + c) (.zero false)

/-- The sum over `k` of `x[r][k] * y[k][c]`, left to right. -/
def rowByColumn (x y : Nat → Nat → F64) (k r c : Nat) : F64 :=
  (List.range k).foldl (fun acc j => acc.add ((x r j).mul (y j c))) (.zero false)

/-- The `m × n` tensor of these sums. -/
def IsProduct (x y : Nat → Nat → F64) (m k n : Nat) (w : Value) : Prop :=
  ∃ out s, Value.mkTensor out s = .ok w ∧ s.dims = [m, n] ∧
    ∀ r < m, ∀ c < n, out[r * n + c]? = some (rowByColumn x y k r c)

/-- The kernel multiplies all operands of these shapes. -/
def Multiplies (sa sb : Shape) (m0 k0 k1 n1 : Nat) (ta tb : Bool) : Prop :=
  ∀ table dst a b xa xb, dst < table.length →
    table[a]? = some (.tensor xa sa) → Value.mkTensor xa sa = .ok (.tensor xa sa) →
    table[b]? = some (.tensor xb sb) → Value.mkTensor xb sb = .ok (.tensor xb sb) →
    ∃ w, matmul table dst a b ta tb = .ok (table.set dst w) ∧
      IsProduct (entryOf xa k0 ta) (entryOf xb n1 tb) (if ta then k0 else m0)
        (if ta then m0 else k0) (if tb then k1 else n1) w

/-- The operands and the product can be counted in an `i64`. -/
def Countable (m0 k0 k1 n1 : Nat) (ta tb : Bool) : Prop :=
  m0 * k0 < 2 ^ 63 ∧ k1 * n1 < 2 ^ 63 ∧
    (if ta then k0 else m0) * (if tb then k1 else n1) < 2 ^ 63

-- ---------------------------------------------------------------------------
-- What the loops compute
-- ---------------------------------------------------------------------------

namespace Interp

/-- A loop whose steps all give results. -/
theorem forRange_eq {body : Nat → α → Run α} {f : Nat → α → α}
    (h : ∀ i < n, ∀ s, body i s = .ok (f i s)) (s : α) :
    forRange n s body = .ok ((List.range n).foldl (fun s i => f i s) s) := by
  have hends : Ends (fun _ => False)
      (fun t => t = (List.range n).foldl (fun s i => f i s) s) (forRange n s body) := by
    refine Ends.range (I := fun i t => t = (List.range i).foldl (fun s i => f i s) s) ?_ rfl
    rintro i hi s' rfl
    rw [h i hi, List.range_succ, List.foldl_append]
    rfl
  cases hrun : forRange n s body with
  | ok t =>
    rw [hrun] at hends
    exact congrArg _ hends
  | error e =>
    rw [hrun] at hends
    exact absurd hends id

theorem index_eq (h : i < data.length) (z : F64) : index data i = .ok (data.getD i z) := by
  simp [index, h]

/-- What the kernel takes for entry `(r, c)`. -/
def kernelEntry (data : List F64) (rows cols : Nat) (transposed : Bool) (r c : Nat) : F64 :=
  data.getD (matmulIndex rows cols r c transposed) (.zero false)

theorem write_fills {out : List F64} (h : k < out.length) (x : F64) :
    Ends (fun _ : Stop => False) (Fills k [] (fun _ => x) out) (write out k x) := by
  rw [write, if_pos h]
  exact fills_set h x

theorem matmulLoops_fills
    (ha : ∀ r < m, ∀ j < k, matmulIndex m0 k0 r j ta < xa.length)
    (hb : ∀ c < n, ∀ j < k, matmulIndex k1 n1 j c tb < xb.length) :
    Ends (fun _ => False)
      (Fills 0 [m, n] (fun idx => rowByColumn (kernelEntry xa m0 k0 ta) (kernelEntry xb k1 n1 tb) k
        (idx.getD 0 0) (idx.getD 1 0)) (List.replicate (m * n) (F64.zero false)))
      (matmulLoops xa xb m0 k0 k1 n1 m n k ta tb) := by
  refine ends_fills fun r hr out hout => ends_fills fun c hc out' hout' => ?_
  have hsum : forRange k (F64.zero false) (fun j acc => do
      let av ← index xa (matmulIndex m0 k0 r j ta)
      let bv ← index xb (matmulIndex k1 n1 j c tb)
      return acc.add (av.mul bv)) =
      .ok (rowByColumn (kernelEntry xa m0 k0 ta) (kernelEntry xb k1 n1 tb) k r c) := by
    refine forRange_eq (fun j hj acc => ?_) _
    rw [index_eq (ha r hr j hj) (.zero false), index_eq (hb c hc j hj) (.zero false)]
    rfl
  change Ends _ _ (forRange k _ _ >>= fun acc => write out' (r * n + c) acc)
  rw [hsum, ok_bind]
  have hlt : r * n + c < out'.length := by
    rw [hout', hout, List.length_replicate]
    exact flat_lt hr hc
  simpa using write_fills hlt _

/-- Positive extents in range make a shape. -/
theorem shapeOf_ok {dims : List Nat} (hr : dims.length ≤ MAX_RANK)
    (hp : ∀ d ∈ dims, 0 < d ∧ d < 0x8000000000000000) :
    ∃ s, shapeOf dims = .ok s ∧ s.dims = dims := by
  rw [shapeOf, dif_pos hr, dif_pos hp]
  exact ⟨_, rfl, rfl⟩

end Interp

theorem wf_of_mkTensor {s : Shape} (h : Value.mkTensor data s = .ok w) (hs : s.dims.prod < 2 ^ 63) :
    w = .tensor data s ∧ data.length = s.dims.prod := by
  unfold Value.mkTensor at h
  split at h
  · cases h
  · rename_i hl
    rw [not_not, numElements_of_lt hs] at hl
    exact ⟨(Except.ok.inj h).symm, hl⟩

theorem mkTensor_of_length {s : Shape} (h : data.length = s.dims.prod) (hs : s.dims.prod < 2 ^ 63) :
    Value.mkTensor data s = .ok (.tensor data s) := by
  rw [Value.mkTensor, numElements_of_lt hs, if_neg (not_not.mpr h)]


/-- Where no read leaves the data, the kernel multiplies what it reads. -/
theorem matmul_isProduct (hdst : dst < table.length) (ha : table[a]? = some (.tensor xa sa))
    (hb : table[b]? = some (.tensor xb sb)) (hda : sa.dims = [m0, k0]) (hdb : sb.dims = [k1, n1])
    (hk : (if ta then m0 else k0) = if tb then n1 else k1) (hcount : Countable m0 k0 k1 n1 ta tb)
    (hla : xa.length = m0 * k0) (hlb : xb.length = k1 * n1) (hta : ta = true → m0 ≤ k0)
    (htb : tb = true → k1 ≤ n1) :
    ∃ w, matmul table dst a b ta tb = .ok (table.set dst w) ∧
      IsProduct (kernelEntry xa m0 k0 ta) (kernelEntry xb k1 n1 tb) (if ta then k0 else m0)
        (if ta then m0 else k0) (if tb then k1 else n1) w := by
  obtain ⟨hm0, hk0⟩ := dim_pos hda
  obtain ⟨hk1, hn1⟩ := dim_pos hdb
  obtain ⟨_, _, hfits⟩ := hcount
  have hpos : 0 < (if ta then k0 else m0) ∧ 0 < if tb then k1 else n1 := by
    constructor <;> split <;> assumption
  have hlt : (if ta then k0 else m0) < 0x8000000000000000 ∧
      (if tb then k1 else n1) < 0x8000000000000000 := by
    constructor
    · exact lt_of_le_of_lt (Nat.le_mul_of_pos_right _ hpos.2) hfits
    · exact lt_of_le_of_lt (Nat.le_mul_of_pos_left _ hpos.1) hfits
  obtain ⟨s, hs, hsd⟩ : ∃ s, shapeOf [if ta then k0 else m0, if tb then k1 else n1] = .ok s ∧
      s.dims = [if ta then k0 else m0, if tb then k1 else n1] :=
    shapeOf_ok (by simp [MAX_RANK]) (by simpa using ⟨⟨hpos.1, hlt.1⟩, hpos.2, hlt.2⟩)
  have hreadA : ∀ r < if ta then k0 else m0, ∀ j < if ta then m0 else k0,
      matmulIndex m0 k0 r j ta < xa.length := fun r hr j hj => hla ▸ matmulIndex_lt hr hj hta
  have hreadB : ∀ c < if tb then k1 else n1, ∀ j < if ta then m0 else k0,
      matmulIndex k1 n1 j c tb < xb.length := fun c hc j hj =>
    hlb ▸ matmulIndex_lt (hk ▸ hj) hc htb
  have hloops := matmulLoops_fills hreadA hreadB
  rw [matmul_eq ha hb hda hdb hk]
  cases hrun : matmulLoops xa xb m0 k0 k1 n1 (if ta then k0 else m0) (if tb then k1 else n1)
      (if ta then m0 else k0) ta tb with
  | error e =>
    rw [hrun] at hloops
    exact absurd hloops id
  | ok out =>
    rw [hrun] at hloops
    refine ⟨.tensor out s, ?_, out, s, mkTensor_of_length ?_ ?_, hsd, fun r hr c hc => ?_⟩
    · rw [ok_bind, hs, ok_bind, store, if_pos hdst]
    · rw [hloops.length_eq, hsd]
      simp
    · simpa [hsd] using hfits
    · have hentry := hloops.entry [r, c] (inBounds_matrix.mpr ⟨r, c, rfl, hr, hc⟩)
      rwa [offset_matrix, Nat.zero_mul, Nat.zero_add] at hentry

/-- A value is the product of one family of sums. -/
theorem IsProduct.sum_eq (h : IsProduct x y m k n w) (h' : IsProduct x' y' m k n w) (hr : r < m)
    (hc : c < n) : rowByColumn x y k r c = rowByColumn x' y' k r c := by
  obtain ⟨out, s, hw, _, hentry⟩ := h
  obtain ⟨out', s', hw', _, hentry'⟩ := h'
  have htensor : ∀ {out s}, Value.mkTensor out s = .ok w → w = .tensor out s := by
    intro out s h
    unfold Value.mkTensor at h
    split at h
    · cases h
    · exact (Except.ok.inj h).symm
  obtain ⟨rfl, _⟩ := Value.tensor.inj ((htensor hw).symm.trans (htensor hw'))
  exact Option.some.inj ((hentry r hr c hc).symm.trans (hentry' r hr c hc))

theorem IsProduct.congr (h : IsProduct x y m k n w) (hx : ∀ r < m, ∀ j < k, x r j = x' r j)
    (hy : ∀ j < k, ∀ c < n, y j c = y' j c) : IsProduct x' y' m k n w := by
  obtain ⟨out, s, hw, hs, hentry⟩ := h
  refine ⟨out, s, hw, hs, fun r hr c hc => (hentry r hr c hc).trans (congrArg some ?_)⟩
  refine List.foldl_ext _ _ _ fun acc j hj => ?_
  rw [hx r hr j (List.mem_range.mp hj), hy j (List.mem_range.mp hj) c hc]

-- ---------------------------------------------------------------------------
-- Square and single-row operands
-- ---------------------------------------------------------------------------

/-- Stepping by the number of rows reads the transpose of a square matrix and
of a single row. -/
theorem kernelEntry_eq (h : t = true → m = n ∨ m = 1) (hj : t = true → j < m) :
    kernelEntry data m n t i j = entryOf data n t i j := by
  unfold kernelEntry entryOf matmulIndex
  cases t with
  | false => rfl
  | true =>
    simp only [if_true]
    rcases h rfl with rfl | rfl
    · rfl
    · have hj := hj rfl
      obtain rfl : j = 0 := by omega
      simp only [Nat.zero_mul]

-- ---------------------------------------------------------------------------
-- Data that shows the difference
-- ---------------------------------------------------------------------------

def one : F64 := ⟨0x3ff0000000000000⟩

/-- One at place `p`, zero elsewhere. -/
def indicator (p len : Nat) : List F64 :=
  (List.range len).map fun i => if i = p then one else .zero false

theorem indicator_getD (hp : p < len) :
    (indicator p len).getD i (.zero false) = if i = p then one else .zero false := by
  unfold indicator
  rw [List.getD_eq_getElem?_getD, List.getElem?_map]
  rcases Nat.lt_or_ge i len with hi | hi
  · rw [List.getElem?_range hi]
    rfl
  · rw [List.getElem?_eq_none (by simpa using hi), if_neg (by omega)]
    rfl

theorem ones_getD (hi : i < len) : (List.replicate len one).getD i (.zero false) = one := by
  simp [hi]

theorem unit_arithmetic :
    ((F64.zero false).mul one = .zero false ∧ one.mul (F64.zero false) = .zero false ∧
      one.mul one = one) ∧ (F64.zero false).add one = one ∧ one.add (F64.zero false) = one := by
  decide +kernel

theorem zero_mul_one : (F64.zero false).mul one = .zero false := unit_arithmetic.1.1

theorem one_mul_zero : one.mul (F64.zero false) = .zero false := unit_arithmetic.1.2.1

theorem one_mul_one : one.mul one = one := unit_arithmetic.1.2.2

/-- A sum with a single term that is one. -/
theorem sum_single {term : Nat → F64} (h : ∀ i < n, term i = if i = j then one else .zero false) :
    (List.range n).foldl (fun acc i => acc.add (term i)) (.zero false) =
      if j < n then one else .zero false := by
  induction n with
  | zero => rfl
  | succ n ih =>
    rw [List.range_succ, List.foldl_append, ih fun i hi => h i (Nat.lt_succ_of_lt hi),
      List.foldl_cons, List.foldl_nil, h n (Nat.lt_succ_self n)]
    rcases Nat.lt_trichotomy n j with hn | rfl | hn
    · rw [if_neg (by omega), if_neg (by omega), if_neg (by omega)]
      rfl
    · rw [if_neg (by omega), if_pos rfl, if_pos (by omega)]
      exact unit_arithmetic.2.1
    · rw [if_pos hn, if_neg (by omega), if_pos (by omega)]
      exact unit_arithmetic.2.2

/-- Along a row with a single one, against a column of ones. -/
theorem rowByColumn_right (hx : ∀ i < k, x r i = if i = j then one else .zero false)
    (hy : ∀ i < k, y i c = one) : rowByColumn x y k r c = if j < k then one else .zero false := by
  refine sum_single fun i hi => ?_
  rw [hx i hi, hy i hi]
  split
  · exact one_mul_one
  · exact zero_mul_one

theorem rowByColumn_left (hx : ∀ i < k, x r i = one)
    (hy : ∀ i < k, y i c = if i = j then one else .zero false) :
    rowByColumn x y k r c = if j < k then one else .zero false := by
  refine sum_single fun i hi => ?_
  rw [hx i hi, hy i hi]
  split
  · exact one_mul_one
  · exact one_mul_zero

theorem kernelEntry_ones (hr : r < if t then n else m) (hc : c < if t then m else n)
    (ht : t = true → m ≤ n) : kernelEntry (List.replicate (m * n) one) m n t r c = one :=
  ones_getD (matmulIndex_lt hr hc ht)

theorem entryOf_ones (hr : r < if t then n else m) (hc : c < if t then m else n) :
    entryOf (List.replicate (m * n) one) n t r c = one := by
  refine ones_getD ?_
  cases t with
  | false => exact flat_lt hr hc
  | true => exact flat_lt hc hr

/-- Operands that are multiplied stay in range, and the kernel's sums are the
ones asked for. -/
theorem Multiplies.sums (h : Multiplies sa sb m0 k0 k1 n1 ta tb) (hda : sa.dims = [m0, k0])
    (hdb : sb.dims = [k1, n1]) (hk : (if ta then m0 else k0) = if tb then n1 else k1)
    (hcount : Countable m0 k0 k1 n1 ta tb) (hla : xa.length = m0 * k0) (hlb : xb.length = k1 * n1) :
    (ta = true → m0 ≤ k0) ∧ (tb = true → k1 ≤ n1) ∧
      ∀ r < if ta then k0 else m0, ∀ c < if tb then k1 else n1,
        rowByColumn (kernelEntry xa m0 k0 ta) (kernelEntry xb k1 n1 tb) (if ta then m0 else k0) r c =
          rowByColumn (entryOf xa k0 ta) (entryOf xb n1 tb) (if ta then m0 else k0) r c := by
  have hfa : sa.dims.prod = m0 * k0 := by simp [hda]
  have hfb : sb.dims.prod = k1 * n1 := by simp [hdb]
  obtain ⟨w, hw, hprod⟩ := h [Value.tensor xa sa, .tensor xb sb] 0 0 1 xa xb (Nat.zero_lt_succ _) rfl
    (mkTensor_of_length (hla.trans hfa.symm) (hfa ▸ hcount.1)) rfl
    (mkTensor_of_length (hlb.trans hfb.symm) (hfb ▸ hcount.2.1))
  have hwf : TableWf [.tensor xa sa, .tensor xb sb] := by
    simp [TableWf, Value.Wf, hla, hlb, hfa, hfb]
  have hin : ¬ Overruns [.tensor xa sa, .tensor xb sb] (.matmul 0 0 1 ta tb) := by
    intro ho
    rw [matmul_panics hwf ho] at hw
    cases hw
  have hta : ta = true → m0 ≤ k0 := fun ht => Nat.le_of_not_lt fun hlt =>
    hin ⟨xa, sa, xb, sb, m0, k0, k1, n1, rfl, rfl, hda, hdb, hk, .inl ⟨ht, hlt⟩⟩
  have htb : tb = true → k1 ≤ n1 := fun ht => Nat.le_of_not_lt fun hlt =>
    hin ⟨xa, sa, xb, sb, m0, k0, k1, n1, rfl, rfl, hda, hdb, hk, .inr ⟨ht, hlt⟩⟩
  have ha : ([.tensor xa sa, .tensor xb sb] : List Value)[0]? = some (.tensor xa sa) := rfl
  have hb : ([.tensor xa sa, .tensor xb sb] : List Value)[1]? = some (.tensor xb sb) := rfl
  obtain ⟨w', hw', hprod'⟩ := matmul_isProduct (Nat.zero_lt_succ _) ha hb hda hdb hk hcount hla hlb
    hta htb
  obtain rfl : w' = w := by
    have htable := Except.ok.inj (hw'.symm.trans hw)
    simpa using htable
  exact ⟨hta, htb, fun r hr c hc => hprod'.sum_eq hprod hr hc⟩

theorem Multiplies.left (h : Multiplies sa sb m0 k0 k1 n1 true tb) (hda : sa.dims = [m0, k0])
    (hdb : sb.dims = [k1, n1]) (hk : m0 = if tb then n1 else k1)
    (hcount : Countable m0 k0 k1 n1 true tb) : m0 = k0 ∨ m0 = 1 := by
  obtain ⟨hm0, hk0⟩ := dim_pos hda
  obtain ⟨hk1, hn1⟩ := dim_pos hdb
  by_contra hne
  obtain ⟨hsq, hone⟩ := not_or.mp hne
  have hcol : 0 < if tb then k1 else n1 := by split <;> assumption
  -- the first entry of column 0 that the kernel reads after place 0 is place `m0`
  have hla : (indicator m0 (m0 * k0)).length = m0 * k0 := by simp [indicator]
  have hlb : (List.replicate (k1 * n1) one).length = k1 * n1 := List.length_replicate
  obtain ⟨hle, htb, hsum⟩ := h.sums hda hdb hk hcount hla hlb
  have hlt : m0 < k0 := Nat.lt_of_le_of_ne (hle rfl) hsq
  have hplace : m0 < m0 * k0 := (Nat.lt_mul_iff_one_lt_right hm0).mpr (by omega)
  have hkernel := rowByColumn_right (k := m0) (r := 0) (c := 0) (j := 1)
    (x := kernelEntry (indicator m0 (m0 * k0)) m0 k0 true)
    (y := kernelEntry (List.replicate (k1 * n1) one) k1 n1 tb)
    (fun i _ => ?_) fun i hi => kernelEntry_ones (hk ▸ hi) hcol htb
  · have hasked := rowByColumn_right (k := m0) (r := 0) (c := 0) (j := m0)
      (x := entryOf (indicator m0 (m0 * k0)) k0 true)
      (y := entryOf (List.replicate (k1 * n1) one) n1 tb)
      (fun i hi => ?_) fun i hi => entryOf_ones (hk ▸ hi) hcol
    · have heq := (hkernel.symm.trans (hsum 0 hk0 0 hcol)).trans hasked
      rw [if_pos (by omega), if_neg (Nat.lt_irrefl _)] at heq
      exact absurd heq (by decide)
    · rw [entryOf, indicator_getD hplace]
      simp only [if_true, Nat.add_zero]
      have hleft : i * k0 ≠ m0 := by
        rcases Nat.eq_zero_or_pos i with rfl | hi
        · omega
        · exact (lt_of_lt_of_le hlt (Nat.le_mul_of_pos_left _ hi)).ne'
      rw [if_neg hleft, if_neg hi.ne]
  · rw [kernelEntry, matmulIndex, indicator_getD hplace]
    simp only [if_true, Nat.add_zero]
    have hi : i * m0 = m0 ↔ i = 1 := Nat.mul_eq_right hm0.ne'
    simp only [hi]

theorem Multiplies.right (h : Multiplies sa sb m0 k0 k1 n1 ta true) (hda : sa.dims = [m0, k0])
    (hdb : sb.dims = [k1, n1]) (hk : (if ta then m0 else k0) = n1)
    (hcount : Countable m0 k0 k1 n1 ta true) : k1 = n1 ∨ k1 = 1 := by
  obtain ⟨hm0, hk0⟩ := dim_pos hda
  obtain ⟨hk1, hn1⟩ := dim_pos hdb
  by_contra hne
  obtain ⟨hsq, hone⟩ := not_or.mp hne
  have hrow : 0 < if ta then k0 else m0 := by split <;> assumption
  -- column 1 starts at place `k1` for the kernel, and at place `n1` in the data
  have hla : (List.replicate (m0 * k0) one).length = m0 * k0 := List.length_replicate
  have hlb : (indicator k1 (k1 * n1)).length = k1 * n1 := by simp [indicator]
  obtain ⟨hta, hle, hsum⟩ := h.sums hda hdb hk hcount hla hlb
  have hlt : k1 < n1 := Nat.lt_of_le_of_ne (hle rfl) hsq
  have hplace : k1 < k1 * n1 := (Nat.lt_mul_iff_one_lt_right hk1).mpr (by omega)
  have hcol : 1 < k1 := by omega
  have hkernel := rowByColumn_left (k := n1) (r := 0) (c := 1) (j := 0)
    (x := kernelEntry (List.replicate (m0 * k0) one) m0 k0 ta)
    (y := kernelEntry (indicator k1 (k1 * n1)) k1 n1 true)
    (fun i hi => kernelEntry_ones hrow (hk ▸ hi) hta) fun i _ => ?_
  · have hasked := rowByColumn_left (k := n1) (r := 0) (c := 1) (j := n1)
      (x := entryOf (List.replicate (m0 * k0) one) k0 ta)
      (y := entryOf (indicator k1 (k1 * n1)) n1 true)
      (fun i hi => entryOf_ones hrow (hk ▸ hi)) fun i hi => ?_
    · rw [hk] at hsum
      have heq := (hkernel.symm.trans (hsum 0 hrow 1 hcol)).trans hasked
      rw [if_pos hn1, if_neg (Nat.lt_irrefl _)] at heq
      exact absurd heq (by decide)
    · rw [entryOf, indicator_getD hplace]
      simp only [if_true, Nat.one_mul]
      rw [if_neg (by omega), if_neg hi.ne]
  · rw [kernelEntry, matmulIndex, indicator_getD hplace]
    simp only [if_true, Nat.one_mul]
    have hi : k1 + i = k1 ↔ i = 0 := Nat.add_eq_left
    simp only [hi]

/-- The kernel multiplies all operands of given shapes exactly when every
transposed one is square or a single row. -/
theorem multiplies_iff (hda : sa.dims = [m0, k0]) (hdb : sb.dims = [k1, n1])
    (hk : (if ta then m0 else k0) = if tb then n1 else k1) (hcount : Countable m0 k0 k1 n1 ta tb) :
    Multiplies sa sb m0 k0 k1 n1 ta tb ↔
      (ta = true → m0 = k0 ∨ m0 = 1) ∧ (tb = true → k1 = n1 ∨ k1 = 1) := by
  constructor
  · refine fun h => ⟨?_, ?_⟩
    · rintro rfl
      exact h.left hda hdb hk hcount
    · rintro rfl
      exact h.right hda hdb hk hcount
  · rintro ⟨hta, htb⟩ table dst a b xa xb hdst ha hsa hb hsb
    obtain ⟨_, hk0⟩ := dim_pos hda
    obtain ⟨_, hn1⟩ := dim_pos hdb
    have hfa : sa.dims.prod = m0 * k0 := by simp [hda]
    have hfb : sb.dims.prod = k1 * n1 := by simp [hdb]
    obtain ⟨_, hla⟩ := wf_of_mkTensor hsa (hfa ▸ hcount.1)
    obtain ⟨_, hlb⟩ := wf_of_mkTensor hsb (hfb ▸ hcount.2.1)
    obtain ⟨w, hw, hprod⟩ := matmul_isProduct hdst ha hb hda hdb hk hcount (hla.trans hfa)
      (hlb.trans hfb) (fun ht => (hta ht).elim Nat.le_of_eq fun h => h ▸ hk0)
      (fun ht => (htb ht).elim Nat.le_of_eq fun h => h ▸ hn1)
    refine ⟨w, hw, hprod.congr (fun r _ j hj => kernelEntry_eq hta fun ht => ?_)
      fun j _ c hc => kernelEntry_eq htb fun ht => ?_⟩
    · simpa [ht] using hj
    · simpa [ht] using hc

def squareShape : Shape := ⟨[2, 2], by decide, by decide, by decide⟩

theorem multiplies_iff_square : Multiplies squareShape columnShape 2 2 2 1 true false := by
  have hcount : Countable 2 2 2 1 true false := ⟨by decide, by decide, by decide⟩
  have hsquare : squareShape.dims = [2, 2] := rfl
  have hcolumn : columnShape.dims = [2, 1] := rfl
  exact (multiplies_iff hsquare hcolumn rfl hcount).mpr ⟨fun _ => .inl rfl, fun h => by cases h⟩

def wideShape : Shape := ⟨[2, 3], by decide, by decide, by decide⟩

/-- The transpose of `[[0, 0, 1], [0, 0, 0]]` times a column of ones has the
entries 0, 0 and 1; the kernel finds 1, 0 and 1. -/
theorem wideMatmul_not_multiplies : ¬ Multiplies wideShape columnShape 2 3 2 1 true false := by
  intro h
  obtain ⟨w, hw, out, s, hout, _, hentry⟩ := h
    [.tensor (indicator 2 6) wideShape, .tensor [one, one] columnShape] 0 0 1 _ _ (by decide) rfl rfl
    rfl rfl
  have hrun : matmul [.tensor (indicator 2 6) wideShape, .tensor [one, one] columnShape] 0 0 1
      true false = .ok [.tensor [one, .zero false, one]
        ⟨[3, 1], by decide, by decide, by decide⟩, .tensor [one, one] columnShape] := by
    decide +kernel
  obtain rfl : Value.tensor [one, .zero false, one] ⟨[3, 1], by decide, by decide, by decide⟩ = w :=
    (List.cons.inj (Except.ok.inj (hrun.symm.trans hw))).1
  have hdata : out = [one, .zero false, one] := by
    unfold Value.mkTensor at hout
    split at hout
    · cases hout
    · exact (Value.tensor.inj (Except.ok.inj hout)).1
  have hfirst := hentry 0 (by decide) 0 (by decide)
  rw [hdata] at hfirst
  exact absurd hfirst (by decide +kernel)

end Sxla
