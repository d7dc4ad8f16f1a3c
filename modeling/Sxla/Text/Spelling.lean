import Sxla.Text.Pieces
import Sxla.Text.Program

/-!
# The pieces of printed ops and types

The pieces that the printer's text of an op, a type or a line consists of.
They are closed, so the lexer finds their tokens, and all of them fit the
lexer's numbers but the seed of an `rng`, which is printed unsigned.
-/

namespace Sxla

open Decimal (digits signed)
open Piece Print

namespace Spell

/-- Pieces with a separator between them. -/
def listed (sep : List Piece) : List Piece → List Piece
  | [] => []
  | [p] => [p]
  | p :: q :: ps => p :: (sep ++ listed sep (q :: ps))

def dimPieces (ds : List Nat) : List Piece := listed [.sym ','] (ds.map fun d : Nat => .int d)

def usePieces (uses : List Nat) : List Piece := listed [.sym ',', .blank] (uses.map .ref)

/-- `name=`. -/
def fieldPieces (name : String) : List Piece := [.word name, .sym '=']

def f64Pieces (v : F64) : List Piece :=
  if needsBits v then
    [.word "bits", .blank, .int ((v.bits.toNat / 2 ^ 32 : Nat) : Int), .blank,
      .int ((v.bits.toNat % 2 ^ 32 : Nat) : Int)]
  else if v.isIntegral && v.units < 10 ^ 15 * 2 ^ F64.unitExp then
    [.float v v.whole (Decimal.lowDigits 0 1)]
  else if v.isIntegral then
    [.int (if v.isNegative then -(v.shortWhole 18 : Int) else v.shortWhole 18)]
  else
    let (d, s) := F64.shortest v (F64.unitExp - 1) 1
    [.float v (d / 10 ^ s) (Decimal.lowDigits d s)]

def opPieces : Op → List Piece
  | .constI64 v => [.word "const.i64", .blank, .int v.toInt]
  | .constF64 v => [.word "const.f64", .blank] ++ f64Pieces v
  | .param index => [.word "param", .blank, .int index.toNat]
  | .dot => [.word "dot"]
  | .reduce axis monoid =>
    [.word "reduce", .blank] ++ fieldPieces "axis" ++ [.int axis.toNat, .blank] ++
      fieldPieces "monoid" ++ [.word (monoidName monoid)]
  | .rng dist seed =>
    [.word "rng", .blank] ++ fieldPieces "dist" ++ [.word (distName dist), .blank] ++
      fieldPieces "seed" ++ [.int seed.toNat]
  | .custom s => [.word "custom", .blank, .int s.toNat]
  | .ifOp => [.word "if"]
  | .binary b => [.word ("binary." ++ binaryName b)]
  | .unary u => [.word ("unary." ++ unaryName u)]
  | .matmul ta tb =>
    [.word "matmul", .blank] ++ fieldPieces "ta" ++ [.bool ta, .blank] ++ fieldPieces "tb" ++
      [.bool tb]
  | .conv padding stride =>
    [.word "conv", .blank] ++ fieldPieces "padding" ++ [.word (paddingName padding), .blank] ++
      fieldPieces "stride" ++ [.int stride.toNat]
  | .broadcast target =>
    [.word "broadcast", .blank] ++ fieldPieces "to" ++ [.sym '['] ++ dimPieces target.dims ++
      [.sym ']']
  | .transpose perm rank =>
    [.word "transpose", .blank] ++ fieldPieces "perm" ++ [.sym '['] ++
      dimPieces ((perm.take rank.toNat).map (·.toNat)) ++ [.sym ']']
  | .fusionCluster => [.word "fusion.cluster"]
  | .fusionBarrier => [.word "fusion.barrier"]
  | .fusionMaterialize => [.word "fusion.materialize"]
  | .loopParallel axis =>
    [.word "loop.parallel", .blank] ++ fieldPieces "axis" ++ [.int axis.toNat]
  | .loopAlloc bytes space =>
    [.word "loop.alloc", .blank] ++ fieldPieces "bytes" ++ [.int bytes.toNat, .blank] ++
      fieldPieces "space" ++ [.word (spaceName space)]
  | .loopAsyncCopy => [.word "loop.async_copy"]
  | .loopPipelineStage stage =>
    [.word "loop.pipeline_stage", .blank] ++ fieldPieces "stage" ++ [.int stage.toNat]
  | .targetMma => [.word "target.mma"]
  | .targetWarpShuffle => [.word "target.warp_shuffle"]
  | .targetBarrier => [.word "target.barrier"]

def tensorPieces (kind : String) (t : TensorType) : List Piece :=
  [Piece.word (kind ++ "<" ++ elemName t.elem ++ ">"), .sym '['] ++ dimPieces t.shape.dims ++
    [Piece.sym ']', .blank, .word (layoutName t.layout)]

def typePieces : Ty → List Piece
  | .scalar s => [.word ("scalar<" ++ elemName s ++ ">")]
  | .tensor t => tensorPieces "tensor" t
  | .token => [.word "token"]
  | .memRef t space => tensorPieces "memref" t ++ [.blank, .word (spaceName space)]
  | .none => [.word "none"]

-- ---------------------------------------------------------------------------
-- Their text
-- ---------------------------------------------------------------------------

theorem signed_natCast (n : Nat) : signed (n : Int) = digits n := by
  simp [signed]

theorem text_listed (sep ps : List Piece) :
    text (listed sep ps) = (text sep).intercalate (ps.map spell) := by
  fun_induction listed sep ps with
  | case1 => rfl
  | case2 p => simp [List.intercalate]
  | case3 p q ps ih => simpa [List.intercalate] using ih

theorem text_dimPieces (ds : List Nat) : text (dimPieces ds) = joined "," (ds.map digits) := by
  rw [dimPieces, text_listed, joined, List.map_map]
  exact congrArg _ (List.map_congr_left fun d _ => signed_natCast d)

theorem text_usePieces (uses : List Nat) : text (usePieces uses) = formatUses uses := by
  rw [usePieces, text_listed, formatUses, joined, List.map_map]
  rfl

theorem signed_sign {v : F64} {n : Nat} (hn : n ≠ 0) :
    signed (if v.isNegative then -(n : Int) else n) = v.sign ++ digits n := by
  cases hv : v.isNegative
  · simp [signed, F64.sign, hv]
  · have hneg : (-(n : Int)) < 0 := by omega
    simp only [↓reduceIte, signed, hneg, F64.sign, hv, Int.natAbs_neg, Int.natAbs_natCast]
    rfl

theorem text_f64Pieces (v : F64) : text (f64Pieces v) = formatF64 v := by
  unfold f64Pieces formatF64
  split
  · simp only [text_cons, text_nil, spell, signed_natCast, List.append_nil, List.append_assoc]
    rfl
  split
  · exact List.append_nil _
  next hsmall =>
  split
  · next hint =>
    have hunits : v.units ≠ 0 := by
      intro h
      rw [hint, h] at hsmall
      exact hsmall (by simp)
    rw [text_cons, text_nil, spell, signed_sign (F64.shortWhole_ne_zero hint hunits 18)]
    exact List.append_nil _
  · exact List.append_nil _

theorem text_opPieces (op : Op) : text (opPieces op) = formatOp op := by
  delta formatOp opPieces
  cases op
  case dot | ifOp | fusionCluster | fusionBarrier | fusionMaterialize | loopAsyncCopy | targetMma |
      targetWarpShuffle | targetBarrier => rfl
  case binary b => cases b <;> rfl
  case unary u => cases u <;> rfl
  case matmul ta tb => cases ta <;> cases tb <;> rfl
  case broadcast =>
    simp only [text_cons, text_nil, text_append, fieldPieces, spell, text_dimPieces, shapeStr,
      List.append_assoc]
    rfl
  case transpose =>
    simp only [text_cons, text_nil, text_append, fieldPieces, spell, text_dimPieces, List.map_map,
      List.append_assoc]
    rfl
  all_goals
    simp only [text_cons, text_nil, text_append, fieldPieces, spell, text_f64Pieces,
      signed_natCast, List.append_assoc, List.append_nil]
    rfl

theorem text_tensorPieces (kind : String) (t : TensorType) :
    text (tensorPieces kind t) = formatTensor kind t := by
  delta tensorPieces formatTensor
  simp only [text_cons, text_nil, text_append, spell, text_dimPieces, shapeStr,
    String.toList_append, List.append_assoc, List.append_nil]
  rfl

theorem text_typePieces (ty : Ty) : text (typePieces ty) = formatType ty := by
  delta typePieces formatType
  cases ty
  case scalar s => cases s <;> rfl
  case token | none => rfl
  case tensor t => exact text_tensorPieces "tensor" t
  case memRef t space =>
    simp only [text_cons, text_nil, text_append, spell, text_tensorPieces, List.append_assoc,
      List.append_nil]
    rfl

-- ---------------------------------------------------------------------------
-- Words are words
-- ---------------------------------------------------------------------------

theorem forall_mem_listed {P : Piece → Prop} {sep ps : List Piece} (hsep : ∀ p ∈ sep, P p)
    (hps : ∀ p ∈ ps, P p) : ∀ p ∈ listed sep ps, P p := by
  fun_induction listed sep ps with
  | case1 => exact hps
  | case2 p => exact hps
  | case3 p q ps ih =>
    rw [List.forall_mem_cons] at hps ⊢
    exact ⟨hps.1, List.forall_mem_append.mpr ⟨hsep, ih hps.2⟩⟩

theorem isWord_elemName (s : ScalarType) :
    IsWord ("scalar<" ++ elemName s ++ ">") ∧ IsWord ("tensor" ++ "<" ++ elemName s ++ ">") ∧
      IsWord ("memref" ++ "<" ++ elemName s ++ ">") := by
  cases s <;> decide

theorem isWord_monoidName (m : Monoid) : IsWord (monoidName m) := by cases m <;> decide

theorem isWord_distName (d : RngDist) : IsWord (distName d) := by cases d <;> decide

theorem isWord_paddingName (p : Padding) : IsWord (paddingName p) := by cases p <;> decide

theorem isWord_spaceName (s : AddressSpace) : IsWord (spaceName s) := by cases s <;> decide

theorem isWord_layoutName (l : Layout) : IsWord (layoutName l) := by cases l <;> decide

theorem isWord_binaryName (b : BinaryOp) : IsWord ("binary." ++ binaryName b) := by
  cases b <;> decide

theorem isWord_unaryName (u : UnaryOp) : IsWord ("unary." ++ unaryName u) := by
  cases u <;> decide

theorem good_dimPieces (ds : List Nat) : ∀ p ∈ dimPieces ds, p.Good :=
  forall_mem_listed (by simp [Good]; decide) (by simp [Good])

theorem good_usePieces (uses : List Nat) : ∀ p ∈ usePieces uses, p.Good :=
  forall_mem_listed (by simp [Good]; decide) (by simp [Good])

theorem isFinite_of_not_needsBits {v : F64} (h : ¬ needsBits v = true) : v.isFinite = true := by
  rw [needsBits, Bool.or_eq_true, not_or, Bool.not_eq_true, Bool.not_eq_false'] at h
  exact h.1

theorem good_f64Pieces (v : F64) : ∀ p ∈ f64Pieces v, p.Good := by
  unfold f64Pieces
  split
  · simp [Good]
    decide
  next hbits =>
  split
  · next hint =>
    rw [Bool.and_eq_true] at hint
    rw [List.forall_mem_singleton]
    exact ⟨F64.value_displayTenths hint.1, fun c hc => Decimal.isDigit_of_mem_lowDigits hc⟩
  split
  · simp [Good]
  · rw [List.forall_mem_singleton]
    exact ⟨F64.value_displayFraction (isFinite_of_not_needsBits hbits),
      fun c hc => Decimal.isDigit_of_mem_lowDigits hc⟩

theorem good_opPieces (op : Op) : ∀ p ∈ opPieces op, p.Good := by
  delta opPieces
  cases op
  case constF64 v =>
    refine List.forall_mem_append.mpr ⟨?_, good_f64Pieces v⟩
    simp only [List.forall_mem_cons, List.not_mem_nil, false_imp_iff, implies_true, good_word,
      good_blank, and_true]
    decide
  case binary b => exact List.forall_mem_singleton.mpr (isWord_binaryName b)
  case unary u => exact List.forall_mem_singleton.mpr (isWord_unaryName u)
  all_goals
    simp only [fieldPieces, List.cons_append, List.nil_append, List.forall_mem_cons,
      List.forall_mem_append, List.not_mem_nil, false_imp_iff, implies_true, good_word, good_sym,
      good_int, good_bool, good_blank, isWord_monoidName, isWord_distName,
      isWord_paddingName, isWord_spaceName, and_true, true_and]
  case broadcast t =>
    exact ⟨by decide, by decide, by decide, by decide, good_dimPieces t.dims, by decide⟩
  case transpose perm rank =>
    exact ⟨by decide, by decide, by decide, by decide, good_dimPieces _, by decide⟩
  all_goals decide

theorem good_tensorPieces {kind : String} (t : TensorType)
    (h : IsWord (kind ++ "<" ++ elemName t.elem ++ ">")) : ∀ p ∈ tensorPieces kind t, p.Good := by
  simp only [tensorPieces, List.cons_append, List.nil_append, List.forall_mem_cons,
    List.forall_mem_append, List.not_mem_nil, false_imp_iff, implies_true, good_word, good_sym,
    good_blank, isWord_layoutName, and_true]
  exact ⟨h, by decide, good_dimPieces t.shape.dims, by decide⟩

theorem good_typePieces (ty : Ty) : ∀ p ∈ typePieces ty, p.Good := by
  delta typePieces
  cases ty
  case scalar s => exact List.forall_mem_singleton.mpr (isWord_elemName s).1
  case tensor t => exact good_tensorPieces t (isWord_elemName _).2.1
  case memRef t space =>
    refine List.forall_mem_append.mpr ⟨good_tensorPieces t (isWord_elemName _).2.2, ?_⟩
    simp only [List.forall_mem_cons, List.not_mem_nil, false_imp_iff, implies_true, good_word,
      good_blank, isWord_spaceName, and_self]
  all_goals
    rw [List.forall_mem_singleton, good_word]
    decide

-- ---------------------------------------------------------------------------
-- Words stand apart
-- ---------------------------------------------------------------------------

/-- In front of a blank, a line end or a symbol the pieces are closed. -/
def Closes (ps : List Piece) : Prop :=
  ∀ qs, startsPlain qs = true → closed qs = true → closed (ps ++ qs) = true

theorem closes_dimPieces (ds : List Nat) : Closes (dimPieces ds) := by
  intro qs hs hq
  induction ds with
  | nil => exact hq
  | cons d ds ih =>
    cases ds with
    | nil => simp [dimPieces, listed, closed, hs, hq]
    | cons e ds => simpa [dimPieces, listed, closed, startsPlain_cons, wordy] using ih

theorem closes_usePieces (uses : List Nat) : Closes (usePieces uses) := by
  intro qs hs hq
  induction uses with
  | nil => exact hq
  | cons u us ih =>
    cases us with
    | nil => simp [usePieces, listed, closed, hs, hq]
    | cons v us => simpa [usePieces, listed, closed, startsPlain_cons, wordy] using ih

theorem closes_f64Pieces (v : F64) : Closes (f64Pieces v) := by
  intro qs hs hq
  unfold f64Pieces
  split
  · simp [closed, startsPlain_cons, wordy, hs, hq]
  split
  · simp [closed, wordy, hs, hq]
  split
  · simp [closed, wordy, hs, hq]
  · simp [closed, wordy, hs, hq]

theorem closes_opPieces (op : Op) : Closes (opPieces op) := by
  intro qs hs hq
  delta opPieces
  cases op
  case constF64 v => simpa [closed, startsPlain_cons, wordy] using closes_f64Pieces v qs hs hq
  case broadcast t =>
    have h := closes_dimPieces t.dims (.sym ']' :: qs) rfl (by simpa [closed, wordy] using hq)
    simpa [fieldPieces, closed, startsPlain_cons, wordy] using h
  case transpose perm rank =>
    have h := closes_dimPieces ((perm.take rank.toNat).map (·.toNat)) (.sym ']' :: qs) rfl
      (by simpa [closed, wordy] using hq)
    simpa [fieldPieces, closed, startsPlain_cons, wordy] using h
  all_goals simp [fieldPieces, closed, startsPlain_cons, wordy, hs, hq]

theorem closes_tensorPieces (kind : String) (t : TensorType) : Closes (tensorPieces kind t) := by
  intro qs hs hq
  have h := closes_dimPieces t.shape.dims
    (.sym ']' :: .blank :: .word (layoutName t.layout) :: qs) rfl
    (by simp [closed, startsPlain_cons, wordy, hs, hq])
  simpa [tensorPieces, closed, startsPlain_cons, wordy] using h

theorem closes_typePieces (ty : Ty) : Closes (typePieces ty) := by
  intro qs hs hq
  delta typePieces
  cases ty
  case tensor t => exact closes_tensorPieces _ t qs hs hq
  case memRef t space =>
    have h := closes_tensorPieces "memref" t (.blank :: .word (spaceName space) :: qs) rfl
      (by simp [closed, startsPlain_cons, wordy, hs, hq])
    simpa using h
  all_goals simp [closed, hs, hq]

-- ---------------------------------------------------------------------------
-- Which numbers fit
-- ---------------------------------------------------------------------------

theorem fits_small {n : Nat} (h : n < 2 ^ 32) : (Piece.int (n : Int)).Fits :=
  fits_int.mpr ⟨by omega, by omega⟩

theorem fits_dimPieces {ds : List Nat} (h : ∀ d ∈ ds, d < 0x8000000000000000) : ∀ p ∈ dimPieces ds, p.Fits := by
  refine forall_mem_listed (by simp) ?_
  rw [List.forall_mem_map]
  intro d hd
  have := h d hd
  exact fits_int.mpr ⟨by omega, by omega⟩

theorem fits_usePieces {us : List Nat} :
    (∀ p ∈ usePieces us, p.Fits) ↔ ∀ u ∈ us, u < 2 ^ 32 := by
  induction us with
  | nil => simp [usePieces, listed]
  | cons u us ih =>
    cases us with
    | nil => simp [usePieces, listed]
    | cons v us => simpa [usePieces, listed] using fun _ => ih

theorem units_lt_of_integral {v : F64} (hbits : ¬ needsBits v = true) (hint : v.isIntegral = true) :
    v.units < 2 ^ 63 * 2 ^ F64.unitExp := by
  rw [needsBits, hint, Bool.true_and, Bool.or_eq_true, not_or, decide_eq_true_eq, not_le] at hbits
  exact hbits.2

theorem fits_f64Pieces (v : F64) : ∀ p ∈ f64Pieces v, p.Fits := by
  unfold f64Pieces
  split
  · have hlt := v.bits.toNat_lt
    have hhi : v.bits.toNat / 2 ^ 32 < 2 ^ 32 := by omega
    have hlo : v.bits.toNat % 2 ^ 32 < 2 ^ 32 := Nat.mod_lt _ (by decide)
    simp only [List.forall_mem_cons, fits_word, fits_blank, fits_small hhi, fits_small hlo,
      List.not_mem_nil, false_imp_iff, implies_true, and_self]
  next hbits =>
  split
  · exact List.forall_mem_singleton.mpr fits_float
  split
  · next hint =>
    have hlt := F64.lt_of_reads (units_lt_of_integral hbits hint) (F64.shortWhole_reads hint 18)
    refine List.forall_mem_singleton.mpr (fits_int.mpr ?_)
    split <;> constructor <;> omega
  · exact List.forall_mem_singleton.mpr fits_float

end Spell

/-- An `rng` seed is printed unsigned and read back signed. -/
def Op.SeedFits : Op → Prop
  | .rng _ seed => seed.toNat < 2 ^ 63
  | _ => True

instance : DecidablePred Op.SeedFits := fun op => by
  cases op <;> (unfold Op.SeedFits; infer_instance)

namespace Spell

theorem fits_opPieces (op : Op) : (∀ p ∈ opPieces op, p.Fits) ↔ op.SeedFits := by
  delta opPieces
  cases op
  case rng dist seed =>
    simp [fieldPieces, Op.SeedFits]
  all_goals refine iff_of_true ?_ trivial
  case constF64 v => exact List.forall_mem_append.mpr ⟨by simp, fits_f64Pieces v⟩
  all_goals
    simp only [fieldPieces, List.cons_append, List.nil_append, List.forall_mem_cons,
      List.forall_mem_append, List.not_mem_nil, false_imp_iff, implies_true, fits_word, fits_sym,
      fits_bool, fits_blank, and_true, true_and]
  case constI64 v => exact fits_int.mpr ⟨v.le_toInt, v.toInt_lt⟩
  case broadcast t => exact fits_dimPieces t.dims_lt
  case transpose perm rank =>
    refine fits_dimPieces ?_
    rw [List.forall_mem_map]
    intro p _
    have := p.toNat_lt
    omega
  case param n | custom n | loopAlloc n _ | loopPipelineStage n => exact fits_small n.toNat_lt
  case reduce n _ | conv _ n | loopParallel n =>
    have := n.toNat_lt
    exact fits_small (by omega)

theorem fits_typePieces (ty : Ty) : ∀ p ∈ typePieces ty, p.Fits := by
  have htensor (kind : String) (t : TensorType) : ∀ p ∈ tensorPieces kind t, p.Fits := by
    simp only [tensorPieces, List.cons_append, List.nil_append, List.forall_mem_cons,
      List.forall_mem_append, List.not_mem_nil, false_imp_iff, implies_true, fits_word, fits_sym,
      fits_blank, and_true, true_and]
    exact fits_dimPieces t.shape.dims_lt
  delta typePieces
  cases ty
  case tensor t => exact htensor _ t
  case memRef t space => exact List.forall_mem_append.mpr ⟨htensor _ t, by simp⟩
  all_goals exact List.forall_mem_singleton.mpr fits_word

end Spell

end Sxla
