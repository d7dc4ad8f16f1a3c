import Sxla.Library.Binary64Int
import Sxla.Runtime.Matmul

/-!
# Integer instructions

The kernel of a binary instruction on two integers converts both to doubles,
operates there and converts back. `viaDouble` is what comes of that in terms
of integers: operands and result keep 53 significant bits, and the result is
clamped to an `i64`. `exactStep` is the arithmetic that is meant. A run agrees
with it at every point exactly when at every arithmetic step the two give the
same number (`execute_exact`).
-/

namespace Sxla

open Checked Interp F64

variable {libm : Libm} {table table' : List Value} {op : BinaryOp} {x y : Int64}
  {dst a b : Nat}

namespace BinaryOp

/-- The operation on integers; division rounds towards zero. -/
def exact : BinaryOp → Int → Int → Int
  | .add, x, y => x + y
  | .sub, x, y => x - y
  | .mul, x, y => x * y
  | .div, x, y => x.tdiv y
  | .max, x, y => Max.max x y
  | .min, x, y => Min.min x y

/-- The operation through doubles; absent where the quotient is no integer. -/
def viaDouble : BinaryOp → Int → Int → Option Int
  | .add, x, y => some (clamp (rounded (rounded x + rounded y)))
  | .sub, x, y => some (clamp (rounded (rounded x - rounded y)))
  | .mul, x, y => some (clamp (rounded (rounded x * rounded y)))
  | .div, x, y => (quotient (rounded x) (rounded y)).map clamp
  | .max, x, y => some (clamp (Max.max (rounded x) (rounded y)))
  | .min, x, y => some (clamp (Min.min (rounded x) (rounded y)))

end BinaryOp

-- ---------------------------------------------------------------------------
-- The kernel on integers
-- ---------------------------------------------------------------------------

theorem rounded_bound (v : Int64) : (rounded v.toInt).natAbs ≤ 2 ^ 64 := by
  have hle := natAbs_rounded_le v.toInt
  have hlo := Int64.le_toInt v
  have hhi := Int64.toInt_lt v
  omega

theorem moderate_of_le {n : Int} (h : n.natAbs ≤ 2 ^ 128) : Moderate n :=
  lt_of_le_of_lt h (by decide)

namespace Interp

/-- The function of a binary instruction on doubles. -/
def binaryKernel : BinaryOp → F64 → F64 → Run F64
  | .add, x, y => .ok (x.add y)
  | .sub, x, y => .ok (x.sub y)
  | .mul, x, y => .ok (x.mul y)
  | .div, x, y => divide x y
  | .max, x, y => .ok (x.max y)
  | .min, x, y => .ok (x.min y)

theorem runInstr_binary (op : BinaryOp) :
    runInstr libm table (lowerBinary dst a b op) = binOp table dst a b (binaryKernel op) := by
  cases op <;> rfl

/-- The kernel's function on two converted integers. -/
theorem binaryKernel_integer (hdiv : op = .div → y.toInt ≠ 0) :
    ∃ v, binaryKernel op (.ofInt64 x) (.ofInt64 y) = .ok v ∧
      v.isIntegral = (op.viaDouble x.toInt y.toInt).isSome ∧
      ∀ n ∈ op.viaDouble x.toInt y.toInt, v.toInt64 = .ofInt n := by
  have hx := holds_ofInt64 x
  have hy := holds_ofInt64 y
  have hbx := rounded_bound x
  have hby := rounded_bound y
  have hsome : ∀ {v : F64} {n : Int}, v.Holds n →
      v.isIntegral = (some (clamp n)).isSome ∧ ∀ m ∈ some (clamp n), v.toInt64 = .ofInt m := by
    intro v n h
    refine ⟨h.isIntegral, fun m hm => ?_⟩
    obtain rfl := Option.some.inj hm
    exact h.toInt64
  cases op with
  | add => exact ⟨_, rfl, hsome (hx.add hy (moderate_of_le (by omega)))⟩
  | sub => exact ⟨_, rfl, hsome (hx.sub hy (moderate_of_le (by omega)))⟩
  | mul =>
    refine ⟨_, rfl, hsome (hx.mul hy (moderate_of_le ?_))⟩
    rw [Int.natAbs_mul]
    calc _ ≤ 2 ^ 64 * 2 ^ 64 := Nat.mul_le_mul hbx hby
      _ = 2 ^ 128 := by decide
  | max => exact ⟨_, rfl, hsome (hx.max hy)⟩
  | min => exact ⟨_, rfl, hsome (hx.min hy)⟩
  | div =>
    have hne : rounded y.toInt ≠ 0 := fun h => hdiv rfl (rounded_eq_zero h)
    have hzero : (F64.ofInt64 y).isZero = false := by
      rw [Bool.eq_false_iff, ne_eq, hy.isZero_iff]
      exact hne
    obtain ⟨hint, hval⟩ := holds_div hx hy hne (moderate_of_le (by omega))
    refine ⟨(F64.ofInt64 x).div (.ofInt64 y), ?_, ?_, fun n hn => ?_⟩
    · rw [binaryKernel, divide, hzero]
      rfl
    · rw [hint, BinaryOp.viaDouble, Option.isSome_map]
    · obtain ⟨q, hq, rfl⟩ := Option.map_eq_some_iff.mp hn
      exact hval q hq

/-- A binary instruction on two integers. -/
theorem binOp_integer (libm : Libm) (dst : Nat) (hx : table[a]? = some (.i64 x)) (hy : table[b]? = some (.i64 y))
    (hdiv : op = .div → y.toInt ≠ 0) :
    ∃ v, runInstr libm table (lowerBinary dst a b op) = store table dst v ∧
      (∀ n ∈ op.viaDouble x.toInt y.toInt, v = .i64 (.ofInt n)) ∧
      (op.viaDouble x.toInt y.toInt = none → ∃ d, v = .f64 d) := by
  obtain ⟨d, hd, hint, hval⟩ := binaryKernel_integer (x := x) hdiv
  refine ⟨if d.isIntegral then .i64 d.toInt64 else .f64 d, ?_, fun n hn => ?_, fun hn => ?_⟩
  · rw [runInstr_binary, binOp, get, hx, get, hy]
    simp only [ok_bind, hd]
  · rw [hint, show (op.viaDouble x.toInt y.toInt) = some n from hn, hval n hn]
    rfl
  · rw [hint, hn]
    exact ⟨d, rfl⟩

end Interp

-- ---------------------------------------------------------------------------
-- The exact machine
-- ---------------------------------------------------------------------------

/-- The slots that hold integers, and the integers. -/
abbrev IntTable := List (Option Int)

namespace IntTable

def put (t : IntTable) (dst : Nat) (n : Option Int) : Option IntTable :=
  if dst < t.length then some (t.set dst n) else none

/-- The integer in a slot. -/
def int (t : IntTable) (slot : Nat) : Option Int := t[slot]?.join

def arith (t : IntTable) (op : BinaryOp) (dst a b : Nat) : Option IntTable := do
  t.put dst (some (op.exact (← t.int a) (← t.int b)))

/-- One instruction in exact arithmetic. -/
def exactStep (t : IntTable) : Instr → Option IntTable
  | .constI64 dst v => t.put dst (some v.toInt)
  | .mov dst a => do t.put dst (← t[a]?)
  | .add dst a b => t.arith .add dst a b
  | .sub dst a b => t.arith .sub dst a b
  | .mul dst a b => t.arith .mul dst a b
  | .max dst a b => t.arith .max dst a b
  | .min dst a b => t.arith .min dst a b
  | _ => none

end IntTable

open IntTable

/-- The arguments; the other slots hold no integer yet. -/
def exactStart (program : TargetProgram) (args : List Int64) : IntTable :=
  args.map (some ·.toInt) ++ List.replicate (program.valueCount - args.length) none

/-- The results in exact arithmetic, of a program of integer instructions that
reads integers only. -/
def exactExecute (program : TargetProgram) (args : List Int64) : Option (List Int) := do
  let t ← program.instrs.foldlM exactStep (exactStart program args)
  program.results.mapM t.int

def InI64 (n : Int) : Prop := -2 ^ 63 ≤ n ∧ n < 2 ^ 63

/-- The tables of the exact run. -/
def ExactReaches (program : TargetProgram) (args : List Int64) (t : IntTable) (rest : List Instr) :
    Prop :=
  ∃ l, program.instrs = l ++ rest ∧ l.foldlM exactStep (exactStart program args) = some t

/-- Execution of integer programs as it is meant. -/
structure ExecutesExactly (libm : Libm) (program : TargetProgram) (args : List Int64) : Prop where
  returns : ∀ ns, exactExecute program args = some ns →
    (∀ t rest, ExactReaches program args t rest → ∀ n, some n ∈ t → InI64 n) →
      execute libm program (args.map .i64) = .ok (ns.map fun n => .i64 (.ofInt n))
  never_wrong : ∀ (ns : List Int) (r : List Value), exactExecute program args = some ns →
    execute libm program (args.map .i64) = .ok r →
      ∀ (i : Nat) (n : Int) (v : Int64), ns[i]? = some n → r[i]? = some (.i64 v) → v.toInt = n

/-- An integer slot holds that integer; the others hold doubles. -/
def SlotAgrees (o : Option Int) (v : Value) : Prop :=
  match o with
  | some n => ∃ w : Int64, v = .i64 w ∧ w.toInt = n
  | none => ∃ d, v = .f64 d

def Agrees (t : IntTable) (table : List Value) : Prop := List.Forall₂ SlotAgrees t table

/-- Every point of the exact run is reached, with its integers. -/
def AgreesThroughout (libm : Libm) (program : TargetProgram) (args : List Int64) : Prop :=
  ∀ l rest t, program.instrs = l ++ rest → l.foldlM exactStep (exactStart program args) = some t →
    ∃ table, l.foldlM (runInstr libm) (initialTable program (args.map .i64)) = .ok table ∧
      Agrees t table

/-- The next instruction, if it is arithmetic, comes to the same number through
doubles as exactly. -/
def SameThroughDoubles (t : IntTable) (i : Instr) : Prop :=
  ∀ op dst a b x y, i = lowerBinary dst a b op → t.int a = some x → t.int b = some y →
    op.viaDouble x y = some (op.exact x y)

-- ---------------------------------------------------------------------------
-- One step
-- ---------------------------------------------------------------------------

variable {t t' : IntTable} {i : Instr} {o : Option Int} {v : Value} {n : Int}
  {program : TargetProgram} {args : List Int64}

theorem Agrees.get (h : Agrees t table) (hx : t[a]? = some o) :
    ∃ v, table[a]? = some v ∧ SlotAgrees o v := by
  induction h generalizing a with
  | nil => simp at hx
  | cons hov _ ih =>
    cases a with
    | zero =>
      obtain rfl := Option.some.inj hx
      exact ⟨_, rfl, hov⟩
    | succ a => exact ih hx

theorem Agrees.int (h : Agrees t table) (hx : t.int a = some n) :
    ∃ w : Int64, table[a]? = some (.i64 w) ∧ w.toInt = n := by
  obtain ⟨v, hv, w, rfl, hw⟩ := h.get (Option.join_eq_some_iff.mp hx)
  exact ⟨w, hv, hw⟩

theorem Agrees.set (h : Agrees t table) (hov : SlotAgrees o v) :
    Agrees (t.set a o) (table.set a v) := by
  induction h generalizing a with
  | nil => exact .nil
  | cons hhead htail ih =>
    cases a with
    | zero => exact .cons hov htail
    | succ a => exact .cons hhead ih

theorem put_eq (h : t.put dst o = some t') : dst < t.length ∧ t' = t.set dst o := by
  unfold IntTable.put at h
  split at h
  · exact ⟨‹_›, (Option.some.inj h).symm⟩
  · cases h

/-- Storing on both sides. -/
theorem Agrees.put (h : Agrees t table) (hput : t.put dst o = some t') (hov : SlotAgrees o v) :
    ∃ table', store table dst v = .ok table' ∧ Agrees t' table' := by
  obtain ⟨hlt, rfl⟩ := put_eq hput
  refine ⟨table.set dst v, ?_, h.set hov⟩
  rw [store, if_pos (h.length_eq ▸ hlt)]

/-- An arithmetic step of the exact machine. -/
theorem arith_eq (h : t.arith op dst a b = some t') :
    ∃ x y, t.int a = some x ∧ t.int b = some y ∧ t.put dst (some (op.exact x y)) = some t' := by
  obtain ⟨x, hx, h⟩ := Option.bind_eq_some_iff.mp h
  obtain ⟨y, hy, h⟩ := Option.bind_eq_some_iff.mp h
  exact ⟨x, y, hx, hy, h⟩

theorem viaDouble_inI64 {x y : Int} (h : op.viaDouble x y = some n) : InI64 n := by
  have hclamp : ∀ m, InI64 (clamp m) := fun m => by
    unfold InI64 clamp
    omega
  cases op with
  | div =>
    obtain ⟨q, _, rfl⟩ := Option.map_eq_some_iff.mp h
    exact hclamp q
  | _ =>
    obtain rfl := Option.some.inj h
    exact hclamp _

theorem toInt_ofInt (h : InI64 n) : (Int64.ofInt n).toInt = n :=
  Int64.toInt_ofInt_of_le h.1 h.2

/-- Arithmetic on both sides stays in agreement exactly when doubles make no
difference. -/
theorem Agrees.arith (libm : Libm) (h : Agrees t table) (hop : op ≠ .div)
    (hs : t.arith op dst a b = some t') :
    ∃ table', runInstr libm table (lowerBinary dst a b op) = .ok table' ∧
      (Agrees t' table' ↔ ∀ x y, t.int a = some x → t.int b = some y →
        op.viaDouble x y = some (op.exact x y)) := by
  obtain ⟨x, y, hx, hy, hput⟩ := arith_eq hs
  obtain ⟨wx, hwx, rfl⟩ := h.int hx
  obtain ⟨wy, hwy, rfl⟩ := h.int hy
  obtain ⟨v, hrun, hsome, hnone⟩ := binOp_integer libm dst hwx hwy fun hd => absurd hd hop
  obtain ⟨hlt, rfl⟩ := put_eq hput
  refine ⟨table.set dst v, ?_, ?_, ?_⟩
  · rw [hrun, store, if_pos (h.length_eq ▸ hlt)]
  · intro hag x y hx' hy'
    obtain rfl := Option.some.inj (hx.symm.trans hx')
    obtain rfl := Option.some.inj (hy.symm.trans hy')
    obtain ⟨v', hv', w, rfl, hw⟩ := hag.get (List.getElem?_set_self hlt)
    rw [List.getElem?_set_self (h.length_eq ▸ hlt), Option.some.injEq] at hv'
    cases hvia : op.viaDouble wx.toInt wy.toInt with
    | none =>
      obtain ⟨d, rfl⟩ := hnone hvia
      cases hv'
    | some n =>
      rw [hsome n hvia, Value.i64.injEq] at hv'
      rw [← hw, ← hv', toInt_ofInt (viaDouble_inI64 hvia)]
  · intro hsame
    have hvia := hsame _ _ hx hy
    refine h.set ⟨_, hsome _ hvia, toInt_ofInt (viaDouble_inI64 hvia)⟩

theorem exactStep_binary (hs : exactStep t (lowerBinary dst a b op) = some t') :
    op ≠ .div ∧ t.arith op dst a b = some t' := by
  cases op with
  | div => cases hs
  | _ => exact ⟨by decide, hs⟩

/-- One step of the exact machine is a step of the interpreter, and they still
agree exactly when doubles make no difference. -/
theorem Agrees.step (libm : Libm) (h : Agrees t table) (hs : exactStep t i = some t') :
    ∃ table', runInstr libm table i = .ok table' ∧ (Agrees t' table' ↔ SameThroughDoubles t i) := by
  by_cases hbin : ∃ op dst a b, i = lowerBinary dst a b op
  · obtain ⟨op, dst, a, b, rfl⟩ := hbin
    obtain ⟨hop, harith⟩ := exactStep_binary hs
    obtain ⟨table', hrun, hiff⟩ := h.arith libm hop harith
    refine ⟨table', hrun, hiff.trans ⟨?_, ?_⟩⟩
    · rintro hsame op' dst' a' b' x y heq hx hy
      obtain ⟨rfl, rfl, rfl⟩ : op' = op ∧ a' = a ∧ b' = b := by
        cases op <;> cases op' <;> simp_all [lowerBinary]
      exact hsame x y hx hy
    · exact fun hsame x y hx hy => hsame op dst a b x y rfl hx hy
  · have hnone : SameThroughDoubles t i := fun op dst a b x y he => absurd ⟨op, dst, a, b, he⟩ hbin
    suffices hstep : ∃ table', runInstr libm table i = .ok table' ∧ Agrees t' table' by
      obtain ⟨table', hrun, hag⟩ := hstep
      exact ⟨table', hrun, iff_of_true hag hnone⟩
    cases i with
    | constI64 dst v => exact h.put hs ⟨v, rfl, rfl⟩
    | mov dst a =>
      obtain ⟨o, ho, hput⟩ := Option.bind_eq_some_iff.mp hs
      obtain ⟨v, hv, hov⟩ := h.get ho
      obtain ⟨table', hstore, hag⟩ := h.put hput hov
      refine ⟨table', ?_, hag⟩
      rw [runInstr, Interp.get, hv]
      exact hstore
    | add dst a b => exact absurd ⟨.add, dst, a, b, rfl⟩ hbin
    | sub dst a b => exact absurd ⟨.sub, dst, a, b, rfl⟩ hbin
    | mul dst a b => exact absurd ⟨.mul, dst, a, b, rfl⟩ hbin
    | max dst a b => exact absurd ⟨.max, dst, a, b, rfl⟩ hbin
    | min dst a b => exact absurd ⟨.min, dst, a, b, rfl⟩ hbin
    | _ => cases hs

-- ---------------------------------------------------------------------------
-- Runs
-- ---------------------------------------------------------------------------

theorem agrees_start : Agrees (exactStart program args) (initialTable program (args.map .i64)) := by
  refine List.rel_append ?_ ?_
  · rw [List.forall₂_map_left_iff, List.forall₂_map_right_iff, List.forall₂_same]
    exact fun v _ => ⟨v, rfl, rfl⟩
  · rw [List.length_map]
    refine List.forall₂_iff_get.mpr ⟨by simp, fun k h h' => ?_⟩
    simp only [List.get_eq_getElem, List.getElem_replicate]
    exact ⟨_, rfl⟩

/-- What one step keeps, every run keeps. -/
theorem agrees_of_same
    (h : ∀ t i rest, ExactReaches program args t (i :: rest) → (exactStep t i).isSome = true →
      SameThroughDoubles t i) : AgreesThroughout libm program args := by
  intro l
  induction l using List.reverseRecOn with
  | nil =>
    rintro rest t - ht
    obtain rfl := Option.some.inj ht
    exact ⟨_, rfl, agrees_start⟩
  | append_singleton l i ih =>
    intro rest t' hl hrun
    rw [List.foldlM_append] at hrun
    obtain ⟨t, ht, hrun⟩ := Option.bind_eq_some_iff.mp hrun
    obtain ⟨u, hu, hnil⟩ := Option.bind_eq_some_iff.mp hrun
    obtain rfl := Option.some.inj hnil
    obtain ⟨table, hrun, hag⟩ := ih (i :: rest) t (by simpa using hl) ht
    obtain ⟨table', hstep, hiff⟩ := hag.step libm hu
    refine ⟨table', ?_, hiff.mpr (h t i rest ⟨l, by simpa using hl, ht⟩ (by rw [hu]; rfl))⟩
    rw [foldlM_append_cons, hrun]
    exact (bind_ok (x := runInstr libm table i)).mpr ⟨table', hstep, rfl⟩

theorem same_of_agrees (h : AgreesThroughout libm program args)
    (hr : ExactReaches program args t (i :: rest)) (hs : (exactStep t i).isSome = true) :
    SameThroughDoubles t i := by
  obtain ⟨l, hl, ht⟩ := hr
  obtain ⟨t', ht'⟩ := Option.isSome_iff_exists.mp hs
  obtain ⟨table, hrun, hag⟩ := h l (i :: rest) t hl ht
  obtain ⟨table', hstep, hiff⟩ := hag.step libm ht'
  have hnext : (l ++ [i]).foldlM exactStep (exactStart program args) = some t' := by
    rw [List.foldlM_append, ht]
    exact (congrArg (Option.bind · some) ht').trans rfl
  obtain ⟨table'', hrun', hag'⟩ := h (l ++ [i]) rest t' (by simpa using hl) hnext
  rw [foldlM_append_cons, hrun, ok_bind] at hrun'
  obtain ⟨u, hu, hnil⟩ := bind_ok.mp hrun'
  rw [hstep, Except.ok.injEq] at hu
  rw [List.foldlM_nil, pure_ok] at hnil
  subst hu hnil
  exact hiff.mp hag'

/-- Results read where the tables agree. -/
theorem Agrees.results (h : Agrees t table) {l : List Nat} {ns : List Int}
    (hns : l.mapM t.int = some ns) :
    l.mapM (Interp.get table) = .ok (ns.map fun n => .i64 (.ofInt n)) ∧ ∀ n ∈ ns, InI64 n := by
  induction l generalizing ns with
  | nil =>
    obtain rfl := Option.some.inj hns
    exact ⟨rfl, fun _ h => absurd h List.not_mem_nil⟩
  | cons r l ih =>
    rw [List.mapM_cons] at hns
    obtain ⟨n, hn, hns⟩ := Option.bind_eq_some_iff.mp hns
    obtain ⟨ns, hl, hcons⟩ := Option.bind_eq_some_iff.mp hns
    obtain rfl := Option.some.inj hcons
    obtain ⟨w, hw, rfl⟩ := h.int hn
    obtain ⟨hget, hin⟩ := ih hl
    constructor
    · rw [List.mapM_cons, Interp.get, hw, hget, List.map_cons, Int64.ofInt_toInt]
      rfl
    · rintro n (_ | ⟨_, hn⟩)
      · exact ⟨Int64.le_toInt w, Int64.toInt_lt w⟩
      · exact hin n hn

theorem AgreesThroughout.executesExactly (h : AgreesThroughout libm program args) :
    ExecutesExactly libm program args := by
  have hok : ∀ ns, exactExecute program args = some ns →
      execute libm program (args.map .i64) = .ok (ns.map fun n => .i64 (.ofInt n)) ∧
        ∀ n ∈ ns, InI64 n := by
    intro ns hns
    obtain ⟨t, ht, hres⟩ := Option.bind_eq_some_iff.mp hns
    obtain ⟨table, hrun, hag⟩ := h program.instrs [] t (by simp) ht
    obtain ⟨hget, hin⟩ := hag.results hres
    refine ⟨?_, hin⟩
    rw [execute, hrun]
    exact hget
  refine ⟨fun ns hns _ => (hok ns hns).1, fun ns r hns hr i n v hn hv => ?_⟩
  obtain ⟨hex, hin⟩ := hok ns hns
  obtain rfl := Except.ok.inj (hex.symm.trans hr)
  rw [List.getElem?_map, hn] at hv
  obtain rfl := Value.i64.inj (Option.some.inj hv)
  exact toInt_ofInt (hin n (List.mem_of_getElem? hn))

/-- The interpreter agrees with exact arithmetic at every point of a run
exactly when no arithmetic step differs through doubles, and then execution is
as it is meant. -/
theorem execute_exact (libm : Libm) (program : TargetProgram) (args : List Int64) :
    (AgreesThroughout libm program args ↔ ∀ t i rest, ExactReaches program args t (i :: rest) →
        (exactStep t i).isSome = true → SameThroughDoubles t i) ∧
      (AgreesThroughout libm program args → ExecutesExactly libm program args) :=
  ⟨⟨fun h _ _ _ hr hs => same_of_agrees h hr hs, agrees_of_same⟩, fun h => h.executesExactly⟩

/-- `2^53 + 1`, and a sum with zero. -/
def oddSum : TargetProgram :=
  ⟨[.constI64 0 9007199254740993, .constI64 1 0, .add 2 0 1], [2], 3⟩

theorem oddSum_not_exact : ¬ ExecutesExactly .absent oddSum [] := by
  intro h
  have hrun : execute .absent oddSum ([].map .i64) = .ok [.i64 9007199254740992] := by
    decide +kernel
  have hexact : exactExecute oddSum [] = some [9007199254740993] := rfl
  have hwrong := h.never_wrong _ _ hexact hrun 0 9007199254740993 9007199254740992 rfl rfl
  exact absurd hwrong (by decide)

-- ---------------------------------------------------------------------------
-- Numbers of 53 bits
-- ---------------------------------------------------------------------------

/-- Operands and results that doubles keep make no difference. -/
theorem viaDouble_eq_exact {x y : Int} (hop : op ≠ .div) (hx : rounded x = x) (hy : rounded y = y)
    (hr : rounded (op.exact x y) = op.exact x y) (hin : InI64 (op.exact x y)) :
    op.viaDouble x y = some (op.exact x y) := by
  have hclamp : ∀ n, InI64 n → clamp n = n := fun n h => by
    unfold InI64 at h
    unfold clamp
    omega
  cases op with
  | div => exact absurd rfl hop
  | _ =>
    simp only [BinaryOp.exact, BinaryOp.viaDouble] at hr hin ⊢
    simp only [hx, hy, hr, hclamp _ hin]

end Sxla
