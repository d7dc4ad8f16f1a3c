import Sxla.Graph.Values
import Sxla.Levels.SlotSafety
import Sxla.Runtime.ParamBinding
import Sxla.Runtime.Runs

/-!
# What a lowered program computes

`kernel` is what an op computes from the values of its operands, and
`executor` the meaning that it gives to the nodes of an arena. A program that
reads no slot before it is written and whose parameters are bound computes
that meaning: it ends with the values of the roots, as soon as every node
that lowering keeps has one (`execute_iff`).
-/

namespace Sxla

open Checked Interp Projection

variable {libm : Libm} {table table' : List Value} {dst dst' a b a' b' : Nat}

-- ---------------------------------------------------------------------------
-- Kernels
-- ---------------------------------------------------------------------------

/-- The interpreter on a table with a slot for the result and the operands
behind it. -/
def kernel (libm : Libm) (op : Op) (xs : List Value) : Run Value :=
  match instrOf ⟨op, List.range' 1 xs.length, 0, .none, none⟩ with
  | some i => do get (← runInstr libm (.f64 (.zero false) :: xs) i) 0
  | none => fail .unsupportedInstr

namespace Interp

/-- Two runs compute one value, and each stores it in its own table. -/
def Alike (table : List Value) (dst : Nat) (table' : List Value) (dst' : Nat)
    (x y : Run (List Value)) : Prop :=
  ∃ r : Run Value, x = (r >>= store table dst) ∧ y = (r >>= store table' dst')

theorem store_alike {v : Value} : Alike table dst table' dst' (store table dst v)
    (store table' dst' v) :=
  ⟨.ok v, rfl, rfl⟩

theorem error_alike {e : Stop} : Alike table dst table' dst' (.error e) (.error e) :=
  ⟨.error e, rfl, rfl⟩

theorem bind_alike {x : Run α} {f g : α → Run (List Value)}
    (h : ∀ v, Alike table dst table' dst' (f v) (g v)) :
    Alike table dst table' dst' (x >>= f) (x >>= g) := by
  cases x with
  | ok v => exact h v
  | error e => exact error_alike

theorem ite_alike {c : Prop} [Decidable c] {x x' y y' : Run (List Value)}
    (hx : Alike table dst table' dst' x x') (hy : Alike table dst table' dst' y y') :
    Alike table dst table' dst' (if c then x else y) (if c then x' else y') := by
  split
  · exact hx
  · exact hy

theorem get_congr (h : table[a]? = table'[a']?) : get table a = get table' a' := by
  rw [Interp.get, Interp.get, h]

theorem loadF64s_congr (h : table[a]? = table'[a']?) : loadF64s table a = loadF64s table' a' := by
  rw [loadF64s, loadF64s, get_congr h]

theorem tensorShape_congr (h : table[a]? = table'[a']?) :
    tensorShape table a = tensorShape table' a' := by
  rw [tensorShape, tensorShape, get_congr h]

theorem binOp_alike (ha : table[a]? = table'[a']?) (hb : table[b]? = table'[b']?) :
    Alike table dst table' dst' (binOp table dst a b f) (binOp table' dst' a' b' f) := by
  rw [binOp, binOp, get_congr ha, get_congr hb]
  refine bind_alike fun va => bind_alike fun vb => ?_
  split
  · exact bind_alike fun _ => store_alike
  · exact bind_alike fun _ => store_alike
  · exact bind_alike fun _ => store_alike
  · exact bind_alike fun _ => store_alike
  · exact ite_alike error_alike (bind_alike fun _ => store_alike)
  · exact error_alike

theorem unOp_alike (ha : table[a]? = table'[a']?) :
    Alike table dst table' dst' (unOp table dst a f) (unOp table' dst' a' f) := by
  rw [unOp, unOp, get_congr ha]
  refine bind_alike fun v => ?_
  cases v with
  | f64 x => exact store_alike
  | tensor data shape => exact store_alike
  | i64 x => exact error_alike

theorem dot_alike (ha : table[a]? = table'[a']?) (hb : table[b]? = table'[b']?) :
    Alike table dst table' dst' (dot table dst a b) (dot table' dst' a' b') := by
  rw [dot, dot, loadF64s_congr ha, loadF64s_congr hb]
  exact bind_alike fun _ => bind_alike fun _ =>
    ite_alike error_alike (bind_alike fun _ => store_alike)

theorem reduce_alike (ha : table[a]? = table'[a']?) :
    Alike table dst table' dst' (reduce table dst a axis monoid)
      (reduce table' dst' a' axis monoid) := by
  rw [reduce, reduce, get_congr ha]
  refine bind_alike fun v => ?_
  cases v with
  | f64 x => exact store_alike
  | i64 x => exact error_alike
  | tensor data shape =>
    refine ite_alike error_alike (bind_alike fun _ => bind_alike fun _ => ?_)
    exact ite_alike (bind_alike fun _ => store_alike) store_alike

theorem matmul_alike (ha : table[a]? = table'[a']?) (hb : table[b]? = table'[b']?) :
    Alike table dst table' dst' (matmul table dst a b ta tb) (matmul table' dst' a' b' ta tb) := by
  rw [matmul, matmul, loadF64s_congr ha, loadF64s_congr hb, tensorShape_congr ha,
    tensorShape_congr hb]
  refine bind_alike fun _ => bind_alike fun _ => bind_alike fun _ => bind_alike fun _ => ?_
  split
  · exact ite_alike error_alike (bind_alike fun _ => bind_alike fun _ => store_alike)
  · exact error_alike

theorem transpose_alike (ha : table[a]? = table'[a']?) :
    Alike table dst table' dst' (transpose table dst a) (transpose table' dst' a') := by
  rw [transpose, transpose, get_congr ha]
  refine bind_alike fun v => ?_
  cases v with
  | f64 x => exact error_alike
  | i64 x => exact error_alike
  | tensor data shape =>
    dsimp only
    split
    · exact bind_alike fun _ => bind_alike fun _ => store_alike
    · exact error_alike

theorem conv_alike (ha : table[a]? = table'[a']?) (hb : table[b]? = table'[b']?) :
    Alike table dst table' dst' (conv table dst a b padding stride)
      (conv table' dst' a' b' padding stride) := by
  rw [conv, conv, loadF64s_congr ha, loadF64s_congr hb, tensorShape_congr ha,
    tensorShape_congr hb]
  refine bind_alike fun _ => bind_alike fun _ => bind_alike fun _ => bind_alike fun _ => ?_
  split
  · refine ite_alike error_alike (ite_alike error_alike ?_)
    exact ite_alike error_alike (bind_alike fun _ => bind_alike fun _ => store_alike)
  · exact error_alike

theorem mov_alike (ha : table[a]? = table'[a']?) :
    Alike table dst table' dst' (get table a >>= store table dst)
      (get table' a' >>= store table' dst') := by
  rw [get_congr ha]
  exact ⟨_, rfl, rfl⟩

end Interp

variable {op : Op} {sop : ScheduledOp} {i : Instr} {xs : List Value} {v : Value} {k x : Nat}

/-- An operand's slot and its place behind the result hold the same. -/
theorem operand_eq {inputs : List Nat} (hxs : List.Forall₂ (fun x v => table[x]? = some v) inputs xs)
    (hk : k < inputs.length) {z : Value} :
    table[inputs.getD k 0]? = (z :: xs)[(List.range' 1 xs.length).getD k 0]? := by
  have hlt : k < xs.length := hxs.length_eq ▸ hk
  have hslot : (List.range' 1 xs.length).getD k 0 = k + 1 := by
    rw [List.getD_eq_getElem?_getD, List.getElem?_range' hlt]
    simp [Nat.add_comm]
  rw [hslot, List.getElem?_cons_succ, List.getD_eq_getElem?_getD, List.getElem?_eq_getElem hk,
    Option.getD_some, List.getElem?_eq_getElem hlt]
  exact hxs.get hk hlt

/-- The instruction of an op computes the same on its table and on the
operands alone. -/
theorem instrOf_alike {z : Value} (hi : instrOf sop = some i)
    (ha : sop.inputs.length = expectedArity sop.op) (hr : sop.op.isRng = false)
    (hxs : List.Forall₂ (fun x v => table[x]? = some v) sop.inputs xs) :
    ∃ j, instrOf ⟨sop.op, List.range' 1 xs.length, 0, .none, none⟩ = some j ∧
      Alike table sop.output (z :: xs) 0 (runInstr libm table i) (runInstr libm (z :: xs) j) := by
  have hoperand : ∀ k, k < expectedArity sop.op →
      table[sop.inputs.getD k 0]? = (z :: xs)[(List.range' 1 xs.length).getD k 0]? :=
    fun k hk => operand_eq hxs (ha ▸ hk)
  unfold instrOf lowerOp at hi ⊢
  cases ho : sop.op with
  | constI64 v | constF64 v =>
    simp only [ho, Option.some.injEq] at hi
    subst hi
    exact ⟨_, rfl, store_alike⟩
  | binary b =>
    rw [ho] at hoperand
    have h0 := hoperand 0 Nat.zero_lt_two
    have h1 := hoperand 1 Nat.one_lt_two
    cases b <;> simp only [ho, lowerBinary, Option.some.injEq] at hi <;> subst hi <;>
      exact ⟨_, rfl, binOp_alike h0 h1⟩
  | unary u =>
    rw [ho] at hoperand
    have h0 := hoperand 0 Nat.zero_lt_one
    cases u <;> simp only [ho, lowerUnary, Option.some.injEq] at hi <;> subst hi <;>
      exact ⟨_, rfl, unOp_alike h0⟩
  | dot =>
    rw [ho] at hoperand
    simp only [ho, Option.some.injEq] at hi
    subst hi
    exact ⟨_, rfl, dot_alike (hoperand 0 Nat.zero_lt_two) (hoperand 1 Nat.one_lt_two)⟩
  | matmul ta tb =>
    rw [ho] at hoperand
    simp only [ho, Option.some.injEq] at hi
    subst hi
    exact ⟨_, rfl, matmul_alike (hoperand 0 Nat.zero_lt_two) (hoperand 1 Nat.one_lt_two)⟩
  | conv padding stride =>
    rw [ho] at hoperand
    simp only [ho, Option.some.injEq] at hi
    subst hi
    exact ⟨_, rfl, conv_alike (hoperand 0 Nat.zero_lt_two) (hoperand 1 Nat.one_lt_two)⟩
  | reduce axis monoid =>
    rw [ho] at hoperand
    simp only [ho, Option.some.injEq] at hi
    subst hi
    exact ⟨_, rfl, reduce_alike (hoperand 0 Nat.zero_lt_one)⟩
  | broadcast target =>
    rw [ho] at hoperand
    simp only [ho, Option.some.injEq] at hi
    subst hi
    exact ⟨_, rfl, mov_alike (hoperand 0 Nat.zero_lt_one)⟩
  | transpose perm rank =>
    rw [ho] at hoperand
    simp only [ho, Option.some.injEq] at hi
    subst hi
    exact ⟨_, rfl, transpose_alike (hoperand 0 Nat.zero_lt_one)⟩
  | rng dist seed =>
    rw [ho] at hr
    cases hr
  | _ => simp [ho] at hi

/-- One step of a run stores what the kernel computes from the operands. -/
theorem runInstr_kernel (hi : instrOf sop = some i)
    (ha : sop.inputs.length = expectedArity sop.op) (hr : sop.op.isRng = false)
    (hxs : List.Forall₂ (fun x v => table[x]? = some v) sop.inputs xs) :
    runInstr libm table i = (kernel libm sop.op xs >>= store table sop.output) := by
  obtain ⟨j, hj, r, hrun, hsmall⟩ := @instrOf_alike libm table sop i xs (.f64 (.zero false)) hi ha hr hxs
  rw [hrun, kernel, hj]
  dsimp only
  rw [hsmall]
  cases r <;> rfl

-- ---------------------------------------------------------------------------
-- The executor's meaning
-- ---------------------------------------------------------------------------

/-- Parameters are the arguments, zero where there is none; a pure op is its
kernel on operands that have values. -/
def executor (libm : Libm) (args : List Value) : Meaning (Run Value) where
  param k := .ok (args.getD k.toNat (.f64 (.zero false)))
  pure op _ xs := do kernel libm op (← xs.mapM id)
  impure _ _ := fail .unsupportedInstr

/-- The node in a root's slot evaluates to the value. -/
def Holds (libm : Libm) (args : List Value) (a : IrArena) (r : NodeId) (v : Value) : Prop :=
  ∃ p ∈ a.liveIds, p.index = r.index ∧ Evaluates (executor libm args) a p (.ok v)

/-- Every node that lowering keeps has a value, and the roots have these. -/
structure Denotes (libm : Libm) (a : IrArena) (roots : List NodeId) (args vs : List Value) :
    Prop where
  nodes : ∀ id n, (id, n) ∈ a.liveNodes → n.op.hasInstr = true →
    ∃ v, Evaluates (executor libm args) a id (.ok v)
  results : List.Forall₂ (Holds libm args a) roots vs

variable {a : IrArena} {roots : List NodeId} {clusters : ClusterSet} {args vs : List Value}
  {order : List NodeId} {s : Projection} {prog : LoopProgram} {tp : TargetProgram}
  {id p y : NodeId} {n d e : Node}

theorem Op.isPure_of_isRng (h : op.isRng = true) : op.isPure = false := by
  cases op <;> first | rfl | cases h

theorem Op.isPure_of_hasInstr (h : op.hasInstr = true) (hr : op.isRng = false) :
    op.isPure = true := by
  cases op <;> first | rfl | (cases h; done) | cases hr

theorem executor_apply (hp : n.op.isParam = false) (hpure : n.op.isPure = true) :
    (executor libm args).apply k n (xs.map Except.ok) = kernel libm n.op xs := by
  have hmap : (xs.map Except.ok).mapM (fun x : Run Value => x) = Except.ok xs :=
    mapM_ok.mpr (List.forall₂_map_left_iff.mpr (List.forall₂_same.mpr fun _ _ => rfl))
  unfold Meaning.apply
  cases ho : n.op with
  | param index => simp [ho, Op.isParam, Op.paramIndex] at hp
  | _ =>
    rw [ho] at hpure
    simp only [hpure, if_true, executor]
    exact congrArg (· >>= kernel libm _) hmap

/-- A node is its kernel on the values of its inputs. -/
theorem Evaluates.of_kernel (hn : (id, n) ∈ a.liveNodes) (hi : n.op.hasInstr = true)
    (hr : n.op.isRng = false)
    (hxs : List.Forall₂ (fun u v => Evaluates (executor libm args) a u.node (.ok v))
      n.valueInputs xs) :
    Evaluates (executor libm args) a id (kernel libm n.op xs) := by
  rw [← executor_apply (Op.isParam_of_hasInstr hi) (Op.isPure_of_hasInstr hi hr)]
  refine .node (IrArena.index_mem_liveSlots hn) (IrArena.node_of_live hn) ?_ ?_
  · rw [List.length_map]
    exact hxs.length_eq.symm
  · intro i u x hu hx
    rw [List.getElem?_map] at hx
    obtain ⟨w, hw, rfl⟩ := Option.map_eq_some_iff.mp hx
    obtain ⟨hlt, rfl⟩ := List.getElem?_eq_some_iff.mp hu
    obtain ⟨hlt', rfl⟩ := List.getElem?_eq_some_iff.mp hw
    exact hxs.get hlt hlt'

theorem Evaluates.of_param {index : UInt32} (hn : (id, n) ∈ a.liveNodes) (hop : n.op = .param index)
    (hin : n.valueInputs = []) :
    Evaluates (executor libm args) a id (.ok (args.getD index.toNat (.f64 (.zero false)))) := by
  have happly : (executor libm args).apply id.index n [] =
      .ok (args.getD index.toNat (.f64 (.zero false))) := by
    rw [Meaning.apply, hop]
    rfl
  rw [← happly]
  refine .node (IrArena.index_mem_liveSlots hn) (IrArena.node_of_live hn) ?_ ?_
  · rw [hin]
    rfl
  · intro i u x _ hx
    cases hx

-- ---------------------------------------------------------------------------
-- One step
-- ---------------------------------------------------------------------------

/-- A prefix of the ops has run: their slots hold the values of their nodes,
and those of the parameters that are read their arguments. -/
structure Filled (libm : Libm) (a : IrArena) (roots : List NodeId) (args : List Value)
    (s : Projection) (count : Nat) (l : List (NodeId × ScheduledOp)) (table : List Value) :
    Prop where
  length : count ≤ table.length
  params : ∀ id n k x, (id, n) ∈ a.liveNodes → n.op = .param k → IsRead a roots id →
    s.lookup id = .ok x → table[x]? = some (args.getD k.toNat (.f64 (.zero false)))
  ops : ∀ id sop, (id, sop) ∈ l → sop.op.hasInstr = true →
    ∃ v, table[sop.output]? = some v ∧ Evaluates (executor libm args) a id (.ok v)

variable {count : Nat} {l r : List (NodeId × ScheduledOp)} {u : ValueId}

/-- The slot of a live node that provides a value holds it, when the node is a
parameter that is read or its op has run. -/
theorem Filled.value (h : Filled libm a roots args s count l table) (hv : verify a = .ok ())
    (hc : Compiled a roots order s tp) (hn : (p, d) ∈ a.liveNodes) (hprov : d.op.provides = true)
    (hread : d.op.isParam = true → IsRead a roots p) (hx : s.lookup p = .ok x)
    (hrun : ∀ sop, (p, sop) ∈ s.ops → sop.output = x → (p, sop) ∈ l) :
    ∃ v, table[x]? = some v ∧ Evaluates (executor libm args) a p (.ok v) := by
  cases hp : d.op.isParam with
  | true =>
    obtain ⟨k, hk⟩ := Op.isParam_iff.mp hp
    exact ⟨_, h.params p d k x hn hk (hread hp) hx, .of_param hn hk (param_no_inputs hv hn hp)⟩
  | false =>
    obtain ⟨sop, he, hem, hout⟩ := hc.assigned.op_of_live hc.scheduled hn hp
    rw [hx, Except.ok.injEq] at hout
    rw [Op.provides, hp, Bool.false_or, ← hem.op_eq] at hprov
    rw [hout]
    exact h.ops p sop (hrun sop he hout.symm) hprov

/-- The operands of an op hold the values of its inputs when it is reached. -/
theorem Filled.operands (h : Filled libm a roots args s count l table) (hv : verify a = .ok ())
    (hi : Initialised a roots) (hc : Compiled a roots order s tp)
    (ho : s.ops = l ++ (id, sop) :: r) (hem : EmittedFrom a (slotOrder a order) id n sop)
    (hinstr : n.op.hasInstr = true) :
    ∃ xs, List.Forall₂ (fun x v => table[x]? = some v) sop.inputs xs ∧
      List.Forall₂ (fun u v => Evaluates (executor libm args) a u.node (.ok v))
        n.valueInputs xs := by
  have hvalue : ∀ u ∈ n.valueInputs, ∀ x,
      (slotOrder a order)[x]? = some u.node.index ∧ x < sop.output →
        ∃ v, table[x]? = some v ∧ Evaluates (executor libm args) a u.node (.ok v) := by
    rintro u hu x ⟨hslot, hlt⟩
    obtain ⟨p, d, hp, hpi⟩ := live_of_slot hc.scheduled hslot
    have hx : s.lookup p = .ok x := (lookup_ok hc.assigned.table).mpr (hpi ▸ hslot)
    have hread : IsRead a roots p := .inr ⟨id, n, hem.live, hinstr, u, hu, hpi.symm⟩
    obtain ⟨v, hget, heval⟩ := h.value hv hc hp (hi.inputs id n hem.live hinstr u hu p d hp hpi)
      (fun _ => hread) hx fun sop' he hout => hc.assigned.mem_of_output_lt ho he (hout ▸ hlt)
    obtain ⟨e, hdef⟩ := ((verify_ok.mp hv).2.2 id n hem.live).inputs u hu
    exact ⟨v, hget, heval.of_live hp hpi.symm hdef.def_eq⟩
  have hinputs := hem.inputs
  generalize n.valueInputs = us at hvalue hinputs ⊢
  generalize sop.inputs = slots at hinputs ⊢
  induction hinputs with
  | nil => exact ⟨[], .nil, .nil⟩
  | cons hx _ ih =>
    obtain ⟨v, hget, heval⟩ := hvalue _ List.mem_cons_self _ hx
    obtain ⟨xs, hslots, hvals⟩ := ih fun u hu => hvalue u (List.mem_cons_of_mem _ hu)
    exact ⟨v :: xs, .cons hget hslots, .cons heval hvals⟩

/-- One op with an instruction: the run goes on exactly when its node has a
value, and then the slot holds it. -/
theorem Filled.step_instr (h : Filled libm a roots args s tp.valueCount l table)
    (hv : verify a = .ok ()) (hi : Initialised a roots) (hc : Compiled a roots order s tp)
    (ho : s.ops = l ++ (id, sop) :: r) (hinstr : instrOf sop = some i) :
    (∀ table', runInstr libm table i = .ok table' →
      Filled libm a roots args s tp.valueCount (l ++ [(id, sop)]) table') ∧
    ((∃ table', runInstr libm table i = .ok table') ↔
      ∃ v, Evaluates (executor libm args) a id (.ok v)) := by
  obtain ⟨n, hem⟩ := hc.assigned.emitted (id, sop) (by simp [ho])
  have hkeeps : n.op.hasInstr = true := by
    rw [← hem.op_eq, ← instrOf_isSome, hinstr]
    rfl
  obtain ⟨xs, hslots, hvals⟩ := h.operands hv hi hc ho hem hkeeps
  have hrng := hi.no_rng id n hem.live
  have heval := Evaluates.of_kernel hem.live hkeeps hrng hvals
  rw [runInstr_kernel hinstr (arity_of_emitted hv hem) (hem.op_eq ▸ hrng) hslots, hem.op_eq]
  have hlt : sop.output < table.length :=
    (hc.le_valueCount (show (id, sop) ∈ s.ops by simp [ho])).trans_le h.length
  cases hk : kernel libm n.op xs with
  | error e =>
    rw [hk] at heval
    refine ⟨fun table' ht => (by cases ht), iff_of_false ?_ ?_⟩
    · rintro ⟨_, ht⟩
      cases ht
    · rintro ⟨v, hv'⟩
      cases heval.unique hv'
  | ok v =>
    rw [hk] at heval
    have hstore : (Except.ok v >>= store table sop.output) = .ok (table.set sop.output v) :=
      if_pos hlt
    refine ⟨fun table' ht => ?_, iff_of_true ⟨_, hstore⟩ ⟨v, heval⟩⟩
    obtain rfl := Except.ok.inj (hstore.symm.trans ht)
    refine ⟨by rw [List.length_set]; exact h.length, fun p d k x hp hop hr hx => ?_,
      fun p sop' hp hin => ?_⟩
    · -- the slots of the parameters are not written
      have hne : sop.output ≠ x := by
        rintro rfl
        have hout := (lookup_ok hc.assigned.table).mpr hem.output
        obtain ⟨rfl, rfl⟩ := hc.assigned.slot_unique hp hem.live hx hout
        have hparam := hem.not_param
        rw [hop] at hparam
        cases hparam
      rw [List.getElem?_set_ne hne]
      exact h.params p d k x hp hop hr hx
    · rcases List.mem_append.mp hp with hp | hp
      · obtain ⟨w, hw, hwe⟩ := h.ops p sop' hp hin
        have hne := (hc.assigned.output_lt ho hp).ne'
        exact ⟨w, by rw [List.getElem?_set_ne hne, hw], hwe⟩
      · obtain ⟨rfl, rfl⟩ := Prod.mk.inj (List.mem_singleton.mp hp)
        exact ⟨v, List.getElem?_set_self hlt, heval⟩

/-- A step of the run, by the op it comes from. -/
def runOp (libm : Libm) (table : List Value) (e : NodeId × ScheduledOp) : Run (List Value) :=
  match instrOf e.2 with
  | some i => runInstr libm table i
  | none => pure table

/-- A node that lowering keeps evaluates to a value. -/
def HasValue (libm : Libm) (args : List Value) (a : IrArena) (e : NodeId × ScheduledOp) : Prop :=
  e.2.op.hasInstr = true → ∃ v, Evaluates (executor libm args) a e.1 (.ok v)

theorem Filled.step {e : NodeId × ScheduledOp}
    (h : Filled libm a roots args s tp.valueCount l table)
    (hv : verify a = .ok ()) (hi : Initialised a roots) (hc : Compiled a roots order s tp)
    (ho : s.ops = l ++ e :: r) :
    (∀ table', runOp libm table e = .ok table' →
      Filled libm a roots args s tp.valueCount (l ++ [e]) table') ∧
    ((∃ table', runOp libm table e = .ok table') ↔ HasValue libm args a e) := by
  cases hinstr : instrOf e.2 with
  | some i =>
    have hkeep : e.2.op.hasInstr = true := by rw [← instrOf_isSome, hinstr]; rfl
    simpa only [runOp, hinstr, HasValue, hkeep, forall_const] using h.step_instr hv hi hc ho hinstr
  | none =>
    have hdrop : e.2.op.hasInstr = false := by rw [← instrOf_isSome, hinstr]; rfl
    simp only [runOp, hinstr, HasValue, hdrop, pure_ok, exists_eq', Bool.false_eq_true, false_imp_iff,
      and_true, forall_eq']
    refine ⟨h.length, h.params, fun p sop hp hin => ?_⟩
    rcases List.mem_append.mp hp with hp | hp
    · exact h.ops p sop hp hin
    · obtain rfl := List.mem_singleton.mp hp
      rw [hdrop] at hin
      cases hin

-- ---------------------------------------------------------------------------
-- The run
-- ---------------------------------------------------------------------------

theorem filled_start (hv : verify a = .ok ()) (hi : Initialised a roots)
    (hc : Compiled a roots order s tp) (hb : ParamsBound a s tp) :
    Filled libm a roots args s tp.valueCount [] (initialTable tp args) := by
  refine ⟨?_, fun id n k x hn hk hr hx => ?_, fun _ _ h => by cases h⟩
  · rw [initialTable, List.length_append, List.length_replicate]
    omega
  · have hp : n.op.isParam = true := Op.isParam_iff.mpr ⟨k, hk⟩
    have hpos := (hc.paramsBound_iff hv).mp hb id n k hn hk hr
    have hlookup := (lookup_param hc.assigned hc.scheduled hn hp).mpr hpos
    rw [hx, Except.ok.injEq] at hlookup
    subst hlookup
    have hlt := hc.bounded_iff.mpr hi.covered id n hn _ hx
    rw [initialTable, List.getElem?_append]
    split
    · next hargs => rw [List.getD_eq_getElem?_getD, List.getElem?_eq_getElem hargs, Option.getD_some]
    · next hargs =>
      rw [List.getD_eq_getElem?_getD, List.getElem?_eq_none (Nat.le_of_not_lt hargs),
        List.getElem?_replicate, if_pos (by omega), Option.getD_none]

/-- A prefix runs to its end exactly when its nodes have values. -/
theorem filled_before (hv : verify a = .ok ()) (hi : Initialised a roots)
    (hc : Compiled a roots order s tp) (hb : ParamsBound a s tp) (ho : s.ops = l ++ r) :
    (∀ table, l.foldlM (runOp libm) (initialTable tp args) = .ok table →
      Filled libm a roots args s tp.valueCount l table) ∧
    ((∃ table, l.foldlM (runOp libm) (initialTable tp args) = .ok table) ↔
      ∀ e ∈ l, HasValue libm args a e) := by
  induction l using List.reverseRecOn generalizing r with
  | nil =>
    refine ⟨fun table h => ?_, iff_of_true ⟨_, rfl⟩ (by simp)⟩
    obtain rfl := Except.ok.inj h
    exact filled_start hv hi hc hb
  | append_singleton l e ih =>
    have ho' : s.ops = l ++ e :: r := by simpa using ho
    obtain ⟨hfilled, hruns⟩ := ih ho'
    simp only [List.foldlM_append, List.foldlM_cons, List.foldlM_nil, bind_pure]
    constructor
    · intro table h
      obtain ⟨t, ht, hstep⟩ := bind_ok.mp h
      exact ((hfilled t ht).step hv hi hc ho').1 table hstep
    · simp only [List.mem_append, List.mem_singleton, or_imp, forall_and, forall_eq, ← hruns]
      constructor
      · rintro ⟨table, h⟩
        obtain ⟨t, ht, hstep⟩ := bind_ok.mp h
        exact ⟨⟨t, ht⟩, ((hfilled t ht).step hv hi hc ho').2.mp ⟨table, hstep⟩⟩
      · rintro ⟨⟨t, ht⟩, he⟩
        obtain ⟨table, hstep⟩ := ((hfilled t ht).step hv hi hc ho').2.mpr he
        exact ⟨table, bind_ok.mpr ⟨t, ht, hstep⟩⟩

theorem forall₂_congr_left {α β γ : Type} {P : α → β → Prop} {Q : β → γ → Prop} {R : α → γ → Prop}
    {l : List α} {m : List β} {n : List γ} (h : List.Forall₂ P l m)
    (hiff : ∀ x ∈ l, ∀ y, P x y → ∀ z, Q y z ↔ R x z) :
    List.Forall₂ Q m n ↔ List.Forall₂ R l n := by
  induction h generalizing n with
  | nil => rw [List.forall₂_nil_left_iff, List.forall₂_nil_left_iff]
  | cons hxy _ ih =>
    simp only [List.forall₂_cons_left_iff, hiff _ List.mem_cons_self _ hxy,
      ih fun x hx => hiff x (List.mem_cons_of_mem _ hx)]

/-- A compiled program computes the meaning of its graph. -/
theorem execute_iff (hv : verify a = .ok ()) (hs : assignSlots a clusters = .ok s)
    (hp : projectWithFusion a roots clusters = .ok prog) (hl : lower prog = .ok tp)
    (hi : Initialised a roots) (hb : ParamsBound a s tp) :
    execute libm tp args = .ok vs ↔ Denotes libm a roots args vs := by
  obtain ⟨order, _, hc⟩ := compiled_of_ok hs hp hl
  obtain ⟨hfilled, hruns⟩ := @filled_before libm a roots args order s tp s.ops [] hv hi hc hb
    (by simp)
  have hfold : ∀ t, s.ops.foldlM (runOp libm) t = tp.instrs.foldlM (runInstr libm) t := by
    intro t
    rw [hc.instrs, List.foldlM_filterMap]
    congr 1
    funext table e
    rw [runOp]
    cases instrOf e.2 <;> rfl
  simp only [hfold] at hfilled hruns
  -- the ops with an instruction are the nodes that lowering keeps
  have hnodes : (∀ e ∈ s.ops, HasValue libm args a e) ↔
      ∀ id n, (id, n) ∈ a.liveNodes → n.op.hasInstr = true →
        ∃ v, Evaluates (executor libm args) a id (.ok v) := by
    constructor
    · intro h id n hn hin
      obtain ⟨sop, he, hem, _⟩ := hc.assigned.op_of_live hc.scheduled hn (Op.isParam_of_hasInstr hin)
      exact h _ he (hem.op_eq ▸ hin)
    · intro h e he hin
      obtain ⟨n, hem⟩ := hc.assigned.emitted e he
      exact h e.1 n hem.live (hem.op_eq ▸ hin)
  have hresults : ∀ table, tp.instrs.foldlM (runInstr libm) (initialTable tp args) = .ok table →
      (tp.results.mapM (get table) = .ok vs ↔ List.Forall₂ (Holds libm args a) roots vs) := by
    intro table ht
    rw [mapM_ok]
    refine forall₂_congr_left hc.results fun q hq x hx v => ?_
    have hslot := (lookup_ok hc.assigned.table).mp hx
    obtain ⟨p, d, hp, hpi⟩ := live_of_slot hc.scheduled hslot
    have hpx : s.lookup p = .ok x := (lookup_ok hc.assigned.table).mpr (hpi ▸ hslot)
    obtain ⟨w, hw, heval⟩ := (hfilled table ht).value hv hc hp (hi.roots q hq p d hp hpi)
      (fun _ => .inl ⟨q, hq, hpi.symm⟩) hpx fun _ he _ => he
    have hget : get table x = .ok w := by rw [Interp.get, hw]
    rw [hget, Except.ok.injEq]
    constructor
    · rintro rfl
      exact ⟨p, List.mem_map_of_mem hp, hpi, heval⟩
    · rintro ⟨p', hp', hpi', heval'⟩
      obtain ⟨⟨_, d'⟩, hd', rfl⟩ := List.mem_map.mp hp'
      obtain ⟨rfl, _⟩ := IrArena.live_unique hp hd' (hpi.trans hpi'.symm)
      exact Except.ok.inj (heval.unique heval')
  constructor
  · intro h
    obtain ⟨table, ht, hres⟩ := bind_ok.mp h
    exact ⟨hnodes.mp (hruns.mp ⟨table, ht⟩), (hresults table ht).mp hres⟩
  · intro h
    obtain ⟨table, ht⟩ := hruns.mpr (hnodes.mpr h.nodes)
    exact bind_ok.mpr ⟨table, ht, (hresults table ht).mpr h.results⟩

-- ---------------------------------------------------------------------------
-- What a meaning asks for
-- ---------------------------------------------------------------------------

theorem kernel_ok (h : kernel libm op xs = .ok v) : op.hasInstr = true := by
  unfold kernel at h
  split at h
  · next i hi => rw [← @instrOf_isSome ⟨op, List.range' 1 xs.length, 0, .none, none⟩, hi]; rfl
  · cases h

/-- Values are those of parameters and of kernels on the values of the inputs. -/
theorem Evaluates.cases_ok (h : Evaluates (executor libm args) a id (.ok v)) :
    ∃ n, a.node id = .ok n ∧ id.index ∈ a.liveSlots ∧ (n.op.isParam = true ∨
      ∃ xs, kernel libm n.op xs = .ok v ∧ n.op.isPure = true ∧
        List.Forall₂ (fun u v => Evaluates (executor libm args) a u.node (.ok v))
          n.valueInputs xs) := by
  obtain ⟨z, hz⟩ : ∃ z : Run Value, z = .ok v := ⟨_, rfl⟩
  rw [← hz] at h
  cases h with
  | @node _ n zs hlive hn hlen hzs =>
    refine ⟨n, hn, hlive, ?_⟩
    cases hp : n.op.isParam with
    | true => exact .inl rfl
    | false =>
      refine .inr ?_
      have hpure : n.op.isPure = true := by
        by_contra hno
        rw [Bool.not_eq_true] at hno
        rw [Meaning.apply] at hz
        split at hz
        · next k hop => rw [hop] at hno; cases hno
        · rw [hno] at hz
          cases hz
      have happly : (executor libm args).apply id.index n zs =
          (zs.mapM fun x => x) >>= kernel libm n.op := by
        rw [Meaning.apply]
        split
        · next k hop => rw [hop] at hp; cases hp
        · rw [if_pos hpure]
          rfl
      rw [happly] at hz
      obtain ⟨xs, hxs, hk⟩ := bind_ok.mp hz
      refine ⟨xs, hk, hpure, List.forall₂_iff_get.mpr ⟨?_, fun i hi hi' => ?_⟩⟩
      · rw [← hlen, (mapM_ok.mp hxs).length_eq]
      · have hi'' : i < zs.length := hlen ▸ hi
        have hzi := (mapM_ok.mp hxs).get hi'' hi'
        have heval := hzs i _ _ (List.getElem?_eq_getElem hi) (List.getElem?_eq_getElem hi'')
        exact hzi ▸ heval

theorem Evaluates.provides (hn : (p, d) ∈ a.liveNodes)
    (h : Evaluates (executor libm args) a p (.ok v)) : d.op.provides = true := by
  obtain ⟨n, hn', -, hcases⟩ := h.cases_ok
  obtain rfl := Except.ok.inj ((IrArena.node_of_live hn).symm.trans hn')
  rw [Op.provides, Bool.or_eq_true]
  rcases hcases with hparam | ⟨xs, hk, -⟩
  · exact .inl hparam
  · exact .inr (kernel_ok hk)

/-- A graph with a meaning reads no value that lowering drops, and samples
nothing. -/
theorem Denotes.initialised (h : Denotes libm a roots args vs)
    (hcovered : (∃ id n, (id, n) ∈ a.liveNodes ∧ n.op.isParam = false) ∨
      paramCount a ≤ paramSpan a % 2 ^ 32) : Initialised a roots where
  inputs id n hn hin u hu p d hp hpi := by
    obtain ⟨v, hv⟩ := h.nodes id n hn hin
    obtain ⟨n', hn', -, hcases⟩ := hv.cases_ok
    obtain rfl := Except.ok.inj ((IrArena.node_of_live hn).symm.trans hn')
    rcases hcases with hparam | ⟨xs, -, -, hxs⟩
    · rw [Op.isParam_of_hasInstr hin] at hparam
      cases hparam
    · obtain ⟨w, -, hw⟩ := Schedule.mem_of_forall₂ hxs.flip hu
      obtain ⟨e, he, -⟩ := hw.cases_ok
      have hslot := IrArena.slot_of_node he
      rw [← hpi, IrArena.slot_of_node (IrArena.node_of_live hp)] at hslot
      have hg := (NodeSlot.mk.inj (Option.some.inj hslot)).2
      exact (hw.respell hpi hg).provides hp
  roots r hr p d hp hpi := by
    obtain ⟨v, -, q, hq, hqi, hv⟩ := Schedule.mem_of_forall₂ h.results.flip hr
    obtain ⟨⟨_, e⟩, he, rfl⟩ := List.mem_map.mp hq
    obtain ⟨rfl, rfl⟩ := IrArena.live_unique he hp (hqi.trans hpi.symm)
    exact hv.provides hp
  no_rng id n hn := by
    by_contra hr
    rw [Bool.not_eq_false] at hr
    obtain ⟨v, hv⟩ := h.nodes id n hn (Op.hasInstr_of_isRng hr)
    obtain ⟨n', hn', -, hcases⟩ := hv.cases_ok
    obtain rfl := Except.ok.inj ((IrArena.node_of_live hn).symm.trans hn')
    rcases hcases with hparam | ⟨xs, -, hpure, -⟩
    · rw [Op.isParam_of_hasInstr (Op.hasInstr_of_isRng hr)] at hparam
      cases hparam
    · rw [Op.isPure_of_isRng hr] at hpure
      cases hpure
  covered := hcovered

end Sxla
