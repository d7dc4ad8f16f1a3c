import Sxla.Egraph.ApplyLaws
import Sxla.Runtime.Integer

/-!
# What the saturated graph computes

The rules are those of integers, and integers are computed in doubles. On
operands where that makes no difference every rule is an equation of the
interpreter's kernels, so that classes are worth what their nodes evaluate to
and an application keeps the meaning of its arena.
-/

namespace Sxla

open Checked Interp IrArena
open BinaryOp (exact viaDouble)

variable {libm : Libm} {args vs : List Value} {a : IrArena} {roots : List NodeId}
  {op : BinaryOp} {x y : Value} {i j : Int64} {elem : Option ScalarType}

-- ---------------------------------------------------------------------------
-- Kernels of binary ops
-- ---------------------------------------------------------------------------

theorem kernel_binary : kernel libm (.binary op) [x, y] =
    (binOp [.f64 (.zero false), x, y] 0 1 2 (binaryKernel op) >>= fun t => get t 0) := by
  rw [← @runInstr_binary libm]
  cases op <;> rfl

/-- Where doubles make no difference the kernel is exact. -/
theorem kernel_integers (hdiv : op = .div → j.toInt ≠ 0)
    (h : viaDouble op i.toInt j.toInt = some (exact op i.toInt j.toInt)) :
    kernel libm (.binary op) [.i64 i, .i64 j] = .ok (.i64 (.ofInt (exact op i.toInt j.toInt))) := by
  obtain ⟨v, hrun, hv, -⟩ := @binOp_integer [.f64 (.zero false), .i64 i, .i64 j] op i j 1 2 libm 0
    rfl rfl hdiv
  rw [kernel_binary, ← @runInstr_binary libm, hrun, hv _ h]
  rfl

theorem kernel_doubles {d e r : F64} (h : binaryKernel op d e = .ok r) :
    kernel libm (.binary op) [.f64 d, .f64 e] = .ok (.f64 r) := by
  have hrun : binOp [.f64 (.zero false), .f64 d, .f64 e] 0 1 2 (binaryKernel op) =
      (binaryKernel op d e >>= fun v => store [.f64 (.zero false), .f64 d, .f64 e] 0 (.f64 v)) := rfl
  rw [kernel_binary, hrun, h]
  rfl

-- ---------------------------------------------------------------------------
-- The interpretation of e-nodes
-- ---------------------------------------------------------------------------

def operation (libm : Libm) (args : List Value) : Op → List (Run Value) → Run Value
  | .param k, _ => .ok (args.getD k.toNat (.f64 (.zero false)))
  | .constI64 v, _ => .ok (.i64 v)
  | .constF64 v, _ => .ok (.f64 v)
  | op, xs => do kernel libm op (← xs.mapM id)

def number : ConstVal → Run Value
  | .i v => .ok (.i64 v)
  | .f v => .ok (.f64 v)

theorem interprets : Interprets (executor libm args) (operation libm args) number where
  pure slot n xs hpure harity := by
    unfold Meaning.apply
    cases hop : n.op with
    | constI64 v | constF64 v =>
      rw [hop] at harity
      obtain rfl := List.length_eq_zero_iff.mp harity
      rfl
    | _ =>
      first
      | rfl
      | (rw [hop] at hpure; cases hpure)
  const op v xs h := by
    cases op <;> cases h <;> rfl

-- ---------------------------------------------------------------------------
-- The rules
-- ---------------------------------------------------------------------------

/-- Two integers on which doubles make no difference, or operands and an
element type that no rule takes for integers. -/
def Suited (op : BinaryOp) (elem : Option ScalarType) (x y : Value) : Prop :=
  (∃ i j : Int64, x = .i64 i ∧ y = .i64 j ∧
    viaDouble op i.toInt j.toInt = some (exact op i.toInt j.toInt)) ∨
  (elem ≠ none ∧ elem ≠ some .i64 ∧ elem ≠ some .i32 ∧ ∀ i j, ¬(x = .i64 i ∧ y = .i64 j))

/-- Every binary node of the arena works on suited operands. -/
def ExactOn (libm : Libm) (args : List Value) (a : IrArena) : Prop :=
  ∀ id n op x y, (id, n) ∈ a.liveNodes → n.op = .binary op →
    List.Forall₂ (fun v z => Evaluates (executor libm args) a v.node (.ok z)) n.valueInputs
      [x, y] → Suited op (Verifier.elemOf n.ty) x y

section Rules

variable {val : Nat → Run Value} {c d : Nat} {consts : List (Option ConstVal)} {v w : ConstVal}
  {rw : Rewrite} {op' : Op}

theorem number_eq (h : number v = .ok x) :
    (∃ i, v = .i i ∧ x = .i64 i) ∨ ∃ d, v = .f d ∧ x = .f64 d := by
  cases v with
  | i i => exact .inl ⟨i, rfl, (Except.ok.inj h).symm⟩
  | f d => exact .inr ⟨d, rfl, (Except.ok.inj h).symm⟩

/-- A folded constant is what the kernel computes. -/
theorem fold_sound (hs : Suited op elem x y) (hx : number v = .ok x) (hy : number w = .ok y)
    (h : foldBinary op v w = some op') :
    operation libm args op' [] = kernel libm (.binary op) [x, y] := by
  rcases number_eq hx with ⟨i, rfl, rfl⟩ | ⟨d, rfl, rfl⟩ <;>
    rcases number_eq hy with ⟨j, rfl, rfl⟩ | ⟨e, rfl, rfl⟩
  · obtain ⟨z, hz, rfl⟩ := Option.map_eq_some_iff.mp h
    obtain ⟨hexact, hdiv⟩ := foldI64_exact hz
    rcases hs with ⟨i, j, hi, hj, hvia⟩ | ⟨-, -, -, hno⟩
    · cases hi
      cases hj
      rw [kernel_integers hdiv hvia, ← hexact, Int64.ofInt_toInt]
      rfl
    · exact absurd ⟨rfl, rfl⟩ (hno i j)
  · cases h
  · cases h
  · obtain ⟨z, hz, rfl⟩ := Option.map_eq_some_iff.mp h
    rw [kernel_doubles (foldF64_kernel hz)]
    rfl

theorem isZeroInt_eq {o : Option ConstVal} (h : isZeroInt o = true) : o = some (.i 0) :=
  beq_iff_eq.mp h

theorem isOne_eq {o : Option ConstVal} (h : isOne o = true) : o = some (.i 1) :=
  beq_iff_eq.mp h

theorem zero_of_isZeroInt {o : Option ConstVal} (h : isZeroInt o = true)
    (hi : ∀ v, o = some v → number v = .ok (.i64 i)) : i = 0 := by
  have hnum := hi _ (isZeroInt_eq h)
  cases hnum
  rfl

theorem one_of_isOne {o : Option ConstVal} (h : isOne o = true)
    (hi : ∀ v, o = some v → number v = .ok (.i64 i)) : i = 1 := by
  have hnum := hi _ (isOne_eq h)
  cases hnum
  rfl

/-- The operand that is left is what the kernel computes. -/
theorem useChild_sound {cx cy : Option ConstVal} {child : Nat}
    (hvia : viaDouble op i.toInt j.toInt = some (exact op i.toInt j.toInt))
    (hx : ∀ v, cx = some v → number v = .ok (.i64 i))
    (hy : ∀ v, cy = some v → number v = .ok (.i64 j)) (h : useChild op c d cx cy = some child) :
    (child = c ∧ kernel libm (.binary op) [.i64 i, .i64 j] = .ok (.i64 i)) ∨
      (child = d ∧ kernel libm (.binary op) [.i64 i, .i64 j] = .ok (.i64 j)) := by
  unfold useChild at h
  cases op with
  | add =>
    have hk := @kernel_integers libm .add i j (fun hop => by cases hop) hvia
    dsimp only at h
    split at h
    · next hzero =>
      obtain rfl := zero_of_isZeroInt hzero hy
      refine .inl ⟨(Option.some.inj h).symm, hk.trans ?_⟩
      rw [exact, Int64.toInt_zero, Int.add_zero, Int64.ofInt_toInt]
    · split at h
      · next hzero =>
        obtain rfl := zero_of_isZeroInt hzero hx
        refine .inr ⟨(Option.some.inj h).symm, hk.trans ?_⟩
        rw [exact, Int64.toInt_zero, Int.zero_add, Int64.ofInt_toInt]
      · cases h
  | sub =>
    have hk := @kernel_integers libm .sub i j (fun hop => by cases hop) hvia
    dsimp only at h
    split at h
    · next hzero =>
      obtain rfl := zero_of_isZeroInt hzero hy
      refine .inl ⟨(Option.some.inj h).symm, hk.trans ?_⟩
      rw [exact, Int64.toInt_zero, Int.sub_zero, Int64.ofInt_toInt]
    · cases h
  | mul =>
    have hk := @kernel_integers libm .mul i j (fun hop => by cases hop) hvia
    dsimp only at h
    split at h
    · next hone =>
      obtain rfl := one_of_isOne hone hy
      refine .inl ⟨(Option.some.inj h).symm, hk.trans ?_⟩
      rw [exact, Int64.toInt_one, Int.mul_one, Int64.ofInt_toInt]
    · cases h
  | _ => cases h

/-- Where both operands are one class or one is zero, the kernel computes zero. -/
theorem annihilates_sound {cx cy : Option ConstVal}
    (hvia : viaDouble op i.toInt j.toInt = some (exact op i.toInt j.toInt))
    (hx : ∀ v, cx = some v → number v = .ok (.i64 i))
    (hy : ∀ v, cy = some v → number v = .ok (.i64 j)) (hcd : c = d → i = j)
    (h : annihilates op c d cx cy = true) :
    kernel libm (.binary op) [.i64 i, .i64 j] = .ok (.i64 0) := by
  unfold annihilates at h
  cases op with
  | sub =>
    obtain rfl := hcd (beq_iff_eq.mp h)
    refine (@kernel_integers libm .sub i i (fun hop => by cases hop) hvia).trans ?_
    rw [exact, Int.sub_self]
    rfl
  | mul =>
    have hk := @kernel_integers libm .mul i j (fun hop => by cases hop) hvia
    rcases Bool.or_eq_true_iff.mp h with hzero | hzero
    · obtain rfl := zero_of_isZeroInt hzero hy
      rw [hk, exact, Int64.toInt_zero, Int.mul_zero]
      rfl
    · obtain rfl := zero_of_isZeroInt hzero hx
      rw [hk, exact, Int64.toInt_zero, Int.zero_mul]
      rfl
  | _ => cases h

/-- Operands of an op that is commutative on integers may be swapped. -/
theorem swap_sound (hs : Suited op elem x y) (h : commutative (.binary op) elem = true) :
    kernel libm (.binary op) [y, x] = kernel libm (.binary op) [x, y] := by
  rw [commutative, Bool.and_eq_true] at h
  obtain ⟨hop, helem⟩ := h
  rcases hs with ⟨i, j, rfl, rfl, hvia⟩ | ⟨hnone, h64, h32, -⟩
  · have hcomm : viaDouble op j.toInt i.toInt = viaDouble op i.toInt j.toInt ∧
        exact op j.toInt i.toInt = exact op i.toInt j.toInt ∧ op ≠ .div := by
      cases op with
      | add => simp [viaDouble, exact, Int.add_comm]
      | mul => simp [viaDouble, exact, Int.mul_comm]
      | max => simp [viaDouble, exact, max_comm]
      | min => simp [viaDouble, exact, min_comm]
      | _ => cases hop
    obtain ⟨hvia', hexact, hdiv⟩ := hcomm
    rw [kernel_integers (absurd · hdiv) hvia, kernel_integers (absurd · hdiv), hexact]
    rw [hvia', hvia, hexact]
  · simp [hnone, h64, h32] at helem

/-- An op without a rule. -/
theorem Ruled.of_silent {V : Type} {I : Op → List V → V} {num : ConstVal → V} {o : Op}
    {xs : List V} (hrules : ∀ children consts, localRules o children consts elem = none)
    (hcomm : commutative o elem = true → ∀ x y, xs ≠ [x, y]) : Ruled I num o elem xs where
  fires val children consts rw _ _ h := by
    rw [hrules] at h
    cases h
  swap x y h hxy := absurd hxy (hcomm h x y)

/-- The three ways a rule fires. -/
theorem localRules_binary {children : List Nat}
    (h : localRules (.binary op) children consts elem = some rw) :
    (∃ v w op', consts.getD 0 none = some v ∧ consts.getD 1 none = some w ∧
      foldBinary op v w = some op' ∧ rw = .const op') ∨
    (elem = none ∨ elem = some .i64) ∧
      ((∃ child, useChild op (children.getD 0 0) (children.getD 1 0) (consts.getD 0 none)
        (consts.getD 1 none) = some child ∧ rw = .passThrough child) ∨
      annihilates op (children.getD 0 0) (children.getD 1 0) (consts.getD 0 none)
        (consts.getD 1 none) = true ∧ rw = .const (.constI64 0)) := by
  simp only [localRules] at h
  split at h
  · next op' hfold =>
    obtain ⟨v, hv, hfold⟩ := Option.bind_eq_some_iff.mp hfold
    obtain ⟨w, hw, hfold⟩ := Option.bind_eq_some_iff.mp hfold
    exact .inl ⟨v, w, op', hv, hw, hfold, (Option.some.inj h).symm⟩
  · split at h
    · next hint =>
      refine .inr ⟨?_, ?_⟩
      · simpa using hint
      · split at h
        · next child hchild => exact .inl ⟨child, hchild, (Option.some.inj h).symm⟩
        · split at h
          · next hann => exact .inr ⟨hann, (Option.some.inj h).symm⟩
          · cases h
    · cases h

theorem getD_join {k : Nat} : consts.getD k none = consts[k]?.join := by
  rw [List.getD_eq_getElem?_getD]
  cases consts[k]? <;> rfl

/-- On suited operands the rules are equations. -/
theorem ruled (hs : Suited op elem x y) :
    Ruled (operation libm args) number (.binary op) elem [.ok x, .ok y] where
  fires val children consts rw hval hconsts h := by
    obtain ⟨c, d, rfl⟩ := List.length_eq_two.mp
      ((List.length_map val).symm.trans (congrArg List.length hval))
    obtain ⟨hc, hd⟩ : val c = .ok x ∧ val d = .ok y := by simpa using hval
    have hx : ∀ v, consts.getD 0 none = some v → number v = .ok x := fun v hv => by
      have hget := hconsts 0 v (getD_join ▸ hv)
      exact (Option.some.inj hget).symm
    have hy : ∀ v, consts.getD 1 none = some v → number v = .ok y := fun v hv => by
      have hget := hconsts 1 v (getD_join ▸ hv)
      exact (Option.some.inj hget).symm
    rcases localRules_binary h with ⟨v, w, op', hv, hw, hfold, rfl⟩ | ⟨helem, hrule⟩
    · exact ⟨fun _ => fold_sound hs (hx v hv) (hy w hw) hfold, fun _ hc => by cases hc⟩
    · -- only integers are left
      rcases hs with ⟨i, j, rfl, rfl, hvia⟩ | ⟨hnone, h64, -⟩
      · rcases hrule with ⟨child, hchild, rfl⟩ | ⟨hann, rfl⟩
        · refine ⟨fun hnone => (by cases hnone), fun child' hc' => ?_⟩
          obtain rfl : child = child' := by simpa [Rewrite.passThrough] using hc'
          rcases @useChild_sound libm _ _ _ _ _ _ _ _ hvia hx hy hchild with ⟨rfl, hk⟩ | ⟨rfl, hk⟩
          · exact ⟨List.mem_cons_self, hc.trans hk.symm⟩
          · exact ⟨List.mem_cons_of_mem _ List.mem_cons_self, hd.trans hk.symm⟩
        · refine ⟨fun _ => ?_, fun _ hc => by cases hc⟩
          refine (@annihilates_sound libm _ _ _ _ _ _ _ hvia hx hy (fun hcd => ?_) hann).symm
          have hcd : c = d := hcd
          rw [hcd, hd] at hc
          cases hc
          rfl
      · exact absurd helem (by simp [hnone, h64])
  swap u v hcomm huv := by
    obtain ⟨rfl, rfl⟩ : Except.ok x = u ∧ Except.ok y = v := by simpa using huv
    exact swap_sound hs hcomm

end Rules

-- ---------------------------------------------------------------------------
-- The application
-- ---------------------------------------------------------------------------

theorem rulesHold (hv : verify a = .ok ()) (hd : Denotes libm a roots args vs)
    (he : ExactOn libm args a) :
    RulesHold (executor libm args) (operation libm args) number a := by
  intro id n xs hn hxs
  have harity : xs.length = expectedArity n.op := by
    rw [← hxs.length_eq, valueInputs_of_verified hv hn]
    exact ((verify_ok.mp hv).2.2 id n hn).arity
  cases hop : n.op with
  | binary op =>
    rw [hop] at harity
    obtain ⟨u, w, rfl⟩ := List.length_eq_two.mp harity
    obtain ⟨v, hval⟩ := hd.nodes id n hn (by rw [hop]; rfl)
    have happly := (Evaluates.apply hn hxs).unique hval
    rw [Meaning.apply, hop] at happly
    -- the node has a value, and so do its operands
    cases u with
    | error e => cases happly
    | ok x =>
      cases w with
      | error e => cases happly
      | ok y =>
        refine ruled (he id n op x y hn hop ?_)
        rw [← List.forall₂_map_right_iff]
        exact hxs
  | reduce axis monoid =>
    rw [hop] at harity
    refine .of_silent (fun _ _ => rfl) fun _ u w hxy => ?_
    rw [hxy] at harity
    cases harity
  | _ => exact .of_silent (fun _ _ => rfl) fun hcomm => by cases hcomm

/-- Nodes whose classes lifting or a rule has joined evaluate to one value. -/
theorem joined_agree {budget : Nat} {lg : LiftedGraph} {r r' : LiftRecord} {c c' : Nat}
    (hv : verify a = .ok ()) (he : ExactOn libm args a) (hd : Denotes libm a roots args vs)
    (hs : lg.Saturating a budget) (hr : r ∈ lg.recs) (hr' : r' ∈ lg.recs)
    (hc : lg.nodeClass[r.node.index]? = some (some c))
    (hc' : lg.nodeClass[r'.node.index]? = some (some c'))
    (hroot : lg.g.uf.findRo c = lg.g.uf.findRo c') :
    ∃ v, Evaluates (executor libm args) a r.node v ∧ Evaluates (executor libm args) a r'.node v := by
  obtain ⟨val, hmodels⟩ := hs.models interprets hv (rulesHold hv hd he) (fail .unsupportedInstr)
  have hlt := hs.inv.classes _ c hc
  have hlt' := hs.inv.classes _ c' hc'
  rw [UnionFind.findRo_eq (hs.inv.graph.lt_table hlt),
    UnionFind.findRo_eq (hs.inv.graph.lt_table hlt'), Except.ok.injEq] at hroot
  have hsame : val c = val c' := by
    rw [← hmodels.graph.roots c hlt, hroot, hmodels.graph.roots c' hlt']
  exact ⟨val c, hmodels.evaluates hr hc, hsame ▸ hmodels.evaluates hr' hc'⟩

def zeroOperands : List ValueId := [.fromNode (.pack 0 0 .graph) 0, .fromNode (.pack 1 0 .graph) 0]

/-- A parameter, and zero added to it. -/
def addedZero : IrArena := .built do
  let (_, a) ← (IrArena.withCapacity 4 1).insertNode (.pack 0 0)
    (.new (.param 0) (.pack 0 0) [] (.scalar .i64))
  let (_, a) ← a.insertNode (.pack 0 0) (.new (.constI64 0) (.pack 0 0) [] (.scalar .i64))
  let (_, a) ← a.insertNode (.pack 0 0)
    (.new (.binary .add) (.pack 0 0) zeroOperands (.scalar .i64))
  return a

theorem addedZero_nodes : ∀ e ∈ addedZero.liveNodes,
    (e.1 = .pack 2 0 .graph ∧ e.2.op = .binary .add ∧ e.2.valueInputs = zeroOperands) ∨
      e.2.op = .param 0 ∨ e.1 = .pack 1 0 .graph ∧ e.2.op = .constI64 0 := by
  decide

theorem addedZero_param :
    Evaluates (executor libm [.i64 7]) addedZero (.pack 0 0 .graph) (.ok (.i64 7)) :=
  @Evaluates.of_param _ _ _ _ _ 0 (List.mem_of_getElem? (i := 0) rfl) rfl rfl

theorem addedZero_const :
    Evaluates (executor libm [.i64 7]) addedZero (.pack 1 0 .graph) (.ok (.i64 0)) :=
  .of_const (List.mem_of_getElem? (i := 1) rfl) rfl rfl

theorem addedZero_exactOn : ExactOn libm [.i64 7] addedZero := by
  intro id n op x y hn hop hxs
  obtain ⟨-, hadd, hin⟩ | hparam | ⟨-, hconst⟩ := addedZero_nodes _ hn
  · cases hop.symm.trans hadd
    rw [hin] at hxs
    cases hxs with
    | cons hx hrest =>
      cases hrest with
      | cons hy _ =>
        cases addedZero_param.unique hx
        cases addedZero_const.unique hy
        exact .inl ⟨7, 0, rfl, rfl, by decide⟩
  · cases hop.symm.trans hparam
  · cases hop.symm.trans hconst

theorem addedZero_sum :
    Evaluates (executor libm [.i64 7]) addedZero (.pack 2 0 .graph) (.ok (.i64 7)) := by
  obtain ⟨n, hn, hop, hin⟩ : ∃ n, (NodeId.pack 2 0 .graph, n) ∈ addedZero.liveNodes ∧
      n.op = .binary .add ∧ n.valueInputs = zeroOperands :=
    ⟨_, List.mem_of_getElem? (i := 2) rfl, rfl, rfl⟩
  have hoperands : List.Forall₂ (fun v z => Evaluates (executor libm [.i64 7]) addedZero v.node
      (.ok z)) n.valueInputs [.i64 7, .i64 0] :=
    hin ▸ .cons addedZero_param (.cons addedZero_const .nil)
  have hkernel : kernel libm n.op [.i64 7, .i64 0] = .ok (.i64 7) :=
    hop ▸ kernel_integers nofun (by decide)
  exact hkernel ▸ .of_kernel hn (by rw [hop]; rfl) (by rw [hop]; rfl) hoperands

theorem addedZero_denotes : Denotes libm addedZero [.pack 2 0 .graph] [.i64 7] [.i64 7] := by
  refine ⟨fun id n hn hi => ?_, .cons ⟨.pack 2 0 .graph, by decide, rfl, addedZero_sum⟩ .nil⟩
  obtain ⟨rfl, -⟩ | hparam | ⟨rfl, -⟩ := addedZero_nodes _ hn
  · exact ⟨_, addedZero_sum⟩
  · rw [hparam] at hi
    cases hi
  · exact ⟨_, addedZero_const⟩

theorem joined_agree_addedZero : ∃ (lg : LiftedGraph) (r r' : LiftRecord),
    lg.Saturating addedZero 8 ∧ r ∈ lg.recs ∧ r' ∈ lg.recs ∧
      r.node = .pack 2 0 .graph ∧ r'.node = .pack 0 0 .graph ∧
      ∃ v, Evaluates (executor .absent [.i64 7]) addedZero r.node v ∧
        Evaluates (executor .absent [.i64 7]) addedZero r'.node v := by
  have hok : ((lift addedZero 8).toOption.any fun lg => lg.round.toOption.any fun t =>
      (t.graph.recs[0]?.map (·.node)) == some (.pack 0 0 .graph) &&
        (t.graph.recs[2]?.map (·.node)) == some (.pack 2 0 .graph) &&
        t.graph.nodeClass == [some 0, some 1, some 2] &&
        (t.graph.g.uf.findRo 2).toOption == some 0 &&
        (t.graph.g.uf.findRo 0).toOption == some 0) = true := by
    rfl
  obtain ⟨lg, hlift, hok⟩ := (Option.any_eq_true _ _).mp hok
  obtain ⟨t, hround, hok⟩ := (Option.any_eq_true _ _).mp hok
  simp only [Bool.and_eq_true, beq_iff_eq, Option.map_eq_some_iff] at hok
  obtain ⟨⟨⟨⟨⟨r', hr', hparam⟩, ⟨r, hr, hsum⟩⟩, hclass⟩, hroot⟩, hroot'⟩ := hok
  have hs := (LiftedGraph.Saturating.lifted (toOption_eq_some.mp hlift)).round
    (toOption_eq_some.mp hround)
  have hmem := List.mem_of_getElem? hr
  have hmem' := List.mem_of_getElem? hr'
  refine ⟨t.graph, r, r', hs, hmem, hmem', hsum, hparam, ?_⟩
  exact joined_agree (by decide) addedZero_exactOn addedZero_denotes hs hmem hmem'
    (by rw [hclass, hsum]; rfl) (by rw [hclass, hparam]; rfl)
    ((toOption_eq_some.mp hroot).trans (toOption_eq_some.mp hroot').symm)

open Apply in
/-- An application keeps the meaning of an arena whose integers are exact. -/
theorem apply_denotes {budget : Nat} {out : ApplyOutcome} (ht : TreeOk a) (hl : LinksOk a)
    (hv : verify a = .ok ()) (he : ExactOn libm args a)
    (h : apply a roots budget = .ok (some out)) (hd : Denotes libm a roots args vs) :
    Denotes libm out.arena roots args vs := by
  obtain ⟨lg, ex, order, s, hsat, hex, horder, hloop, hdce⟩ := apply_ok h
  obtain ⟨val, hmodels⟩ := hsat.models interprets hv (rulesHold hv hd he) (fail .unsupportedInstr)
  have hval := loop_evaluates ht hl hv hsat.inv hmodels interprets hex horder hloop
  obtain ⟨hkept, hlive⟩ := loop_induction hsat.inv horder
    (fun t b hs (hk : Kept a t) => hk.step ht hs) (.refl hl hv) hloop
  refine Dce.run_denotes hkept.links hdce (hd.restrict hkept.instrs (fun x _ z => hval x z) ?_)
  intro r hr
  obtain ⟨p, n, hn, hpi⟩ := exists_live (hd.root_live hr)
  obtain ⟨m, hm⟩ := mem_liveIds.mp ((hlive p).mpr (mem_liveIds.mpr ⟨n, hn⟩))
  exact hpi ▸ index_mem_liveSlots hm

end Sxla
