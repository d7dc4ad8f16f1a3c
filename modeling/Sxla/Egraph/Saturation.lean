import Sxla.Egraph.Valuation

/-!
# Saturation keeps values

The class of a lifted node is worth what the node evaluates to. Lifting makes
it so, and a round keeps it where the rules are equations: what a rule needs
of a node is stated for the values of the node's operands (`Ruled`), so that
the meaning of the ops stays open.
-/

namespace Sxla

open Checked
open EGraph (Keeps Valued need)

variable {V : Type}

/-- The meaning reads pure ops as the interpretation does, and constants are
their numbers. -/
structure Interprets (m : Meaning V) (I : Op → List V → V) (num : ConstVal → V) : Prop where
  pure : ∀ slot n xs, n.op.isPure = true → xs.length = expectedArity n.op →
    m.apply slot n xs = I n.op xs
  const : ∀ op v xs, constOfOp op = some v → I op xs = num v

/-- The rules are equations at a node whose operands have the values `xs`. -/
structure Ruled (I : Op → List V → V) (num : ConstVal → V) (op : Op) (elem : Option ScalarType)
    (xs : List V) : Prop where
  fires : ∀ (val : Nat → V) (children : List Nat) (consts : List (Option ConstVal)) (rw : Rewrite),
    children.map val = xs → (∀ (i : Nat) v, consts[i]?.join = some v → xs[i]? = some (num v)) →
    localRules op children consts elem = some rw →
      (rw.children = [] → I rw.op [] = I op xs) ∧
      ∀ child, rw.children = [child] → child ∈ children ∧ val child = I op xs
  swap : ∀ x y, commutative op elem = true → xs = [x, y] → I op [y, x] = I op [x, y]

/-- The rules are equations at every node of the arena. -/
def RulesHold (m : Meaning V) (I : Op → List V → V) (num : ConstVal → V) (a : IrArena) : Prop :=
  ∀ id n xs, (id, n) ∈ a.liveNodes →
    List.Forall₂ (fun v x => Evaluates m a v.node x) n.valueInputs xs →
      Ruled I num n.op (Verifier.elemOf n.ty) xs

namespace LiftedGraph

/-- The classes are worth what the lifted nodes evaluate to. -/
structure Models (m : Meaning V) (I : Op → List V → V) (a : IrArena) (val : Nat → V)
    (lg : LiftedGraph) : Prop where
  graph : Valued I val lg.g
  operands : ∀ r ∈ lg.recs, ∃ n, (r.node, n) ∈ a.liveNodes ∧ r.op = n.op ∧
    r.elem = Verifier.elemOf n.ty ∧ n.op.isPure = true ∧ r.children.length = expectedArity n.op ∧
    List.Forall₂ (fun v x => Evaluates m a v.node x) n.valueInputs (r.children.map val)
  classes : ∀ i c : Nat, lg.nodeClass[i]? = some (some c) →
    ∃ r ∈ lg.recs, r.node.index = i ∧ Evaluates m a r.node (val c)

/-- The rewrite is an equation for the record's node. -/
def Fires (I : Op → List V → V) (val : Nat → V) (k : Nat) (r : LiftRecord) (rw : Rewrite) : Prop :=
  (rw.children = [] → I rw.op [] = I r.op (r.children.map val)) ∧
    ∀ child, rw.children = [child] → child < k ∧ val child = I r.op (r.children.map val)

/-- A snapshot of the record: other ids of the same values, and constants that
are the children's. -/
structure Snapped (num : ConstVal → V) (val : Nat → V) (k : Nat) (r : LiftRecord) (s : RuleSnap) :
    Prop where
  op : s.op = r.op
  elem : s.elem = r.elem
  children : s.children.map val = r.children.map val
  bound : ∀ c ∈ s.children, c < k
  consts : ∀ (i : Nat) v, s.consts[i]?.join = some v → (s.children.map val)[i]? = some (num v)

variable {m : Meaning V} {I : Op → List V → V} {num : ConstVal → V} {a : IrArena}
  {val val' : Nat → V} {lg lg' : LiftedGraph} {g : EGraph} {op : Op} {children : List Nat}
  {c w x y k : Nat} {r : LiftRecord} {rw : Rewrite}

-- ---------------------------------------------------------------------------
-- Operations
-- ---------------------------------------------------------------------------

/-- Another graph with the values of the old ids. -/
theorem Models.keep (h : Models m I a val lg) (hi : lg.Inv a)
    (hk : Keeps lg.g.nodes.length val val') (hg : Valued I val' lg'.g)
    (hrecs : lg'.recs = lg.recs) (hclass : lg'.nodeClass = lg.nodeClass) :
    Models m I a val' lg' where
  graph := hg
  operands r hr := by
    rw [hrecs] at hr
    rw [hk.map (hi.recs r hr).2]
    exact h.operands r hr
  classes i c hc := by
    rw [hclass] at hc
    rw [hrecs, hk c (hi.classes i c hc)]
    exact h.classes i c hc

theorem Models.swapGraph (h : Models m I a val lg) (hg : Valued I val lg'.g)
    (hrecs : lg'.recs = lg.recs) (hclass : lg'.nodeClass = lg.nodeClass) :
    Models m I a val lg' where
  graph := hg
  operands r hr := h.operands r (hrecs ▸ hr)
  classes i c hc := by
    rw [hrecs]
    exact h.classes i c (hclass ▸ hc)

theorem Models.evaluates (h : Models m I a val lg) (hr : r ∈ lg.recs)
    (hc : lg.nodeClass[r.node.index]? = some (some c)) : Evaluates m a r.node (val c) := by
  obtain ⟨n, hn, -⟩ := h.operands r hr
  obtain ⟨r', hr', hi, heval⟩ := h.classes _ c hc
  obtain ⟨n', hn', -⟩ := h.operands r' hr'
  obtain ⟨heq, -⟩ := IrArena.live_unique hn' hn hi
  exact heq ▸ heval

/-- A lifted node's class is worth its op on its children's values. -/
theorem Models.value (h : Models m I a val lg) (hm : Interprets m I num) (hr : r ∈ lg.recs)
    (hc : lg.nodeClass[r.node.index]? = some (some c)) : val c = I r.op (r.children.map val) := by
  obtain ⟨n, hn, hop, -, hpure, harity, hxs⟩ := h.operands r hr
  have heval := h.evaluates hr hc
  rw [heval.unique (.apply hn hxs), hm.pure _ _ _ hpure ((List.length_map val).trans harity), hop]

theorem setConst_tables {v : Option ConstVal} : (lg.setConst c v).g = lg.g ∧
    (lg.setConst c v).recs = lg.recs ∧ (lg.setConst c v).nodeClass = lg.nodeClass := by
  cases v <;> exact ⟨rfl, rfl, rfl⟩

theorem Models.setConst {v : Option ConstVal} (h : Models m I a val lg) :
    Models m I a val (lg.setConst c v) := by
  obtain ⟨hg, hrecs, hclass⟩ := @setConst_tables lg c v
  exact h.swapGraph (hg.symm ▸ h.graph) hrecs hclass

theorem Models.propagateConst (h : Models m I a val lg) :
    Models m I a val (lg.propagateConst w x) := by
  unfold LiftedGraph.propagateConst
  split
  · exact h
  · split
    · exact h.setConst
    · exact h

theorem Models.canon (h : Models m I a val lg) (hi : lg.Inv a) (hc : c < lg.g.nodes.length)
    (hr : lg.canon c = .ok (w, lg')) :
    Models m I a val lg' ∧ val w = val c ∧ lg'.recs = lg.recs := by
  have hs := (hi.canon hc hr).2
  obtain ⟨⟨w', g⟩, hcanon, hret⟩ := bind_ok.mp hr
  cases hret
  have hmodels : Models m I a val { lg with g } :=
    h.swapGraph (h.graph.canon hi.graph hc hcanon) rfl rfl
  exact ⟨hmodels, hmodels.graph.same hs, rfl⟩

theorem Models.merge (h : Models m I a val lg) (hi : lg.Inv a) (hx : x < lg.g.nodes.length)
    (hy : y < lg.g.nodes.length) (hxy : val x = val y) (hr : lg.merge x y = .ok (w, lg')) :
    Models m I a val lg' := by
  obtain ⟨⟨w', g⟩, hmerge, hret⟩ := bind_ok.mp hr
  cases hret
  exact h.swapGraph (h.graph.merge hi.graph hx hy hxy hmerge) rfl rfl

theorem Models.append {o : Option NodeId} (h : Models m I a val lg) (hi : lg.Inv a)
    (hc : ∀ c ∈ children, c < lg.g.nodes.length) (hr : lg.append op children o = .ok (c, lg')) :
    ∃ val', Keeps lg.g.nodes.length val val' ∧ Models m I a val' lg' ∧
      val' c = I op (children.map val) := by
  obtain ⟨⟨c', g⟩, hadd, hret⟩ := bind_ok.mp hr
  cases hret
  obtain ⟨val', hk, hg, hval⟩ := h.graph.add hi.graph hc hadd
  exact ⟨val', hk, h.keep hi hk hg rfl rfl, hval⟩

theorem own_eq (hr : lg.own r = .ok (w, lg')) :
    ∃ c, lg.nodeClass[r.node.index]? = some (some c) ∧ lg.canon c = .ok (w, lg') := by
  obtain ⟨c, hneed, hcanon⟩ := bind_ok.mp hr
  refine ⟨c, ?_, hcanon⟩
  cases hget : lg.nodeClass[r.node.index]? with
  | none => simp [hget, need] at hneed
  | some o =>
    cases o with
    | none => simp [hget, need] at hneed
    | some c' => simpa [hget, need] using hneed

theorem Models.own (h : Models m I a val lg) (hi : lg.Inv a) (hm : Interprets m I num)
    (hr : r ∈ lg.recs) (ho : lg.own r = .ok (w, lg')) :
    Models m I a val lg' ∧ val w = I r.op (r.children.map val) ∧ lg'.recs = lg.recs := by
  obtain ⟨c, hc, hcanon⟩ := own_eq ho
  obtain ⟨hmodels, hw, hrecs⟩ := h.canon hi (hi.classes _ c hc) hcanon
  exact ⟨hmodels, hw.trans (h.value hm hr hc), hrecs⟩

-- ---------------------------------------------------------------------------
-- Rules
-- ---------------------------------------------------------------------------

/-- A constant of a class is its value. -/
theorem Models.constOf {v : ConstVal} (h : Models m I a val lg) (hi : lg.Inv a)
    (hm : Interprets m I num) (hc : lg.constOf c = some v) : val c = num v := by
  obtain ⟨e, op, hop, hv, hs⟩ := hi.consts c v hc
  obtain ⟨vs, hval⟩ := h.graph.opAt hop
  rw [← h.graph.same hs, hval, hm.const op v vs hv]

theorem Models.snaps {recs : List LiftRecord} {snaps : List RuleSnap} (h : Models m I a val lg)
    (hi : lg.Inv a) (hm : Interprets m I num)
    (hrecs : ∀ r ∈ recs, ∀ c ∈ r.children, c < lg.g.nodes.length)
    (hr : lg.snaps recs = .ok (snaps, lg')) :
    Models m I a val lg' ∧ List.Forall₂ (Snapped num val lg.g.nodes.length) recs snaps := by
  induction recs generalizing lg snaps with
  | nil =>
    cases hr
    exact ⟨h, .nil⟩
  | cons r recs ih =>
    obtain ⟨hfirst, hrest⟩ := List.forall_mem_cons.mp hrecs
    obtain ⟨⟨children, uf⟩, hcanon, hr⟩ := bind_ok.mp hr
    obtain ⟨⟨rest, lg₁⟩, hsnaps, hret⟩ := bind_ok.mp hr
    cases hret
    have hcanon := mapError_ok.mp hcanon
    obtain ⟨hg, hbound⟩ := hi.graph.canonChildren_spec hfirst hcanon
    obtain ⟨hval, hchildren⟩ := h.graph.canonChildren hi.graph hfirst hcanon
    have hadv := hi.grow_same hg rfl
    have hmodels : Models m I a val { lg with g := { lg.g with uf } } := h.swapGraph hval rfl rfl
    obtain ⟨hlast, hall⟩ := ih hmodels hadv.inv hrest hsnaps
    obtain ⟨hadv', -⟩ := hadv.inv.snaps hrest hsnaps
    refine ⟨hlast, .cons ⟨rfl, rfl, hchildren, hbound, fun i v hv => ?_⟩ hall⟩
    rw [List.getElem?_map] at hv ⊢
    cases hget : children[i]? with
    | none => simp [hget] at hv
    | some c =>
      rw [hget, Option.map_some, Option.join_some] at hv
      rw [Option.map_some, hlast.constOf hadv'.inv hm hv]

theorem Snapped.fires {s : RuleSnap} (h : Snapped num val k r s)
    (hrule : Ruled I num r.op r.elem (r.children.map val))
    (hr : localRules s.op s.children s.consts s.elem = some rw) : Fires I val k r rw := by
  rw [h.op, h.elem] at hr
  obtain ⟨hconst, hchild⟩ := hrule.fires val s.children s.consts rw h.children
    (fun i v hv => h.children ▸ h.consts i v hv) hr
  refine ⟨hconst, fun child hc => ?_⟩
  obtain ⟨hmem, hval⟩ := hchild child hc
  exact ⟨h.bound child hmem, hval⟩

/-- A rule that fires is an equation, so the classes it joins are worth the
same. -/
theorem Models.fire (h : Models m I a val lg) (hi : lg.Inv a) (hm : Interprets m I num)
    (hrec : r ∈ lg.recs) (hrw : Fires I val lg.g.nodes.length r rw)
    (hr : lg.fire r rw = .ok (lg', k)) :
    ∃ val', Keeps lg.g.nodes.length val val' ∧ Models m I a val' lg' := by
  obtain ⟨⟨own, lg₁⟩, hown, hr⟩ := bind_ok.mp hr
  obtain ⟨hadv, hlt⟩ := hi.own hown
  obtain ⟨hmodels, hvalue, -⟩ := h.own hi hm hrec hown
  cases hchildren : rw.children with
  | nil =>
    simp only [hchildren] at hr
    obtain ⟨⟨cls, lg₂⟩, happend, hr⟩ := bind_ok.mp hr
    obtain ⟨⟨winner, lg₃⟩, hmerge, hret⟩ := bind_ok.mp hr
    cases hret
    obtain ⟨hadv₂, e, -, hs⟩ := hadv.inv.append (by simp) happend
    obtain ⟨val', hk, hmodels₂, hcls⟩ := hmodels.append hadv.inv (by simp) happend
    have hjoin : val' own = val' cls := by
      rw [hk own hlt, hvalue, hcls, List.map_nil, hrw.1 hchildren]
    refine ⟨val', fun i hi => hk i (hadv.grows.lt hi), ?_⟩
    exact (hmodels₂.merge hadv₂.inv (hadv₂.grows.lt hlt) hs.right hjoin hmerge).setConst
  | cons child rest =>
    cases rest with
    | nil =>
      simp only [hchildren] at hr
      split at hr
      · obtain ⟨⟨winner, lg₂⟩, hmerge, hret⟩ := bind_ok.mp hr
        cases hret
        obtain ⟨hbound, hval⟩ := hrw.2 child hchildren
        refine ⟨val, fun _ _ => rfl, ?_⟩
        exact (hmodels.merge hadv.inv hlt (hadv.grows.lt hbound) (hvalue.trans hval.symm)
          hmerge).propagateConst
      · cases hr
        exact ⟨val, fun _ _ => rfl, hmodels⟩
    | cons c rest =>
      simp only [hchildren] at hr
      cases hr
      exact ⟨val, fun _ _ => rfl, hmodels⟩

theorem Models.commute {s s' : LiftedGraph × Nat} (h : Models m I a val s.1) (hi : s.1.Inv a)
    (hm : Interprets m I num) (hrec : r ∈ s.1.recs)
    (hrule : Ruled I num r.op r.elem (r.children.map val))
    (hr : LiftedGraph.commute s r = .ok s') :
    ∃ val', Keeps s.1.g.nodes.length val val' ∧ Models m I a val' s'.1 := by
  have hc := (hi.recs r hrec).2
  unfold LiftedGraph.commute at hr
  split at hr
  · next x y hxy =>
    rw [hxy] at hc hrule
    split at hr
    · next hcomm =>
      obtain ⟨⟨c0, lg₁⟩, hc0, hr⟩ := bind_ok.mp hr
      obtain ⟨⟨c1, lg₂⟩, hc1, hr⟩ := bind_ok.mp hr
      obtain ⟨hadv₁, hs0⟩ := hi.canon (hc x (by simp)) hc0
      obtain ⟨hadv₂, hs1⟩ := hadv₁.inv.canon (hadv₁.grows.lt (hc y (by simp))) hc1
      obtain ⟨hmodels₁, hv0, hrecs₁⟩ := h.canon hi (hc x (by simp)) hc0
      obtain ⟨hmodels₂, hv1, hrecs₂⟩ :=
        hmodels₁.canon hadv₁.inv (hadv₁.grows.lt (hc y (by simp))) hc1
      have hadv := hadv₁.trans hadv₂
      simp only at hr
      split at hr
      · cases hr
        exact ⟨val, fun _ _ => rfl, hmodels₂⟩
      · obtain ⟨⟨own, lg₃⟩, hown, hr⟩ := bind_ok.mp hr
        obtain ⟨⟨cls, lg₄⟩, happend, hr⟩ := bind_ok.mp hr
        obtain ⟨⟨swapped, lg₅⟩, hcanon, hr⟩ := bind_ok.mp hr
        obtain ⟨hadv₃, hlt⟩ := hadv.inv.own hown
        obtain ⟨hmodels₃, hvalue, -⟩ :=
          hmodels₂.own hadv.inv hm (hrecs₂.trans hrecs₁ ▸ hrec) hown
        have hchildren : ∀ c ∈ [c1, c0], c < lg₃.g.nodes.length := by
          intro c hc
          rcases List.mem_pair.mp hc with rfl | rfl
          · exact hadv₃.grows.lt hs1.left
          · exact (hadv₂.trans hadv₃).grows.lt hs0.left
        obtain ⟨hadv₄, e, -, hs⟩ := hadv₃.inv.append hchildren happend
        obtain ⟨val', hk, hmodels₄, hcls⟩ := hmodels₃.append hadv₃.inv hchildren happend
        obtain ⟨hadv₅, hsw⟩ := hadv₄.inv.canon hs.right hcanon
        obtain ⟨hmodels₅, hvs, -⟩ := hmodels₄.canon hadv₄.inv hs.right hcanon
        have hkeeps : Keeps s.1.g.nodes.length val val' :=
          fun i hi => hk i ((hadv.trans hadv₃).grows.lt hi)
        simp only at hr
        split at hr
        · cases hr
          exact ⟨val', hkeeps, hmodels₅⟩
        · obtain ⟨⟨winner, lg₆⟩, hmerge, hret⟩ := bind_ok.mp hr
          cases hret
          have hjoin : val' own = val' swapped := by
            rw [hk own hlt, hvalue, hvs, hcls, hxy]
            simp only [List.map_cons, List.map_nil, hv0, hv1]
            exact (hrule.swap _ _ hcomm rfl).symm
          have hown₅ := (hadv₄.trans hadv₅).grows.lt hlt
          exact ⟨val', hkeeps, (hmodels₅.merge hadv₅.inv hown₅ hsw.left hjoin
            hmerge).propagateConst.propagateConst⟩
    · cases hr
      exact ⟨val, fun _ _ => rfl, h⟩
  · cases hr
    exact ⟨val, fun _ _ => rfl, h⟩

theorem Models.rehome (h : Models m I a val lg) (hi : lg.Inv a) (hr : lg.rehome c = .ok lg') :
    Models m I a val lg' := by
  unfold LiftedGraph.rehome at hr
  split at hr
  · next hsome =>
    obtain ⟨v, hv⟩ := Option.isSome_iff_exists.mp hsome
    obtain ⟨e, op, -, -, hs⟩ := hi.consts c v hv
    obtain ⟨⟨w, lg₁⟩, hcanon, hret⟩ := bind_ok.mp hr
    cases hret
    exact (h.canon hi hs.right hcanon).1.propagateConst
  · cases hr
    exact h

-- ---------------------------------------------------------------------------
-- A round
-- ---------------------------------------------------------------------------

theorem Advances.length_le (h : Advances a lg lg') : lg.g.nodes.length ≤ lg'.g.nodes.length :=
  Nat.le_of_not_lt fun hlt => (h.grows.lt hlt).false

theorem Fires.keep (h : Fires I val k r rw) (hk : Keeps k val val') (hc : ∀ c ∈ r.children, c < k)
    {j : Nat} (hle : k ≤ j) : Fires I val' j r rw := by
  rw [Fires, hk.map hc]
  refine ⟨h.1, fun child hchild => ?_⟩
  obtain ⟨hlt, hval⟩ := h.2 child hchild
  exact ⟨hlt.trans_le hle, (hk child hlt).trans hval⟩

theorem Models.ruled (h : Models m I a val lg) (hrules : RulesHold m I num a) (hr : r ∈ lg.recs) :
    Ruled I num r.op r.elem (r.children.map val) := by
  obtain ⟨n, hn, hop, helem, -, -, hxs⟩ := h.operands r hr
  rw [hop, helem]
  exact hrules r.node n _ hn hxs

/-- Where a round began, and the values it has given to what it added. -/
def Reached (m : Meaning V) (I : Op → List V → V) (a : IrArena) (lg : LiftedGraph) (val : Nat → V)
    (lg' : LiftedGraph) : Prop :=
  Advances a lg lg' ∧ ∃ val', Keeps lg.g.nodes.length val val' ∧ Models m I a val' lg'

theorem Models.round {r : Round} (h : Models m I a val lg) (hi : lg.Inv a)
    (hm : Interprets m I num) (hrules : RulesHold m I num a) (hr : lg.round = .ok r) :
    ∃ val', Models m I a val' r.graph := by
  obtain ⟨⟨snaps, lg₁⟩, hsnaps, hr⟩ := bind_ok.mp hr
  obtain ⟨⟨lg₂, fired⟩, hfired, hr⟩ := bind_ok.mp hr
  obtain ⟨⟨lg₃, commuted⟩, hcommuted, hr⟩ := bind_ok.mp hr
  obtain ⟨⟨merged, g⟩, hrebuild, hr⟩ := bind_ok.mp hr
  obtain ⟨lg₅, hrehomed, hret⟩ := bind_ok.mp hr
  cases hret
  have hrecs : ∀ r ∈ lg.recs, ∀ c ∈ r.children, c < lg.g.nodes.length :=
    fun r hr => (hi.recs r hr).2
  obtain ⟨hadv₁, -⟩ := hi.snaps hrecs hsnaps
  obtain ⟨hmodels₁, hsnapped⟩ := h.snaps hi hm hrecs hsnaps
  have hreached₂ : Reached m I a lg val lg₂ := by
    refine foldlM_preserves_mem (P := fun s => Reached m I a lg val s.1) ?_
      ⟨hadv₁, val, fun _ _ => rfl, hmodels₁⟩ hfired
    rintro s ⟨r, o⟩ s' hmem hstep ⟨hadv, val', hk, hmodels⟩
    unfold LiftedGraph.applyRule at hstep
    cases o with
    | none =>
      cases hstep
      exact ⟨hadv, val', hk, hmodels⟩
    | some rw =>
      obtain ⟨⟨lg', k⟩, hfire, hret⟩ := bind_ok.mp hstep
      cases hret
      rw [List.zip_map_right] at hmem
      obtain ⟨⟨r', snap⟩, hzip, heq⟩ := List.mem_map.mp hmem
      obtain ⟨rfl, hrule⟩ := Prod.mk.inj heq
      have hr : r' ∈ lg.recs := (List.of_mem_zip hzip).1
      have hfires : Fires I val lg.g.nodes.length r' rw :=
        (List.forall₂_zip hsnapped hzip).fires (h.ruled hrules hr) hrule
      have hrec : r' ∈ s.1.recs := hadv.recs ▸ hr
      obtain ⟨val'', hk', hmodels'⟩ := hmodels.fire hadv.inv hm hrec
        (hfires.keep hk (hrecs r' hr) hadv.length_le) hfire
      refine ⟨hadv.trans (hadv.inv.fire (fun c hc => ?_) hfire), val'',
        hk.trans hk' hadv.length_le, hmodels'⟩
      cases hchildren : rw.children with
      | nil => simp [hchildren] at hc
      | cons child rest =>
        cases rest with
        | nil =>
          rw [hchildren, List.mem_singleton] at hc
          exact .inr (hadv.grows.lt (hc ▸ (hfires.2 child hchildren).1))
        | cons d rest =>
          obtain ⟨op', rfl⟩ | ⟨d', rfl, -⟩ := localRules_cases hrule
          · cases hchildren
          · cases hchildren
  have hreached₃ : Reached m I a lg val lg₃ := by
    refine foldlM_preserves_mem (P := fun s => Reached m I a lg val s.1) ?_ hreached₂ hcommuted
    rintro s r s' hmem hstep ⟨hadv, val', hk, hmodels⟩
    have hrec : r ∈ s.1.recs := hadv.recs ▸ hmem
    obtain ⟨val'', hk', hmodels'⟩ :=
      hmodels.commute hadv.inv hm hrec (hmodels.ruled hrules hrec) hstep
    exact ⟨hadv.trans (hadv.inv.commute (fun c hc => hadv.grows.lt (hrecs r hmem c hc)) hstep),
      val'', hk.trans hk' hadv.length_le, hmodels'⟩
  obtain ⟨hadv₃, val', hk, hmodels₃⟩ := hreached₃
  obtain ⟨hg, hlen⟩ := hadv₃.inv.graph.rebuild_spec hrebuild
  have hreached₄ : Reached m I a lg val { lg₃ with g } :=
    ⟨hadv₃.trans (hadv₃.inv.grow_same hg hlen), val', hk,
      hmodels₃.swapGraph (hmodels₃.graph.rebuild hadv₃.inv.graph hrebuild) rfl rfl⟩
  have hreached : Reached m I a lg val lg₅ := by
    refine foldlM_preserves_mem (P := Reached m I a lg val) ?_ hreached₄ hrehomed
    rintro lg' c lg'' - hstep ⟨hadv, val', hk, hmodels⟩
    exact ⟨hadv.trans (hadv.inv.rehome hstep), val', hk, hmodels.rehome hadv.inv hstep⟩
  obtain ⟨-, val', -, hmodels⟩ := hreached
  exact ⟨val', hmodels⟩

-- ---------------------------------------------------------------------------
-- Lifting
-- ---------------------------------------------------------------------------

variable {id : NodeId} {node : Node}

theorem Models.record (h : Models m I a val lg) (hi : lg.Inv a) (hm : Interprets m I num)
    (hn : (id, node) ∈ a.liveNodes) (hpure : node.op.isPure = true)
    (harity : children.length = expectedArity node.op)
    (hxs : List.Forall₂ (fun v x => Evaluates m a v.node x) node.valueInputs (children.map val))
    (hc : ∀ c ∈ children, c < lg.g.nodes.length)
    (ha : lg.append node.op children (some id) = .ok (c, lg')) :
    ∃ val', Models m I a val' (lg'.record id node children c) := by
  obtain ⟨val', hk, hmodels, hval⟩ := h.append hi hc ha
  have hrecs : lg'.recs = lg.recs := by
    obtain ⟨_, -, hret⟩ := bind_ok.mp ha
    cases hret
    rfl
  refine ⟨val', ?_⟩
  have heval : Evaluates m a id (val' c) := by
    rw [hval, ← hm.pure id.index node _ hpure ((List.length_map val).trans harity)]
    exact .apply hn hxs
  obtain ⟨hg, hrecs', hclass⟩ := @setConst_tables
    { lg' with nodeClass := lg'.nodeClass.set id.index (some c) } c (constOfOp node.op)
  constructor
  · exact hg.symm ▸ hmodels.graph
  · intro r hr
    rw [record_recs] at hr
    rcases List.mem_append.mp hr with hr | hr
    · exact hmodels.operands r hr
    · rw [List.mem_singleton.mp hr]
      exact ⟨node, hn, rfl, rfl, hpure, harity, (hk.map hc).symm ▸ hxs⟩
  · intro i d hd
    rw [record_recs]
    have hset : (lg'.record id node children c).nodeClass = lg'.nodeClass.set id.index (some c) :=
      hclass
    rw [hset] at hd
    rcases class_of_set hd with ⟨rfl, rfl⟩ | hold
    · exact ⟨_, List.mem_append_right _ (List.mem_singleton_self _), rfl, heval⟩
    · obtain ⟨r, hr, hri, hre⟩ := hmodels.classes i d hold
      exact ⟨r, List.mem_append_left _ hr, hri, hre⟩

end LiftedGraph

namespace LiftPass

open LiftedGraph

variable {m : Meaning V} {I : Op → List V → V} {num : ConstVal → V} {a : IrArena}
  {val : Nat → V} {s s' : LiftPass} {lg lg' : LiftedGraph} {id : NodeId}
  {remaining rest : List NodeId} {nodeClass : List (Option Nat)} {vals : List ValueId}
  {children children' : List Nat} {budget fuel : Nat} {n : Node}

/-- The word of a node has no top bits, so the test for `NONE` never holds. -/
theorem node_isNone {v : ValueId} : v.node.isNone = false := by
  simp [NodeId.isNone, ValueId.node, NodeId.NONE]

/-- Each operand gives one child, its node's class. -/
theorem foldlM_child_classes (h : vals.foldlM (child nodeClass) children = some children') :
    ∃ cs, children' = children ++ cs ∧
      List.Forall₂ (fun v c => nodeClass[v.node.index]? = some (some c)) vals cs := by
  induction vals generalizing children with
  | nil =>
    cases h
    exact ⟨[], (List.append_nil _).symm, .nil⟩
  | cons v vals ih =>
    rw [List.foldlM_cons] at h
    obtain ⟨mid, hmid, h⟩ := Option.bind_eq_some_iff.mp h
    unfold child at hmid
    rw [node_isNone] at hmid
    simp only [Bool.false_eq_true, ↓reduceIte] at hmid
    split at hmid
    · next c hjoin =>
      split at hmid
      · cases hmid
        obtain ⟨cs, hcs, hall⟩ := ih h
        refine ⟨c :: cs, by rw [hcs, List.append_assoc, List.singleton_append], .cons ?_ hall⟩
        exact Option.join_eq_some_iff.mp hjoin
      · cases hmid
    · cases hmid

theorem models_visit (h : Models m I a val s.graph) (hi : s.Inv a (id :: rest))
    (hm : Interprets m I num) (hv : verify a = .ok ()) (hn : (id, n) ∈ a.liveNodes)
    (hpure : n.op.isPure = true) (hr : visit a s id = .ok s') :
    ∃ val', Models m I a val' s'.graph := by
  obtain ⟨node, hnode, hr⟩ := bind_ok.mp hr
  cases (mapError_ok.mp hnode).symm.trans (IrArena.node_of_live hn)
  split at hr
  · cases hr
    exact ⟨val, h⟩
  · next children hchildren =>
    obtain ⟨⟨c, lg⟩, happend, hret⟩ := bind_ok.mp hr
    cases hret
    have hc := foldlM_child hi.graph.classes (by simp) hchildren
    obtain ⟨cs, hcs, hclasses⟩ := foldlM_child_classes hchildren
    rw [List.nil_append] at hcs
    subst hcs
    have hok := (verify_ok.mp hv).2.2 id n hn
    have harity : children.length = expectedArity n.op := by
      rw [← hclasses.length_eq, hok.valueInputs_eq, hok.arity]
    refine h.record hi.graph hm hn hpure harity ?_ hc happend
    rw [List.forall₂_map_right_iff]
    refine List.forall₂_iff_get.mpr ⟨hclasses.length_eq, fun i hiv hic => ?_⟩
    obtain ⟨r, hrec, hri, heval⟩ := h.classes _ _ (hclasses.get hiv hic)
    obtain ⟨⟨d, hd, -⟩, -⟩ := hi.graph.recs r hrec
    obtain ⟨e, he⟩ := hok.inputs _ (List.get_mem _ ⟨i, hiv⟩)
    exact heval.of_live hd hri.symm he.def_eq

/-- A pass that lifts pure nodes, and what it has lifted so far. -/
structure Lifting (m : Meaning V) (I : Op → List V → V) (a : IrArena) (s : LiftPass)
    (rest : List NodeId) : Prop where
  inv : s.Inv a rest
  pure : ∀ id ∈ s.next ++ rest, ∃ n, (id, n) ∈ a.liveNodes ∧ n.op.isPure = true
  models : ∃ val, Models m I a val s.graph

theorem visit_next (hr : visit a s id = .ok s') : s'.next ⊆ s.next ++ [id] := by
  obtain ⟨node, -, hr⟩ := bind_ok.mp hr
  split at hr
  · cases hr
    exact fun _ h => h
  · obtain ⟨_, -, hret⟩ := bind_ok.mp hr
    cases hret
    exact List.subset_append_left _ _

theorem Lifting.visit (h : Lifting m I a s (id :: rest)) (hm : Interprets m I num)
    (hv : verify a = .ok ()) (hr : visit a s id = .ok s') : Lifting m I a s' rest := by
  obtain ⟨n, hn, hp⟩ := h.pure id (by simp)
  obtain ⟨val, hmodels⟩ := h.models
  refine ⟨h.inv.visit hr, fun x hx => h.pure x ?_, models_visit hmodels h.inv hm hv hn hp hr⟩
  rcases List.mem_append.mp hx with hx | hx
  · rcases List.mem_append.mp (visit_next hr hx) with hx | hx
    · exact List.mem_append_left _ hx
    · obtain rfl := List.mem_singleton.mp hx
      exact List.mem_append_right _ List.mem_cons_self
  · exact List.mem_append_right _ (List.mem_cons_of_mem _ hx)

theorem Lifting.run (h : Lifting m I a s remaining) (hm : Interprets m I num)
    (hv : verify a = .ok ()) (hr : remaining.foldlM (LiftPass.visit a) s = .ok s') :
    Lifting m I a s' [] := by
  induction remaining generalizing s with
  | nil =>
    cases hr
    exact h
  | cons id rest ih =>
    rw [List.foldlM_cons] at hr
    obtain ⟨s₁, hvisit, hr⟩ := bind_ok.mp hr
    exact ih (h.visit hm hv hvisit) hr

theorem Lifting.passes {progressed : Bool}
    (h : Lifting m I a ⟨lg, remaining, progressed⟩ []) (hm : Interprets m I num)
    (hv : verify a = .ok ()) (hr : liftPasses a fuel lg remaining = .ok lg') :
    ∃ val', Models m I a val' lg' := by
  induction fuel generalizing lg remaining progressed with
  | zero =>
    cases hr
    exact h.models
  | succ fuel ih =>
    unfold liftPasses at hr
    split at hr
    · cases hr
      exact h.models
    · obtain ⟨s, hrun, hr⟩ := bind_ok.mp hr
      have hstart : Lifting m I a ⟨lg, [], false⟩ remaining :=
        ⟨⟨h.inv.graph, by simpa using h.inv.live, by simpa using h.inv.nodup⟩,
          by simpa using h.pure, h.models⟩
      have hs := hstart.run hm hv hrun
      split at hr
      · exact ih hs hr
      · cases hr
        exact hs.models

end LiftPass

namespace LiftedGraph

variable {m : Meaning V} {I : Op → List V → V} {num : ConstVal → V} {a : IrArena}
  {lg : LiftedGraph} {budget : Nat}

theorem new_models {val : Nat → V} : Models m I a val (new a budget) where
  graph := EGraph.new_valued
  operands := by simp [new]
  classes i c hc := by simp [new, List.getElem?_replicate] at hc

theorem lift_models (hm : Interprets m I num) (hv : verify a = .ok ())
    (h : lift a budget = .ok lg) (x : V) : ∃ val, Models m I a val lg := by
  have hsub : List.Sublist ((a.liveNodes.filter fun e => liftable a e.2).map (·.1)) a.liveIds :=
    List.filter_sublist.map _
  refine @LiftPass.Lifting.passes _ m I num a _ _ _ _ false ⟨⟨new_inv, ?_, ?_⟩, ?_, ?_⟩ hm hv h
  · change ∀ id ∈ [] ++ (_ ++ []), id ∈ a.liveIds
    rw [List.nil_append, List.append_nil]
    exact fun id hid => hsub.subset hid
  · change ([] ++ (_ ++ [])).Nodup
    rw [List.nil_append, List.append_nil]
    exact hsub.nodup a.liveIds_nodup
  · rw [List.append_nil]
    intro id hid
    obtain ⟨⟨_, n⟩, hn, rfl⟩ := List.mem_map.mp hid
    obtain ⟨hlive, hlift⟩ := List.mem_filter.mp hn
    exact ⟨n, hlive, (Bool.and_eq_true _ _ ▸ hlift : _ ∧ _).1⟩
  · exact ⟨fun _ => x, new_models⟩

/-- Whatever the rounds have joined, classes are worth what their nodes
evaluate to. -/
theorem Saturating.models (hm : Interprets m I num) (hv : verify a = .ok ())
    (hrules : RulesHold m I num a) (x : V) (h : Saturating a budget lg) :
    ∃ val, Models m I a val lg := by
  induction h with
  | lifted h => exact lift_models hm hv h x
  | round hs hr ih =>
    obtain ⟨val, hmodels⟩ := ih
    exact hmodels.round hs.inv hm hrules hr

end LiftedGraph

end Sxla
