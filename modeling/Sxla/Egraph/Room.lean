import Sxla.Egraph.ApplyLaws
import Sxla.Egraph.ExtractLaws
import Sxla.Library.Metered

/-!
# Room for an application

Lifting adds one e-node for a node at most, and a round two for a record: a
folded constant and a swapped operation. So an application has room in nine
e-nodes for each node that can be lifted, and whatever else its parts could
fail with does not occur: each lookup is of an id that is there.
-/

namespace Sxla

open Checked Metered IrArena
open EGraph (need)

-- ---------------------------------------------------------------------------
-- The e-graph
-- ---------------------------------------------------------------------------

namespace EGraph

variable {g g' : EGraph} {x y c w n : Nat} {op : Op} {children : List Nat} {e : EgraphError}

/-- E-nodes against the capacity. -/
def meter : Meter EGraph Nat := ⟨fun g => g.nodes.length, capacity, id⟩

theorem add_error (h : g.add op children = .error e) : g.capacity ≤ g.nodes.length ∧ e = .full ∨
    4 < children.length ∨ e = .badClass ∨ ∃ u, e = .union u := by
  unfold add at h
  split at h
  · next hfull => exact .inl ⟨hfull, (Except.error.inj h).symm⟩
  · split at h
    · next hmany => exact .inr (.inl hmany)
    · refine .inr (.inr ?_)
      split at h
      · cases h
      · next existing _ =>
        cases hex : g.nodes[existing]? with
        | none =>
          rw [hex] at h
          exact .inl (Except.error.inj h).symm
        | some ex =>
          rw [hex] at h
          change (if _ then _ else _ : Except EgraphError _) = _ at h
          split at h
          · cases hcls : g.nodeClass[existing]? with
            | none =>
              rw [hcls] at h
              exact .inl (Except.error.inj h).symm
            | some cls =>
              rw [hcls] at h
              change (g.uf.findRo cls).mapError EgraphError.union >>= _ = _ at h
              cases hfind : g.uf.findRo cls with
              | ok root =>
                rw [hfind] at h
                cases h
              | error u =>
                rw [hfind] at h
                exact .inr ⟨u, (Except.error.inj h).symm⟩
          · cases h

theorem Inv.add_costs (h : g.Inv) (hc : ∀ c ∈ children, c < g.nodes.length)
    (hfour : children.length ≤ 4) : meter.Costs .full Prod.snd 1 g (g.add op children) := by
  rcases @Inv.add_cases g op children h hc with ⟨e, herr, hor⟩ | ⟨x, m, -, -, hok⟩ | ⟨hok, -⟩
  · rw [herr]
    obtain ⟨hfull, rfl⟩ | hmany | rfl | ⟨u, rfl⟩ := add_error herr
    · refine .full fun hcovers => ?_
      change g.nodes.length + 1 ≤ g.capacity at hcovers
      omega
    · omega
    · rcases hor with he | he <;> cases he
    · rcases hor with he | he <;> cases he
  · rw [hok]
    exact .ok (Meter.Spends.refl.mono (Nat.zero_le 1))
  · rw [hok]
    refine .ok ⟨rfl, ?_⟩
    change (g.nodes ++ [_]).length ≤ _
    rw [List.length_append]
    exact Nat.le_refl _

theorem Inv.canon_costs (h : g.Inv) (hc : c < g.nodes.length) :
    meter.Costs .full Prod.snd 0 g (g.canon c) := by
  obtain ⟨uf, hfind, -⟩ := UnionFind.find_eq h.descending (h.lt_table hc)
  rw [canon, hfind]
  exact .ok ⟨rfl, Nat.le_refl _⟩

theorem merge_capacity (h : g.merge x y = .ok (w, g')) : g'.capacity = g.capacity := by
  obtain ⟨p, -, h⟩ := bind_ok.mp h
  obtain ⟨q, -, h⟩ := bind_ok.mp h
  obtain ⟨r, -, hret⟩ := bind_ok.mp h
  cases hret
  rfl

theorem Inv.merge_costs (h : g.Inv) (hx : x < g.nodes.length) (hy : y < g.nodes.length) :
    meter.Costs .full Prod.snd 0 g (g.merge x y) := by
  obtain ⟨w, g', hmerge, -, hnodes, -⟩ := h.merge hx hy
  rw [hmerge]
  exact .ok ⟨merge_capacity hmerge, (congrArg List.length hnodes).le⟩

theorem rebuild_capacity (h : g.rebuild = .ok (n, g')) : g'.capacity = g.capacity := by
  obtain ⟨p, -, h⟩ := bind_ok.mp h
  obtain ⟨r, hrun, hret⟩ := bind_ok.mp h
  cases hret
  refine foldlM_preserves (P := fun r : Rebuild => r.graph.capacity = g.capacity) ?_ rfl hrun
  intro r i r' hvisit hcap
  obtain ⟨node, -, hvisit⟩ := bind_ok.mp hvisit
  split at hvisit
  · cases hvisit
    exact hcap
  · obtain ⟨ex, -, hvisit⟩ := bind_ok.mp hvisit
    split at hvisit
    · obtain ⟨ka, -, hvisit⟩ := bind_ok.mp hvisit
      obtain ⟨ca, -, hvisit⟩ := bind_ok.mp hvisit
      obtain ⟨kb, -, hvisit⟩ := bind_ok.mp hvisit
      obtain ⟨cb, -, hvisit⟩ := bind_ok.mp hvisit
      split at hvisit
      · cases hvisit
        exact hcap
      · obtain ⟨⟨w, g₁⟩, hmerge, hret⟩ := bind_ok.mp hvisit
        cases hret
        exact (merge_capacity hmerge).trans hcap
    · cases hvisit
      exact hcap

theorem Inv.rebuild_costs (h : g.Inv) : meter.Costs .full Prod.snd 0 g g.rebuild := by
  obtain ⟨m, g', hrebuild, -, hlen⟩ := h.rebuild
  rw [hrebuild]
  exact .ok ⟨rebuild_capacity hrebuild, hlen.le⟩

end EGraph

-- ---------------------------------------------------------------------------
-- A round
-- ---------------------------------------------------------------------------

namespace LiftedGraph

variable {a : IrArena} {lg lg' : LiftedGraph} {op : Op} {children : List Nat} {c w x y k : Nat}
  {r : LiftRecord} {rw : Rewrite}

/-- E-nodes against the capacity. The records and their classes stay. -/
def meter : Meter LiftedGraph (Nat × List (Option Nat) × List LiftRecord) :=
  ⟨fun lg => lg.g.nodes.length, fun lg => (lg.g.capacity, lg.nodeClass, lg.recs), Prod.fst⟩

/-- Every record has a class. -/
def Classed (lg : LiftedGraph) : Prop :=
  ∀ r ∈ lg.recs, ∃ c, lg.nodeClass[r.node.index]? = some (some c)

theorem Classed.spends (h : lg.Classed) (hs : meter.Spends k lg lg') : lg'.Classed := by
  obtain ⟨-, hrest⟩ := Prod.mk.inj hs.fixed
  obtain ⟨hclass, hrecs⟩ := Prod.mk.inj hrest
  intro r hr
  rw [hclass]
  exact h r (hrecs ▸ hr)

theorem spends_graph {g : EGraph} {xirOf : List (Option NodeId)}
    (h : EGraph.meter.Spends k lg.g g) : meter.Spends k lg { lg with g, xirOf } := by
  refine ⟨?_, h.used⟩
  change (g.capacity, _) = (lg.g.capacity, _)
  rw [show g.capacity = lg.g.capacity from h.fixed]

theorem spends_setConst {v : Option ConstVal} : meter.Spends 0 lg (lg.setConst c v) := by
  cases v <;> exact ⟨rfl, Nat.le_refl _⟩

theorem spends_propagateConst : meter.Spends 0 lg (lg.propagateConst w x) := by
  unfold LiftedGraph.propagateConst
  split
  · exact .refl
  · split
    · exact spends_setConst
    · exact .refl

theorem costs_graph {β : Type} {view : β → EGraph} {b : Except EgraphError β}
    (xirOf : β → List (Option NodeId)) (h : EGraph.meter.Costs .full view k lg.g b) :
    meter.Costs .full (fun p => { lg with g := view p, xirOf := xirOf p }) k lg b :=
  h.part meter _ id fun _ hs => spends_graph hs

theorem Inv.canon_costs (h : lg.Inv a) (hc : c < lg.g.nodes.length) :
    meter.Costs .full Prod.snd 0 lg (lg.canon c) :=
  (costs_graph (fun _ => lg.xirOf) (h.graph.canon_costs hc)).map
    (fun p : Nat × EGraph => (p.1, ({ lg with g := p.2 } : LiftedGraph))) Prod.snd

theorem Inv.merge_costs (h : lg.Inv a) (hx : x < lg.g.nodes.length) (hy : y < lg.g.nodes.length) :
    meter.Costs .full Prod.snd 0 lg (lg.merge x y) :=
  (costs_graph (fun _ => lg.xirOf) (h.graph.merge_costs hx hy)).map
    (fun p : Nat × EGraph => (p.1, ({ lg with g := p.2 } : LiftedGraph))) Prod.snd

theorem Inv.append_costs {o : Option NodeId} (h : lg.Inv a)
    (hc : ∀ c ∈ children, c < lg.g.nodes.length) (hfour : children.length ≤ 4) :
    meter.Costs .full Prod.snd 1 lg (lg.append op children o) := by
  let xirOf (p : Nat × EGraph) : List (Option NodeId) :=
    if p.2.nodes.length > lg.g.nodes.length then lg.xirOf ++ [o] else lg.xirOf
  exact (costs_graph xirOf (h.graph.add_costs hc hfour)).map
    (fun p => (p.1, ({ lg with g := p.2, xirOf := xirOf p } : LiftedGraph))) Prod.snd

theorem Inv.own_costs (h : lg.Inv a) (hcl : lg.Classed) (hr : r ∈ lg.recs) :
    meter.Costs .full Prod.snd 0 lg (lg.own r) := by
  obtain ⟨c, hc⟩ := hcl r hr
  have hown : lg.own r = lg.canon c := by
    rw [LiftedGraph.own, hc]
    rfl
  rw [hown]
  exact h.canon_costs (h.classes _ c hc)

/-- What a chain of steps has left: the invariant, and the records with their
classes. -/
structure Kept (a : IrArena) (lg lg' : LiftedGraph) : Prop where
  advances : Advances a lg lg'
  classed : lg'.Classed

theorem Kept.step {lg'' : LiftedGraph} (h : Kept a lg lg') (hadv : Advances a lg' lg'')
    (hs : meter.Spends k lg' lg'') : Kept a lg lg'' :=
  ⟨h.advances.trans hadv, h.classed.spends hs⟩

theorem Inv.snaps_costs {recs : List LiftRecord} (h : lg.Inv a)
    (hrecs : ∀ r ∈ recs, ∀ c ∈ r.children, c < lg.g.nodes.length) :
    meter.Costs .full Prod.snd 0 lg (lg.snaps recs) := by
  induction recs generalizing lg with
  | nil => exact .ok .refl
  | cons r recs ih =>
    obtain ⟨hfirst, hrest⟩ := List.forall_mem_cons.mp hrecs
    obtain ⟨uf, hcanon, -⟩ := EGraph.canonChildren_eq h.graph.descending
      fun c hc => h.graph.lt_table (hfirst c hc)
    obtain ⟨hg, -⟩ := h.graph.canonChildren_spec hfirst hcanon
    have hadv := h.grow_same hg rfl
    rw [LiftedGraph.snaps, hcanon]
    refine ((ih hadv.inv hrest).part (t := lg) meter Prod.snd id
      fun _ hs => ⟨hs.fixed, hs.used⟩).map (fun p : List RuleSnap × LiftedGraph => (_ :: p.1, p.2))
      Prod.snd

theorem Inv.fire_costs (h : lg.Inv a) (hcl : lg.Classed) (hr : r ∈ lg.recs)
    (hc : ∀ c ∈ rw.children, c = 0 ∨ c < lg.g.nodes.length) :
    meter.Costs .full Prod.fst 1 lg (lg.fire r rw) := by
  refine (h.own_costs hcl hr).bind (k := 1) fun p hown => ?_
  obtain ⟨own, lg₁⟩ := p
  obtain ⟨hadv, hlt⟩ := h.own hown
  cases hchildren : rw.children with
  | nil =>
    refine (hadv.inv.append_costs (by simp) (by simp)).bind (k := 0) fun p happend => ?_
    obtain ⟨cls, lg₂⟩ := p
    obtain ⟨hadv₂, e, -, hs⟩ := hadv.inv.append (by simp) happend
    refine (hadv₂.inv.merge_costs (hadv₂.grows.lt hlt) hs.right).bind (k := 0) fun _ _ => ?_
    exact .ok spends_setConst
  | cons child rest =>
    cases rest with
    | nil =>
      dsimp only
      split
      · have hchild : child < lg₁.g.nodes.length := by
          rcases hc child (by simp [hchildren]) with rfl | hchild
          · exact Nat.zero_lt_of_lt hlt
          · exact hadv.grows.lt hchild
        refine (hadv.inv.merge_costs hlt hchild).bind (k := 1) fun _ _ => ?_
        exact .ok (spends_propagateConst.mono (Nat.zero_le 1))
      · exact .ok (Meter.Spends.refl.mono (Nat.zero_le 1))
    | cons c rest => exact .ok (Meter.Spends.refl.mono (Nat.zero_le 1))

theorem Inv.commute_costs {s : LiftedGraph × Nat} (h : s.1.Inv a) (hcl : s.1.Classed)
    (hr : r ∈ s.1.recs) : meter.Costs .full Prod.fst 1 s.1 (LiftedGraph.commute s r) := by
  have hkeep : ∀ {lg : LiftedGraph} {n : Nat},
      meter.Costs EgraphError.full Prod.fst 1 lg (.ok (lg, n)) :=
    .ok (Meter.Spends.refl.mono (Nat.zero_le 1))
  have hc := (h.recs r hr).2
  unfold LiftedGraph.commute
  split
  · next x y hxy =>
    rw [hxy] at hc
    split
    · refine (h.canon_costs (hc x (by simp))).bind (k := 1) fun p hc0 => ?_
      obtain ⟨c0, lg₁⟩ := p
      obtain ⟨hadv₁, hs0⟩ := h.canon (hc x (by simp)) hc0
      have hcl₁ := hcl.spends ((h.canon_costs (hc x (by simp))).spends hc0)
      have hy := hadv₁.grows.lt (hc y (by simp))
      refine (hadv₁.inv.canon_costs hy).bind (k := 1) fun p hc1 => ?_
      obtain ⟨c1, lg₂⟩ := p
      obtain ⟨hadv₂, hs1⟩ := hadv₁.inv.canon hy hc1
      have hcl₂ := hcl₁.spends ((hadv₁.inv.canon_costs hy).spends hc1)
      have hr₂ : r ∈ lg₂.recs := by
        rw [hadv₂.recs, hadv₁.recs]
        exact hr
      dsimp only
      split
      · exact hkeep
      · refine (hadv₂.inv.own_costs hcl₂ hr₂).bind (k := 1) fun p hown => ?_
        obtain ⟨own, lg₃⟩ := p
        obtain ⟨hadv₃, hlt⟩ := hadv₂.inv.own hown
        have hchildren : ∀ c ∈ [c1, c0], c < lg₃.g.nodes.length := by
          intro c hc
          rcases List.mem_pair.mp hc with rfl | rfl
          · exact hadv₃.grows.lt hs1.left
          · exact (hadv₂.trans hadv₃).grows.lt hs0.left
        refine (hadv₃.inv.append_costs hchildren (by simp)).bind (k := 0) fun p happend => ?_
        obtain ⟨cls, lg₄⟩ := p
        obtain ⟨hadv₄, e, -, hs⟩ := hadv₃.inv.append hchildren happend
        refine (hadv₄.inv.canon_costs hs.right).bind (k := 0) fun p hcanon => ?_
        obtain ⟨swapped, lg₅⟩ := p
        obtain ⟨hadv₅, hsw⟩ := hadv₄.inv.canon hs.right hcanon
        dsimp only
        split
        · exact .ok .refl
        · have hown := (hadv₄.trans hadv₅).grows.lt hlt
          refine (hadv₅.inv.merge_costs hown hsw.left).bind (k := 0) fun _ _ => ?_
          exact .ok (spends_propagateConst.trans spends_propagateConst)
    · exact hkeep
  · exact hkeep

theorem Inv.rehome_costs (h : lg.Inv a) : meter.Costs .full id 0 lg (lg.rehome c) := by
  unfold LiftedGraph.rehome
  split
  · next hsome =>
    obtain ⟨v, hv⟩ := Option.isSome_iff_exists.mp hsome
    obtain ⟨e, op, -, -, hs⟩ := h.consts c v hv
    exact (h.canon_costs hs.right).bind (k := 0) fun _ _ => .ok spends_propagateConst
  · exact .ok .refl

variable {s : LiftedGraph × Nat}

theorem Kept.applyRule {o : Option Rewrite} (h : Kept a lg s.1) (hr : r ∈ lg.recs)
    (hc : ∀ rw, o = some rw → ∀ c ∈ rw.children, c = 0 ∨ c < lg.g.nodes.length) :
    meter.Costs .full Prod.fst 1 s.1 (LiftedGraph.applyRule s (r, o)) ∧
      ∀ s', LiftedGraph.applyRule s (r, o) = .ok s' → Kept a lg s'.1 := by
  cases o with
  | none =>
    refine ⟨.ok (Meter.Spends.refl.mono (Nat.zero_le 1)), fun s' hs' => ?_⟩
    cases hs'
    exact h
  | some rw =>
    have hc : ∀ c ∈ rw.children, c = 0 ∨ c < s.1.g.nodes.length :=
      fun c hcm => (hc rw rfl c hcm).imp_right h.advances.grows.lt
    have hfire := h.advances.inv.fire_costs h.classed (h.advances.recs ▸ hr) hc
    refine ⟨hfire.map (fun p : LiftedGraph × Nat => (p.1, s.2 + p.2)) Prod.fst, fun s' hs' => ?_⟩
    obtain ⟨⟨lg', k⟩, hrun, hret⟩ := bind_ok.mp hs'
    cases hret
    have hs : meter.Spends 1 s.1 lg' := hfire.spends hrun
    exact h.step (h.advances.inv.fire hc hrun) hs

theorem Kept.commute (h : Kept a lg s.1) (hr : r ∈ lg.recs) :
    meter.Costs .full Prod.fst 1 s.1 (LiftedGraph.commute s r) ∧
      ∀ s', LiftedGraph.commute s r = .ok s' → Kept a lg s'.1 := by
  have hmem : r ∈ s.1.recs := h.advances.recs ▸ hr
  have hcosts := h.advances.inv.commute_costs h.classed hmem
  exact ⟨hcosts, fun s' hs' => h.step
    (h.advances.inv.commute (h.advances.inv.recs r hmem).2 hs') (hcosts.spends hs')⟩

theorem Kept.rehome (h : Kept a lg lg') : meter.Costs .full id 0 lg' (lg'.rehome c) ∧
    ∀ lg'', lg'.rehome c = .ok lg'' → Kept a lg lg'' :=
  ⟨h.advances.inv.rehome_costs, fun _ hs => h.step (h.advances.inv.rehome hs)
    (h.advances.inv.rehome_costs.spends hs)⟩

/-- A round adds at most two e-nodes for each record. -/
theorem Inv.round_costs (h : lg.Inv a) (hcl : lg.Classed) :
    meter.Costs .full Round.graph (2 * lg.recs.length) lg lg.round := by
  have hrecs : ∀ r ∈ lg.recs, ∀ c ∈ r.children, c < lg.g.nodes.length :=
    fun r hr => (h.recs r hr).2
  refine Meter.Costs.mono (j := 0 + (lg.recs.length + (lg.recs.length + (0 + 0)))) ?_ (by omega)
  refine (h.snaps_costs hrecs).bind fun p hsnaps => ?_
  obtain ⟨snaps, lg₁⟩ := p
  obtain ⟨hadv₁, hchildren⟩ := h.snaps hrecs hsnaps
  have hkept₁ : Kept a lg lg₁ := ⟨hadv₁, hcl.spends ((h.snaps_costs hrecs).spends hsnaps)⟩
  -- the rules
  obtain ⟨hfires, hkeeps⟩ := @Meter.Costs.foldlM _ _ _ _ _ meter EgraphError.full 1 Prod.fst
    LiftedGraph.applyRule (fun s => Kept a lg s.1) (lg.recs.zip (snaps.map fun s =>
      localRules s.op s.children s.consts s.elem)) (lg₁, 0) hkept₁ (by
    rintro s ⟨r, o⟩ hmem hkept
    obtain ⟨hr, ho⟩ := List.of_mem_zip hmem
    obtain ⟨snap, hsnap, rfl⟩ := List.mem_map.mp ho
    exact hkept.applyRule hr fun rw hrule => localRules_children hrule (hchildren snap hsnap))
  have hlen : (lg.recs.zip (snaps.map fun s =>
      localRules s.op s.children s.consts s.elem)).length * 1 ≤ lg.recs.length := by
    rw [Nat.mul_one, List.length_zip]
    exact Nat.min_le_left _ _
  refine (hfires.mono hlen).bind fun p hfired => ?_
  have hkept₂ := hkeeps p hfired
  obtain ⟨lg₂, fired⟩ := p
  -- the swaps
  obtain ⟨hswaps, hkeeps⟩ := @Meter.Costs.foldlM _ _ _ _ _ meter EgraphError.full 1 Prod.fst
    LiftedGraph.commute (fun s => Kept a lg s.1) lg.recs (lg₂, 0) hkept₂
    fun s r hr hkept => hkept.commute hr
  refine (hswaps.mono (Nat.mul_one _).le).bind fun p hcommuted => ?_
  have hkept₃ := hkeeps p hcommuted
  obtain ⟨lg₃, commuted⟩ := p
  -- the merges, and the constants behind them
  have hgraph := hkept₃.advances.inv.graph
  have hrebuild := costs_graph (fun _ => lg₃.xirOf) hgraph.rebuild_costs
  refine hrebuild.bind fun p hrebuilt => ?_
  obtain ⟨merged, g⟩ := p
  obtain ⟨hg, hlen⟩ := hgraph.rebuild_spec hrebuilt
  have hkept₄ : Kept a lg { lg₃ with g } :=
    hkept₃.step (hkept₃.advances.inv.grow_same hg hlen) (hrebuild.spends hrebuilt)
  obtain ⟨hrehomes, -⟩ := @Meter.Costs.foldlM _ _ _ _ _ meter EgraphError.full 0 id
    LiftedGraph.rehome (fun lg' => Kept a lg lg') (List.range lg₃.classConst.length)
    { lg₃ with g } hkept₄ fun lg' c _ hkept => hkept.rehome
  exact (hrehomes.mono (Nat.mul_zero _).le).map (fun lg => ⟨lg, fired + commuted, merged⟩) Round.graph

theorem Inv.rounds_costs {fuel n : Nat} (h : lg.Inv a) (hcl : lg.Classed) :
    meter.Costs .full Prod.snd (fuel * (2 * lg.recs.length)) lg (rounds fuel lg n) := by
  induction fuel generalizing lg n with
  | zero => exact .ok ⟨rfl, Nat.le_add_right _ _⟩
  | succ fuel ih =>
    rw [Nat.succ_mul, Nat.add_comm]
    refine (h.round_costs hcl).bind fun r hround => ?_
    have hs := (h.round_costs hcl).spends hround
    split
    · exact .ok (Meter.Spends.refl.mono (Nat.zero_le _))
    · have hadv := h.round hround
      rw [← hadv.recs]
      exact ih hadv.inv (hcl.spends hs)

end LiftedGraph

-- ---------------------------------------------------------------------------
-- Lifting
-- ---------------------------------------------------------------------------

theorem LiftedGraph.record_graph {lg : LiftedGraph} {id : NodeId} {node : Node}
    {children : List Nat} {c : Nat} : (lg.record id node children c).g = lg.g := by
  unfold LiftedGraph.record
  cases constOfOp node.op <;> rfl

namespace LiftPass

variable {a : IrArena} {s s' : LiftPass} {lg lg' : LiftedGraph} {id : NodeId}
  {rest remaining : List NodeId} {nodeClass : List (Option Nat)} {children children' : List Nat}
  {vals : List ValueId} {progressed : Bool} {fuel : Nat}

/-- E-nodes, and nodes that are left to the next pass, against the capacity. -/
def meter : Meter LiftPass Nat :=
  ⟨fun s => s.graph.g.nodes.length + s.next.length, fun s => s.graph.g.capacity, fun n => n⟩

theorem foldlM_child_length (hc : children.length ≤ 4)
    (h : vals.foldlM (child nodeClass) children = some children') : children'.length ≤ 4 := by
  induction vals generalizing children with
  | nil =>
    cases h
    exact hc
  | cons v vals ih =>
    rw [List.foldlM_cons] at h
    obtain ⟨mid, hmid, h⟩ := Option.bind_eq_some_iff.mp h
    refine ih ?_ h
    unfold child at hmid
    split at hmid
    · cases hmid
      exact hc
    · split at hmid
      · split at hmid
        · next hlt =>
          cases hmid
          rw [List.length_append]
          exact hlt
        · cases hmid
      · cases hmid

/-- A node takes an e-node, or a place among the nodes that are left. -/
theorem Inv.visit_costs (h : s.Inv a (id :: rest)) :
    meter.Costs .full (fun s => s) 1 s (LiftPass.visit a s id) := by
  obtain ⟨⟨i, n⟩, hn, rfl⟩ := List.mem_map.mp (h.live id (by simp))
  have hnode : (a.node i).mapError (fun _ => EgraphError.badClass) = .ok n := by
    rw [node_of_live hn]
    rfl
  unfold LiftPass.visit
  rw [hnode]
  have hread : meter.Costs .full (fun _ => s) 0 s (.ok n : Except EgraphError Node) := .ok .refl
  refine hread.bind (k := 1) fun node hnode => ?_
  cases hnode
  split
  · refine .ok ⟨rfl, ?_⟩
    change _ + (s.next ++ [i]).length ≤ _
    rw [List.length_append, List.length_singleton]
    exact (Nat.add_assoc _ _ _).ge
  · next children hchildren =>
    have hc := foldlM_child h.graph.classes (by simp) hchildren
    have hnil : ([] : List Nat).length ≤ 4 := Nat.zero_le 4
    have hfour := foldlM_child_length hnil hchildren
    have happend := @LiftedGraph.Inv.append_costs a s.graph n.op children (some i) h.graph hc hfour
    refine (happend.part meter (fun p : Nat × LiftedGraph =>
      (⟨p.2.record i n children p.1, s.next, true⟩ : LiftPass)) (fun hcovers => ?_)
      fun p hs => ?_).map
      (fun p : Nat × LiftedGraph => (⟨p.2.record i n children p.1, s.next, true⟩ : LiftPass)) _
    · change s.graph.g.nodes.length + s.next.length + 1 ≤ s.graph.g.capacity at hcovers
      change s.graph.g.nodes.length + 1 ≤ s.graph.g.capacity
      omega
    · obtain ⟨hcap, -⟩ := Prod.mk.inj hs.fixed
      have hused : p.2.g.nodes.length ≤ s.graph.g.nodes.length + 1 := hs.used
      refine ⟨?_, ?_⟩
      · change (p.2.record i n children p.1).g.capacity = _
        rw [LiftedGraph.record_graph]
        exact hcap
      · change (p.2.record i n children p.1).g.nodes.length + s.next.length ≤
          s.graph.g.nodes.length + s.next.length + 1
        rw [LiftedGraph.record_graph]
        omega

theorem Inv.run_costs (h : s.Inv a remaining) :
    meter.Costs .full (fun s => s) remaining.length s (remaining.foldlM (LiftPass.visit a) s) := by
  induction remaining generalizing s with
  | nil => exact .ok .refl
  | cons id rest ih =>
    rw [List.foldlM_cons, List.length_cons, Nat.add_comm]
    exact h.visit_costs.bind fun s' hs' => ih (h.visit hs')

/-- The nodes that are left are paid for, so the passes cost nothing. -/
theorem passes_costs (h : (⟨lg, remaining, progressed⟩ : LiftPass).Inv a []) :
    meter.Costs .full (fun lg => ⟨lg, [], false⟩) 0 ⟨lg, remaining, progressed⟩
      (liftPasses a fuel lg remaining) := by
  induction fuel generalizing lg remaining progressed with
  | zero =>
    refine .ok ⟨rfl, ?_⟩
    change lg.g.nodes.length + 0 ≤ lg.g.nodes.length + remaining.length + 0
    omega
  | succ fuel ih =>
    unfold liftPasses
    split
    · refine .ok ⟨rfl, ?_⟩
      change lg.g.nodes.length + 0 ≤ lg.g.nodes.length + remaining.length + 0
      omega
    · have hstart : (⟨lg, [], false⟩ : LiftPass).Inv a remaining :=
        ⟨h.graph, by simpa using h.live, by simpa using h.nodup⟩
      have hrun : meter.Costs EgraphError.full (fun s => s) 0 ⟨lg, remaining, progressed⟩
          (remaining.foldlM (LiftPass.visit a) ⟨lg, [], false⟩) := by
        refine hstart.run_costs.part meter _ (fun hcovers => ?_) fun s hs => ⟨hs.fixed, ?_⟩
        · change lg.g.nodes.length + remaining.length + 0 ≤ lg.g.capacity at hcovers
          change lg.g.nodes.length + 0 + remaining.length ≤ lg.g.capacity
          omega
        · have hused : s.graph.g.nodes.length + s.next.length ≤
              lg.g.nodes.length + 0 + remaining.length := hs.used
          change s.graph.g.nodes.length + s.next.length ≤ lg.g.nodes.length + remaining.length + 0
          omega
      refine hrun.bind (k := 0) fun s hs => ?_
      split
      · exact ih (hstart.run hs)
      · refine .ok ⟨rfl, ?_⟩
        change s.graph.g.nodes.length + 0 ≤ s.graph.g.nodes.length + s.next.length + 0
        omega

/-- Records have classes, and there are no more of them than nodes. -/
structure Booked (s : LiftPass) (count : Nat) : Prop where
  classed : s.graph.Classed
  count : s.graph.recs.length + s.next.length ≤ count

theorem Booked.visit {count : Nat} (h : s.Inv a (id :: rest)) (hb : s.Booked count)
    (hv : LiftPass.visit a s id = .ok s') : s'.Booked (count + 1) := by
  obtain ⟨node, hnode, hv⟩ := bind_ok.mp hv
  have hcount := hb.count
  split at hv
  · cases hv
    refine ⟨hb.classed, ?_⟩
    dsimp only
    rw [List.length_append, List.length_singleton]
    omega
  · next children hchildren =>
    obtain ⟨⟨c, lg⟩, happend, hret⟩ := bind_ok.mp hv
    obtain ⟨⟨c', g⟩, -, happend⟩ := bind_ok.mp happend
    cases happend
    cases hret
    have hindex : id.index < s.graph.nodeClass.length := by
      rw [h.graph.slots]
      exact index_lt_of_node (mapError_ok.mp hnode)
    refine ⟨fun r hr => ?_, ?_⟩
    · rw [LiftedGraph.record_recs] at hr
      have hclass : ∀ lg : LiftedGraph, (lg.record id node children c).nodeClass =
          lg.nodeClass.set id.index (some c) := by
        intro lg
        unfold LiftedGraph.record
        cases constOfOp node.op <;> rfl
      dsimp only
      by_cases hid : id.index = r.node.index
      · exact ⟨c, by rw [hclass, ← hid, List.getElem?_set_self hindex]⟩
      · rw [hclass, List.getElem?_set_ne hid]
        rcases List.mem_append.mp hr with hr | hr
        · exact hb.classed r hr
        · rw [List.mem_singleton.mp hr] at hid
          exact absurd rfl hid
    · dsimp only
      rw [LiftedGraph.record_recs, List.length_append, List.length_singleton]
      dsimp only
      omega

theorem Booked.run {count : Nat} (h : s.Inv a remaining) (hb : s.Booked count)
    (hr : remaining.foldlM (LiftPass.visit a) s = .ok s') :
    s'.Booked (count + remaining.length) := by
  induction remaining generalizing s count with
  | nil =>
    cases hr
    exact hb
  | cons id rest ih =>
    rw [List.foldlM_cons] at hr
    obtain ⟨s₁, hvisit, hr⟩ := bind_ok.mp hr
    rw [List.length_cons, Nat.add_comm rest.length, ← Nat.add_assoc]
    exact ih (h.visit hvisit) (hb.visit h hvisit) hr

theorem passes_booked {count : Nat} (h : (⟨lg, remaining, progressed⟩ : LiftPass).Inv a [])
    (hb : (⟨lg, remaining, progressed⟩ : LiftPass).Booked count)
    (hr : liftPasses a fuel lg remaining = .ok lg') : lg'.Classed ∧ lg'.recs.length ≤ count := by
  have hdone : ∀ {s : LiftPass}, s.Booked count → s.graph.Classed ∧ s.graph.recs.length ≤ count :=
    fun hs => ⟨hs.classed, (Nat.le_add_right _ _).trans hs.count⟩
  induction fuel generalizing lg remaining progressed with
  | zero =>
    cases hr
    exact hdone hb
  | succ fuel ih =>
    unfold liftPasses at hr
    split at hr
    · cases hr
      exact hdone hb
    · obtain ⟨s, hrun, hr⟩ := bind_ok.mp hr
      have hstart : (⟨lg, [], false⟩ : LiftPass).Inv a remaining :=
        ⟨h.graph, by simpa using h.live, by simpa using h.nodup⟩
      have hbooked : (⟨lg, [], false⟩ : LiftPass).Booked lg.recs.length :=
        ⟨hb.classed, Nat.le_refl _⟩
      have hs := Booked.run hstart hbooked hrun
      have hs' : s.Booked count := ⟨hs.classed, hs.count.trans hb.count⟩
      split at hr
      · exact ih (hstart.run hrun) hs' hr
      · cases hr
        exact hdone hs'

end LiftPass

namespace LiftedGraph

variable {a : IrArena} {lg : LiftedGraph} {budget : Nat}

/-- The number of nodes that lifting may take. -/
def liftCount (a : IrArena) : Nat := (a.liveNodes.filter fun e => liftable a e.2).length

theorem start_inv : (⟨new a budget, (a.liveNodes.filter fun e => liftable a e.2).map (·.1), false⟩ :
    LiftPass).Inv a [] := by
  have hsub : List.Sublist ((a.liveNodes.filter fun e => liftable a e.2).map (·.1)) a.liveIds :=
    List.filter_sublist.map _
  refine ⟨new_inv, ?_, ?_⟩
  · change ∀ id ∈ [] ++ (_ ++ []), id ∈ a.liveIds
    rw [List.nil_append, List.append_nil]
    exact fun id hid => hsub.subset hid
  · change ([] ++ (_ ++ [])).Nodup
    rw [List.nil_append, List.append_nil]
    exact hsub.nodup a.liveIds_nodup

/-- Lifting ends with a graph of no more e-nodes and records than nodes, or
finds too little room for them. -/
theorem lift_cases : (∃ lg, lift a budget = .ok lg ∧ lg.Classed ∧ lg.g.capacity = budget ∧
      lg.g.nodes.length ≤ liftCount a ∧ lg.recs.length ≤ liftCount a) ∨
    lift a budget = .error .full ∧ budget < liftCount a := by
  have hcosts := @LiftPass.passes_costs a _ _ _ (a.slotCount + 2) (@start_inv a budget)
  have hlen : ((a.liveNodes.filter fun e => liftable a e.2).map (·.1)).length = liftCount a :=
    List.length_map _
  cases hlift : lift a budget with
  | ok lg =>
    have hs := hcosts.spends hlift
    have hstart : (⟨.new a budget, (a.liveNodes.filter fun e => liftable a e.2).map (·.1), false⟩ :
        LiftPass).Booked (liftCount a) := ⟨by simp [Classed, new], by simp [new, hlen]⟩
    have hbooked := LiftPass.passes_booked start_inv hstart hlift
    have hused : lg.g.nodes.length + 0 ≤ 0 +
        ((a.liveNodes.filter fun e => liftable a e.2).map (·.1)).length + 0 := hs.used
    exact .inl ⟨lg, rfl, hbooked.1, hs.fixed, by omega, hbooked.2⟩
  | error e =>
    obtain rfl := hcosts.error hlift
    refine .inr ⟨rfl, ?_⟩
    by_contra hroom
    have hcovers : LiftPass.meter.Covers ⟨new a budget,
        (a.liveNodes.filter fun e => liftable a e.2).map (·.1), false⟩ 0 := by
      change 0 + ((a.liveNodes.filter fun e => liftable a e.2).map (·.1)).length + 0 ≤ budget
      omega
    obtain ⟨lg, hok, -⟩ := hcosts.isOk hcovers
    cases hlift.symm.trans hok

end LiftedGraph

-- ---------------------------------------------------------------------------
-- Extraction and the loop
-- ---------------------------------------------------------------------------

namespace EGraph

variable {g : EGraph} {fuel : Nat} {b : Bests g.nodes.length}

theorem Inv.extract_rounds (h : g.Inv) : ∃ b', Bests.rounds g fuel b = .ok b' := by
  induction fuel generalizing b with
  | zero => exact ⟨b, rfl⟩
  | succ fuel ih =>
    obtain ⟨t, hrelax, -⟩ := @foldlM_isOk _ _ _ (Bests.relax g) (fun _ => True)
      (List.finRange g.nodes.length) (b, false) trivial (by
      intro s i _ _
      have hnode := List.getElem?_eq_getElem i.isLt
      rcases @Bests.relax_cases g _ s.1 i hnode s.2 with ⟨hok, -⟩ | ⟨cost, -, -, hok⟩
      · exact ⟨_, hok, trivial⟩
      · exact ⟨_, hok, trivial⟩)
    obtain ⟨u, hupdate, -⟩ := @foldlM_isOk _ _ _ (Bests.update g) (fun _ => True) g.classIds t.1
      trivial (by
      intro b k hk _
      have hget : g.classes[k]? = some (g.members k) := by
        rw [h.classes, if_pos (h.mem_classIds.mp hk)]
      unfold Bests.update
      rw [hget]
      by_cases hlt : k < max g.nodes.length 1
      · exact ⟨_, dif_pos hlt, trivial⟩
      · exact ⟨_, dif_neg hlt, trivial⟩)
    have hround : Bests.round g b = .ok (u, t.2) := by
      rw [Bests.round, hrelax]
      change (g.classIds.foldlM (Bests.update g) t.1 >>= fun b => pure (b, t.2)) = _
      rw [hupdate]
      rfl
    obtain ⟨v, hv⟩ := @ih u
    cases hchanged : t.2 with
    | false => exact ⟨u, by rw [Bests.rounds, hround, hchanged]; rfl⟩
    | true => exact ⟨v, by rw [Bests.rounds, hround, hchanged]; exact hv⟩

theorem Inv.extract_isOk (h : g.Inv) : ∃ o, g.extract = .ok o := by
  obtain ⟨b, hb⟩ := @Inv.extract_rounds g (g.nodes.length + 1) (.start g.nodes.length) h
  exact ⟨_, by rw [extract, hb]; rfl⟩

end EGraph

namespace Apply

variable {a b : IrArena} {s : State} {lg : LiftedGraph} {choices : List (Nat × Nat × Nat)}
  {r : LiftRecord} {order : List LiftRecord}

theorem Step.linksOk (h : Step lg choices a b) (hl : LinksOk a) : LinksOk b := by
  cases h with
  | fold hr he hop h => exact h.linksOk hl
  | redirect hr he hy h => exact h.linksOk hl

theorem visit_isOk (h : Looked a lg s.graph) (hcl : lg.Classed) (hr : r ∈ lg.recs)
    (hc : ∀ k m c, (k, m, c) ∈ choices → m < lg.g.nodes.length) :
    ∃ s', visit choices s r = .ok s' := by
  have hclassed : s.graph.Classed := by
    intro r hr
    rw [h.nodeClass]
    exact hcl r (h.recs ▸ hr)
  obtain ⟨⟨own, graph⟩, hown, -⟩ :=
    (h.inv.own_costs hclassed (h.recs.symm ▸ hr)).isOk h.inv.graph.bounded
  obtain ⟨hlooked, -⟩ := h.own hown
  unfold visit
  rw [hown]
  cases hchoice : choiceOf choices own with
  | none => exact ⟨{ s with graph }, by dsimp only [bind, Except.bind]; rw [hchoice]; rfl⟩
  | some m =>
    obtain ⟨e, he, rfl⟩ := Option.map_eq_some_iff.mp hchoice
    have hlt : e.2.1 < graph.g.nodes.length := by
      rw [hlooked.nodes]
      exact hc e.1 e.2.1 e.2.2 (List.mem_of_find?_eq_some he)
    refine ⟨State.take { s with graph } r.node graph.g.nodes[e.2.1]
      graph.xirOf[graph.g.nodes[e.2.1].seq]?.join, ?_⟩
    dsimp only [bind, Except.bind]
    rw [hchoice]
    dsimp only
    rw [List.getElem?_eq_getElem hlt]
    rfl

theorem loop_isOk (hi : lg.Inv a) (hcl : lg.Classed) (horder : ∀ r ∈ order, r ∈ lg.recs)
    (hc : ∀ k m c, (k, m, c) ∈ choices → m < lg.g.nodes.length) :
    ∃ s, order.foldlM (visit choices) ⟨a, lg, 0, 0⟩ = .ok s := by
  obtain ⟨s, hs, -⟩ := @foldlM_isOk _ _ _ (visit choices)
    (fun s => Looked a lg s.graph ∧ ∀ x, x ∈ s.arena.liveIds ↔ x ∈ a.liveIds) order ⟨a, lg, 0, 0⟩
    ⟨⟨hi, rfl, rfl, rfl, rfl, fun _ _ => rfl⟩, fun _ => Iff.rfl⟩ (by
    rintro s r hr ⟨hlooked, hlive⟩
    obtain ⟨s', hs'⟩ := visit_isOk hlooked hcl (horder r hr) hc
    obtain ⟨⟨n, hn, -⟩, -⟩ := hi.recs r (horder r hr)
    have hmem := (hlive r.node).mpr (mem_liveIds.mpr ⟨n, hn⟩)
    obtain ⟨hlooked', hsame | hstep⟩ := visit_step hlooked (horder r hr) hmem hs'
    · exact ⟨s', hs', hlooked', hsame ▸ hlive⟩
    · exact ⟨s', hs', hlooked', fun x => hstep.mem_liveIds.trans (hlive x)⟩)
  exact ⟨s, hs⟩

end Apply

-- ---------------------------------------------------------------------------
-- The application
-- ---------------------------------------------------------------------------

variable {a : IrArena} {roots : List NodeId} {budget : Nat}

open Apply LiftedGraph in
/-- An application ends, with an outcome or in the panic of the total, or it
finds too little room in its budget. -/
theorem apply_cases (hl : LinksOk a) : (∃ o, apply a roots budget = .ok o) ∨
    apply a roots budget = .error .full ∧ budget < 9 * liftCount a := by
  rcases @lift_cases a budget with ⟨lg₀, hlift, hcl, hcap, hnodes, hrecs⟩ | ⟨hlift, hlt⟩
  · have hi := lift_inv hlift
    have hcosts := @Inv.rounds_costs a lg₀ MAX_ROUNDS 0 hi hcl
    cases hrounds : lg₀.runRounds with
    | error e =>
      obtain rfl := hcosts.error hrounds
      refine .inr ⟨by rw [apply, hlift]; dsimp only [bind, Except.bind]; rw [hrounds], ?_⟩
      by_contra hroom
      have hcovers : LiftedGraph.meter.Covers lg₀ (MAX_ROUNDS * (2 * lg₀.recs.length)) := by
        change lg₀.g.nodes.length + 4 * (2 * lg₀.recs.length) ≤ lg₀.g.capacity
        omega
      obtain ⟨p, hok, -⟩ := hcosts.isOk hcovers
      cases hrounds.symm.trans hok
    | ok p =>
      obtain ⟨applied, lg⟩ := p
      have hs := hcosts.spends hrounds
      have hinv := ((Saturating.lifted hlift).rounds hrounds).inv
      obtain ⟨o, hextract⟩ := hinv.graph.extract_isOk
      refine .inl ?_
      rw [apply, hlift]
      dsimp only [bind, Except.bind]
      rw [hrounds]
      dsimp only
      rw [hextract]
      cases o with
      | none => exact ⟨none, rfl⟩
      | some ex =>
        obtain ⟨s, hloop⟩ := @loop_isOk a lg ex.choices
          (lg.recs.insertionSort fun r r' => r.node.index ≤ r'.node.index) hinv (hcl.spends hs)
          (fun r hr => (List.mem_insertionSort _).mp hr)
          fun k m c hc => (EGraph.extract_root hinv.graph hextract hc).1
        have hlinks := (loop_induction hinv (fun r hr => (List.mem_insertionSort _).mp hr)
          (fun t b hstep ht => hstep.linksOk ht) hl hloop).1
        obtain ⟨b, k, hdce, -⟩ := @Dce.rounds_greatest s.arena roots
          (s.arena.liveSlots.length + 1) 0 hlinks (Nat.lt_succ_self _)
        have hdce : Dce.run s.arena roots = .ok (b, k) := hdce
        dsimp only
        rw [hloop]
        dsimp only
        rw [hdce]
        exact ⟨_, rfl⟩
  · refine .inr ⟨by rw [apply, hlift]; rfl, by omega⟩

theorem Tended.operated {nodes regions : Nat} (h : Tended nodes regions a) :
    Operated nodes regions a := by
  induction h with
  | start => exact .start
  | newRegion _ hr ih => exact .newRegion ih hr
  | insert _ hi ih => exact .insert ih hi
  | modify _ _ hm ih => exact .modify ih hm
  | remove _ _ hr ih => exact .remove ih hr

end Sxla
