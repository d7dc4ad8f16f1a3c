import Sxla.Egraph.Growth
import Sxla.Egraph.Lift

/-!
# Tables beside the e-graph

Every operation of a round lets the graph grow and touches the tables only so
far as that. The invariant asks the tables for no more than growth keeps, so
each site that appends, merges or moves a constant is checked once, and a
round is a chain of them.
-/

namespace Sxla

open Checked
open EGraph (need)

namespace EGraph

variable {g g' : EGraph} {c d : Nat} {v : ConstVal}

/-- A constant e-node of the value is in the class of the id. -/
def Holds (g : EGraph) (c : Nat) (v : ConstVal) : Prop :=
  ∃ e op, g.opAt e = some op ∧ constOfOp op = some v ∧ g.Same e c

theorem Holds.grow (h : g.Holds c v) (hg : g.Grows g') : g'.Holds c v := by
  obtain ⟨e, op, hop, hv, hs⟩ := h
  exact ⟨e, op, hg.ops e op hop, hv, hg.same e c hs⟩

theorem Holds.same (h : g.Holds c v) (hs : g.Same c d) : g.Holds d v := by
  obtain ⟨e, op, hop, hv, hc⟩ := h
  exact ⟨e, op, hop, hv, hc.trans hs⟩

end EGraph

namespace LiftedGraph

/-- One entry in `xirOf` for each e-node; an entry that names a node is of an
e-node with its op, in the class recorded for it; and a constant of a class is
that of an e-node there. -/
structure Aligned (a : IrArena) (lg : LiftedGraph) : Prop where
  length : lg.xirOf.length = lg.g.nodes.length
  lifted : ∀ e x, lg.xirOf[e]? = some (some x) →
    ∃ m r n, lg.g.nodes[e]? = some m ∧ r ∈ lg.recs ∧ (x, n) ∈ a.liveNodes ∧ r.node = x ∧
      r.op = m.op ∧ n.op = m.op ∧ ∃ c k, lg.nodeClass[x.index]? = some (some c) ∧
        lg.g.uf.findRo c = .ok k ∧ lg.g.InClass e k
  consts : ∀ c v, lg.classConst[c]? = some (some v) →
    ∃ e m k, lg.g.nodes[e]? = some m ∧ constOfOp m.op = some v ∧
      lg.g.uf.findRo c = .ok k ∧ lg.g.InClass e k

/-- What lifting leaves, and each round after it. -/
inductive Saturating (a : IrArena) (budget : Nat) : LiftedGraph → Prop
  | lifted {lg : LiftedGraph} (h : lift a budget = .ok lg) : Saturating a budget lg
  | round {lg : LiftedGraph} {r : Round} (h : Saturating a budget lg) (hr : lg.round = .ok r) :
    Saturating a budget r.graph

/-- Ids are those of the graph; otherwise what `Aligned` says. -/
structure Inv (a : IrArena) (lg : LiftedGraph) : Prop where
  graph : lg.g.Inv
  slots : lg.nodeClass.length = a.slotCount
  length : lg.xirOf.length = lg.g.nodes.length
  classes : ∀ i c : Nat, lg.nodeClass[i]? = some (some c) → c < lg.g.nodes.length
  recs : ∀ r ∈ lg.recs, (∃ n, (r.node, n) ∈ a.liveNodes ∧ n.op = r.op) ∧
    ∀ c ∈ r.children, c < lg.g.nodes.length
  lifted : ∀ e x, lg.xirOf[e]? = some (some x) → ∃ r ∈ lg.recs, r.node = x ∧
    lg.g.opAt e = some r.op ∧ ∃ c, lg.nodeClass[x.index]? = some (some c) ∧ lg.g.Same e c
  consts : ∀ c v, lg.constOf c = some v → lg.g.Holds c v

/-- What every operation after lifting does. -/
structure Advances (a : IrArena) (lg lg' : LiftedGraph) : Prop where
  inv : lg'.Inv a
  recs : lg'.recs = lg.recs
  grows : lg.g.Grows lg'.g

variable {a : IrArena} {lg lg' lg'' : LiftedGraph} {g : EGraph} {op : Op} {v u : ConstVal}
  {children : List Nat} {c d w x y k : Nat} {r : LiftRecord} {rw : Rewrite}

theorem Advances.refl (h : lg.Inv a) : Advances a lg lg := ⟨h, rfl, .refl h.graph⟩

theorem Advances.trans (h : Advances a lg lg') (h' : Advances a lg' lg'') : Advances a lg lg'' :=
  ⟨h'.inv, h'.recs.trans h.recs, h.grows.trans h'.grows⟩

-- ---------------------------------------------------------------------------
-- Constants
-- ---------------------------------------------------------------------------

theorem constOf_setConst (h : (lg.setConst c (some v)).constOf d = some u) :
    (c = d ∧ u = v) ∨ lg.constOf d = some u := by
  unfold constOf setConst at h
  rw [List.getElem?_set] at h
  split at h
  · next hcd =>
    split at h
    · exact .inl ⟨hcd, (Option.some.inj h).symm⟩
    · cases h
  · exact .inr h

theorem Inv.setConst {v : Option ConstVal} (h : lg.Inv a) (hv : ∀ u, v = some u → lg.g.Holds c u) :
    Advances a lg (lg.setConst c v) := by
  cases v with
  | none => exact .refl h
  | some v =>
    refine ⟨⟨h.graph, h.slots, h.length, h.classes, h.recs, h.lifted, fun d u hd => ?_⟩, rfl,
      .refl h.graph⟩
    rcases constOf_setConst hd with ⟨rfl, rfl⟩ | hold
    · exact hv _ rfl
    · exact h.consts d u hold

theorem Inv.propagateConst (h : lg.Inv a) (hs : lg.g.Same w x) :
    Advances a lg (lg.propagateConst w x) := by
  unfold LiftedGraph.propagateConst
  split
  · exact .refl h
  · next v hv =>
    split
    · refine h.setConst fun u hu => ?_
      cases hu
      exact (h.consts x v hv).same hs.symm
    · exact .refl h

-- ---------------------------------------------------------------------------
-- Operations on the graph
-- ---------------------------------------------------------------------------

/-- Growth, with an entry for each new e-node that names no node. -/
theorem Inv.grow {xirOf : List (Option NodeId)} (h : lg.Inv a) (hg : lg.g.Grows g)
    (hlen : xirOf.length = g.nodes.length)
    (hold : ∀ (e : Nat) x, xirOf[e]? = some (some x) → lg.xirOf[e]? = some (some x)) :
    Advances a lg { lg with g, xirOf } := by
  refine ⟨⟨hg.inv, h.slots, hlen, fun i c hc => hg.lt (h.classes i c hc), fun r hr => ?_,
    fun e x hx => ?_, fun c v hv => (h.consts c v hv).grow hg⟩, rfl, hg⟩
  · obtain ⟨hnode, hchildren⟩ := h.recs r hr
    exact ⟨hnode, fun c hc => hg.lt (hchildren c hc)⟩
  · obtain ⟨r, hr, hrx, hop, c, hc, hs⟩ := h.lifted e x (hold e x hx)
    exact ⟨r, hr, hrx, hg.ops e _ hop, c, hc, hg.same e c hs⟩

theorem Inv.grow_same (h : lg.Inv a) (hg : lg.g.Grows g)
    (hlen : g.nodes.length = lg.g.nodes.length) : Advances a lg { lg with g } :=
  h.grow hg (h.length.trans hlen.symm) fun _ _ => id

theorem Inv.canon (h : lg.Inv a) (hc : c < lg.g.nodes.length) (hr : lg.canon c = .ok (w, lg')) :
    Advances a lg lg' ∧ lg'.g.Same w c := by
  obtain ⟨⟨w', g⟩, hcanon, hret⟩ := bind_ok.mp hr
  cases hret
  obtain ⟨hg, hnodes, hs⟩ := h.graph.canon_spec hc hcanon
  exact ⟨h.grow_same hg (congrArg List.length hnodes), hs⟩

theorem Inv.merge (h : lg.Inv a) (hx : x < lg.g.nodes.length) (hy : y < lg.g.nodes.length)
    (hr : lg.merge x y = .ok (w, lg')) :
    Advances a lg lg' ∧ lg'.g.Same w x ∧ lg'.g.Same w y := by
  obtain ⟨⟨w', g⟩, hmerge, hret⟩ := bind_ok.mp hr
  cases hret
  obtain ⟨hg, hnodes, hs⟩ := h.graph.merge_spec hx hy hmerge
  exact ⟨h.grow_same hg (congrArg List.length hnodes), hs⟩

theorem Inv.append (h : lg.Inv a) (hc : ∀ c ∈ children, c < lg.g.nodes.length)
    (hr : lg.append op children none = .ok (c, lg')) :
    Advances a lg lg' ∧ ∃ e, lg'.g.opAt e = some op ∧ lg'.g.Same e c := by
  obtain ⟨⟨c', g⟩, hadd, hret⟩ := bind_ok.mp hr
  cases hret
  obtain ⟨hg, hcases⟩ := h.graph.add_spec hc hadd
  refine ⟨h.grow hg ?_ ?_, h.graph.add_op hc hadd⟩
  · rcases hcases with ⟨rfl, -⟩ | ⟨hlen, -, -⟩
    · simpa using h.length
    · simp [hlen, h.length]
  · intro e x hx
    split at hx
    · rw [List.getElem?_append] at hx
      split at hx
      · exact hx
      · cases List.mem_singleton.mp (List.mem_of_getElem? hx)
    · exact hx

theorem Inv.own (h : lg.Inv a) (hr : lg.own r = .ok (w, lg')) :
    Advances a lg lg' ∧ w < lg'.g.nodes.length := by
  obtain ⟨c, hneed, hcanon⟩ := bind_ok.mp hr
  have hc : lg.nodeClass[r.node.index]? = some (some c) := by
    cases hget : lg.nodeClass[r.node.index]? with
    | none => simp [hget, need] at hneed
    | some o =>
      cases o with
      | none => simp [hget, need] at hneed
      | some c' => simpa [hget, need] using hneed
  obtain ⟨hadv, hs⟩ := h.canon (h.classes _ _ hc) hcanon
  exact ⟨hadv, hs.left⟩

-- ---------------------------------------------------------------------------
-- Rules
-- ---------------------------------------------------------------------------

theorem Inv.snaps {recs : List LiftRecord} {snaps : List RuleSnap} (h : lg.Inv a)
    (hrecs : ∀ r ∈ recs, ∀ c ∈ r.children, c < lg.g.nodes.length)
    (hr : lg.snaps recs = .ok (snaps, lg')) :
    Advances a lg lg' ∧ ∀ s ∈ snaps, ∀ c ∈ s.children, c < lg.g.nodes.length := by
  induction recs generalizing lg snaps with
  | nil =>
    cases hr
    exact ⟨.refl h, by simp⟩
  | cons r recs ih =>
    obtain ⟨hfirst, hrest⟩ := List.forall_mem_cons.mp hrecs
    obtain ⟨⟨children, uf⟩, hcanon, hr⟩ := bind_ok.mp hr
    obtain ⟨⟨rest, lg₁⟩, hsnaps, hret⟩ := bind_ok.mp hr
    cases hret
    obtain ⟨hg, hchildren⟩ := h.graph.canonChildren_spec hfirst (mapError_ok.mp hcanon)
    have hadv := h.grow_same hg rfl
    obtain ⟨hadv', hsnaps⟩ := ih hadv.inv hrest hsnaps
    exact ⟨hadv.trans hadv', List.forall_mem_cons.mpr ⟨hchildren, hsnaps⟩⟩

/-- A rewrite leads to a class that the snapshot names, or to the padding. -/
theorem localRules_children {consts : List (Option ConstVal)} {elem : Option ScalarType}
    (hr : localRules op children consts elem = some rw) (hc : ∀ c ∈ children, c < k) :
    ∀ c ∈ rw.children, c = 0 ∨ c < k := by
  have hget : ∀ i, children.getD i 0 = 0 ∨ children.getD i 0 < k := by
    intro i
    rw [List.getD_eq_getElem?_getD]
    cases hi : children[i]? with
    | none => exact .inl rfl
    | some c => exact .inr (hc c (List.mem_of_getElem? hi))
  rcases localRules_cases hr with ⟨op', rfl⟩ | ⟨child, rfl, rfl | rfl⟩
  · simp [Rewrite.const]
  · simpa [Rewrite.passThrough] using hget 0
  · simpa [Rewrite.passThrough] using hget 1

theorem Inv.fire (h : lg.Inv a) (hc : ∀ c ∈ rw.children, c = 0 ∨ c < lg.g.nodes.length)
    (hr : lg.fire r rw = .ok (lg', k)) : Advances a lg lg' := by
  obtain ⟨⟨own, lg₁⟩, hown, hr⟩ := bind_ok.mp hr
  obtain ⟨hadv, hlt⟩ := h.own hown
  cases hchildren : rw.children with
  | nil =>
    simp only [hchildren] at hr
    obtain ⟨⟨cls, lg₂⟩, happend, hr⟩ := bind_ok.mp hr
    obtain ⟨⟨winner, lg₃⟩, hmerge, hret⟩ := bind_ok.mp hr
    cases hret
    obtain ⟨hadv₂, e, hop, hs⟩ := hadv.inv.append (by simp) happend
    obtain ⟨hadv₃, -, hwin⟩ := hadv₂.inv.merge (hadv₂.grows.lt hlt) hs.right hmerge
    refine hadv.trans (hadv₂.trans (hadv₃.trans (hadv₃.inv.setConst fun v hv => ?_)))
    exact ⟨e, rw.op, hadv₃.grows.ops e _ hop, hv, (hadv₃.grows.same e cls hs).trans hwin.symm⟩
  | cons child rest =>
    cases rest with
    | nil =>
      simp only [hchildren] at hr
      split at hr
      · obtain ⟨⟨winner, lg₂⟩, hmerge, hret⟩ := bind_ok.mp hr
        cases hret
        have hchild : child < lg₁.g.nodes.length := by
          rcases hc child (by simp [hchildren]) with rfl | hchild
          · exact Nat.zero_lt_of_lt hlt
          · exact hadv.grows.lt hchild
        obtain ⟨hadv₂, hown, hchild⟩ := hadv.inv.merge hlt hchild hmerge
        refine hadv.trans (hadv₂.trans (hadv₂.inv.propagateConst ?_))
        split
        · exact hchild
        · exact hown
      · cases hr
        exact hadv
    | cons c rest =>
      simp only [hchildren] at hr
      cases hr
      exact hadv

theorem Inv.commute {s s' : LiftedGraph × Nat} (h : s.1.Inv a)
    (hc : ∀ c ∈ r.children, c < s.1.g.nodes.length) (hr : LiftedGraph.commute s r = .ok s') :
    Advances a s.1 s'.1 := by
  unfold LiftedGraph.commute at hr
  split at hr
  · next x y hxy =>
    rw [hxy] at hc
    split at hr
    · obtain ⟨⟨c0, lg₁⟩, hc0, hr⟩ := bind_ok.mp hr
      obtain ⟨⟨c1, lg₂⟩, hc1, hr⟩ := bind_ok.mp hr
      obtain ⟨hadv₁, hs0⟩ := h.canon (hc x (by simp)) hc0
      obtain ⟨hadv₂, hs1⟩ := hadv₁.inv.canon (hadv₁.grows.lt (hc y (by simp))) hc1
      have hadv := hadv₁.trans hadv₂
      simp only at hr
      split at hr
      · cases hr
        exact hadv
      · obtain ⟨⟨own, lg₃⟩, hown, hr⟩ := bind_ok.mp hr
        obtain ⟨⟨cls, lg₄⟩, happend, hr⟩ := bind_ok.mp hr
        obtain ⟨⟨swapped, lg₅⟩, hcanon, hr⟩ := bind_ok.mp hr
        obtain ⟨hadv₃, hlt⟩ := hadv.inv.own hown
        have hchildren : ∀ c ∈ [c1, c0], c < lg₃.g.nodes.length := by
          intro c hc
          rcases List.mem_pair.mp hc with rfl | rfl
          · exact hadv₃.grows.lt hs1.left
          · exact (hadv₂.trans hadv₃).grows.lt hs0.left
        obtain ⟨hadv₄, e, -, hs⟩ := hadv₃.inv.append hchildren happend
        obtain ⟨hadv₅, hsw⟩ := hadv₄.inv.canon hs.right hcanon
        have hadv := hadv.trans (hadv₃.trans (hadv₄.trans hadv₅))
        simp only at hr
        split at hr
        · cases hr
          exact hadv
        · obtain ⟨⟨winner, lg₆⟩, hmerge, hret⟩ := bind_ok.mp hr
          cases hret
          obtain ⟨hadv₆, hown, hswapped⟩ :=
            hadv₅.inv.merge ((hadv₄.trans hadv₅).grows.lt hlt) hsw.left hmerge
          have hadv₇ := hadv₆.inv.propagateConst hown
          exact hadv.trans (hadv₆.trans (hadv₇.trans
            (hadv₇.inv.propagateConst (hadv₇.grows.same _ _ hswapped))))
    · cases hr
      exact .refl h
  · cases hr
    exact .refl h

theorem Inv.rehome (h : lg.Inv a) (hr : lg.rehome c = .ok lg') : Advances a lg lg' := by
  unfold LiftedGraph.rehome at hr
  split at hr
  · next hsome =>
    obtain ⟨v, hv⟩ := Option.isSome_iff_exists.mp hsome
    obtain ⟨e, op, -, -, hs⟩ := h.consts c v hv
    obtain ⟨⟨w, lg₁⟩, hcanon, hret⟩ := bind_ok.mp hr
    cases hret
    obtain ⟨hadv, hs⟩ := h.canon hs.right hcanon
    exact hadv.trans (hadv.inv.propagateConst hs)
  · cases hr
    exact .refl h

/-- A round is a chain of the operations above. -/
theorem Inv.round {r : Round} (h : lg.Inv a) (hr : lg.round = .ok r) : Advances a lg r.graph := by
  obtain ⟨⟨snaps, lg₁⟩, hsnaps, hr⟩ := bind_ok.mp hr
  obtain ⟨⟨lg₂, fired⟩, hfired, hr⟩ := bind_ok.mp hr
  obtain ⟨⟨lg₃, commuted⟩, hcommuted, hr⟩ := bind_ok.mp hr
  obtain ⟨⟨merged, g⟩, hrebuild, hr⟩ := bind_ok.mp hr
  obtain ⟨lg₅, hrehomed, hret⟩ := bind_ok.mp hr
  cases hret
  have hrecs : ∀ r ∈ lg.recs, ∀ c ∈ r.children, c < lg.g.nodes.length :=
    fun r hr => (h.recs r hr).2
  obtain ⟨hadv₁, hchildren⟩ := h.snaps hrecs hsnaps
  have hadv₂ : Advances a lg lg₂ := by
    refine foldlM_preserves_mem (P := fun s => Advances a lg s.1) ?_ hadv₁ hfired
    rintro s ⟨r, o⟩ s' hmem hstep hadv
    unfold LiftedGraph.applyRule at hstep
    cases o with
    | none =>
      cases hstep
      exact hadv
    | some rw =>
      obtain ⟨⟨lg', k⟩, hfire, hret⟩ := bind_ok.mp hstep
      cases hret
      obtain ⟨snap, hsnap, hrule⟩ := List.mem_map.mp (List.of_mem_zip hmem).2
      refine hadv.trans (hadv.inv.fire (fun c hc => ?_) hfire)
      exact (localRules_children hrule (hchildren snap hsnap) c hc).imp_right hadv.grows.lt
  have hadv₃ : Advances a lg lg₃ := by
    refine foldlM_preserves_mem (P := fun s => Advances a lg s.1) ?_ hadv₂ hcommuted
    intro s r s' hmem hstep hadv
    exact hadv.trans (hadv.inv.commute (fun c hc => hadv.grows.lt (hrecs r hmem c hc)) hstep)
  obtain ⟨hg, hlen⟩ := hadv₃.inv.graph.rebuild_spec hrebuild
  have hadv₄ := hadv₃.trans (hadv₃.inv.grow_same hg hlen)
  refine foldlM_preserves_mem (P := fun lg' => Advances a lg lg') ?_ hadv₄ hrehomed
  intro lg' c lg'' _ hstep hadv
  exact hadv.trans (hadv.inv.rehome hstep)

-- ---------------------------------------------------------------------------
-- A lifted node
-- ---------------------------------------------------------------------------

variable {id : NodeId} {node : Node}

/-- The new entries of `xirOf`. -/
theorem append_xirOf (h : lg.Inv a) (hc : ∀ c ∈ children, c < lg.g.nodes.length)
    (ha : lg.append op children (some id) = .ok (c, lg')) :
    lg'.xirOf.length = lg'.g.nodes.length ∧ ∀ (e : Nat) x, lg'.xirOf[e]? = some (some x) →
      lg.xirOf[e]? = some (some x) ∨ x = id ∧ e = c ∧ lg'.g.opAt e = some op := by
  obtain ⟨⟨c', g⟩, hadd, hret⟩ := bind_ok.mp ha
  cases hret
  obtain ⟨-, ⟨rfl, -⟩ | ⟨hlen, rfl, hop⟩⟩ := h.graph.add_spec hc hadd
  · exact ⟨by simpa using h.length, fun e x hx => .inl (by simpa using hx)⟩
  · have hgrown : g.nodes.length > lg.g.nodes.length := hlen.symm ▸ Nat.lt_succ_self _
    simp only [hgrown, ↓reduceIte]
    refine ⟨by simp [hlen, h.length], fun e x hx => ?_⟩
    rw [List.getElem?_append] at hx
    split at hx
    · exact .inl hx
    · next hge =>
      obtain ⟨hlt, hx⟩ := List.getElem?_eq_some_iff.mp hx
      rw [List.length_singleton] at hlt
      have he : e = lg.g.nodes.length := by
        have := h.length
        omega
      rw [List.getElem_singleton] at hx
      exact .inr ⟨(Option.some.inj hx).symm, he, he ▸ hop⟩

theorem record_recs : (lg.record id node children c).recs =
    lg.recs ++ [⟨id, node.op, children, Verifier.elemOf node.ty⟩] := by
  unfold LiftedGraph.record
  cases constOfOp node.op <;> rfl

theorem class_of_set {l : List (Option Nat)} {i j : Nat}
    (h : (l.set i (some c))[j]? = some (some d)) : j = i ∧ d = c ∨ l[j]? = some (some d) := by
  rw [List.getElem?_set] at h
  split at h
  · next hi =>
    split at h
    · cases h
      exact .inl ⟨hi.symm, rfl⟩
    · cases h
  · exact .inr h

theorem Inv.record (h : lg.Inv a) (hn : (id, node) ∈ a.liveNodes)
    (hnew : ∀ r ∈ lg.recs, r.node ≠ id) (hc : ∀ c ∈ children, c < lg.g.nodes.length)
    (ha : lg.append node.op children (some id) = .ok (c, lg')) :
    (lg'.record id node children c).Inv a := by
  obtain ⟨hlen, hxirOf⟩ := append_xirOf h hc ha
  obtain ⟨⟨c', g⟩, hadd, hret⟩ := bind_ok.mp ha
  obtain ⟨hg, -⟩ := h.graph.add_spec hc hadd
  obtain ⟨e, hop, hs⟩ := h.graph.add_op hc hadd
  cases hret
  generalize (if g.nodes.length > lg.g.nodes.length then _ else _) = xirOf at hlen hxirOf
  have hindex : id.index < lg.nodeClass.length :=
    h.slots.symm ▸ IrArena.index_lt_of_node (IrArena.node_of_live hn)
  have htables : LiftedGraph.Inv a ⟨g, lg.recs ++ [⟨id, node.op, children, Verifier.elemOf node.ty⟩],
      lg.nodeClass.set id.index (some c), xirOf, lg.classConst⟩ := by
    refine ⟨hg.inv, List.length_set.trans h.slots, hlen, fun i d hd => ?_, fun r hr => ?_,
      fun e' x hx => ?_, fun d v hv => (h.consts d v hv).grow hg⟩
    · rcases class_of_set hd with ⟨-, rfl⟩ | hold
      · exact hs.right
      · exact hg.lt (h.classes i d hold)
    · rcases List.mem_append.mp hr with hr | hr
      · obtain ⟨hnode, hchildren⟩ := h.recs r hr
        exact ⟨hnode, fun d hd => hg.lt (hchildren d hd)⟩
      · rw [List.mem_singleton.mp hr]
        exact ⟨⟨node, hn, rfl⟩, fun d hd => hg.lt (hc d hd)⟩
    · rcases hxirOf e' x hx with hold | ⟨rfl, rfl, hop'⟩
      · obtain ⟨r, hr, hrx, hrop, d, hd, hds⟩ := h.lifted e' x hold
        obtain ⟨⟨m, hm, -⟩, -⟩ := h.recs r hr
        -- another node than the new one, and so in another slot
        have hother : id.index ≠ x.index := by
          intro heq
          exact hnew r hr (IrArena.live_unique hm hn (hrx ▸ heq.symm)).1
        refine ⟨r, List.mem_append_left _ hr, hrx, hg.ops e' _ hrop, d, ?_, hg.same e' d hds⟩
        rw [List.getElem?_set_ne hother]
        exact hd
      · exact ⟨_, List.mem_append_right _ (List.mem_singleton_self _), rfl, hop', e',
          List.getElem?_set_self hindex, .refl hs.right⟩
  have hset := htables.setConst (v := constOfOp node.op) (c := c)
    fun u hu => ⟨e, node.op, hop, hu, hs⟩
  have hinv := hset.inv
  unfold LiftedGraph.record
  cases hv : constOfOp node.op with
  | none => rwa [hv] at hinv
  | some v => rwa [hv] at hinv

end LiftedGraph

-- ---------------------------------------------------------------------------
-- Lifting
-- ---------------------------------------------------------------------------

/-- No node is lifted twice: what is lifted and what remains are different
live nodes. -/
structure LiftPass.Inv (a : IrArena) (s : LiftPass) (rest : List NodeId) : Prop where
  graph : s.graph.Inv a
  live : ∀ id ∈ s.graph.recs.map (·.node) ++ (s.next ++ rest), id ∈ a.liveIds
  nodup : (s.graph.recs.map (·.node) ++ (s.next ++ rest)).Nodup

namespace LiftPass

variable {a : IrArena} {s s' : LiftPass} {id : NodeId} {rest remaining : List NodeId}
  {nodeClass : List (Option Nat)} {children children' : List Nat} {vals : List ValueId} {k : Nat}

theorem foldlM_child (hk : ∀ i c : Nat, nodeClass[i]? = some (some c) → c < k)
    (hc : ∀ c ∈ children, c < k) (h : vals.foldlM (child nodeClass) children = some children') :
    ∀ c ∈ children', c < k := by
  induction vals generalizing children with
  | nil =>
    cases h
    exact hc
  | cons v vals ih =>
    rw [List.foldlM_cons] at h
    obtain ⟨mid, hmid, h⟩ := Option.bind_eq_some_iff.mp h
    refine ih ?_ h
    unfold child at hmid
    split at hmid
    · cases hmid
      exact hc
    · split at hmid
      · next c hjoin =>
        split at hmid
        · cases hmid
          intro d hd
          rcases List.mem_append.mp hd with hd | hd
          · exact hc d hd
          · rw [List.mem_singleton.mp hd]
            exact hk _ c (Option.join_eq_some_iff.mp hjoin)
        · cases hmid
      · cases hmid

theorem Inv.visit (h : s.Inv a (id :: rest)) (hv : visit a s id = .ok s') : s'.Inv a rest := by
  obtain ⟨node, hnode, hv⟩ := bind_ok.mp hv
  obtain ⟨⟨i, n⟩, hn, rfl⟩ := List.mem_map.mp (h.live id (by simp))
  cases (mapError_ok.mp hnode).symm.trans (IrArena.node_of_live hn)
  split at hv
  · cases hv
    refine ⟨h.graph, ?_, ?_⟩
    · simpa [List.append_assoc] using h.live
    · simpa [List.append_assoc] using h.nodup
  · next children hchildren =>
    obtain ⟨⟨c, lg⟩, happend, hret⟩ := bind_ok.mp hv
    have hc := foldlM_child h.graph.classes (by simp) hchildren
    have hnew : ∀ r ∈ s.graph.recs, r.node ≠ i := by
      rintro r hr rfl
      have hmem : r.node ∈ s.graph.recs.map (·.node) := List.mem_map.mpr ⟨r, hr, rfl⟩
      exact (List.nodup_append.mp h.nodup).2.2 _ hmem _ (by simp) rfl
    have hinv := h.graph.record hn hnew hc happend
    have hrecs : lg.recs = s.graph.recs := by
      obtain ⟨_, _, hret⟩ := bind_ok.mp happend
      cases hret
      rfl
    cases hret
    have hperm : ((lg.record i node children c).recs.map (·.node) ++ (s.next ++ rest)).Perm
        (s.graph.recs.map (·.node) ++ (s.next ++ i :: rest)) := by
      rw [LiftedGraph.record_recs, hrecs, List.map_append, List.append_assoc]
      refine .append_left _ ?_
      change (i :: (s.next ++ rest)).Perm _
      exact List.perm_middle.symm
    exact ⟨hinv, fun j hj => h.live j (hperm.mem_iff.mp hj), hperm.nodup_iff.mpr h.nodup⟩

theorem Inv.run (h : s.Inv a remaining) (hr : remaining.foldlM (LiftPass.visit a) s = .ok s') :
    s'.Inv a [] := by
  induction remaining generalizing s with
  | nil =>
    cases hr
    exact h
  | cons id rest ih =>
    rw [List.foldlM_cons] at hr
    obtain ⟨s₁, hvisit, hr⟩ := bind_ok.mp hr
    exact ih (h.visit hvisit) hr

theorem liftPasses_inv {fuel : Nat} {lg lg' : LiftedGraph} {progressed : Bool}
    (h : (⟨lg, remaining, progressed⟩ : LiftPass).Inv a [])
    (hr : liftPasses a fuel lg remaining = .ok lg') : lg'.Inv a := by
  induction fuel generalizing lg remaining progressed with
  | zero =>
    cases hr
    exact h.graph
  | succ fuel ih =>
    unfold liftPasses at hr
    split at hr
    · cases hr
      exact h.graph
    · obtain ⟨s, hrun, hr⟩ := bind_ok.mp hr
      have hstart : (⟨lg, [], false⟩ : LiftPass).Inv a remaining :=
        ⟨h.graph, by simpa using h.live, by simpa using h.nodup⟩
      have hs := hstart.run hrun
      split at hr
      · exact ih hs hr
      · cases hr
        exact hs.graph

end LiftPass

namespace LiftedGraph

variable {a : IrArena} {lg lg' : LiftedGraph} {budget applied : Nat}

theorem new_inv : (new a budget).Inv a where
  graph := EGraph.new_inv budget
  slots := List.length_replicate
  length := rfl
  classes i c hc := by simp [new, List.getElem?_replicate] at hc
  recs := by simp [new]
  lifted := by simp [new]
  consts c v hv := by
    simp only [new, constOf, List.getElem?_replicate] at hv
    split at hv <;> cases hv

theorem lift_inv (h : lift a budget = .ok lg) : lg.Inv a := by
  have hsub : List.Sublist ((a.liveNodes.filter fun e => liftable a e.2).map (·.1)) a.liveIds :=
    List.filter_sublist.map _
  refine @LiftPass.liftPasses_inv a _ _ _ _ false ⟨new_inv, ?_, ?_⟩ h
  · change ∀ id ∈ [] ++ (_ ++ []), id ∈ a.liveIds
    rw [List.nil_append, List.append_nil]
    exact fun id hid => hsub.subset hid
  · change ([] ++ (_ ++ [])).Nodup
    rw [List.nil_append, List.append_nil]
    exact hsub.nodup a.liveIds_nodup

theorem Saturating.inv (h : Saturating a budget lg) : lg.Inv a := by
  induction h with
  | lifted h => exact lift_inv h
  | round _ hr ih => exact (ih.round hr).inv

theorem Saturating.rounds {fuel n : Nat} (h : Saturating a budget lg)
    (hr : LiftedGraph.rounds fuel lg n = .ok (applied, lg')) : Saturating a budget lg' := by
  induction fuel generalizing lg n with
  | zero =>
    cases hr
    exact h
  | succ fuel ih =>
    obtain ⟨r, hround, hr⟩ := bind_ok.mp hr
    split at hr
    · cases hr
      exact h.round hround
    · exact ih (h.round hround) hr

theorem Inv.aligned (h : lg.Inv a) : lg.Aligned a where
  length := h.length
  lifted e x hx := by
    obtain ⟨r, hr, rfl, hop, c, hc, hs⟩ := h.lifted e x hx
    obtain ⟨⟨n, hn, hnop⟩, -⟩ := h.recs r hr
    obtain ⟨m, hm, hmop⟩ := Option.map_eq_some_iff.mp hop
    obtain ⟨k, hk, hin⟩ := hs.inClass h.graph
    exact ⟨m, r, n, hm, hr, hn, rfl, hmop.symm, hnop.trans hmop.symm, c, k, hc, hk, hin⟩
  consts c v hv := by
    obtain ⟨e, op, hop, hval, hs⟩ := h.consts c v (by rw [constOf, hv]; rfl)
    obtain ⟨m, hm, rfl⟩ := Option.map_eq_some_iff.mp hop
    obtain ⟨k, hk, hin⟩ := hs.inClass h.graph
    exact ⟨e, m, k, hm, hval, hk, hin⟩

/-- The tables fit the graph after lifting, after each round, and after the
rounds that are run together. -/
theorem tables_aligned (h : Saturating a budget lg) :
    lg.Aligned a ∧ ∀ applied lg', lg.runRounds = .ok (applied, lg') → lg'.Aligned a :=
  ⟨h.inv.aligned, fun _ _ hr => (h.rounds hr).inv.aligned⟩

/-- A parameter times the sum of two and three. -/
def scaledSum : IrArena := .built do
  let a := IrArena.withCapacity 8 1
  let (x, a) ← a.insertNode a.rootRegion (.new (.param 0) a.rootRegion [] (.scalar .i64))
  let (two, a) ← a.insertNode a.rootRegion (.new (.constI64 2) a.rootRegion [] (.scalar .i64))
  let (three, a) ← a.insertNode a.rootRegion (.new (.constI64 3) a.rootRegion [] (.scalar .i64))
  let sum := [← a.valueOf two 0, ← a.valueOf three 0]
  let (y, a) ← a.insertNode a.rootRegion (.new (.binary .add) a.rootRegion sum (.scalar .i64))
  let product := [← a.valueOf x 0, ← a.valueOf y 0]
  let (_, a) ← a.insertNode a.rootRegion (.new (.binary .mul) a.rootRegion product (.scalar .i64))
  return a

/-- The sum is folded, and both operations are commuted. -/
theorem tables_aligned_scaledSum : verify scaledSum = .ok () ∧ ∃ lg applied lg',
    lift scaledSum 16 = .ok lg ∧ lg.runRounds = .ok (applied, lg') ∧ lg.g.nodes.length = 5 ∧
      lg'.g.nodes.length = 8 ∧ lg.Aligned scaledSum ∧ lg'.Aligned scaledSum := by
  have hok : ((lift scaledSum 16).toOption.any fun lg => lg.runRounds.toOption.any fun r =>
      lg.g.nodes.length == 5 && r.2.g.nodes.length == 8) = true := by
    rfl
  obtain ⟨lg, hlift, hok⟩ := (Option.any_eq_true _ _).mp hok
  obtain ⟨⟨applied, lg'⟩, hrounds, hok⟩ := (Option.any_eq_true _ _).mp hok
  have hlift := toOption_eq_some.mp hlift
  have hrounds := toOption_eq_some.mp hrounds
  obtain ⟨hfirst, hlast⟩ := tables_aligned (.lifted hlift)
  simp only [Bool.and_eq_true, beq_iff_eq] at hok
  exact ⟨by decide +kernel, lg, applied, lg', hlift, hrounds, hok.1, hok.2, hfirst,
    hlast applied lg' hrounds⟩

end LiftedGraph

end Sxla
