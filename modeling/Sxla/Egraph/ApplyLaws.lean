import Sxla.Egraph.Apply
import Sxla.Egraph.Saturation
import Sxla.Graph.DominanceLaws
import Sxla.Graph.Uses
import Sxla.Runtime.Optimised

/-!
# What an application keeps

The loop writes constants in place of binary nodes and redirects uses to
operands, and both keep the checks of the verifier, whatever extraction has
chosen. What it has chosen is a node of the class, so where classes are worth
what their nodes evaluate to both keep every value as well.
-/

namespace Sxla

open Checked Forest
open EGraph (need Keeps Valued)

-- ---------------------------------------------------------------------------
-- The choices
-- ---------------------------------------------------------------------------

namespace EGraph

variable {g : EGraph} {k m c : Nat} {ms : List Nat}

namespace Bests

variable {n : Nat} {b b' : Bests n} {x : Fin n} {acc : Option (Nat × Fin n)}

/-- A node stands for itself, and a class for one of its members. -/
structure Placed (g : EGraph) (b : Bests n) : Prop where
  nodes : ∀ (i : Nat) x, b.bestNode[i]?.join = some x → x.val = i
  classes : ∀ (k : Nat) c x, b.classBest[k]?.join = some (c, x) → root g.uf.parent x.val = k

theorem foldl_better_mem (hb : b.Placed g) (h : ms.foldl b.better acc = some (c, x)) :
    acc = some (c, x) ∨ x.val ∈ ms := by
  induction ms generalizing acc with
  | nil => exact .inl h
  | cons i ms ih =>
    rcases ih h with hacc | hx
    · unfold better at hacc
      split at hacc
      · exact .inl hacc
      · next chosen hchosen =>
        have hi := hb.nodes i chosen hchosen
        have hmem : chosen.val ∈ i :: ms := hi ▸ List.mem_cons_self
        split at hacc
        · cases hacc
          exact .inr hmem
        · dsimp only at hacc
          split at hacc
          · cases hacc
            exact .inr hmem
          · exact .inl hacc
    · exact .inr (List.mem_cons_of_mem _ hx)

theorem Placed.relax {s s' : Bests n × Bool} {id : Fin n} (hb : s.1.Placed g)
    (h : Bests.relax g s id = .ok s') : s'.1.Placed g := by
  obtain ⟨node, -, h⟩ := bind_ok.mp h
  split at h
  · cases h
    exact hb
  · split at h
    · cases h
      refine ⟨fun i x hx => ?_, hb.classes⟩
      rw [Vector.getElem?_set] at hx
      split at hx
      · next hi =>
        obtain rfl := Option.some.inj hx
        exact hi
      · exact hb.nodes i x hx
    · cases h
      exact hb

theorem Placed.update (hg : g.Inv) (hb : b.Placed g) (h : Bests.update g b k = .ok b') :
    b'.Placed g := by
  obtain ⟨members, hmembers, h⟩ := bind_ok.mp h
  split at h
  · cases h
    refine ⟨hb.nodes, fun k' c x hx => ?_⟩
    rw [Vector.getElem?_set] at hx
    split at hx
    · next hk =>
      subst hk
      have hget : g.classes[k]? = some members := by
        cases hget : g.classes[k]? with
        | none => simp [hget, need] at hmembers
        | some l =>
          rw [hget, need, Except.ok.injEq] at hmembers
          rw [hmembers]
      rw [hg.classes] at hget
      split at hget
      · obtain rfl := Option.some.inj hget
        rcases foldl_better_mem hb hx with hacc | hmem
        · cases hacc
        · exact (mem_members.mp hmem).2
      · cases hget
    · exact hb.classes k' c x hx
  · cases h
    exact hb

theorem Placed.rounds {fuel : Nat} (hg : g.Inv) (hb : b.Placed g)
    (h : Bests.rounds g fuel b = .ok b') : b'.Placed g := by
  induction fuel generalizing b with
  | zero =>
    cases h
    exact hb
  | succ fuel ih =>
    obtain ⟨⟨t, changed⟩, hround, h⟩ := bind_ok.mp h
    obtain ⟨⟨t₁, changed₁⟩, hrelax, hround⟩ := bind_ok.mp hround
    obtain ⟨t₂, hupdate, hret⟩ := bind_ok.mp hround
    obtain ⟨rfl, rfl⟩ := Prod.mk.inj (Except.ok.inj hret)
    have hrelaxed : t₁.Placed g :=
      foldlM_preserves_mem (P := fun s : Bests n × Bool => s.1.Placed g)
        (fun s id s' _ hs hp => hp.relax hs) hb hrelax
    have ht : t₂.Placed g := foldlM_preserves_mem (P := Placed g)
      (fun s k s' _ hs hp => hp.update hg hs) hrelaxed hupdate
    dsimp only at h
    split at h
    · exact ih ht h
    · cases h
      exact ht

end Bests

/-- The chosen node is a member of its class, whatever the costs are. -/
theorem extract_root {ex : Extraction} (hg : g.Inv) (h : g.extract = .ok (some ex))
    (hc : (k, m, c) ∈ ex.choices) : m < g.nodes.length ∧ root g.uf.parent m = k := by
  obtain ⟨b, hrun, hret⟩ := bind_ok.mp h
  obtain ⟨total, -, rfl⟩ := Option.map_eq_some_iff.mp (Except.ok.inj hret)
  have hstart : (Bests.start g.nodes.length).Placed g := by
    refine ⟨fun i x hx => ?_, fun k c x hx => ?_⟩
    · rw [Bests.start, Vector.getElem?_replicate] at hx
      split at hx <;> cases hx
    · rw [Bests.start, Vector.getElem?_replicate] at hx
      split at hx <;> cases hx
  have hb := hstart.rounds hg hrun
  obtain ⟨cls, -, hcls⟩ := List.mem_filterMap.mp hc
  obtain ⟨⟨cost, x⟩, hx, heq⟩ := Option.map_eq_some_iff.mp hcls
  cases heq
  exact ⟨x.isLt, hb.classes _ _ x hx⟩

end EGraph

-- ---------------------------------------------------------------------------
-- Dominance
-- ---------------------------------------------------------------------------

namespace Verifier

open IrArena

variable {a : IrArena} {x y z : RegionId} {r : Region} {fuel fuel' : Nat}

theorem reaches_self : reaches a x (fuel + 1) x = !x.isNone := by
  rw [reaches]
  cases x.isNone <;> simp

/-- One step of a walk that has not arrived. -/
theorem reaches_succ (hx : x ≠ z) : reaches a x (fuel + 1) z = true ↔
    z.isNone = false ∧ ∃ r, a.region z = .ok r ∧ reaches a x fuel r.parent = true := by
  rw [reaches]
  cases hz : z.isNone with
  | true => simp
  | false =>
    simp only [Bool.false_eq_true, if_false, if_neg hx.symm, true_and]
    cases a.region z with
    | error e => simp
    | ok r => simp

theorem reaches_more (h : reaches a x fuel z = true) (hle : fuel ≤ fuel') :
    reaches a x fuel' z = true := by
  induction fuel generalizing z fuel' with
  | zero => cases h
  | succ fuel ih =>
    obtain ⟨fuel', rfl⟩ : ∃ k, fuel' = k + 1 := ⟨fuel' - 1, by omega⟩
    by_cases hx : x = z
    · subst hx
      rw [reaches_self] at h ⊢
      exact h
    · obtain ⟨hz, r, hr, h⟩ := (reaches_succ hx).mp h
      exact (reaches_succ hx).mpr ⟨hz, r, hr, ih h (by omega)⟩

/-- Two walks up the parents, one after the other. -/
theorem reaches_trans (hx : reaches a x fuel y = true) (hy : reaches a y fuel' z = true) :
    reaches a x (fuel + fuel') z = true := by
  induction fuel' generalizing z with
  | zero => cases hy
  | succ fuel' ih =>
    by_cases hyz : y = z
    · exact hyz ▸ reaches_more hx (by omega)
    · obtain ⟨hz, r, hr, hy⟩ := (reaches_succ hyz).mp hy
      by_cases hxz : x = z
      · subst hxz
        rw [Nat.add_succ, reaches]
        simp [hz]
      · exact (reaches_succ hxz).mpr ⟨hz, r, hr, ih hy⟩

/-- A walk arrives, if it does, before the chain ends. -/
theorem reaches_within (hends : parentChainEnds a fuel z = true)
    (h : reaches a x fuel' z = true) : reaches a x (fuel + 1) z = true := by
  induction fuel generalizing z fuel' with
  | zero =>
    obtain ⟨k, rfl⟩ : ∃ k, fuel' = k + 1 := by
      cases fuel' with
      | zero => cases h
      | succ k => exact ⟨k, rfl⟩
    by_cases hx : x = z
    · subst hx
      rw [reaches_self] at h ⊢
      exact h
    · obtain ⟨hz, -⟩ := (reaches_succ hx).mp h
      unfold parentChainEnds at hends
      rw [hz] at hends
      cases hends
  | succ fuel ih =>
    cases fuel' with
    | zero => cases h
    | succ k =>
      by_cases hx : x = z
      · subst hx
        rw [reaches_self] at h ⊢
        exact h
      · obtain ⟨hz, r, hr, h⟩ := (reaches_succ hx).mp h
        refine (reaches_succ hx).mpr ⟨hz, r, hr, ?_⟩
        unfold parentChainEnds at hends
        simp only [hz, hr, Bool.false_eq_true, if_false] at hends
        exact ih hends h

theorem regionDominates_trans (htree : regionTreeOk a = true) (ht : TreeOk a)
    (hxy : regionDominates a x y = true) (hyz : regionDominates a y z = true) :
    regionDominates a x z = true := by
  unfold regionDominates at hxy hyz ⊢
  split at hxy
  · next h =>
    rcases Bool.or_eq_true_iff.mp h with h | h
    · rw [decide_eq_true_iff] at h
      subst h
      exact hyz
    · rw [h, Bool.or_true, if_pos rfl]
  · split at hyz
    · next h =>
      rcases Bool.or_eq_true_iff.mp h with h | h
      · rw [decide_eq_true_iff] at h
        subst h
        split
        · rfl
        · exact hxy
      · -- nothing but itself is above a handle to no region
        unfold reaches at hxy
        rw [h] at hxy
        cases hxy
    · split
      · rfl
      · next hne =>
        have hxz : x ≠ z := fun h => hne (by rw [h, decide_eq_true rfl, Bool.true_or])
        have h := reaches_trans hxy hyz
        obtain ⟨hz, r, hr, h⟩ := (reaches_succ hxz).mp h
        refine (reaches_succ hxz).mpr ⟨hz, r, hr, ?_⟩
        have hpack := ht.generation hr
        have hlt : z.index < a.regionCount + 1 := by
          obtain ⟨-, hget, -⟩ := region_eq_ok.mp hr
          exact Nat.lt_succ_of_lt (List.getElem?_eq_some_iff.mp hget).1
        have hends := List.all_eq_true.mp htree z.index (List.mem_range.mpr hlt)
        simp only [hpack] at hends
        unfold parentChainEnds at hends
        simp only [RegionId.isNone_pack, Bool.false_eq_true, if_false, hpack] at hends
        exact reaches_within hends h

end Verifier

-- ---------------------------------------------------------------------------
-- One redirection
-- ---------------------------------------------------------------------------

namespace Apply

open IrArena Verifier

variable {V : Type} {m : Meaning V} {a b : IrArena} {x y z : NodeId} {n d : Node} {w : V}

theorem replaceUses_valueInputs {source target : ValueId} :
    (n.replaceUses source target).valueInputs =
      n.valueInputs.map fun v => if v = source then target else v :=
  List.map_take.symm

/-- The uses of `x` have become uses of its operand `y`. -/
structure Redirect (a b : IrArena) (x y : NodeId) (n d : Node) : Prop where
  user : (x, n) ∈ a.liveNodes
  operand : ∃ v ∈ n.valueInputs, v.node = y
  node_eq : a.node y = .ok d
  ty : n.ty = d.ty
  result : b = a.mapLive (Node.replaceUses (.fromNode x 0) (.fromNode y 0))

theorem redirect_of_rewriteUses (hx : x ∈ a.liveIds) (h : rewriteUsesIfDirectInput a x y = some b) :
    ∃ n d, Redirect a b x y n d := by
  obtain ⟨n, hn⟩ := IrArena.mem_liveIds.mp hx
  unfold rewriteUsesIfDirectInput at h
  split at h
  · next xn yn hxn hyn =>
    cases Except.ok.inj (hxn.symm.trans (node_of_live hn))
    split at h
    · cases h
    · next hty =>
      split at h
      · next hany =>
        obtain rfl := Option.some.inj h
        rw [Bool.or_eq_true, decide_eq_true_iff, not_or, not_not] at hty
        obtain ⟨v, hv, hvy⟩ := List.any_eq_true.mp hany
        refine ⟨n, yn, hn, ⟨v, hv, of_decide_eq_true hvy⟩, hyn, hty.2, ?_⟩
        exact foldl_rewrite_liveIds
      · cases h
  · cases h

namespace Redirect

theorem sameTree (h : Redirect a b x y n d) : SameTree a b := h.result ▸ mapLive_sameTree

theorem linksOk (h : Redirect a b x y n d) (hl : LinksOk a) : LinksOk b :=
  h.result ▸ mapLive_linksOk hl Node.replaceUses_inputsOnly

theorem mem_liveNodes {c : Node} (h : Redirect a b x y n d) : (z, c) ∈ b.liveNodes ↔
    ∃ e, (z, e) ∈ a.liveNodes ∧ e.replaceUses (.fromNode x 0) (.fromNode y 0) = c := by
  rw [h.result, mem_mapLive_liveNodes Node.replaceUses_inputsOnly]

theorem mem_liveIds (h : Redirect a b x y n d) : z ∈ b.liveIds ↔ z ∈ a.liveIds := by
  simp only [IrArena.mem_liveIds, h.mem_liveNodes]
  constructor
  · rintro ⟨-, e, he, -⟩
    exact ⟨e, he⟩
  · rintro ⟨e, he⟩
    exact ⟨_, e, he, rfl⟩

/-- The word that replaces the uses is that of the operand. -/
theorem word (h : Redirect a b x y n d) (hv : verify a = .ok ()) :
    ∃ v ∈ n.valueInputs, v.node = y ∧ v = .fromNode y 0 ∧ InputOk a n v d := by
  obtain ⟨v, hmem, rfl⟩ := h.operand
  obtain ⟨e, he⟩ := ((verify_ok.mp hv).2.2 x n h.user).inputs v hmem
  cases Except.ok.inj (he.def_eq.symm.trans h.node_eq)
  exact ⟨v, hmem, rfl, (ValueId.fromNode_node he.slot_eq).symm, he⟩

/-- The operand dominates its user, and so what the user dominates. -/
theorem verified (h : Redirect a b x y n d) (ht : TreeOk a) (hv : verify a = .ok ()) :
    verify b = .ok () := by
  obtain ⟨u, hu, -, hword, hy⟩ := h.word hv
  obtain ⟨htree, howners, hnodes⟩ := verify_ok.mp hv
  have hf := @Node.replaceUses_inputsOnly (.fromNode x 0) (.fromNode y 0)
  refine verify_ok.mpr ⟨(regionTreeOk_congr h.sameTree).trans htree, fun r hr => ?_,
    fun z c hc => ?_⟩
  · rw [h.result] at hr ⊢
    exact (howners r hr).imp_right (ownerOk_mapLive hf).trans
  · obtain ⟨e, he, rfl⟩ := h.mem_liveNodes.mp hc
    rw [h.result]
    refine (hnodes z e he).mapLive hf (fun v' hv' => ?_) fun hnone => ?_
    · rw [replaceUses_valueInputs] at hv'
      obtain ⟨v, hv₀, rfl⟩ := List.mem_map.mp hv'
      refine ⟨v, hv₀, fun c hc => ?_⟩
      split
      · next heq =>
        subst heq
        have hxn := hc.def_eq
        rw [(fromNode_live h.user).1, node_of_live h.user] at hxn
        cases hxn
        refine ⟨hword ▸ hy.not_none, hword ▸ hy.slot_eq, d, hword ▸ hy.def_eq, h.ty.symm, ?_⟩
        exact regionDominates_trans htree ht hy.dominates hc.dominates
      · exact ⟨hc.not_none, hc.slot_eq, c, hc.def_eq, rfl, hc.dominates⟩
    · change (if e.effectIn = ValueId.fromNode x 0 then ValueId.fromNode y 0
        else e.effectIn).isNone = true at hnone
      split at hnone
      · rw [← hword, hy.not_none] at hnone
        cases hnone
      · exact hnone

/-- Where the operand is worth what its user is, every value stays. -/
theorem evaluates (h : Redirect a b x y n d) (hv : verify a = .ok ())
    (heq : ∀ w, Evaluates m a x w → Evaluates m a y w) (hz : Evaluates m a z w) :
    Evaluates m b z w := by
  suffices hboth : Evaluates m b z w ∧ ∀ c, a.node z = .ok c → ∀ v ∈ c.valueInputs, ∀ u,
      Evaluates m a v.node u → Evaluates m b v.node u from hboth.1
  induction hz with
  | @node z c xs hlive hc hlen hxs ih =>
    have hinputs : ∀ v ∈ c.valueInputs, ∀ u, Evaluates m a v.node u → Evaluates m b v.node u := by
      intro v hmem u hu
      obtain ⟨i, hi⟩ := List.getElem?_of_mem hmem
      have hget := List.getElem?_eq_getElem
        (hlen ▸ (List.getElem?_eq_some_iff.mp hi).1 : i < xs.length)
      rw [hu.unique (hxs i v _ hi hget)]
      exact (ih i v _ hi hget).1
    refine ⟨?_, fun c' hc' => ?_⟩
    · have hnode := @mapLive_node_ok a
        (Node.replaceUses (.fromNode x 0) (.fromNode y 0)) _ _ hc
      rw [if_pos hlive, ← h.result] at hnode
      have hb := @Evaluates.node V m b z _ xs (by rw [h.result, mapLive_liveSlots]; exact hlive)
        hnode (by rw [replaceUses_valueInputs, List.length_map, hlen]) fun i v' u hi hu => ?_
      · exact hb
      rw [replaceUses_valueInputs, List.getElem?_map] at hi
      obtain ⟨v, hvi, rfl⟩ := Option.map_eq_some_iff.mp hi
      have hvu := hxs i v u hvi hu
      split
      · next hfrom =>
        subst hfrom
        -- the operand, as one of its user's inputs
        obtain ⟨v, hmem, hvy, hword, -⟩ := h.word hv
        have hx := (fromNode_live h.user).1
        rw [← hword]
        refine (ih i _ u hvi hu).2 n (hx.symm ▸ node_of_live h.user) v hmem u ?_
        exact hvy ▸ heq u (hx ▸ hvu)
      · exact (ih i v u hvi hu).1
    · cases Except.ok.inj (hc'.symm.trans hc)
      exact hinputs

end Redirect

-- ---------------------------------------------------------------------------
-- The loop
-- ---------------------------------------------------------------------------

variable {lg lg' lg'' : LiftedGraph} {choices : List (Nat × Nat × Nat)} {r : LiftRecord}
  {e : ENode} {s s' : State} {op : Op} {k : Nat}

theorem write_of_foldInPlace (h : foldInPlace a x op = some b) :
    ∃ n m, Fold.Write a b x n m ∧ m.op = op := by
  unfold foldInPlace at h
  split at h
  · cases h
  · next n hn =>
    split at h
    · next bin hop =>
      split at h
      · cases h
      · next ty hty =>
        split at h
        · cases h
        · next heq =>
          obtain rfl := Option.some.inj h
          rw [not_not] at heq
          refine ⟨n, { n with op, ty, inputs := [] }, ⟨hn, ?_, ?_⟩, rfl⟩
          · refine ⟨.inr ⟨bin, hop⟩, ?_, .inl heq.symm, rfl, rfl, rfl, rfl⟩
            unfold constType at hty
            split at hty
            · exact .inr ⟨_, rfl⟩
            · exact .inl ⟨_, rfl⟩
            · cases hty
          · rw [← rewrite_eq hn]
            simp only [rewrite, modifyNode, hn]
            rfl
    · cases h

theorem State.take_cases {target : Option NodeId} : (s.take x e target).graph = s.graph ∧
    ((s.take x e target).arena = s.arena ∨
      foldInPlace s.arena x e.op = some (s.take x e target).arena ∨
      ∃ y, target = some y ∧
        rewriteUsesIfDirectInput s.arena x y = some (s.take x e target).arena) := by
  have hfold : (s.fold x e.op).graph = s.graph ∧ ((s.fold x e.op).arena = s.arena ∨
      foldInPlace s.arena x e.op = some (s.fold x e.op).arena) := by
    unfold State.fold
    split
    · next h => exact ⟨rfl, .inr h⟩
    · exact ⟨rfl, .inl rfl⟩
  unfold State.take
  cases target with
  | none => exact ⟨hfold.1, hfold.2.imp_right .inl⟩
  | some y =>
    dsimp only
    split
    · split
      · exact ⟨hfold.1, hfold.2.imp_right .inl⟩
      · unfold State.identity
        split
        · next h => exact ⟨rfl, .inr (.inr ⟨y, rfl, h⟩)⟩
        · exact ⟨rfl, .inl rfl⟩
    · exact ⟨rfl, .inl rfl⟩

/-- The loop's lookups compress paths, and nothing else. -/
structure Looked (a : IrArena) (lg lg' : LiftedGraph) : Prop where
  inv : lg'.Inv a
  recs : lg'.recs = lg.recs
  nodeClass : lg'.nodeClass = lg.nodeClass
  xirOf : lg'.xirOf = lg.xirOf
  nodes : lg'.g.nodes = lg.g.nodes
  roots : ∀ i < lg.g.nodes.length, root lg'.g.uf.parent i = root lg.g.uf.parent i

theorem Looked.own (h : Looked a lg lg') (hr : lg'.own r = .ok (k, lg'')) :
    Looked a lg lg'' ∧ ∃ c, lg.nodeClass[r.node.index]? = some (some c) ∧
      k = root lg.g.uf.parent c := by
  obtain ⟨c, hc, hcanon⟩ := LiftedGraph.own_eq hr
  have hlt := h.inv.classes _ c hc
  have hinv := (h.inv.canon hlt hcanon).1.inv
  obtain ⟨uf, hfind, hs⟩ :=
    UnionFind.find_eq h.inv.graph.descending (h.inv.graph.lt_table hlt)
  obtain ⟨⟨k', g⟩, hg, hret⟩ := bind_ok.mp hcanon
  obtain ⟨p, hp, hg⟩ := bind_ok.mp hg
  cases (mapError_ok.mp hp).symm.trans hfind
  cases hg
  cases hret
  rw [h.nodes] at hlt
  refine ⟨⟨hinv, h.recs, h.nodeClass, h.xirOf, h.nodes, fun i hi => ?_⟩, c,
    h.nodeClass ▸ hc, h.roots c hlt⟩
  exact (hs.root i (h.inv.graph.lt_table (h.nodes ▸ hi))).trans (h.roots i hi)

/-- What extraction has chosen for the class of a record's node. -/
def Chosen (lg : LiftedGraph) (choices : List (Nat × Nat × Nat)) (r : LiftRecord) (e : ENode) :
    Prop :=
  ∃ c k cost, lg.nodeClass[r.node.index]? = some (some c) ∧
    (root lg.g.uf.parent c, k, cost) ∈ choices ∧ lg.g.nodes[k]? = some e

/-- What a record may do to the arena. -/
inductive Step (lg : LiftedGraph) (choices : List (Nat × Nat × Nat)) (a b : IrArena) : Prop
  | fold {r : LiftRecord} {e : ENode} {n m : Node} (hr : r ∈ lg.recs)
    (he : Chosen lg choices r e) (hop : m.op = e.op) (h : Fold.Write a b r.node n m)
  | redirect {r : LiftRecord} {e : ENode} {y : NodeId} {n d : Node} (hr : r ∈ lg.recs)
    (he : Chosen lg choices r e) (hy : lg.xirOf[e.seq]? = some (some y))
    (h : Redirect a b r.node y n d)

theorem Step.mem_liveIds (h : Step lg choices a b) : z ∈ b.liveIds ↔ z ∈ a.liveIds := by
  cases h with
  | fold hr he hop h =>
    simp only [IrArena.mem_liveIds, h.mem_liveNodes]
    constructor
    · rintro ⟨-, c, hc, -⟩
      exact ⟨c, hc⟩
    · rintro ⟨c, hc⟩
      exact ⟨_, c, hc, rfl⟩
  | redirect hr he hy h => exact h.mem_liveIds

theorem visit_step (h : Looked a lg s.graph) (hr : r ∈ lg.recs)
    (hlive : r.node ∈ s.arena.liveIds) (hv : visit choices s r = .ok s') :
    Looked a lg s'.graph ∧ (s'.arena = s.arena ∨ Step lg choices s.arena s'.arena) := by
  obtain ⟨⟨own, graph⟩, hown, hv⟩ := bind_ok.mp hv
  obtain ⟨hlooked, c, hc, rfl⟩ := h.own hown
  dsimp only at hv
  split at hv
  · cases hv
    exact ⟨hlooked, .inl rfl⟩
  · next k hk =>
    obtain ⟨e, he, hret⟩ := bind_ok.mp hv
    obtain rfl := Except.ok.inj hret
    have hchosen : Chosen lg choices r e := by
      obtain ⟨⟨cls, k', cost⟩, hfind, rfl⟩ := Option.map_eq_some_iff.mp hk
      have hcls := List.find?_some hfind
      rw [beq_iff_eq] at hcls
      refine ⟨c, k', cost, hc, hcls ▸ List.mem_of_find?_eq_some hfind, ?_⟩
      rw [← hlooked.nodes]
      cases hget : graph.g.nodes[k']? with
      | none => simp [hget, need] at he
      | some e' =>
        rw [hget, need, Except.ok.injEq] at he
        rw [he]
    obtain ⟨hgraph, hcases⟩ := @State.take_cases r.node e { s with graph } graph.xirOf[e.seq]?.join
    refine ⟨hgraph ▸ hlooked, ?_⟩
    rcases hcases with hsame | hfold | ⟨y, hy, hrewrite⟩
    · exact .inl hsame
    · obtain ⟨n, m, hw, hop⟩ := write_of_foldInPlace hfold
      exact .inr (.fold hr hchosen hop hw)
    · obtain ⟨n, d, hred⟩ := redirect_of_rewriteUses hlive hrewrite
      refine .inr (.redirect hr hchosen ?_ hred)
      rw [← hlooked.xirOf]
      exact Option.join_eq_some_iff.mp hy

/-- What each step keeps, the loop keeps. -/
theorem loop_induction {P : IrArena → Prop} {order : List LiftRecord} (hi : lg.Inv a)
    (horder : ∀ r ∈ order, r ∈ lg.recs)
    (hstep : ∀ t b, Step lg choices t b → P t → P b) (hstart : P a)
    (h : order.foldlM (visit choices) ⟨a, lg, 0, 0⟩ = .ok s) :
    P s.arena ∧ ∀ x, x ∈ s.arena.liveIds ↔ x ∈ a.liveIds := by
  have hrun : Looked a lg s.graph ∧ (∀ x, x ∈ s.arena.liveIds ↔ x ∈ a.liveIds) ∧ P s.arena := by
    refine foldlM_preserves_mem (P := fun s : State => Looked a lg s.graph ∧
      (∀ x, x ∈ s.arena.liveIds ↔ x ∈ a.liveIds) ∧ P s.arena) ?_
      ⟨⟨hi, rfl, rfl, rfl, rfl, fun _ _ => rfl⟩, fun _ => Iff.rfl, hstart⟩ h
    rintro t r t' hr hv ⟨hlooked, hlive, ht⟩
    obtain ⟨⟨n, hn, -⟩, -⟩ := hi.recs r (horder r hr)
    have hmem := (hlive r.node).mpr (IrArena.mem_liveIds.mpr ⟨n, hn⟩)
    obtain ⟨hlooked', hsame | hs⟩ := visit_step hlooked (horder r hr) hmem hv
    · exact ⟨hlooked', hsame ▸ hlive, hsame ▸ ht⟩
    · exact ⟨hlooked', fun x => hs.mem_liveIds.trans (hlive x), hstep _ _ hs ht⟩
  exact ⟨hrun.2.2, hrun.2.1⟩

-- ---------------------------------------------------------------------------
-- The verifier
-- ---------------------------------------------------------------------------

/-- What holds between the arena that the loop began with and a later one. -/
structure Kept (a t : IrArena) : Prop where
  tree : SameTree a t
  links : LinksOk t
  accepted : verify t = .ok ()
  instrs : ∀ x n', (x, n') ∈ t.liveNodes → ∃ n, (x, n) ∈ a.liveNodes ∧
    n'.op.hasInstr = n.op.hasInstr

theorem Kept.refl (hl : LinksOk a) (hv : verify a = .ok ()) : Kept a a :=
  ⟨.refl, hl, hv, fun _ n hn => ⟨n, hn, rfl⟩⟩

theorem Kept.step {t : IrArena} (h : Kept a t) (ht : TreeOk a) (hs : Step lg choices t b) :
    Kept a b := by
  cases hs with
  | fold hr he hop hw =>
    refine ⟨h.tree.trans hw.sameTree, hw.linksOk h.links, hw.verified h.accepted, fun x n' hn => ?_⟩
    obtain ⟨c, hc, hcn⟩ := hw.mem_liveNodes.mp hn
    obtain ⟨n, hn, hinstr⟩ := h.instrs x c hc
    refine ⟨n, hn, Eq.trans ?_ hinstr⟩
    rw [← hcn]
    split
    · next hi =>
      rw [hw.eq_of_index (node_of_live hc) hi]
      exact hw.constant.hasInstr_eq
    · rfl
  | redirect hr he hy hred =>
    refine ⟨h.tree.trans hred.sameTree, hred.linksOk h.links,
      hred.verified (ht.sameTree h.tree) h.accepted, fun x n' hn => ?_⟩
    obtain ⟨c, hc, rfl⟩ := hred.mem_liveNodes.mp hn
    exact h.instrs x c hc

-- ---------------------------------------------------------------------------
-- The values
-- ---------------------------------------------------------------------------

section Values

variable {I : Op → List V → V} {num : ConstVal → V} {val : Nat → V} {ex : EGraph.Extraction} {t : IrArena}

/-- A record's node is worth its class, and so is what extraction has chosen. -/
theorem Chosen.value (he : Chosen lg ex.choices r e) (hr : r ∈ lg.recs) (hi : lg.Inv a)
    (hm : LiftedGraph.Models m I a val lg) (hex : lg.g.extract = .ok (some ex)) :
    ∃ c, Evaluates m a r.node (val c) ∧ (∃ xs, val c = I e.op xs) ∧
      val e.seq = val c := by
  obtain ⟨c, k, cost, hc, hk, hget⟩ := he
  obtain ⟨hlt, hroot⟩ := EGraph.extract_root hi.graph hex hk
  have hval : val k = val c := by
    rw [← hm.graph.roots k hlt, hroot, hm.graph.roots c (hi.classes _ c hc)]
  refine ⟨c, hm.evaluates hr hc, ⟨_, hval.symm.trans (hm.graph.nodes k e hget)⟩, ?_⟩
  rw [hm.graph.seqs k e hget]
  exact hval

/-- A step between arenas with the values of the first one keeps them. -/
theorem Step.evaluates (h : Step lg ex.choices t b) (hi : lg.Inv a)
    (hm : LiftedGraph.Models m I a val lg) (hI : Interprets m I num)
    (hex : lg.g.extract = .ok (some ex)) (hv : verify t = .ok ())
    (hold : ∀ z w, Evaluates m a z w → Evaluates m t z w) (hz : Evaluates m t z w) :
    Evaluates m b z w := by
  cases h with
  | @fold r e n c hr he hop h =>
    obtain ⟨k, heval, ⟨xs, hxs⟩, -⟩ := he.value hr hi hm hex
    refine h.evaluates (fun w hw => ?_) hz
    have hconst : c.op.isPure = true ∧ expectedArity c.op = 0 ∧ ∃ v, constOfOp c.op = some v := by
      rcases h.constant.const with ⟨v, hv⟩ | ⟨v, hv⟩ <;> rw [hv] <;> exact ⟨rfl, rfl, _, rfl⟩
    obtain ⟨hpure, harity, v, hv⟩ := hconst
    have happly := hI.pure r.node.index c [] hpure harity.symm
    rw [hI.const _ v _ hv] at happly
    rw [happly, hw.unique (hold _ _ heval), hxs, ← hop, hI.const _ v _ hv]
  | @redirect r e y n d hr he hy h =>
    obtain ⟨k, heval, -, hseq⟩ := he.value hr hi hm hex
    refine h.evaluates hv (fun w hw => ?_) hz
    obtain ⟨r', hr', rfl, -, c, hc, hs⟩ := hi.lifted _ _ hy
    rw [hw.unique (hold _ _ heval), ← hseq, hm.graph.same hs]
    exact hold _ _ (hm.evaluates hr' hc)

/-- Behind the loop every node is worth what it was. -/
theorem loop_evaluates {order : List LiftRecord} (ht : TreeOk a) (hl : LinksOk a)
    (hv : verify a = .ok ()) (hi : lg.Inv a) (hm : LiftedGraph.Models m I a val lg)
    (hI : Interprets m I num) (hex : lg.g.extract = .ok (some ex))
    (horder : ∀ r ∈ order, r ∈ lg.recs)
    (h : order.foldlM (visit ex.choices) ⟨a, lg, 0, 0⟩ = .ok s) :
    ∀ z w, Evaluates m a z w → Evaluates m s.arena z w := by
  refine (loop_induction (P := fun t => Kept a t ∧ ∀ z w, Evaluates m a z w → Evaluates m t z w)
    hi horder ?_ ⟨.refl hl hv, fun _ _ => id⟩ h).1.2
  rintro t b hs ⟨hkept, hold⟩
  exact ⟨hkept.step ht hs,
    fun z w hz => hs.evaluates hi hm hI hex hkept.accepted hold (hold z w hz)⟩

end Values

end Apply

-- ---------------------------------------------------------------------------
-- The application
-- ---------------------------------------------------------------------------

open Apply IrArena

variable {a b : IrArena} {roots : List NodeId} {budget : Nat} {out : ApplyOutcome}

/-- Saturation, extraction, the loop and the sweep behind an application. -/
theorem apply_ok (h : apply a roots budget = .ok (some out)) :
    ∃ (lg : LiftedGraph) (ex : EGraph.Extraction) (order : List LiftRecord) (s : State),
      lg.Saturating a budget ∧ lg.g.extract = .ok (some ex) ∧ (∀ r ∈ order, r ∈ lg.recs) ∧
      order.foldlM (visit ex.choices) ⟨a, lg, 0, 0⟩ = .ok s ∧
      Dce.run s.arena roots = .ok (out.arena, out.nodesRemovedByDce) := by
  obtain ⟨lg₀, hlift, h⟩ := bind_ok.mp h
  obtain ⟨⟨applied, lg⟩, hrounds, h⟩ := bind_ok.mp h
  obtain ⟨o, hextract, h⟩ := bind_ok.mp h
  cases o with
  | none => cases h
  | some ex =>
    obtain ⟨s, hloop, h⟩ := bind_ok.mp h
    obtain ⟨⟨arena, removed⟩, hdce, hret⟩ := bind_ok.mp h
    cases hret
    refine ⟨lg, ex, _, s, (LiftedGraph.Saturating.lifted hlift).rounds hrounds, hextract,
      fun r hr => ?_, hloop, mapError_ok.mp hdce⟩
    exact (List.mem_insertionSort _).mp hr

/-- Whatever extraction has chosen, the new arena passes the verifier, and a
root that was live still is. -/
theorem apply_accepted (ht : TreeOk a) (hl : LinksOk a) (hv : verify a = .ok ())
    (h : apply a roots budget = .ok (some out)) :
    verify out.arena = .ok () ∧ LinksOk out.arena ∧ (∀ x ∈ out.arena.liveIds, x ∈ a.liveIds) ∧
      ∀ r ∈ roots, r.index ∈ a.liveSlots → r.index ∈ out.arena.liveSlots := by
  obtain ⟨lg, ex, order, s, hsat, -, horder, hloop, hdce⟩ := apply_ok h
  obtain ⟨hkept, hlive⟩ := loop_induction hsat.inv horder
    (fun t b hs (hk : Kept a t) => hk.step ht hs) (.refl hl hv) hloop
  obtain ⟨htrim, hlinks, -, hanchored⟩ := Dce.run_closed hkept.links hdce
  refine ⟨Dce.run_verify hkept.links hkept.accepted hdce, hlinks, fun x hx => ?_, fun r hr hi => ?_⟩
  · obtain ⟨n, hn⟩ := mem_liveIds.mp hx
    obtain ⟨m, hm, -⟩ := htrim.live_of_live hn
    exact (hlive x).mp (mem_liveIds.mpr ⟨m, hm⟩)
  · obtain ⟨p, n, hn, hpi⟩ := exists_live hi
    obtain ⟨m, hm⟩ := mem_liveIds.mp ((hlive p).mpr (mem_liveIds.mpr ⟨n, hn⟩))
    exact hanchored _ ⟨p, m, hm, hpi, .inl ⟨r, hr, rfl⟩⟩

end Sxla
