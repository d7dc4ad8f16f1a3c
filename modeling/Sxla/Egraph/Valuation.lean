import Sxla.Egraph.Alignment
import Sxla.Graph.Values

/-!
# What classes are worth

An interpretation of the ops gives every e-node a value, from those of its
children's classes. When ids are only merged that have the same value, a
class has one value: adding, merging, rebuilding and canonicalizing keep this,
whatever the hashes are.
-/

namespace Sxla

open Checked Forest

namespace EGraph

variable {V : Type} {I : Op → List V → V} {val val' : Nat → V} {g g' : EGraph} {op : Op}
  {x y c w n : Nat} {ids children roots : List Nat} {uf : UnionFind}

/-- Every e-node carries its number, and has the value of its op on its
children's; every id has the value of its canonical one. -/
structure Valued (I : Op → List V → V) (val : Nat → V) (g : EGraph) : Prop where
  seqs : ∀ (e : Nat) m, g.nodes[e]? = some m → m.seq = e
  nodes : ∀ (e : Nat) m, g.nodes[e]? = some m → val e = I m.op (m.children.map val)
  roots : ∀ x < g.nodes.length, val (root g.uf.parent x) = val x

/-- The values of the ids below `n` stay. -/
def Keeps (n : Nat) (val val' : Nat → V) : Prop := ∀ i < n, val' i = val i

theorem Keeps.map (h : Keeps n val val') (hids : ∀ i ∈ ids, i < n) :
    ids.map val' = ids.map val :=
  List.map_congr_left fun i hi => h i (hids i hi)

theorem Keeps.trans {val'' : Nat → V} (h : Keeps n val val') (h' : Keeps w val' val'')
    (hle : n ≤ w) : Keeps n val val'' :=
  fun i hi => (h' i (hi.trans_le hle)).trans (h i hi)

theorem Valued.same (h : Valued I val g) (hs : g.Same x y) : val x = val y := by
  rw [← h.roots x hs.left, ← h.roots y hs.right, hs.roots]

theorem Valued.opAt (h : Valued I val g) (hop : g.opAt x = some op) :
    ∃ vs, val x = I op vs := by
  obtain ⟨m, hm, rfl⟩ := Option.map_eq_some_iff.mp hop
  exact ⟨_, h.nodes x m hm⟩

theorem new_valued {budget : Nat} : Valued I val (new budget) :=
  ⟨fun _ _ h => by simp [new] at h, fun _ _ h => by simp [new] at h, fun _ h => by simp [new] at h⟩

-- ---------------------------------------------------------------------------
-- The operations
-- ---------------------------------------------------------------------------

theorem Valued.sameRoots (h : Valued I val g) (hi : g.Inv)
    (hs : SameRoots g.uf.parent uf.parent) : Valued I val { g with uf } :=
  ⟨h.seqs, h.nodes, fun x hx => by rw [hs.root x (hi.lt_table hx), h.roots x hx]⟩

theorem Valued.canon (h : Valued I val g) (hi : g.Inv) (hc : c < g.nodes.length)
    (hr : g.canon c = .ok (w, g')) : Valued I val g' := by
  obtain ⟨uf, hfind, hs⟩ := UnionFind.find_eq hi.descending (hi.lt_table hc)
  obtain ⟨p, hp, hret⟩ := bind_ok.mp hr
  cases (mapError_ok.mp hp).symm.trans hfind
  cases hret
  exact h.sameRoots hi hs

theorem Valued.canonChildren (h : Valued I val g) (hi : g.Inv)
    (hids : ∀ c ∈ ids, c < g.nodes.length) (hr : EGraph.canonChildren g.uf ids = .ok (roots, uf)) :
    Valued I val { g with uf } ∧ roots.map val = ids.map val := by
  obtain ⟨uf', hcanon, hs⟩ := canonChildren_eq hi.descending fun c hc => hi.lt_table (hids c hc)
  cases hr.symm.trans hcanon
  refine ⟨h.sameRoots hi hs, ?_⟩
  rw [List.map_map]
  exact List.map_congr_left fun c hc => h.roots c (hids c hc)

/-- Two ids of one value may be merged. -/
theorem Valued.merge (h : Valued I val g) (hi : g.Inv) (hx : x < g.nodes.length)
    (hy : y < g.nodes.length) (hxy : val x = val y) (hm : g.merge x y = .ok (w, g')) :
    Valued I val g' := by
  obtain ⟨w', g₁, hmerge, -, hnodes, -, -, hroot⟩ := hi.merge hx hy
  cases hm.symm.trans hmerge
  refine ⟨fun e m he => h.seqs e m (hnodes ▸ he), fun e m he => h.nodes e m (hnodes ▸ he),
    fun z hz => ?_⟩
  rw [hnodes] at hz
  have hboth : val (root g.uf.parent x) = val (root g.uf.parent y) := by
    rw [h.roots x hx, h.roots y hy, hxy]
  have hone : val (min (root g.uf.parent x) (root g.uf.parent y)) =
      val (max (root g.uf.parent x) (root g.uf.parent y)) := by
    rcases Nat.le_total (root g.uf.parent x) (root g.uf.parent y) with hle | hle
    · rw [Nat.min_eq_left hle, Nat.max_eq_right hle, hboth]
    · rw [Nat.min_eq_right hle, Nat.max_eq_left hle, hboth]
  rw [hroot z hz, ← h.roots z hz]
  split
  · next heq => rw [heq, hone]
  · rfl

/-- An e-node that is there has the value already; a new one gets it. -/
theorem Valued.add (h : Valued I val g) (hi : g.Inv) (hc : ∀ c ∈ children, c < g.nodes.length)
    (ha : g.add op children = .ok (c, g')) : ∃ val', Keeps g.nodes.length val val' ∧
      Valued I val' g' ∧ val' c = I op (children.map val) := by
  rcases @Inv.add_cases g op children hi hc with ⟨e, herr, -⟩ | ⟨x, m, hx, hcong, hok⟩ | ⟨hok, -⟩
  · cases ha.symm.trans herr
  · cases ha.symm.trans hok
    obtain ⟨rfl, rfl⟩ := (@congruentTo_iff m ⟨op, children, 0⟩).mp hcong
    refine ⟨val, fun _ _ => rfl, h, ?_⟩
    rw [h.roots x (List.getElem?_eq_some_iff.mp hx).1, h.nodes x m hx]
  · cases ha.symm.trans hok
    have hkeeps : Keeps g.nodes.length val
        (Function.update val g.nodes.length (I op (children.map val))) :=
      fun i hi => Function.update_of_ne hi.ne _ _
    have hnode : ∀ (e : Nat) m, (g.mint op children).2.nodes[e]? = some m →
        g.nodes[e]? = some m ∨ e = g.nodes.length ∧ m = ⟨op, children, g.nodes.length⟩ := by
      intro e m he
      rw [EGraph.mint, List.getElem?_append] at he
      split at he
      · exact .inl he
      · obtain ⟨hlt, hm⟩ := List.getElem?_eq_some_iff.mp he
        rw [List.length_singleton] at hlt
        rw [List.getElem_singleton] at hm
        exact .inr ⟨by omega, hm.symm⟩
    refine ⟨_, hkeeps, ⟨fun e m he => ?_, fun e m he => ?_, fun x hx => ?_⟩, ?_⟩
    · rcases hnode e m he with hold | ⟨rfl, rfl⟩
      · exact h.seqs e m hold
      · rfl
    · rcases hnode e m he with hold | ⟨rfl, rfl⟩
      · have hlt := (List.getElem?_eq_some_iff.mp hold).1
        rw [hkeeps e hlt, hkeeps.map (hi.children m (List.mem_of_getElem? hold))]
        exact h.nodes e m hold
      · rw [Function.update_self, hkeeps.map hc]
    · simp only [List.length_append, List.length_singleton] at hx ⊢
      rcases Nat.lt_succ_iff_lt_or_eq.mp hx with hlt | rfl
      · rw [hkeeps _ (hi.root_lt hlt), hkeeps x hlt, h.roots x hlt]
      · rw [hi.fresh _ le_rfl]
    · rw [hi.next, Function.update_self]

theorem Valued.visit {r r' : Rebuild} {i : Nat} (h : Valued I val r.graph) (hr : r.Inv n)
    (hi : i < n) (hv : r.visit i = .ok r') : Valued I val r'.graph := by
  have hroot : ∀ j < n, root r.graph.uf.parent j < r.graph.nodes.length :=
    fun j hj => hr.graph.root_lt (hr.length.symm ▸ hj)
  obtain ⟨m, hm, ⟨-, hok⟩ | ⟨e, ex, -, he, hex, ⟨hok, -⟩ | ⟨hcong, -, w, g₁, hmerge, hok⟩⟩⟩ :=
    hr.visit_cases hi
  · cases hv.symm.trans hok
    exact h
  · cases hv.symm.trans hok
    exact h
  · cases hv.symm.trans hok
    obtain ⟨hop, hchildren⟩ := (@congruentTo_iff ex m).mp hcong
    refine h.merge hr.graph (hroot e he) (hroot i hi) ?_ hmerge
    rw [h.roots e (hr.length.symm ▸ he), h.roots i (hr.length.symm ▸ hi), h.nodes e ex hex,
      h.nodes i m hm, hop, hchildren]

theorem Valued.rebuild (h : Valued I val g) (hi : g.Inv) (hr : g.rebuild = .ok (n, g')) :
    Valued I val g' := by
  obtain ⟨uf, hcanon, hs, hinv⟩ := hi.canonNodes
  obtain ⟨p, hp, hr⟩ := bind_ok.mp hr
  cases (mapError_ok.mp hp).symm.trans hcanon
  obtain ⟨r, hrun, hret⟩ := bind_ok.mp hr
  cases hret
  have hlen : (g.nodes.map (canonNode g.uf)).length = g.nodes.length := List.length_map _
  have hfirst : Valued I val { g with nodes := g.nodes.map (canonNode g.uf), uf } := by
    refine ⟨fun e m' he => ?_, fun e m' he => ?_, fun x hx => ?_⟩
    · obtain ⟨m, hm, rfl⟩ := Option.map_eq_some_iff.mp ((List.getElem?_map ..).symm.trans he)
      exact h.seqs e m hm
    · obtain ⟨m, hm, rfl⟩ := Option.map_eq_some_iff.mp ((List.getElem?_map ..).symm.trans he)
      rw [h.nodes e m hm, canonNode, List.map_map]
      refine congrArg _ (List.map_congr_left fun c hc => ?_)
      exact (h.roots c (hi.children m (List.mem_of_getElem? hm) c hc)).symm
    · exact (h.sameRoots hi hs).roots x (hlen ▸ hx)
  have hrun := foldlM_preserves_mem
    (P := fun r => r.Inv g.nodes.length ∧ Valued I val r.graph) ?_ ⟨⟨hinv, hlen, by simp⟩, hfirst⟩ hrun
  · exact ⟨hrun.2.seqs, hrun.2.nodes, hrun.2.roots⟩
  · rintro r i r' hmem hvisit ⟨hrinv, hval⟩
    have hlt := hlen ▸ List.mem_range.mp hmem
    obtain ⟨r₁, hvisit₁, hrinv₁⟩ := hrinv.visit hlt
    cases hvisit.symm.trans hvisit₁
    exact ⟨hrinv₁, hval.visit hrinv hlt hvisit⟩

end EGraph

end Sxla
