import Sxla.Egraph.Congruence

/-!
# Growth of the e-graph

Whatever is done to a graph, its e-nodes keep their places and their ops, new
ones come behind them, and classes are only joined. Each operation is
described by what it adds to that.
-/

namespace Sxla

open Checked Forest

namespace EGraph

variable {g g' g'' : EGraph} {x y z c e w n : Nat} {op : Op} {children ids : List Nat}

def opAt (g : EGraph) (e : Nat) : Option Op := g.nodes[e]?.map (·.op)

/-- Ids of the graph with one root. -/
structure Same (g : EGraph) (x y : Nat) : Prop where
  left : x < g.nodes.length
  right : y < g.nodes.length
  roots : root g.uf.parent x = root g.uf.parent y

structure Grows (g g' : EGraph) : Prop where
  inv : g'.Inv
  ops : ∀ e op, g.opAt e = some op → g'.opAt e = some op
  same : ∀ x y, g.Same x y → g'.Same x y

theorem Same.refl (h : x < g.nodes.length) : g.Same x x := ⟨h, h, rfl⟩

theorem Same.symm (h : g.Same x y) : g.Same y x := ⟨h.right, h.left, h.roots.symm⟩

theorem Same.trans (h : g.Same x y) (h' : g.Same y z) : g.Same x z :=
  ⟨h.left, h'.right, h.roots.trans h'.roots⟩

theorem Grows.refl (h : g.Inv) : g.Grows g := ⟨h, fun _ _ => id, fun _ _ => id⟩

theorem Grows.trans (h : g.Grows g') (h' : g'.Grows g'') : g.Grows g'' :=
  ⟨h'.inv, fun e op he => h'.ops e op (h.ops e op he), fun x y hxy => h'.same x y (h.same x y hxy)⟩

theorem Grows.lt (h : g.Grows g') (hx : x < g.nodes.length) : x < g'.nodes.length :=
  (h.same x x (.refl hx)).left

theorem opAt_lt (h : g.opAt e = some op) : e < g.nodes.length := by
  obtain ⟨m, hm, -⟩ := Option.map_eq_some_iff.mp h
  exact (List.getElem?_eq_some_iff.mp hm).1

theorem Inv.same_root (h : g.Inv) (hx : x < g.nodes.length) : g.Same (root g.uf.parent x) x :=
  ⟨h.root_lt hx, hx, h.root_root hx⟩

/-- The canonical id of a class is that of its nodes. -/
theorem Same.inClass (hs : g.Same e c) (h : g.Inv) : ∃ k, g.uf.findRo c = .ok k ∧ g.InClass e k :=
  ⟨_, UnionFind.findRo_eq (h.lt_table hs.right), (h.inClass_iff hs.left).mpr hs.roots⟩

-- ---------------------------------------------------------------------------
-- The operations
-- ---------------------------------------------------------------------------

/-- Updates of the table that keep the roots. -/
theorem Inv.grows_uf {uf : UnionFind} (h : g.Inv) (hs : SameRoots g.uf.parent uf.parent) :
    g.Grows { g with uf } := by
  refine ⟨h.sameRoots hs, fun _ _ => id, fun x y hxy => ⟨hxy.left, hxy.right, ?_⟩⟩
  rw [hs.root x (h.lt_table hxy.left), hs.root y (h.lt_table hxy.right)]
  exact hxy.roots

theorem Inv.canon_spec (h : g.Inv) (hc : c < g.nodes.length) (hr : g.canon c = .ok (w, g')) :
    g.Grows g' ∧ g'.nodes = g.nodes ∧ g'.Same w c := by
  obtain ⟨uf, hfind, hs⟩ := UnionFind.find_eq h.descending (h.lt_table hc)
  obtain ⟨p, hp, hret⟩ := bind_ok.mp hr
  cases (mapError_ok.mp hp).symm.trans hfind
  cases hret
  have hgrows := h.grows_uf hs
  exact ⟨hgrows, rfl, hgrows.same _ _ (h.same_root hc)⟩

theorem Inv.canonChildren_spec {uf : UnionFind} {roots : List Nat} (h : g.Inv)
    (hids : ∀ c ∈ ids, c < g.nodes.length) (hr : canonChildren g.uf ids = .ok (roots, uf)) :
    g.Grows { g with uf } ∧ ∀ r ∈ roots, r < g.nodes.length := by
  obtain ⟨uf', hcanon, hs⟩ := canonChildren_eq h.descending fun c hc => h.lt_table (hids c hc)
  cases hr.symm.trans hcanon
  refine ⟨h.grows_uf hs, fun r hr => ?_⟩
  obtain ⟨c, hc, rfl⟩ := List.mem_map.mp hr
  exact h.root_lt (hids c hc)

theorem Inv.merge_spec (h : g.Inv) (hx : x < g.nodes.length) (hy : y < g.nodes.length)
    (hm : g.merge x y = .ok (w, g')) :
    g.Grows g' ∧ g'.nodes = g.nodes ∧ g'.Same w x ∧ g'.Same w y := by
  obtain ⟨w', g₁, hmerge, hinv, hnodes, hw, hmin, hroot⟩ := h.merge hx hy
  cases hm.symm.trans hmerge
  have hlen : g'.nodes.length = g.nodes.length := congrArg List.length hnodes
  have hwinner : root g.uf.parent w = w := by
    rcases Nat.le_total (root g.uf.parent x) (root g.uf.parent y) with hle | hle
    · rw [hmin, Nat.min_eq_left hle]
      exact h.root_root hx
    · rw [hmin, Nat.min_eq_right hle]
      exact h.root_root hy
  have hsame : ∀ z, z < g.nodes.length →
      root g.uf.parent z = root g.uf.parent x ∨ root g.uf.parent z = root g.uf.parent y →
      g'.Same w z := by
    intro z hz hor
    refine ⟨hlen.symm ▸ hw, hlen.symm ▸ hz, ?_⟩
    rw [hroot w hw, hroot z hz, hwinner]
    split_ifs <;> omega
  refine ⟨⟨hinv, fun e op he => ?_, fun z z' hz => ?_⟩, hnodes, hsame x hx (.inl rfl),
    hsame y hy (.inr rfl)⟩
  · rw [opAt, hnodes]
    exact he
  · refine ⟨hlen.symm ▸ hz.left, hlen.symm ▸ hz.right, ?_⟩
    rw [hroot z hz.left, hroot z' hz.right, hz.roots]

/-- A new e-node is in a class of its own. -/
theorem grows_mint (hm : (g.mint op children).2.Inv) : g.Grows (g.mint op children).2 := by
  have hlen : (g.mint op children).2.nodes.length = g.nodes.length + 1 := by simp [EGraph.mint]
  refine ⟨hm, fun e op' he => ?_, fun x y hxy => ⟨?_, ?_, hxy.roots⟩⟩
  · have hlt := opAt_lt he
    rw [opAt, EGraph.mint, List.getElem?_append_left hlt]
    exact he
  · exact hlen.symm ▸ Nat.lt_succ_of_lt hxy.left
  · exact hlen.symm ▸ Nat.lt_succ_of_lt hxy.right

theorem Inv.add_spec (h : g.Inv) (hc : ∀ c ∈ children, c < g.nodes.length)
    (ha : g.add op children = .ok (c, g')) :
    g.Grows g' ∧ ((g' = g ∧ ∃ e, g.opAt e = some op ∧ g.Same e c) ∨
      g'.nodes.length = g.nodes.length + 1 ∧ c = g.nodes.length ∧ g'.opAt c = some op) := by
  rcases @Inv.add_cases g op children h hc with ⟨e, herr, -⟩ | ⟨x, m, hx, hcong, hok⟩ | ⟨hok, hinv⟩
  · cases ha.symm.trans herr
  · cases ha.symm.trans hok
    have hop : m.op = op := (@congruentTo_iff m ⟨op, children, 0⟩).mp hcong |>.1
    have hlt := (List.getElem?_eq_some_iff.mp hx).1
    refine ⟨.refl h, .inl ⟨rfl, x, ?_, (h.same_root hlt).symm⟩⟩
    rw [opAt, hx, ← hop]
    rfl
  · cases ha.symm.trans hok
    refine ⟨grows_mint hinv, .inr ⟨by simp, h.next, ?_⟩⟩
    simp [opAt, h.next]

/-- The class that is returned holds a node of the op. -/
theorem Inv.add_op (h : g.Inv) (hc : ∀ c ∈ children, c < g.nodes.length)
    (ha : g.add op children = .ok (c, g')) : ∃ e, g'.opAt e = some op ∧ g'.Same e c := by
  obtain ⟨-, ⟨rfl, hop⟩ | ⟨-, -, hop⟩⟩ := h.add_spec hc ha
  · exact hop
  · exact ⟨c, hop, .refl (opAt_lt hop)⟩

theorem Rebuild.Inv.visit_grows {r r' : Rebuild} {i : Nat} (h : r.Inv n) (hi : i < n)
    (hv : r.visit i = .ok r') : r.graph.Grows r'.graph := by
  have hroot : ∀ j < n, root r.graph.uf.parent j < r.graph.nodes.length :=
    fun j hj => h.graph.root_lt (h.length.symm ▸ hj)
  obtain ⟨m, hm, ⟨-, hok⟩ | ⟨e, ex, -, he, -, ⟨hok, -⟩ | ⟨-, -, w, g₁, hmerge, hok⟩⟩⟩ :=
    h.visit_cases hi
  · cases hv.symm.trans hok
    exact .refl h.graph
  · cases hv.symm.trans hok
    exact .refl h.graph
  · cases hv.symm.trans hok
    exact (h.graph.merge_spec (hroot e he) (hroot i hi) hmerge).1

theorem Inv.rebuild_spec (h : g.Inv) (hr : g.rebuild = .ok (n, g')) :
    g.Grows g' ∧ g'.nodes.length = g.nodes.length := by
  obtain ⟨uf, hcanon, hs, hinv⟩ := h.canonNodes
  obtain ⟨p, hp, hr⟩ := bind_ok.mp hr
  cases (mapError_ok.mp hp).symm.trans hcanon
  obtain ⟨r, hrun, hret⟩ := bind_ok.mp hr
  cases hret
  have hlen : (g.nodes.map (canonNode g.uf)).length = g.nodes.length := List.length_map _
  -- the first pass replaces children only
  have hfirst : g.Grows { g with nodes := g.nodes.map (canonNode g.uf), uf } := by
    refine ⟨hinv, fun e op he => ?_, fun x y hxy => ⟨hlen.symm ▸ hxy.left, hlen.symm ▸ hxy.right, ?_⟩⟩
    · obtain ⟨m, hm, rfl⟩ := Option.map_eq_some_iff.mp he
      simp [opAt, hm, canonNode]
    · exact ((h.grows_uf hs).same x y hxy).roots
  obtain ⟨r', hrun', hrinv, hgrows⟩ := @foldlM_isOk _ _ _ Rebuild.visit
    (fun r => r.Inv g.nodes.length ∧ g.Grows r.graph)
    (List.range (g.nodes.map (canonNode g.uf)).length)
    ⟨{ g with nodes := g.nodes.map (canonNode g.uf), uf }, ∅, 0⟩ ⟨⟨hinv, hlen, by simp⟩, hfirst⟩ (by
      rintro r i hi ⟨hrinv, hgrows⟩
      have hlt := hlen ▸ List.mem_range.mp hi
      obtain ⟨r', hvisit, hrinv'⟩ := hrinv.visit hlt
      exact ⟨r', hvisit, hrinv', hgrows.trans (hrinv.visit_grows hlt hvisit)⟩)
  cases hrun.symm.trans hrun'
  have hg := hrinv.graph
  have hlookup : ({ r.graph with lookup := r.newLookup } : EGraph).Inv :=
    ⟨hg.descending, hg.table, hg.bounded, hg.next, hg.nodeClass, hg.children,
      fun key id hid => hrinv.length.symm ▸ hrinv.lookup key id hid, hg.fresh, hg.classes⟩
  refine ⟨⟨hlookup, hgrows.ops, fun x y hxy => ?_⟩, hrinv.length⟩
  obtain ⟨hx, hy, hroots⟩ := hgrows.same x y hxy
  exact ⟨hx, hy, hroots⟩

end EGraph

end Sxla
