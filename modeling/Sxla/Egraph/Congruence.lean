import Sxla.Egraph.Membership
import Mathlib.Logic.Relation

/-!
# What one rebuild restores

The second pass of `rebuild` joins the classes of nodes with the same op and
the same stored children, whatever order it meets them in: the classes after
it are those of the closure of the ones before under congruent nodes. The
children were stored before it, so the graph is congruent again exactly when
it gave none of them a lower class.
-/

namespace Sxla

open Checked Forest
open Std (TreeMap)

namespace EGraph

variable {g g' : EGraph} {r : Rebuild} {i j k l x y : Nat} {m m' : ENode}

/-- The same op on the same canonical classes. -/
def Congruent (g : EGraph) (m m' : ENode) : Prop :=
  (canonNode g.uf m).congruentTo m'.op (canonNode g.uf m').children = true

instance (g : EGraph) (m m' : ENode) : Decidable (g.Congruent m m') :=
  inferInstanceAs (Decidable (_ = true))

/-- Node `i` is in the class with canonical id `k`. -/
def InClass (g : EGraph) (i k : Nat) : Prop :=
  ∃ cls, g.nodeClass[i]? = some cls ∧ g.uf.findRo cls = .ok k

def ENode.key (m : ENode) : UInt64 := EGraph.key m.op m.children

/-- Nodes of the graph with the same canonical key are congruent. -/
def NoCollision (g : EGraph) : Prop :=
  ∀ m ∈ g.nodes, ∀ m' ∈ g.nodes, ENode.key (canonNode g.uf m) = ENode.key (canonNode g.uf m') →
    g.Congruent m m'

instance (g : EGraph) : Decidable g.NoCollision :=
  inferInstanceAs (Decidable (∀ m ∈ g.nodes, ∀ m' ∈ g.nodes, _ → _))

/-- Two classes that hold congruent nodes. -/
def Meet (g : EGraph) (k l : Nat) : Prop :=
  ∃ (i j : Nat) (m m' : ENode), g.nodes[i]? = some m ∧ g.nodes[j]? = some m' ∧
    g.InClass i k ∧ g.InClass j l ∧ g.Congruent m m'

def Linked (g : EGraph) : Nat → Nat → Prop := Relation.EqvGen g.Meet

/-- No class that is a child of a node is linked to a lower one. -/
def ChildrenLeast (g : EGraph) : Prop :=
  ∀ m ∈ g.nodes, ∀ c ∈ m.children, ∀ k l, g.uf.findRo c = .ok k → g.Linked k l → k ≤ l

/-- Congruent nodes share a class, stored children are canonical, and a
rebuild finds nothing to merge. -/
structure Restored (g : EGraph) : Prop where
  congruent : ∀ (i j : Nat) (m m' : ENode), g.nodes[i]? = some m → g.nodes[j]? = some m' →
    g.Congruent m m' → ∃ k, g.InClass i k ∧ g.InClass j k
  canonical : ∀ m ∈ g.nodes, ∀ c ∈ m.children, g.uf.findRo c = .ok c
  stable : ∃ g', g.rebuild = .ok (0, g')

-- ---------------------------------------------------------------------------
-- Nodes and classes
-- ---------------------------------------------------------------------------

theorem opCongruent_iff {a b : Op} : opCongruent a b = true ↔ a = b := by
  unfold opCongruent
  split
  · next x y =>
    cases x
    cases y
    simp
  · exact beq_iff_eq

theorem congruentTo_iff : m.congruentTo m'.op m'.children = true ↔
    m.op = m'.op ∧ m.children = m'.children := by
  simp [ENode.congruentTo, opCongruent_iff]

theorem key_congr (h : m.op = m'.op ∧ m.children = m'.children) :
    ENode.key m = ENode.key m' := by
  rw [ENode.key, ENode.key, h.1, h.2]

theorem Inv.inClass_iff (h : g.Inv) (hi : i < g.nodes.length) :
    g.InClass i k ↔ root g.uf.parent i = k := by
  rw [InClass, h.nodeClass_get hi]
  constructor
  · rintro ⟨cls, hcls, hfind⟩
    cases hcls
    rw [UnionFind.findRo_eq (h.lt_table hi)] at hfind
    exact Except.ok.inj hfind
  · rintro rfl
    exact ⟨i, rfl, UnionFind.findRo_eq (h.lt_table hi)⟩

theorem Inv.root_root (h : g.Inv) (hx : x < g.nodes.length) :
    root g.uf.parent (root g.uf.parent x) = root g.uf.parent x :=
  h.descending.root_root (h.lt_table hx)

/-- Canonical children stay as they are. -/
theorem canonNode_self {uf : UnionFind} (h : ∀ c ∈ m.children, root uf.parent c = c) :
    canonNode uf m = m := by
  rw [canonNode, List.map_congr_left h, List.map_id']

-- ---------------------------------------------------------------------------
-- The second pass
-- ---------------------------------------------------------------------------

/-- After the first `k` nodes of the second pass over `g`. Classes are joined
only where any equivalence that contains the old classes and the pairs of
congruent nodes joins them. -/
structure Merging (g : EGraph) (k : Nat) (r : Rebuild) : Prop where
  inv : r.Inv g.nodes.length
  nodes : r.graph.nodes = g.nodes
  entry : ∀ (key : UInt64) (e : Nat), r.newLookup[key]? = some e →
    ∃ m, g.nodes[e]? = some m ∧ ENode.key m = key
  visited : ∀ i < k, ∀ m : ENode, g.nodes[i]? = some m →
    ∃ e, r.newLookup[ENode.key m]? = some e ∧
      root r.graph.uf.parent e = root r.graph.uf.parent i
  keeps : ∀ x < g.nodes.length, ∀ y < g.nodes.length,
    root g.uf.parent x = root g.uf.parent y →
      root r.graph.uf.parent x = root r.graph.uf.parent y
  least : ∀ E : Nat → Nat → Prop, Equivalence E →
    (∀ x < g.nodes.length, ∀ y < g.nodes.length,
      root g.uf.parent x = root g.uf.parent y → E x y) →
    (∀ (i j : Nat) (m m' : ENode), g.nodes[i]? = some m → g.nodes[j]? = some m' →
      m.congruentTo m'.op m'.children = true → E i j) →
    ∀ x < g.nodes.length, ∀ y < g.nodes.length,
      root r.graph.uf.parent x = root r.graph.uf.parent y → E x y
  quiet : (∀ (i j : Nat) (m m' : ENode), g.nodes[i]? = some m → g.nodes[j]? = some m' →
      m.congruentTo m'.op m'.children = true →
      root g.uf.parent i = root g.uf.parent j) → r.merged = 0

theorem Inv.merging (h : g.Inv) : Merging g 0 ⟨g, ∅, 0⟩ where
  inv := ⟨h, rfl, by simp⟩
  nodes := rfl
  entry := by simp
  visited i hi := absurd hi (Nat.not_lt_zero i)
  keeps _ _ _ _ hxy := hxy
  least _ _ hroot _ := hroot
  quiet _ := rfl

/-- Ids that a join of two classes brings together. -/
theorem eq_or_of_join {a b p q : Nat}
    (h : (if a = max p q then min p q else a) = if b = max p q then min p q else b) :
    a = b ∨ (a = p ∧ b = q) ∨ (a = q ∧ b = p) := by
  rcases Nat.le_total p q with hpq | hpq
  · rw [Nat.max_eq_right hpq, Nat.min_eq_left hpq] at h
    split_ifs at h with ha hb hb
    · exact .inl (ha.trans hb.symm)
    · exact .inr (.inr ⟨ha, h.symm⟩)
    · exact .inr (.inl ⟨h, hb⟩)
    · exact .inl h
  · rw [Nat.max_eq_left hpq, Nat.min_eq_right hpq] at h
    split_ifs at h with ha hb hb
    · exact .inl (ha.trans hb.symm)
    · exact .inr (.inl ⟨ha, h.symm⟩)
    · exact .inr (.inr ⟨h, hb⟩)
    · exact .inl h

theorem Merging.insert (h : Merging g k r) (hm : g.nodes[k]? = some m)
    (hnone : r.newLookup[ENode.key m]? = none) :
    Merging g (k + 1) { r with newLookup := r.newLookup.insert (ENode.key m) k } := by
  have hk : k < g.nodes.length := (List.getElem?_eq_some_iff.mp hm).1
  refine ⟨⟨h.inv.graph, h.inv.length, fun key e he => ?_⟩, h.nodes, fun key e he => ?_,
    fun i hi m' hm' => ?_, h.keeps, h.least, h.quiet⟩
  · simp only [TreeMap.getElem?_insert] at he
    split at he
    · cases he
      exact hk
    · exact h.inv.lookup key e he
  · simp only [TreeMap.getElem?_insert] at he
    split at he
    · next hkey =>
      cases he
      exact ⟨m, hm, Std.LawfulEqOrd.compare_eq_iff_eq.mp hkey⟩
    · exact h.entry key e he
  · simp only [TreeMap.getElem?_insert]
    rcases Nat.lt_succ_iff_lt_or_eq.mp hi with hi | rfl
    · obtain ⟨e, he, hroot⟩ := h.visited i hi m' hm'
      have hne : ENode.key m ≠ ENode.key m' := by
        intro heq
        rw [heq, he] at hnone
        cases hnone
      have hcmp : ¬ compare (ENode.key m) (ENode.key m') = .eq := fun hcmp =>
        hne (Std.LawfulEqOrd.compare_eq_iff_eq.mp hcmp)
      exact ⟨e, by rw [if_neg hcmp, he], hroot⟩
    · obtain rfl := Option.some.inj (hm.symm.trans hm')
      exact ⟨i, by simp, rfl⟩

/-- Merging the classes of the node under the key and of the visited one. -/
theorem Merging.join {e w : Nat} {ex : ENode} (h : Merging g k r) (hm : g.nodes[k]? = some m)
    (he : r.newLookup[ENode.key m]? = some e) (hex : g.nodes[e]? = some ex)
    (hcong : ex.congruentTo m.op m.children = true)
    (hne : root r.graph.uf.parent e ≠ root r.graph.uf.parent k)
    (hmerge : r.graph.merge (root r.graph.uf.parent e) (root r.graph.uf.parent k) =
      .ok (w, g')) :
    Merging g (k + 1) { r with graph := g', merged := r.merged + 1 } := by
  have hk : k < g.nodes.length := (List.getElem?_eq_some_iff.mp hm).1
  have he' : e < g.nodes.length := h.inv.lookup _ _ he
  have hlt : ∀ x < g.nodes.length, x < r.graph.nodes.length := fun x hx =>
    h.inv.length.symm ▸ hx
  obtain ⟨w', g'', hmerge', hinv, hnodes, -, -, hroot⟩ :=
    h.inv.graph.merge (h.inv.graph.root_lt (hlt e he')) (h.inv.graph.root_lt (hlt k hk))
  cases Except.ok.inj (hmerge.symm.trans hmerge')
  rw [h.inv.graph.root_root (hlt e he'), h.inv.graph.root_root (hlt k hk)] at hroot
  have hmono : ∀ x < g.nodes.length, ∀ y < g.nodes.length,
      root r.graph.uf.parent x = root r.graph.uf.parent y →
      root g'.uf.parent x = root g'.uf.parent y := by
    intro x hx y hy hxy
    rw [hroot x (hlt x hx), hroot y (hlt y hy), hxy]
  refine ⟨⟨hinv, (congrArg List.length hnodes).trans h.inv.length, h.inv.lookup⟩,
    hnodes.trans h.nodes, h.entry, fun i hi m' hm' => ?_, fun x hx y hy hxy => ?_,
    fun E hE hold hnew x hx y hy hxy => ?_, fun hquiet => ?_⟩
  · have hi' : i < g.nodes.length := (List.getElem?_eq_some_iff.mp hm').1
    rcases Nat.lt_succ_iff_lt_or_eq.mp hi with hi | rfl
    · obtain ⟨d, hd, hroot⟩ := h.visited i hi m' hm'
      exact ⟨d, hd, hmono d (h.inv.lookup _ _ hd) i hi' hroot⟩
    · obtain rfl := Option.some.inj (hm.symm.trans hm')
      refine ⟨e, he, ?_⟩
      rw [hroot e (hlt e he'), hroot i (hlt i hi')]
      split_ifs <;> omega
  · exact hmono x hx y hy (h.keeps x hx y hy hxy)
  · have hleast := h.least E hE hold hnew
    have hnew := hnew e k ex m hex hm hcong
    rw [hroot x (hlt x hx), hroot y (hlt y hy)] at hxy
    rcases eq_or_of_join hxy with hxy | ⟨hxe, hyk⟩ | ⟨hxk, hye⟩
    · exact hleast x hx y hy hxy
    · exact hE.trans (hleast x hx e he' hxe) (hE.trans hnew (hleast k hk y hy hyk.symm))
    · exact hE.trans (hleast x hx k hk hxk)
        (hE.trans (hE.symm hnew) (hleast e he' y hy hye.symm))
  · exact absurd (h.keeps e he' k hk (hquiet e k ex m hex hm hcong)) hne

theorem Merging.visit (h : Merging g k r) (hk : k < g.nodes.length)
    (hkeys : ∀ m ∈ g.nodes, ∀ m' ∈ g.nodes, ENode.key m = ENode.key m' →
      m.congruentTo m'.op m'.children = true) :
    ∃ r', r.visit k = .ok r' ∧ Merging g (k + 1) r' := by
  obtain ⟨m, hm, hcases⟩ := h.inv.visit_cases hk
  rw [h.nodes] at hm
  rcases hcases with ⟨hnone, hvisit⟩ | ⟨e, ex, he, -, hex, hcases⟩
  · exact ⟨_, hvisit, h.insert hm hnone⟩
  · rw [h.nodes] at hex
    rcases hcases with ⟨hvisit, hsame⟩ | ⟨hcong, hne, w, g', hmerge, hvisit⟩
    · refine ⟨r, hvisit, h.inv, h.nodes, h.entry, fun i hi m' hm' => ?_, h.keeps, h.least,
        h.quiet⟩
      rcases Nat.lt_succ_iff_lt_or_eq.mp hi with hi | rfl
      · exact h.visited i hi m' hm'
      · obtain rfl := Option.some.inj (hm.symm.trans hm')
        obtain ⟨ex', hex', hkey⟩ := h.entry _ e he
        obtain rfl := Option.some.inj (hex.symm.trans hex')
        exact ⟨e, he, hsame (hkeys ex (List.mem_of_getElem? hex) m (List.mem_of_getElem? hm) hkey)⟩
    · exact ⟨_, hvisit, h.join hm he hex hcong hne hmerge⟩

theorem Inv.merging_run (h : g.Inv)
    (hkeys : ∀ m ∈ g.nodes, ∀ m' ∈ g.nodes, ENode.key m = ENode.key m' →
      m.congruentTo m'.op m'.children = true) (hk : k ≤ g.nodes.length) :
    ∃ r, (List.range k).foldlM Rebuild.visit ⟨g, ∅, 0⟩ = .ok r ∧ Merging g k r := by
  induction k with
  | zero => exact ⟨_, rfl, h.merging⟩
  | succ k ih =>
    obtain ⟨r, hr, hmerging⟩ := ih (Nat.le_of_succ_le hk)
    obtain ⟨r', hr', hmerging'⟩ := hmerging.visit hk hkeys
    refine ⟨r', ?_, hmerging'⟩
    rw [List.range_succ, List.foldlM_append, hr]
    simp only [List.foldlM_cons, List.foldlM_nil, hr', bind, Except.bind, pure, Except.pure]

-- ---------------------------------------------------------------------------
-- The graph after it
-- ---------------------------------------------------------------------------

/-- `g'` holds the nodes of `g` with canonical children, in the same classes. -/
structure Canonised (g g' : EGraph) : Prop where
  nodes : g'.nodes = g.nodes.map (canonNode g.uf)
  roots : ∀ x < g.nodes.length, root g'.uf.parent x = root g.uf.parent x

/-- The classes of `g'` are those of `g` joined along links. -/
structure Rebuilt (g : EGraph) (k : Nat) (g' : EGraph) : Prop where
  inv : g'.Inv
  nodes : g'.nodes = g.nodes.map (canonNode g.uf)
  keeps : ∀ x < g.nodes.length, root g'.uf.parent (root g.uf.parent x) = root g'.uf.parent x
  linked : ∀ k l, g.Linked k l → root g'.uf.parent k = root g'.uf.parent l
  joined : ∀ x < g.nodes.length, ∀ y < g.nodes.length,
    root g'.uf.parent x = root g'.uf.parent y →
      g.Linked (root g.uf.parent x) (root g.uf.parent y)
  quiet : (∀ (i j : Nat) (m m' : ENode), g.nodes[i]? = some m → g.nodes[j]? = some m' →
      g.Congruent m m' → root g.uf.parent i = root g.uf.parent j) → k = 0

theorem Inv.meet_iff (h : g.Inv) : g.Meet k l ↔
    ∃ (i j : Nat) (m m' : ENode), g.nodes[i]? = some m ∧ g.nodes[j]? = some m' ∧
      root g.uf.parent i = k ∧ root g.uf.parent j = l ∧ g.Congruent m m' := by
  constructor
  · rintro ⟨i, j, m, m', hi, hj, hk, hl, hcong⟩
    refine ⟨i, j, m, m', hi, hj, ?_, ?_, hcong⟩
    · exact (h.inClass_iff (List.getElem?_eq_some_iff.mp hi).1).mp hk
    · exact (h.inClass_iff (List.getElem?_eq_some_iff.mp hj).1).mp hl
  · rintro ⟨i, j, m, m', hi, hj, hk, hl, hcong⟩
    refine ⟨i, j, m, m', hi, hj, ?_, ?_, hcong⟩
    · exact (h.inClass_iff (List.getElem?_eq_some_iff.mp hi).1).mpr hk
    · exact (h.inClass_iff (List.getElem?_eq_some_iff.mp hj).1).mpr hl

section
variable {c : EGraph}

theorem Canonised.length (hc : g.Canonised c) : c.nodes.length = g.nodes.length := by
  rw [hc.nodes, List.length_map]

theorem Canonised.get (hc : g.Canonised c) (hi : g.nodes[i]? = some m) :
    c.nodes[i]? = some (canonNode g.uf m) := by
  rw [hc.nodes, List.getElem?_map, hi]
  rfl

theorem Canonised.of_get (hc : g.Canonised c) (hi : c.nodes[i]? = some m') :
    ∃ m, g.nodes[i]? = some m ∧ canonNode g.uf m = m' := by
  rwa [hc.nodes, List.getElem?_map, Option.map_eq_some_iff] at hi

/-- Once every node is visited, congruent nodes are in one tree. -/
theorem Merging.root_eq (h : Merging c c.nodes.length r) (hi : c.nodes[i]? = some m)
    (hj : c.nodes[j]? = some m') (hcong : m.congruentTo m'.op m'.children = true) :
    root r.graph.uf.parent i = root r.graph.uf.parent j := by
  obtain ⟨e, he, hroot⟩ := h.visited i (List.getElem?_eq_some_iff.mp hi).1 m hi
  obtain ⟨e', he', hroot'⟩ := h.visited j (List.getElem?_eq_some_iff.mp hj).1 m' hj
  rw [key_congr (congruentTo_iff.mp hcong), he'] at he
  cases he
  exact hroot.symm.trans hroot'

theorem Merging.keeps_root (hm : Merging c k r) (hc : g.Canonised c) (h : g.Inv)
    (hx : x < g.nodes.length) :
    root r.graph.uf.parent (root g.uf.parent x) = root r.graph.uf.parent x := by
  have hup := h.root_lt hx
  refine hm.keeps _ (hc.length.symm ▸ hup) x (hc.length.symm ▸ hx) ?_
  rw [hc.roots _ hup, hc.roots x hx, h.root_root hx]

theorem Merging.root_of_linked (hm : Merging c c.nodes.length r) (hc : g.Canonised c) (h : g.Inv)
    (hl : g.Linked k l) : root r.graph.uf.parent k = root r.graph.uf.parent l := by
  induction hl with
  | rel k l hmeet =>
    obtain ⟨i, j, m, m', hi, hj, rfl, rfl, hcong⟩ := h.meet_iff.mp hmeet
    rw [hm.keeps_root hc h (List.getElem?_eq_some_iff.mp hi).1,
      hm.keeps_root hc h (List.getElem?_eq_some_iff.mp hj).1]
    exact hm.root_eq (hc.get hi) (hc.get hj) hcong
  | refl => rfl
  | symm _ _ _ ih => exact ih.symm
  | trans _ _ _ _ _ ih ih' => exact ih.trans ih'

theorem Merging.linked_of_root (hm : Merging c k r) (hc : g.Canonised c) (h : g.Inv)
    (hx : x < g.nodes.length) (hy : y < g.nodes.length)
    (hxy : root r.graph.uf.parent x = root r.graph.uf.parent y) :
    g.Linked (root g.uf.parent x) (root g.uf.parent y) := by
  refine hm.least (fun x y => g.Linked (root g.uf.parent x) (root g.uf.parent y))
    ⟨fun _ => .refl _, .symm _ _, .trans _ _ _⟩ (fun x hx y hy hxy => ?_)
    (fun i j n n' hi hj hcong => ?_) x (hc.length.symm ▸ hx) y (hc.length.symm ▸ hy) hxy
  · rw [hc.roots x (hc.length ▸ hx), hc.roots y (hc.length ▸ hy)] at hxy
    rw [hxy]
    exact .refl _
  · obtain ⟨m, hm, rfl⟩ := hc.of_get hi
    obtain ⟨m', hm', rfl⟩ := hc.of_get hj
    exact .rel _ _ (h.meet_iff.mpr ⟨i, j, m, m', hm, hm', rfl, rfl, hcong⟩)

end

theorem Inv.rebuilt (h : g.Inv) (hkeys : g.NoCollision) :
    ∃ k g', g.rebuild = .ok (k, g') ∧ Rebuilt g k g' := by
  obtain ⟨uf, hcanon, hsame, hinv⟩ := h.canonNodes
  have hc : g.Canonised { g with nodes := g.nodes.map (canonNode g.uf), uf } :=
    ⟨rfl, fun x hx => hsame.root x (h.lt_table hx)⟩
  obtain ⟨r, hr, hm⟩ := hinv.merging_run (by
    intro m hm m' hm' hkey
    obtain ⟨n, hn, rfl⟩ := List.mem_map.mp hm
    obtain ⟨n', hn', rfl⟩ := List.mem_map.mp hm'
    exact hkeys n hn n' hn' hkey) le_rfl
  obtain ⟨k, g', hrebuild, hinv', -⟩ := h.rebuild
  have heq : g.rebuild = .ok (r.merged, { r.graph with lookup := r.newLookup }) := by
    simp only [EGraph.rebuild, hcanon, hr, Except.mapError, bind, Except.bind, pure, Except.pure]
  cases Except.ok.inj (hrebuild.symm.trans heq)
  refine ⟨_, _, heq, hinv', hm.nodes, fun x hx => hm.keeps_root hc h hx,
    fun k l hl => hm.root_of_linked hc h hl,
    fun x hx y hy hxy => hm.linked_of_root hc h hx hy hxy,
    fun hquiet => hm.quiet fun i j n n' hi hj hcong => ?_⟩
  obtain ⟨m, hm, rfl⟩ := hc.of_get hi
  obtain ⟨m', hm', rfl⟩ := hc.of_get hj
  rw [hc.roots i (List.getElem?_eq_some_iff.mp hm).1,
    hc.roots j (List.getElem?_eq_some_iff.mp hm').1]
  exact hquiet i j m m' hm hm' hcong

theorem Rebuilt.length (hb : Rebuilt g k g') : g'.nodes.length = g.nodes.length := by
  rw [hb.nodes, List.length_map]

/-- The stored children, as classes before the rebuild. -/
theorem Rebuilt.mem_children (hb : Rebuilt g k g') {c : Nat} :
    (∃ m ∈ g'.nodes, c ∈ m.children) ↔
      ∃ m ∈ g.nodes, ∃ d ∈ m.children, root g.uf.parent d = c := by
  simp [hb.nodes, canonNode]

theorem Inv.findRo_child (h : g.Inv) (hm : m ∈ g.nodes) {c : Nat} (hc : c ∈ m.children) :
    g.uf.findRo c = .ok (root g.uf.parent c) :=
  UnionFind.findRo_eq (h.lt_table (h.children m hm c hc))

theorem Rebuilt.childrenLeast_iff (hb : Rebuilt g k g') (h : g.Inv) :
    g.ChildrenLeast ↔ ∀ m ∈ g'.nodes, ∀ c ∈ m.children, root g'.uf.parent c = c := by
  constructor
  · intro hleast m hm c hc
    obtain ⟨n, hn, d, hd, rfl⟩ := hb.mem_children.mp ⟨m, hm, hc⟩
    have hd' := h.children n hn d hd
    have hc' := h.root_lt hd'
    have hlt : root g.uf.parent d < g'.nodes.length := hb.length.symm ▸ hc'
    have hlinked := hb.joined _ (hb.length ▸ hb.inv.root_lt hlt) _ hc' (hb.inv.root_root hlt)
    rw [h.root_root hd'] at hlinked
    have hle := hleast n hn d hd _ _ (h.findRo_child hn hd) (.symm _ _ hlinked)
    exact le_antisymm (hb.inv.descending.root_le _) (hle.trans (h.descending.root_le _))
  · intro hcanon n hn d hd c l hc hl
    cases (h.findRo_child hn hd).symm.trans hc
    obtain ⟨m, hm, hc⟩ := hb.mem_children.mpr ⟨n, hn, d, hd, rfl⟩
    have hroot := hb.linked _ _ hl
    rw [hcanon m hm _ hc] at hroot
    exact hroot.trans_le (hb.inv.descending.root_le l)

/-- With canonical children the keys of the next rebuild are those of this one. -/
theorem Rebuilt.congruent_root (hb : Rebuilt g k g') (h : g.Inv)
    (hcanon : ∀ m ∈ g'.nodes, ∀ c ∈ m.children, root g'.uf.parent c = c)
    (hi : g'.nodes[i]? = some m) (hj : g'.nodes[j]? = some m') (hcong : g'.Congruent m m') :
    root g'.uf.parent i = root g'.uf.parent j := by
  rw [Congruent, canonNode_self (hcanon m (List.mem_of_getElem? hi)),
    canonNode_self (hcanon m' (List.mem_of_getElem? hj))] at hcong
  rw [hb.nodes, List.getElem?_map, Option.map_eq_some_iff] at hi hj
  obtain ⟨n, hn, rfl⟩ := hi
  obtain ⟨n', hn', rfl⟩ := hj
  have hmeet : g.Meet (root g.uf.parent i) (root g.uf.parent j) :=
    h.meet_iff.mpr ⟨i, j, n, n', hn, hn', rfl, rfl, hcong⟩
  have hroot := hb.linked _ _ (.rel _ _ hmeet)
  rwa [hb.keeps i (List.getElem?_eq_some_iff.mp hn).1,
    hb.keeps j (List.getElem?_eq_some_iff.mp hn').1] at hroot

theorem Rebuilt.noCollision (hb : Rebuilt g k g') (hkeys : g.NoCollision)
    (hcanon : ∀ m ∈ g'.nodes, ∀ c ∈ m.children, root g'.uf.parent c = c) : g'.NoCollision := by
  intro m hm m' hm' hkey
  rw [Congruent, canonNode_self (hcanon m hm), canonNode_self (hcanon m' hm')] at *
  rw [hb.nodes] at hm hm'
  obtain ⟨n, hn, rfl⟩ := List.mem_map.mp hm
  obtain ⟨n', hn', rfl⟩ := List.mem_map.mp hm'
  exact hkeys n hn n' hn' hkey

theorem Rebuilt.restored_iff (hb : Rebuilt g k g') (h : g.Inv) (hkeys : g.NoCollision) :
    g'.Restored ↔ g.ChildrenLeast := by
  rw [hb.childrenLeast_iff h]
  constructor
  · intro hr m hm c hc
    have hfind := hr.canonical m hm c hc
    rw [hb.inv.findRo_child hm hc] at hfind
    exact Except.ok.inj hfind
  · intro hcanon
    refine ⟨fun i j m m' hi hj hcong => ?_, fun m hm c hc => ?_, ?_⟩
    · refine ⟨root g'.uf.parent i, ?_, ?_⟩
      · exact (hb.inv.inClass_iff (List.getElem?_eq_some_iff.mp hi).1).mpr rfl
      · exact (hb.inv.inClass_iff (List.getElem?_eq_some_iff.mp hj).1).mpr
          (hb.congruent_root h hcanon hi hj hcong).symm
    · rw [hb.inv.findRo_child hm hc, hcanon m hm c hc]
    · obtain ⟨k', g'', hrebuild, hb'⟩ := hb.inv.rebuilt (hb.noCollision hkeys hcanon)
      obtain rfl := hb'.quiet fun i j m m' hi hj hcong => hb.congruent_root h hcanon hi hj hcong
      exact ⟨g'', hrebuild⟩

namespace Session

variable {s : Session} {budget : Nat}

/-- One rebuild restores congruence exactly where it leaves every child the
least of its class. -/
theorem rebuild_restores_iff (h : Reachable budget s) (hkeys : s.graph.NoCollision) :
    ∃ k g', s.graph.rebuild = .ok (k, g') ∧ (g'.Restored ↔ s.graph.ChildrenLeast) := by
  obtain ⟨k, g', hrebuild, hb⟩ := h.inv.graph.rebuilt hkeys
  exact ⟨k, g', hrebuild, hb.restored_iff h.inv.graph hkeys⟩

/-- Two constants, the negation of each, and the constants merged. -/
def negated : Session :=
  ((constants.step (.add (.unary .neg) [0])).step (.add (.unary .neg) [1])).step (.merge 0 1)

theorem rebuild_restores_iff_negated : ∃ k g', negated.graph.rebuild = .ok (k, g') ∧
    (g'.Restored ↔ negated.graph.ChildrenLeast) := by
  have hconstants : Reachable 4 constants :=
    .step (.step .start (by simp [Call.args])) (by simp [Call.args])
  have hnegated : Reachable 4 negated :=
    .step (.step (.step hconstants (by decide)) (by decide)) (by decide)
  exact rebuild_restores_iff hnegated (by decide)

def onceNegated : Session :=
  ((((start 6).step (.add (.constI64 1) [])).step (.add (.constI64 2) [])).step
    (.add (.unary .neg) [0])).step (.add (.unary .neg) [1])

/-- The negations negated once more. -/
def twiceNegated : Session :=
  ((onceNegated.step (.add (.unary .neg) [2])).step (.add (.unary .neg) [3])).step (.merge 0 1)

/-- After one rebuild the outer negations are congruent and in two classes, the
last one's child is a class merged away, and the next rebuild merges. -/
theorem twiceNegated_not_restored : Reachable 6 twiceNegated ∧ twiceNegated.graph.NoCollision ∧
    ∃ k g', twiceNegated.graph.rebuild = .ok (k, g') ∧
      (∃ m m' : ENode, g'.nodes[4]? = some m ∧ g'.nodes[5]? = some m' ∧ g'.Congruent m m' ∧
        ¬ ∃ k, g'.InClass 4 k ∧ g'.InClass 5 k) ∧
      (∃ m ∈ g'.nodes, ∃ c ∈ m.children, g'.uf.findRo c ≠ .ok c) ∧
      ∃ g'', g'.rebuild = .ok (1, g'') := by
  have honce : Reachable 6 onceNegated :=
    .step (.step (.step (.step .start (by decide)) (by decide))
      (by decide)) (by decide)
  have htwice : Reachable 6 twiceNegated :=
    .step (.step (.step honce (by decide)) (by decide)) (by decide)
  refine ⟨htwice, by decide, ?_⟩
  have hrun : (match twiceNegated.graph.rebuild with
      | .error _ => false
      | .ok (_, g') => decide ((∃ m ∈ g'.nodes[4]?, ∃ m' ∈ g'.nodes[5]?, g'.Congruent m m') ∧
          g'.nodeClass[4]? = some 4 ∧ g'.nodeClass[5]? = some 5 ∧
          g'.uf.findRo 4 ≠ g'.uf.findRo 5 ∧
          (∃ m ∈ g'.nodes, ∃ c ∈ m.children, g'.uf.findRo c ≠ .ok c) ∧
          g'.rebuild.map Prod.fst = .ok 1)) = true := by
    rfl
  split at hrun
  · cases hrun
  · next k g' hrebuild =>
    obtain ⟨⟨m, hm, m', hm', hcong⟩, h4, h5, hne, hchild, hagain⟩ := of_decide_eq_true hrun
    refine ⟨k, g', hrebuild, ⟨m, m', hm, hm', hcong, ?_⟩, hchild, ?_⟩
    · rintro ⟨k, ⟨cls, hcls, hfind⟩, cls', hcls', hfind'⟩
      cases Option.some.inj (h4.symm.trans hcls)
      cases Option.some.inj (h5.symm.trans hcls')
      exact hne (hfind.trans hfind'.symm)
    · obtain ⟨⟨k, g''⟩, hagain, rfl⟩ := map_ok.mp hagain
      exact ⟨g'', hagain⟩

end Session

end EGraph

end Sxla
