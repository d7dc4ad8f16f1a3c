import Sxla.Egraph.Congruence
import Sxla.Egraph.Extract
import Sxla.Library.Checked
import Sxla.Library.TermGraph

/-!
# Extraction is optimal

After a round the entry of a class is the cost of one of its terms, and a
round settles one more rank of classes, whatever cycles merges have made. So
the rounds end with the cheapest cost of every class, and only the sum over
all classes can overflow.
-/

namespace Sxla

open Checked Forest Saturating
open Std (TreeMap)

namespace EGraph

variable {g : EGraph} {k l m c v cost : Nat} {node : ENode}

/-- The finite terms of the graph, weighed by `baseCost`. -/
def terms (g : EGraph) : TermGraph Nat Nat where
  nodes := Finset.range g.nodes.length
  cls i := root g.uf.parent (g.nodeClass.getD i i)
  children i := ((g.nodes[i]?.map (·.children)).getD []).map (root g.uf.parent)
  weight i := (g.nodes[i]?.map (baseCost ·.op)).getD 0

/-- Every stored child is a canonical class id. -/
def CanonicalChildren (g : EGraph) : Prop :=
  ∀ m ∈ g.nodes, ∀ c ∈ m.children, g.uf.findRo c = .ok c

instance (g : EGraph) : Decidable g.CanonicalChildren :=
  inferInstanceAs (Decidable (∀ m ∈ g.nodes, ∀ c ∈ m.children, _ = _))

/-- The chosen node of the first class has the second as a child. -/
def Follows (g : EGraph) (choices : List (Nat × Nat × Nat)) (k l : Nat) : Prop :=
  ∃ m c node, (k, m, c) ∈ choices ∧ g.nodes[m]? = some node ∧ l ∈ node.children

/-- Every class with a finite term has a choice; the recorded costs are the
cheapest ones, each made of those of the children; no way along the choices
comes back to a class. -/
structure Optimal (g : EGraph) (choices : List (Nat × Nat × Nat)) : Prop where
  chosen : ∀ k v, g.terms.Costs k v → ∃ m c, (k, m, c) ∈ choices
  cheapest : ∀ k m c, (k, m, c) ∈ choices → g.terms.Cheapest k c
  recorded : ∀ k m c, (k, m, c) ∈ choices → ∃ node, g.nodes[m]? = some node ∧ g.InClass m k ∧
    ∃ vs, List.Forall₂ (fun child v => ∃ m', (child, m', v) ∈ choices) node.children vs ∧
      c = baseCost node.op + vs.sum
  acyclic : ∀ k, ¬ Relation.TransGen (g.Follows choices) k k

/-- The cheapest costs of all classes, added up; a class without a finite
term counts for nothing. -/
noncomputable def cheapestTotal (g : EGraph) : Nat :=
  (g.classIds.map fun k => sInf {v | g.terms.Costs k v}).sum

-- ---------------------------------------------------------------------------
-- The terms of a graph
-- ---------------------------------------------------------------------------

theorem baseCost_pos (op : Op) : 0 < baseCost op := by
  cases op <;> simp [baseCost, fusionLocalityPenalty]

theorem baseCost_le (op : Op) : baseCost op ≤ u32Max := by
  cases op <;> simp [baseCost, fusionLocalityPenalty, u32Max]

theorem terms_positive : g.terms.Positive := by
  intro i hi
  have hget := List.getElem?_eq_getElem (Finset.mem_range.mp hi)
  simp only [terms, hget, Option.map_some, Option.getD_some]
  exact baseCost_pos _

theorem terms_weight (hn : g.nodes[m]? = some node) : g.terms.weight m = baseCost node.op := by
  simp [terms, hn]

theorem Inv.terms_cls (h : g.Inv) (hm : m < g.nodes.length) :
    g.terms.cls m = root g.uf.parent m := by
  simp [terms, List.getD_eq_getElem?_getD, h.nodeClass_get hm]

theorem mem_terms_nodes (hn : g.nodes[m]? = some node) : m ∈ g.terms.nodes :=
  Finset.mem_range.mpr (List.getElem?_eq_some_iff.mp hn).1

theorem Inv.root_child (h : g.Inv) (hcan : g.CanonicalChildren) (hn : node ∈ g.nodes)
    (hc : c ∈ node.children) : root g.uf.parent c = c := by
  have hfind := hcan node hn c hc
  rw [h.findRo_child hn hc] at hfind
  exact Except.ok.inj hfind

theorem Inv.terms_children (h : g.Inv) (hcan : g.CanonicalChildren)
    (hn : g.nodes[m]? = some node) : g.terms.children m = node.children := by
  simp only [terms, hn, Option.map_some, Option.getD_some]
  rw [List.map_congr_left fun c hc => h.root_child hcan (List.mem_of_getElem? hn) hc, List.map_id']

theorem Inv.mem_classIds (h : g.Inv) :
    k ∈ g.classIds ↔ k < g.nodes.length ∧ root g.uf.parent k = k := by
  rw [classIds, TreeMap.mem_keys, ← TreeMap.isSome_getElem?_iff_mem, h.classes]
  split
  · next hk => simp [hk]
  · next hk => simp [hk]

theorem Inv.classes_getD (h : g.Inv) :
    (g.classes[k]?).getD [] = if k ∈ g.classIds then g.members k else [] := by
  rw [h.classes]
  simp only [h.mem_classIds]
  split <;> rfl

-- ---------------------------------------------------------------------------
-- One node
-- ---------------------------------------------------------------------------

namespace Bests

variable {b b' : Bests g.nodes.length} {i x : Fin g.nodes.length} {ms : List Nat}
  {acc : Option (Nat × Fin g.nodes.length)}

/-- A node without a cost is as at the start; any other has the cost of a
term with it at the top. -/
structure Sound (b : Bests g.nodes.length) : Prop where
  entry : ∀ i : Fin g.nodes.length, b.bestNode[i] = none ∧ b.bestCost[i] = u32Max ∨
    b.bestNode[i] = some i ∧ b.bestCost[i] < u32Max ∧ g.terms.NodeCosts i.val b.bestCost[i]

/-- What the members of a class give. -/
def summary (b : Bests g.nodes.length) (k : Nat) : Option (Nat × Fin g.nodes.length) :=
  (g.classes[k]?.getD []).foldl b.better none

/-- The classes are up to date. -/
def Synced (b : Bests g.nodes.length) : Prop := ∀ k : Nat, b.classBest[k]?.join = b.summary k

theorem foldlM_costOf {cs : List Nat} {start : Nat} :
    cs.foldlM (fun cost c => (b.costOf c).map (addUpTo u32Max cost)) start = some cost ↔
      ∃ vs, List.Forall₂ (fun c v => b.costOf c = some v) cs vs ∧
        cost = vs.foldl (addUpTo u32Max) start := by
  induction cs generalizing start with
  | nil => simp [eq_comm]
  | cons c cs ih =>
    simp only [List.foldlM_cons, Option.bind_eq_bind, Option.bind_eq_some_iff, Option.map_eq_some_iff,
      List.forall₂_cons_left_iff]
    constructor
    · rintro ⟨_, ⟨v, hv, rfl⟩, hrest⟩
      obtain ⟨vs, hvs, hcost⟩ := ih.mp hrest
      exact ⟨v :: vs, ⟨v, vs, hv, hvs, rfl⟩, hcost⟩
    · rintro ⟨_, ⟨v, vs, hv, hvs, rfl⟩, hcost⟩
      exact ⟨_, ⟨v, hv, rfl⟩, ih.mpr ⟨vs, hvs, hcost⟩⟩

theorem nodeCost_eq_some : b.nodeCost node = some cost ↔
    ∃ vs, List.Forall₂ (fun c v => b.costOf c = some v) node.children vs ∧
      cost = min (baseCost node.op + vs.sum) u32Max := by
  rw [nodeCost, foldlM_costOf]
  simp only [foldl_addUpTo (baseCost_le node.op)]

/-- What relaxing one node does: it stays where it has no lower cost. -/
theorem relax_cases (hn : g.nodes[i.val]? = some node) (changed : Bool) :
    relax g (b, changed) i = .ok (b, changed) ∧
        (∀ cost, b.nodeCost node = some cost → b.bestCost[i] ≤ cost) ∨
      ∃ cost, b.nodeCost node = some cost ∧ cost < b.bestCost[i] ∧
        relax g (b, changed) i = .ok ({ b with
          bestCost := b.bestCost.set i cost
          bestNode := b.bestNode.set i (some i) }, true) := by
  unfold relax
  rw [hn]
  cases hc : b.nodeCost node with
  | none => exact .inl ⟨by simp [need, hc, bind, Except.bind, pure, Except.pure], nofun⟩
  | some cost =>
    by_cases hlt : cost < b.bestCost[i]
    · refine .inr ⟨cost, rfl, hlt, ?_⟩
      simp only [need, bind, Except.bind, pure, Except.pure, hc, if_pos hlt]
    · refine .inl ⟨?_, ?_⟩
      · simp only [need, bind, Except.bind, pure, Except.pure, hc, if_neg hlt]
      · rintro _ ⟨⟩
        exact Nat.le_of_not_lt hlt

/-- The node stored for a member is the member itself, where it has a cost. -/
theorem Sound.best_iff (hs : b.Sound) :
    b.bestNode[m]?.join = some x ↔ m = x.val ∧ b.bestCost[x] < u32Max := by
  rw [Option.join_eq_some_iff, Vector.getElem?_eq_some_iff]
  constructor
  · rintro ⟨hm, hx⟩
    rcases hs.entry ⟨m, hm⟩ with ⟨hnone, -⟩ | ⟨hsome, hlt, -⟩
    · exact nomatch hx.symm.trans hnone
    · obtain rfl := Option.some.inj (hx.symm.trans hsome)
      exact ⟨rfl, hlt⟩
  · rintro ⟨rfl, hlt⟩
    rcases hs.entry x with ⟨-, hmax⟩ | ⟨hsome, -, -⟩
    · exact absurd hmax hlt.ne
    · exact ⟨x.isLt, hsome⟩

/-- One member: its cost comes in where it is lower. -/
theorem Sound.better_cases (hs : b.Sound) (acc : Option (Nat × Fin g.nodes.length)) (m : Nat) :
    (b.better acc m = acc ∧ ∀ x : Fin g.nodes.length, m = x.val → b.bestCost[x] < u32Max →
      ∃ c y, acc = some (c, y) ∧ c ≤ b.bestCost[x]) ∨
    ∃ x : Fin g.nodes.length, m = x.val ∧ b.bestCost[x] < u32Max ∧
      b.better acc m = some (b.bestCost[x], x) ∧ ∀ c y, acc = some (c, y) → b.bestCost[x] ≤ c := by
  unfold better
  cases hm : b.bestNode[m]?.join with
  | none =>
    refine .inl ⟨rfl, fun x hx hlt => ?_⟩
    exact nomatch hm.symm.trans (hs.best_iff.mpr ⟨hx, hlt⟩)
  | some chosen =>
    obtain ⟨rfl, hlt⟩ := hs.best_iff.mp hm
    cases acc with
    | none => exact .inr ⟨chosen, rfl, hlt, rfl, nofun⟩
    | some cy =>
      obtain ⟨c, y⟩ := cy
      by_cases hb : b.bestCost[chosen] < c ∨ b.bestCost[chosen] = c ∧ chosen < y
      · refine .inr ⟨chosen, rfl, hlt, if_pos hb, ?_⟩
        rintro _ _ ⟨⟩
        exact hb.elim Nat.le_of_lt fun h => h.1.le
      · refine .inl ⟨if_neg hb, fun x hx _ => ?_⟩
        obtain rfl := Fin.ext hx
        exact ⟨c, y, rfl, Nat.le_of_not_lt fun hlt => hb (.inl hlt)⟩

/-- The fold over members ends with the cost of one of them, -/
theorem Sound.foldl_better_mem (hs : b.Sound) (h : ms.foldl b.better acc = some (c, x)) :
    acc = some (c, x) ∨ x.val ∈ ms ∧ c = b.bestCost[x] ∧ c < u32Max := by
  induction ms generalizing acc with
  | nil => exact .inl h
  | cons m ms ih =>
    rcases ih h with hacc | ⟨hx, hc⟩
    · rcases hs.better_cases acc m with ⟨heq, -⟩ | ⟨y, rfl, hlt, heq, -⟩
      · exact .inl (heq.symm.trans hacc)
      · cases heq.symm.trans hacc
        exact .inr ⟨List.mem_cons_self, rfl, hlt⟩
    · exact .inr ⟨List.mem_cons_of_mem _ hx, hc⟩

/-- not above what it started with, -/
theorem Sound.foldl_better_acc (hs : b.Sound) (ms : List Nat) (h : acc = some (c, x)) :
    ∃ c' y, ms.foldl b.better acc = some (c', y) ∧ c' ≤ c := by
  induction ms generalizing acc c x with
  | nil => exact ⟨c, x, h, le_rfl⟩
  | cons m ms ih =>
    rcases hs.better_cases acc m with ⟨heq, -⟩ | ⟨y, -, -, heq, hle⟩
    · exact ih (heq.trans h)
    · obtain ⟨c', y', hfold, hle'⟩ := ih heq
      exact ⟨c', y', hfold, hle'.trans (hle c x h)⟩

/-- and not above any member. -/
theorem Sound.foldl_better_le (hs : b.Sound) (hx : x.val ∈ ms) (hlt : b.bestCost[x] < u32Max) :
    ∃ c y, ms.foldl b.better acc = some (c, y) ∧ c ≤ b.bestCost[x] := by
  induction ms generalizing acc with
  | nil => exact nomatch hx
  | cons m ms ih =>
    rcases List.mem_cons.mp hx with hm | hx
    · rcases hs.better_cases acc m with ⟨heq, hlow⟩ | ⟨y, hy, -, heq, -⟩
      · obtain ⟨c, y, hacc, hle⟩ := hlow x hm.symm hlt
        obtain ⟨c', y', hfold, hle'⟩ := hs.foldl_better_acc ms (heq.trans hacc)
        exact ⟨c', y', hfold, hle'.trans hle⟩
      · obtain rfl := Fin.ext (hm.trans hy)
        exact hs.foldl_better_acc ms heq
    · exact ih hx

/-- Part of a round: the nodes in `done` are at or below what the classes gave. -/
structure Relaxing (b : Bests g.nodes.length) (done : Fin g.nodes.length → Prop)
    (s : Bests g.nodes.length × Bool) : Prop where
  sound : s.1.Sound
  classBest : s.1.classBest = b.classBest
  low : ∀ i node cost, done i → g.nodes[i.val]? = some node → b.nodeCost node = some cost →
    s.1.bestCost[i] ≤ cost
  same : s.2 = false → s.1 = b

-- ---------------------------------------------------------------------------
-- One class
-- ---------------------------------------------------------------------------

/-- The entry of a class is the lowest cost of its members. -/
theorem Sound.summary_eq_some (hs : b.Sound) (h : g.Inv) (hk : b.summary k = some (c, x)) :
    k ∈ g.classIds ∧ g.terms.cls x.val = k ∧ c < u32Max ∧ g.terms.NodeCosts x.val c := by
  rw [summary, h.classes_getD] at hk
  split at hk
  · next hmem =>
    rcases hs.foldl_better_mem hk with hacc | ⟨hx, rfl, hlow⟩
    · exact nomatch hacc
    · obtain ⟨hlt, hroot⟩ := mem_members.mp hx
      rcases hs.entry x with ⟨-, hmax⟩ | ⟨-, -, hcosts⟩
      · exact absurd hmax hlow.ne
      · exact ⟨hmem, (h.terms_cls hlt).trans hroot, hlow, hcosts⟩
  · exact nomatch hk

theorem Sound.summary_le (hs : b.Sound) (h : g.Inv) (hlt : b.bestCost[x] < u32Max) :
    ∃ c y, b.summary (g.terms.cls x.val) = some (c, y) ∧ c ≤ b.bestCost[x] := by
  have hmem : root g.uf.parent x.val ∈ g.classIds :=
    h.mem_classIds.mpr ⟨h.root_lt x.isLt, h.root_root x.isLt⟩
  rw [summary, h.classes_getD, h.terms_cls x.isLt, if_pos hmem]
  exact hs.foldl_better_le (mem_members.mpr ⟨x.isLt, rfl⟩) hlt

theorem Synced.costOf (hy : b.Synced) : b.costOf k = (b.summary k).map (·.1) := by
  rw [Bests.costOf, hy]

theorem Synced.costOf_eq_some (hy : b.Synced) :
    b.costOf k = some c ↔ ∃ x, b.summary k = some (c, x) := by
  rw [hy.costOf, Option.map_eq_some_iff]
  constructor
  · rintro ⟨⟨_, x⟩, hk, rfl⟩
    exact ⟨x, hk⟩
  · rintro ⟨x, hk⟩
    exact ⟨(c, x), hk, rfl⟩

theorem Sound.costOf (hs : b.Sound) (hy : b.Synced) (h : g.Inv) : g.terms.Sound b.costOf := by
  intro k c hk
  obtain ⟨x, hx⟩ := hy.costOf_eq_some.mp hk
  obtain ⟨-, rfl, -, hcosts⟩ := hs.summary_eq_some h hx
  exact hcosts.costs (mem_terms_nodes (List.getElem?_eq_getElem x.isLt))

-- ---------------------------------------------------------------------------
-- One round
-- ---------------------------------------------------------------------------

theorem Sound.bestCost_le (hs : b.Sound) (i : Fin g.nodes.length) : b.bestCost[i] ≤ u32Max := by
  rcases hs.entry i with ⟨-, hmax⟩ | ⟨-, hlt, -⟩
  · exact hmax.le
  · exact hlt.le

/-- A node costs what its class entries say, where that does not saturate. -/
theorem nodeCosts_of_nodeCost (h : g.Inv) (hcan : g.CanonicalChildren)
    (hb : g.terms.Sound b.costOf) (hn : g.nodes[m]? = some node)
    (hc : b.nodeCost node = some cost) (hlt : cost < u32Max) : g.terms.NodeCosts m cost := by
  obtain ⟨vs, hvs, hcost⟩ := nodeCost_eq_some.mp hc
  refine ⟨vs, ?_, ?_⟩
  · rw [h.terms_children hcan hn]
    exact hvs.imp fun c v hv => hb c v hv
  · rw [terms_weight hn]
    omega

theorem Relaxing.step (h : g.Inv) (hcan : g.CanonicalChildren) (hb : g.terms.Sound b.costOf)
    {done : Fin g.nodes.length → Prop} {s : Bests g.nodes.length × Bool}
    (hr : Relaxing b done s) (i : Fin g.nodes.length) :
    ∃ s', relax g s i = .ok s' ∧ Relaxing b (fun j => done j ∨ j = i) s' := by
  obtain ⟨t, changed⟩ := s
  obtain ⟨node, hn⟩ : ∃ node, g.nodes[i.val]? = some node := ⟨_, List.getElem?_eq_getElem i.isLt⟩
  have hclass : t.classBest = b.classBest := hr.classBest
  have hcost : t.nodeCost node = b.nodeCost node := by
    simp only [nodeCost, Bests.costOf, hclass]
  rcases relax_cases hn changed with ⟨hok, hlow⟩ | ⟨cost, hc, hlt, hok⟩
  · refine ⟨_, hok, hr.sound, hr.classBest, ?_, hr.same⟩
    rintro j node' cost (hj | rfl) hn' hc
    · exact hr.low j node' cost hj hn' hc
    · obtain rfl := Option.some.inj (hn.symm.trans hn')
      exact hlow cost (hcost.trans hc)
  · rw [hcost] at hc
    have hmax : cost < u32Max := hlt.trans_le (hr.sound.bestCost_le i)
    refine ⟨_, hok, ⟨fun j => ?_⟩, hr.classBest, ?_, nofun⟩
    · by_cases hij : i = j
      · subst hij
        refine .inr ⟨by simp, by simpa using hmax, ?_⟩
        simpa using nodeCosts_of_nodeCost h hcan hb hn hc hmax
      · have hne : i.val ≠ j.val := fun he => hij (Fin.ext he)
        simpa [Vector.getElem_set, hne] using hr.sound.entry j
    · rintro j node' cost' hj hn' hc'
      by_cases hij : i = j
      · subst hij
        obtain rfl := Option.some.inj (hn.symm.trans hn')
        cases hc.symm.trans hc'
        simp
      · have hne : i.val ≠ j.val := fun he => hij (Fin.ext he)
        have hdone : done j := hj.resolve_right fun he => hij he.symm
        simpa [Vector.getElem_set, hne] using hr.low j node' cost' hdone hn' hc'

theorem relaxing_run (h : g.Inv) (hcan : g.CanonicalChildren) (hb : g.terms.Sound b.costOf)
    {done : Fin g.nodes.length → Prop} {s : Bests g.nodes.length × Bool}
    (hr : Relaxing b done s) (ids : List (Fin g.nodes.length)) :
    ∃ s', ids.foldlM (relax g) s = .ok s' ∧ Relaxing b (fun j => done j ∨ j ∈ ids) s' := by
  induction ids generalizing done s with
  | nil => exact ⟨s, rfl, by simpa using hr⟩
  | cons i ids ih =>
    obtain ⟨t, hok, ht⟩ := hr.step h hcan hb i
    obtain ⟨s', hrun, hs'⟩ := ih ht
    refine ⟨s', ?_, ?_⟩
    · rw [List.foldlM_cons, hok]
      exact hrun
    · simpa [or_assoc] using hs'

/-- Only the listed classes change. -/
theorem update_run (h : g.Inv) (ids : List Nat) (hids : ∀ k ∈ ids, k ∈ g.classIds)
    (b : Bests g.nodes.length) : ∃ b', ids.foldlM (update g) b = .ok b' ∧
      b'.bestCost = b.bestCost ∧ b'.bestNode = b.bestNode ∧
      ∀ k : Nat, b'.classBest[k]?.join =
        if k ∈ ids then b.summary k else b.classBest[k]?.join := by
  induction ids generalizing b with
  | nil => exact ⟨b, rfl, rfl, rfl, by simp⟩
  | cons i ids ih =>
    obtain ⟨hi, hrest⟩ := List.forall_mem_cons.mp hids
    have hlt : i < max g.nodes.length 1 := lt_max_of_lt_left (h.mem_classIds.mp hi).1
    have hget : g.classes[i]? = some (g.members i) := by
      rw [h.classes, if_pos (h.mem_classIds.mp hi)]
    have hok : update g b i = .ok { b with classBest := b.classBest.set i (b.summary i) hlt } := by
      simp only [update, summary, hget, need, bind, Except.bind, pure, Except.pure, dif_pos hlt,
        Option.getD_some]
    obtain ⟨b', hrun, hcost, hnode, hclass⟩ :=
      ih hrest { b with classBest := b.classBest.set i (b.summary i) hlt }
    refine ⟨b', ?_, hcost, hnode, fun k => ?_⟩
    · rw [List.foldlM_cons, hok]
      exact hrun
    · have hsum : ∀ k, ({ b with classBest := b.classBest.set i (b.summary i) hlt } :
          Bests g.nodes.length).summary k = b.summary k := fun _ => rfl
      rw [hclass, hsum]
      by_cases hik : i = k
      · subst hik
        simp
      · have hki : k ≠ i := fun he => hik he.symm
        simp [hik, hki]

/-- A round from up to date classes relaxes every node, and is the last to
change anything if it changes no node. -/
theorem round_spec (h : g.Inv) (hcan : g.CanonicalChildren) (hs : b.Sound) (hy : b.Synced) :
    ∃ b' changed, b.round g = .ok (b', changed) ∧ b'.Sound ∧ b'.Synced ∧
      g.terms.Relaxes u32Max b.costOf b'.costOf ∧ (changed = false → b'.costOf = b.costOf) := by
  have hstart : Relaxing b (fun _ => False) (b, false) :=
    ⟨hs, rfl, fun _ _ _ hd => hd.elim, fun _ => rfl⟩
  obtain ⟨⟨t, changed⟩, hnodes, ht⟩ :=
    relaxing_run h hcan (hs.costOf hy h) hstart (List.finRange g.nodes.length)
  obtain ⟨b', hclasses, hcost, hnode, hclass⟩ := update_run h g.classIds (fun _ hk => hk) t
  have hts : t.Sound := ht.sound
  have hsummary : ∀ k, b'.summary k = t.summary k := by
    intro k
    have hbetter : b'.better = t.better := by
      funext acc m
      simp only [better, hcost, hnode]
    rw [summary, hbetter]
    rfl
  have hsound : b'.Sound := ⟨fun i => by rw [hcost, hnode]; exact hts.entry i⟩
  have hsynced : b'.Synced := by
    intro k
    rw [hclass, hsummary]
    split
    · rfl
    · next hk =>
      have hnone : ∀ s : Bests g.nodes.length, s.summary k = none := fun s => by
        rw [summary, h.classes_getD, if_neg hk]
        rfl
      rw [show t.classBest = b.classBest from ht.classBest, hy k, hnone, hnone]
  refine ⟨b', changed, ?_, hsound, hsynced, fun i hi vs hvs hlt => ?_, fun hsame => ?_⟩
  · simp only [round, hnodes, hclasses, bind, Except.bind, pure, Except.pure]
  · obtain ⟨x, rfl⟩ : ∃ x : Fin g.nodes.length, x.val = i := ⟨⟨i, Finset.mem_range.mp hi⟩, rfl⟩
    have hn := List.getElem?_eq_getElem x.isLt
    rw [h.terms_children hcan hn] at hvs
    rw [terms_weight hn] at hlt ⊢
    have hnc : b.nodeCost g.nodes[x.val] = some (baseCost g.nodes[x.val].op + vs.sum) :=
      nodeCost_eq_some.mpr ⟨vs, hvs, (Nat.min_eq_left hlt.le).symm⟩
    have hlow : t.bestCost[x] ≤ baseCost g.nodes[x.val].op + vs.sum :=
      ht.low x _ _ (.inr (List.mem_finRange x)) hn hnc
    obtain ⟨c, y, hc, hle⟩ := hts.summary_le h (hlow.trans_lt hlt)
    refine ⟨c, hle.trans hlow, ?_⟩
    rw [hsynced.costOf, hsummary, hc]
    rfl
  · obtain rfl : t = b := ht.same hsame
    funext k
    rw [hsynced.costOf, hy.costOf, hsummary]

theorem rounds_spec (h : g.Inv) (hcan : g.CanonicalChildren) {fuel r : Nat} (hs : b.Sound)
    (hy : b.Synced) (hr : g.terms.Settled u32Max r b.costOf) :
    ∃ b', rounds g fuel b = .ok b' ∧ b'.Sound ∧ b'.Synced ∧
      g.terms.Settled u32Max (r + fuel) b'.costOf := by
  induction fuel generalizing b r with
  | zero => exact ⟨b, rfl, hs, hy, hr⟩
  | succ fuel ih =>
    obtain ⟨t, changed, hok, hts, hty, hrelax, hsame⟩ := round_spec h hcan hs hy
    cases changed with
    | true =>
      have hnext := hr.succ terms_positive (hts.costOf hty h) hrelax
      obtain ⟨b', hrun, hb's, hb'y, hsettled⟩ := ih hts hty hnext
      refine ⟨b', ?_, hb's, hb'y, by rwa [Nat.add_right_comm] at hsettled⟩
      simp only [rounds, hok, bind, Except.bind, ↓reduceIte, hrun]
    | false =>
      -- nothing changed, so further rounds would not either
      rw [← hsame rfl] at hrelax
      refine ⟨t, ?_, hts, hty, .of_fixed terms_positive (hts.costOf hty h) hrelax _⟩
      simp only [rounds, hok, bind, Except.bind, pure, Except.pure, Bool.false_eq_true, ↓reduceIte]

theorem start_sound : (start g.nodes.length).Sound (g := g) :=
  ⟨fun i => .inl ⟨by simp [start], by simp [start]⟩⟩

theorem start_synced : (start g.nodes.length).Synced (g := g) := by
  intro k
  have hclass : (start g.nodes.length).classBest[k]?.join = none := by
    rw [start, Vector.getElem?_replicate]
    split <;> rfl
  rw [hclass]
  cases hk : (start g.nodes.length).summary k with
  | none => rfl
  | some cx =>
    -- a member with a cost would be below the initial cost
    obtain ⟨c, x⟩ := cx
    rcases start_sound.foldl_better_mem hk with hacc | ⟨-, rfl, hlt⟩
    · exact nomatch hacc
    · simp [start] at hlt

theorem mem_choices : (k, m, c) ∈ b.choices g ↔
    k ∈ g.classIds ∧ ∃ x : Fin g.nodes.length, x.val = m ∧ b.classBest[k]?.join = some (c, x) := by
  simp only [choices, List.mem_filterMap, Option.map_eq_some_iff]
  constructor
  · rintro ⟨_, hk, ⟨_, x⟩, hx, heq⟩
    cases heq
    exact ⟨hk, x, rfl, hx⟩
  · rintro ⟨hk, x, rfl, hx⟩
    exact ⟨k, hk, (c, x), hx, rfl⟩

end Bests

-- ---------------------------------------------------------------------------
-- The extraction
-- ---------------------------------------------------------------------------

/-- Tables at the end of the rounds: every class has its cheapest cost. -/
structure Final (g : EGraph) (b : Bests g.nodes.length) : Prop where
  inv : g.Inv
  canonical : g.CanonicalChildren
  sound : b.Sound
  synced : b.Synced
  settled : ∀ k v, g.terms.Cheapest k v → b.costOf k = some v

variable {b : Bests g.nodes.length} {x : Fin g.nodes.length}

theorem Inv.final (h : g.Inv) (hcan : g.CanonicalChildren)
    (hcheap : ∀ k v, g.terms.Cheapest k v → v < u32Max) :
    ∃ b, Bests.rounds g (g.nodes.length + 1) (.start g.nodes.length) = .ok b ∧ g.Final b := by
  obtain ⟨b, hok, hs, hy, hsettled⟩ := @Bests.rounds_spec g _ h hcan (g.nodes.length + 1) _
    Bests.start_sound Bests.start_synced TermGraph.settled_zero
  have hcard : g.terms.nodes.card < 0 + (g.nodes.length + 1) := by simp [terms]
  exact ⟨b, hok, h, hcan, hs, hy, fun k v hk => hsettled.get hcard hk (hcheap k v hk)⟩

theorem Final.mem_choices (hf : g.Final b) : (k, m, c) ∈ b.choices g ↔
    ∃ x : Fin g.nodes.length, x.val = m ∧ b.summary k = some (c, x) := by
  rw [Bests.mem_choices, hf.synced]
  refine ⟨fun hk => hk.2, fun hk => ⟨?_, hk⟩⟩
  obtain ⟨x, -, hx⟩ := hk
  exact (hf.sound.summary_eq_some hf.inv hx).1

theorem Final.cheapest (hf : g.Final b) (hk : b.summary k = some (c, x)) :
    g.terms.Cheapest k c := by
  have hcost : b.costOf k = some c := hf.synced.costOf_eq_some.mpr ⟨x, hk⟩
  obtain ⟨w, -, hw⟩ := (hf.sound.costOf hf.synced hf.inv k c hcost).exists_cheapest
  cases hcost.symm.trans (hf.settled k w hw)
  exact hw

theorem Final.exists_choice (hf : g.Final b) (hk : g.terms.Cheapest k c) :
    ∃ m, (k, m, c) ∈ b.choices g := by
  obtain ⟨x, hx⟩ := hf.synced.costOf_eq_some.mp (hf.settled k c hk)
  exact ⟨x.val, hf.mem_choices.mpr ⟨x, rfl, hx⟩⟩

/-- The chosen node is in its class, over the cheapest terms of its children. -/
theorem Final.chosen_node (hf : g.Final b) (hk : b.summary k = some (c, x)) :
    ∃ node, g.nodes[x.val]? = some node ∧ g.InClass x.val k ∧
      ∃ vs, List.Forall₂ g.terms.Cheapest node.children vs ∧ c = baseCost node.op + vs.sum := by
  have hn := List.getElem?_eq_getElem x.isLt
  have hleast := hf.cheapest hk
  obtain ⟨-, hcls, -, hcosts⟩ := hf.sound.summary_eq_some hf.inv hk
  rw [← hcls] at hleast
  obtain ⟨vs, hvs, hc⟩ := hleast.children (mem_terms_nodes hn) hcosts
  rw [hf.inv.terms_children hf.canonical hn] at hvs
  rw [terms_weight hn] at hc
  refine ⟨_, hn, (hf.inv.inClass_iff x.isLt).mpr ?_, vs, hvs, hc⟩
  rw [← hf.inv.terms_cls x.isLt, hcls]

/-- A child on the way along the choices is cheaper. -/
theorem Final.follows_lt (hf : g.Final b) (hkl : g.Follows (b.choices g) k l) :
    ∃ v w, g.terms.Cheapest k v ∧ g.terms.Cheapest l w ∧ w < v := by
  obtain ⟨m, c, node, hk, hn, hl⟩ := hkl
  obtain ⟨x, rfl, hx⟩ := hf.mem_choices.mp hk
  obtain ⟨node', hn', -, vs, hvs, rfl⟩ := hf.chosen_node hx
  obtain rfl := Option.some.inj (hn.symm.trans hn')
  obtain ⟨w, hle, hw⟩ := TermGraph.exists_le_sum hvs hl
  have hpos := baseCost_pos node.op
  exact ⟨_, w, hf.cheapest hx, hw, by omega⟩

theorem Final.optimal (hf : g.Final b) : g.Optimal (b.choices g) where
  chosen k v hk := by
    obtain ⟨w, -, hw⟩ := hk.exists_cheapest
    obtain ⟨m, hm⟩ := hf.exists_choice hw
    exact ⟨m, w, hm⟩
  cheapest k m c hk := by
    obtain ⟨x, rfl, hx⟩ := hf.mem_choices.mp hk
    exact hf.cheapest hx
  recorded k m c hk := by
    obtain ⟨x, rfl, hx⟩ := hf.mem_choices.mp hk
    obtain ⟨node, hn, hcls, vs, hvs, hc⟩ := hf.chosen_node hx
    exact ⟨node, hn, hcls, vs, hvs.imp fun _ _ hw => hf.exists_choice hw, hc⟩
  acyclic := TermGraph.acyclic fun _ _ => hf.follows_lt

/-- A class without an entry has no term. -/
theorem Final.sInf_eq (hf : g.Final b) (k : Nat) :
    sInf {v | g.terms.Costs k v} = ((b.summary k).map (·.1)).getD 0 := by
  cases hk : b.summary k with
  | some cx => exact (hf.cheapest hk).csInf_eq
  | none =>
    have hempty : {v | g.terms.Costs k v} = ∅ := by
      refine Set.eq_empty_iff_forall_notMem.mpr fun v hv => ?_
      obtain ⟨w, -, hw⟩ := TermGraph.Costs.exists_cheapest hv
      obtain ⟨x, hx⟩ := hf.synced.costOf_eq_some.mp (hf.settled k w hw)
      exact nomatch hk.symm.trans hx
    rw [hempty, Nat.sInf_empty]
    rfl

theorem Final.sum_choices (hf : g.Final b) :
    ((b.choices g).map fun (_, _, c) => c).sum = g.cheapestTotal := by
  unfold cheapestTotal Bests.choices
  induction g.classIds with
  | nil => rfl
  | cons k ks ih =>
    rw [List.filterMap_cons, List.map_cons, List.sum_cons, hf.sInf_eq, hf.synced, ← ih]
    cases b.summary k with
    | none => exact (Nat.zero_add _).symm
    | some cx => rfl

theorem Final.total (hf : g.Final b) : EGraph.total (b.choices g) =
    if g.cheapestTotal ≤ u32Max then some g.cheapestTotal else none := by
  rw [EGraph.total, foldlM_checkedAddUpTo (Nat.zero_le _), hf.sum_choices, Nat.zero_add]

open Session in
/-- Extraction is optimal and well founded exactly where the cheapest costs of
all classes together fit 32 bits. -/
theorem extract_optimal_iff {budget : Nat} {s : Session} (h : Reachable budget s)
    (hcan : s.graph.CanonicalChildren)
    (hcheap : ∀ k v, s.graph.terms.Cheapest k v → v < u32Max) :
    (∃ ex, s.graph.extract = .ok (some ex) ∧ s.graph.Optimal ex.choices) ↔
      s.graph.cheapestTotal ≤ u32Max := by
  obtain ⟨b, hok, hf⟩ := h.inv.graph.final hcan hcheap
  have hextract : s.graph.extract =
      .ok ((total (b.choices s.graph)).map fun totalCost => ⟨b.choices s.graph, totalCost⟩) := by
    simp only [extract, hok, bind, Except.bind, pure, Except.pure]
  rw [hextract, hf.total]
  by_cases hfits : s.graph.cheapestTotal ≤ u32Max
  · rw [if_pos hfits]
    exact iff_of_true ⟨_, rfl, hf.optimal⟩ hfits
  · rw [if_neg hfits]
    exact iff_of_false (by rintro ⟨_, hnone, _⟩; exact nomatch hnone) hfits

open Session in
def oneConstant : Session := (start 1).step (.add (.constI64 1) [])

open Session in
theorem extract_optimal_iff_oneConstant : ∃ ex, oneConstant.graph.extract = .ok (some ex) ∧
    oneConstant.graph.Optimal ex.choices := by
  have hcosts : ∀ k v, oneConstant.graph.terms.Costs k v → v = 1 := by
    intro k v hk
    obtain ⟨i, hi, -, vs, hvs, rfl⟩ := hk.exists_node
    have hlen : oneConstant.graph.nodes.length = 1 := rfl
    obtain rfl : i = 0 := by
      have hlt := Finset.mem_range.mp hi
      omega
    have hleaf : oneConstant.graph.terms.children 0 = [] := rfl
    have hweight : oneConstant.graph.terms.weight 0 = 1 := rfl
    rw [hleaf] at hvs
    cases hvs
    rw [hweight]
    rfl
  have hclasses : oneConstant.graph.classIds = [0] := rfl
  have hcheap : ∀ k v, oneConstant.graph.terms.Cheapest k v → v < u32Max := by
    intro k v hk
    rw [hcosts k v hk.1]
    decide
  have hreach : Reachable 1 oneConstant := .step .start (by simp [Call.args])
  refine (extract_optimal_iff hreach (by decide) hcheap).mpr ?_
  have hsub : {v | oneConstant.graph.terms.Costs 0 v} ⊆ {1} := fun v hv => hcosts 0 v hv
  have hle : sInf {v | oneConstant.graph.terms.Costs 0 v} ≤ 1 := by
    rcases Set.subset_singleton_iff_eq.mp hsub with he | he
    · rw [he, Nat.sInf_empty]
      exact Nat.zero_le 1
    · rw [he, csInf_singleton]
  rw [cheapestTotal, hclasses, List.map_cons, List.map_nil, List.sum_singleton]
  exact hle.trans (by decide)

open Session in
/-- A constant and a chain of additions, each of the last class to itself. -/
def doublings (budget : Nat) : Nat → Session
  | 0 => (start budget).step (.add (.constI64 1) [])
  | k + 1 => (doublings budget k).step (.add (.binary .add) [k, k])

open Session in
theorem doublings_reachable {n : Nat} (h : ∀ k < n, k ∈ (doublings budget k).issued) :
    Reachable budget (doublings budget n) := by
  induction n with
  | zero => exact .step .start (by simp [Call.args])
  | succ n ih =>
    refine .step (ih fun k hk => h k (Nat.lt_succ_of_lt hk)) ?_
    simpa [Call.args] using h n (Nat.lt_succ_self n)

/-- Class `k` of a chain costs `3 * 2 ^ k - 2`. -/
theorem doublings_costs {n : Nat} {g : EGraph} (hlen : g.nodes.length = n + 1)
    (hcls : ∀ i ≤ n, g.terms.cls i = i)
    (hleaf : g.terms.children 0 = [] ∧ g.terms.weight 0 = 1)
    (hnode : ∀ i < n, g.terms.children (i + 1) = [i, i] ∧ g.terms.weight (i + 1) = 2)
    (hk : k ≤ n) : g.terms.Costs k (3 * 2 ^ k - 2) := by
  have hmem : ∀ i ≤ n, i ∈ g.terms.nodes := fun i hi => Finset.mem_range.mpr (by omega)
  induction k with
  | zero =>
    have hcosts : g.terms.NodeCosts 0 (g.terms.weight 0 + ([] : List Nat).sum) :=
      ⟨[], by rw [hleaf.1]; exact .nil, rfl⟩
    have hroot := hcosts.costs (hmem 0 hk)
    rwa [hcls 0 hk, hleaf.2] at hroot
  | succ k ih =>
    have hprev := ih (by omega)
    have hcosts : g.terms.NodeCosts (k + 1)
        (g.terms.weight (k + 1) + [3 * 2 ^ k - 2, 3 * 2 ^ k - 2].sum) :=
      ⟨_, by rw [(hnode k hk).1]; exact .cons hprev (.cons hprev .nil), rfl⟩
    have hroot := hcosts.costs (hmem (k + 1) hk)
    rw [hcls (k + 1) hk, (hnode k hk).2] at hroot
    have hpos : 0 < 2 ^ k := Nat.two_pow_pos k
    have hsum : 2 + [3 * 2 ^ k - 2, 3 * 2 ^ k - 2].sum = 3 * 2 ^ (k + 1) - 2 := by
      simp only [List.sum_cons, List.sum_nil, pow_succ]
      omega
    rwa [hsum] at hroot

open Session in
/-- Thirty additions: every class has its cost, and their sum is no `u32`. -/
theorem doublings_not_extracted : Reachable 31 (doublings 31 30) ∧
    (doublings 31 30).graph.CanonicalChildren ∧
    (∀ k v, (doublings 31 30).graph.terms.Cheapest k v → v < u32Max) ∧
    ¬ ∃ ex, (doublings 31 30).graph.extract = .ok (some ex) ∧
      (doublings 31 30).graph.Optimal ex.choices := by
  refine ⟨doublings_reachable (by decide), by decide +kernel, fun k v hk => ?_, ?_⟩
  · obtain ⟨i, hi, rfl, -⟩ := hk.1.exists_node
    have hlen : (doublings 31 30).graph.nodes.length = 30 + 1 := by decide +kernel
    have hcls : ∀ i ≤ 30, (doublings 31 30).graph.terms.cls i = i := by decide +kernel
    have hle : i ≤ 30 := by
      have hlt := Finset.mem_range.mp hi
      omega
    rw [hcls i hle] at hk
    have hcosts := doublings_costs hlen hcls (by decide +kernel) (by decide +kernel) hle
    have hbound := hk.2 hcosts
    have hpow : 2 ^ i ≤ 2 ^ 30 := Nat.pow_le_pow_right (by decide) hle
    simp only [u32Max]
    omega
  · rintro ⟨ex, hok, -⟩
    have hpanic : (doublings 31 30).graph.extract.toOption = some none := by decide +kernel
    rw [hok] at hpanic
    exact nomatch hpanic

end EGraph

end Sxla
