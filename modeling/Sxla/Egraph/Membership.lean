import Sxla.Egraph.EGraph
import Sxla.Library.Checked

/-!
# Membership in the e-graph

Every e-node is in one member list, that of the canonical class of the class
it was added with. A class is minted with each node, so the member list of a
root is what has that root among the ids of the nodes, and the operations
are checked against this description.
-/

namespace Sxla

open Checked Forest
open Std (TreeMap)

namespace EGraph

variable {g : EGraph} {a b k x : Nat} {op : Op} {children : List Nat}

/-- The nodes below a root, in order. -/
def members (g : EGraph) (k : Nat) : List Nat :=
  (List.range g.nodes.length).filter fun x => root g.uf.parent x = k

structure Inv (g : EGraph) : Prop where
  descending : Descending g.uf.parent
  table : g.uf.parent.length = g.capacity * 2
  bounded : g.nodes.length ≤ g.capacity
  next : g.nextClass = g.nodes.length
  nodeClass : g.nodeClass = List.range g.nodes.length
  children : ∀ n ∈ g.nodes, ∀ c ∈ n.children, c < g.nodes.length
  lookup : ∀ (key : UInt64) (id : Nat), g.lookup[key]? = some id → id < g.nodes.length
  fresh : ∀ x, g.nodes.length ≤ x → root g.uf.parent x = x
  classes : ∀ k : Nat, g.classes[k]? =
    if k < g.nodes.length ∧ root g.uf.parent k = k then some (g.members k) else none

theorem new_inv (budget : Nat) : (new budget).Inv where
  descending := UnionFind.new_descending _
  table := by simp [new, UnionFind.new]
  bounded := Nat.zero_le _
  next := rfl
  nodeClass := rfl
  children := by simp [new]
  lookup := by simp [new]
  fresh x _ := UnionFind.new_root
  classes := by simp [new]

theorem Inv.lt_table (h : g.Inv) (hx : x < g.nodes.length) : x < g.uf.parent.length := by
  have htable := h.table
  have hbounded := h.bounded
  omega

theorem Inv.root_lt (h : g.Inv) (hx : x < g.nodes.length) : root g.uf.parent x < g.nodes.length :=
  (h.descending.root_le x).trans_lt hx

theorem Inv.nodeClass_get (h : g.Inv) (hx : x < g.nodes.length) : g.nodeClass[x]? = some x := by
  rw [h.nodeClass, List.getElem?_range hx]

/-- Updates of the table that keep the roots. -/
theorem Inv.sameRoots {uf : UnionFind} (h : g.Inv) (hs : SameRoots g.uf.parent uf.parent) :
    ({ g with uf } : EGraph).Inv := by
  have hroot : ∀ x, root uf.parent x = root g.uf.parent x := by
    intro x
    by_cases hx : x < g.uf.parent.length
    · exact hs.root x hx
    · have hout := Nat.le_of_not_lt hx
      rw [h.descending.root_of_length_le hout, hs.descending.root_of_length_le]
      exact hs.length.trans_le hout
  have hmembers : ∀ k, ({ g with uf } : EGraph).members k = g.members k := by
    intro k
    simp [members, hroot]
  refine ⟨hs.descending, hs.length.trans h.table, h.bounded, h.next, h.nodeClass, h.children,
    h.lookup, fun x hx => ?_, fun k => ?_⟩
  · rw [hroot]
    exact h.fresh x hx
  · rw [hmembers, hroot]
    exact h.classes k

-- ---------------------------------------------------------------------------
-- Adding a node
-- ---------------------------------------------------------------------------

theorem pushMember_getElem? {classes : TreeMap Nat (List Nat)} {cls id : Nat} :
    (pushMember classes cls id)[k]? =
      if cls = k then some (classes[cls]?.getD [] ++ [id]) else classes[k]? := by
  simp [pushMember, TreeMap.getElem?_insert, TreeMap.getD_eq_getD_getElem?]

theorem Inv.mint (h : g.Inv) (hcap : g.nodes.length < g.capacity)
    (hc : ∀ c ∈ children, c < g.nodes.length) : (g.mint op children).2.Inv := by
  have hfresh := h.fresh g.nodes.length le_rfl
  have hnone : g.classes[g.nodes.length]? = none := by
    rw [h.classes, if_neg (by simp)]
  refine ⟨h.descending, h.table, ?_, ?_, ?_, ?_, ?_, fun x hx => ?_, fun k => ?_⟩
  · simpa [EGraph.mint] using hcap
  · simp [EGraph.mint, h.next]
  · simp [EGraph.mint, h.next, h.nodeClass, List.range_succ]
  · intro n hn c hcn
    simp only [EGraph.mint, List.mem_append, List.mem_singleton, List.length_append,
      List.length_singleton] at hn ⊢
    rcases hn with hn | rfl
    · exact Nat.lt_succ_of_lt (h.children n hn c hcn)
    · exact Nat.lt_succ_of_lt (hc c hcn)
  · intro key id hid
    simp only [EGraph.mint, TreeMap.getElem?_insert, List.length_append,
      List.length_singleton] at hid ⊢
    split at hid
    · cases hid
      omega
    · exact Nat.lt_succ_of_lt (h.lookup key id hid)
  · simp only [EGraph.mint, List.length_append, List.length_singleton] at hx ⊢
    exact h.fresh x (by omega)
  · have hold : ∀ x < g.nodes.length, root g.uf.parent x ≠ g.nodes.length := fun x hx =>
      (h.root_lt hx).ne
    simp only [EGraph.mint, pushMember_getElem?, h.next, hnone, Option.getD_none, List.nil_append,
      List.length_append, List.length_singleton, members, List.range_succ, List.filter_append]
    by_cases hk : g.nodes.length = k
    · subst hk
      have hempty : (List.range g.nodes.length).filter
          (fun x => root g.uf.parent x = g.nodes.length) = [] := by
        rw [List.filter_eq_nil_iff]
        intro x hx
        simpa using hold x (List.mem_range.mp hx)
      simp [hfresh, hempty]
    · have hlast : [g.nodes.length].filter (fun x => root g.uf.parent x = k) = [] := by
        simp [hfresh, hk]
      have hlt : k < g.nodes.length + 1 ↔ k < g.nodes.length := by omega
      simp only [if_neg hk, h.classes, hlast, List.append_nil, hlt]
      rfl

/-- What `add` does: it fails on a full graph or too many children, finds the
class of a congruent node, or mints one. -/
theorem Inv.add_cases (h : g.Inv) (hc : ∀ c ∈ children, c < g.nodes.length) :
    (∃ e, g.add op children = .error e ∧ (e = .full ∨ e = .tooManyChildren)) ∨
      (∃ x m, g.nodes[x]? = some m ∧ m.congruentTo op children = true ∧
        g.add op children = .ok (root g.uf.parent x, g)) ∨
      g.add op children = .ok (g.mint op children) ∧ (g.mint op children).2.Inv := by
  unfold add
  by_cases hfull : g.nodes.length ≥ g.capacity
  · exact .inl ⟨.full, if_pos hfull, .inl rfl⟩
  by_cases hmany : children.length > 4
  · exact .inl ⟨.tooManyChildren, by rw [if_neg hfull, if_pos hmany], .inr rfl⟩
  have hmint := @Inv.mint g op children h (by omega) hc
  rw [if_neg hfull, if_neg hmany]
  cases hl : g.lookup[key op children]? with
  | none => exact .inr (.inr ⟨rfl, hmint⟩)
  | some existing =>
    have hlt := h.lookup _ _ hl
    have hcls := h.nodeClass_get hlt
    have hfind := UnionFind.findRo_eq (h.lt_table hlt)
    simp only [List.getElem?_eq_getElem hlt]
    by_cases hcong : g.nodes[existing].congruentTo op children = true
    · exact .inr (.inl ⟨existing, _, List.getElem?_eq_getElem hlt, hcong, by
        simp [need, hcong, hcls, hfind, Except.mapError, bind, Except.bind, pure, Except.pure]⟩)
    · exact .inr (.inr ⟨by
        simp [need, hcong, bind, Except.bind, pure, Except.pure], hmint⟩)

-- ---------------------------------------------------------------------------
-- Merging
-- ---------------------------------------------------------------------------

theorem moveMembers_getElem? {classes : TreeMap Nat (List Nat)} {loser winner : Nat}
    {ms : List Nat} (hl : classes[loser]? = some ms) :
    (moveMembers classes loser winner)[k]? =
      if winner = k then some ((((if loser = winner then none else
        classes[winner]?).getD [] ++ ms).insertionSort (· ≤ ·)))
      else if loser = k then none else classes[k]? := by
  unfold moveMembers
  rw [hl]
  simp [TreeMap.getElem?_insert, TreeMap.getD_eq_getD_getElem?, TreeMap.getElem?_erase]

/-- Sorting brings a list into the only sorted order of its members. -/
theorem insertionSort_eq {l m : List Nat} (hp : l.Perm m) (hm : m.Pairwise (· ≤ ·)) :
    l.insertionSort (· ≤ ·) = m := by
  have hsorted := List.pairwise_insertionSort (· ≤ ·) l
  exact List.Perm.eq_of_pairwise (fun a b _ _ hab hba => le_antisymm hab hba) hsorted hm
    ((List.perm_insertionSort _ l).trans hp)

theorem members_pairwise : (g.members k).Pairwise (· < ·) :=
  List.pairwise_lt_range.filter _

theorem mem_members : x ∈ g.members k ↔ x < g.nodes.length ∧ root g.uf.parent x = k := by
  simp [members]

/-- The members of two roots, joined below the lower one. -/
theorem joined_perm {g' : EGraph} {lo hi : Nat} (hnodes : g'.nodes = g.nodes)
    (hroot : ∀ x < g.nodes.length, root g'.uf.parent x =
      if root g.uf.parent x = hi then lo else root g.uf.parent x) :
    (((if hi = lo then none else some (g.members lo)).getD []) ++ g.members hi).Perm
      (g'.members lo) := by
  have hmem : ∀ x, x ∈ g'.members lo ↔ x ∈ g.members lo ∨ x ∈ g.members hi := by
    intro x
    simp only [mem_members, hnodes]
    constructor
    · rintro ⟨hx, heq⟩
      rw [hroot x hx] at heq
      split at heq
      · next hhi => exact .inr ⟨hx, hhi⟩
      · exact .inl ⟨hx, heq⟩
    · rintro (⟨hx, heq⟩ | ⟨hx, heq⟩)
      · refine ⟨hx, ?_⟩
        rw [hroot x hx, heq]
        split <;> rfl
      · refine ⟨hx, ?_⟩
        rw [hroot x hx, if_pos heq]
  have hnodup : (g'.members lo).Nodup := members_pairwise.nodup
  by_cases hlohi : hi = lo
  · subst hlohi
    simp only [↓reduceIte, Option.getD_none, List.nil_append]
    exact (List.perm_ext_iff_of_nodup members_pairwise.nodup hnodup).mpr fun x => by
      rw [hmem, or_self]
  · simp only [if_neg hlohi, Option.getD_some]
    refine (List.perm_ext_iff_of_nodup ?_ hnodup).mpr fun x => by rw [hmem, List.mem_append]
    refine List.nodup_append.mpr ⟨members_pairwise.nodup, members_pairwise.nodup, ?_⟩
    intro x hx y hy hxy
    subst hxy
    exact hlohi ((mem_members.mp hy).2.symm.trans (mem_members.mp hx).2)

/-- Joining two trees and their member lists. -/
theorem Inv.join {uf : UnionFind} {lo hi : Nat} (h : g.Inv) (hd : Descending uf.parent)
    (hlen : uf.parent.length = g.uf.parent.length)
    (hlo : lo < g.nodes.length ∧ root g.uf.parent lo = lo)
    (hhi : hi < g.nodes.length ∧ root g.uf.parent hi = hi)
    (hroot : ∀ x < g.uf.parent.length,
      root uf.parent x = if root g.uf.parent x = hi then lo else root g.uf.parent x) :
    ({ g with uf, classes := moveMembers g.classes hi lo } : EGraph).Inv := by
  have hbelow : ∀ x < g.nodes.length,
      root uf.parent x = if root g.uf.parent x = hi then lo else root g.uf.parent x :=
    fun x hx => hroot x (h.lt_table hx)
  refine ⟨hd, hlen.trans h.table, h.bounded, h.next, h.nodeClass, h.children, h.lookup,
    fun x hx => ?_, fun k => ?_⟩
  · by_cases htable : x < g.uf.parent.length
    · have hxhi : x ≠ hi := (hhi.1.trans_le hx).ne'
      rw [hroot x htable, h.fresh x hx, if_neg hxhi]
    · refine hd.root_of_length_le ?_
      rw [hlen]
      exact Nat.le_of_not_lt htable
  · have hmoved : g.classes[hi]? = some (g.members hi) := by rw [h.classes, if_pos hhi]
    have hkept : g.classes[lo]? = some (g.members lo) := by rw [h.classes, if_pos hlo]
    rw [moveMembers_getElem? hmoved, hkept]
    by_cases hklo : lo = k
    · subst hklo
      have hself : root uf.parent lo = lo := by
        rw [hbelow lo hlo.1, hlo.2]
        split <;> rfl
      have hperm := @joined_perm g { g with uf, classes := moveMembers g.classes hi lo } lo hi rfl
        hbelow
      have hsorted := insertionSort_eq hperm (members_pairwise.imp Nat.le_of_lt)
      simp only [↓reduceIte, hsorted, hself, hlo.1, and_self]
    · rw [if_neg hklo]
      by_cases hkhi : hi = k
      · subst hkhi
        rw [if_pos rfl, if_neg]
        rintro ⟨_, hself⟩
        rw [hbelow hi hhi.1, hhi.2, if_pos rfl] at hself
        exact hklo hself
      · have hsame : ∀ x < g.nodes.length, root uf.parent x = k ↔ root g.uf.parent x = k := by
          intro x hx
          rw [hbelow x hx]
          split
          · next hx => simp [hx, hklo, hkhi]
          · rfl
        have hmembers : ({ g with uf, classes := moveMembers g.classes hi lo } : EGraph).members k =
            g.members k :=
          List.filter_congr fun x hx => by simp [hsame x (List.mem_range.mp hx)]
        have hcond : k < g.nodes.length ∧ root uf.parent k = k ↔
            k < g.nodes.length ∧ root g.uf.parent k = k :=
          and_congr_right fun hk => hsame k hk
        rw [if_neg hkhi, h.classes, hmembers]
        simp only [hcond]

theorem Inv.merge (h : g.Inv) (ha : a < g.nodes.length) (hb : b < g.nodes.length) :
    ∃ w g', g.merge a b = .ok (w, g') ∧ g'.Inv ∧ g'.nodes = g.nodes ∧ w < g.nodes.length ∧
      w = min (root g.uf.parent a) (root g.uf.parent b) ∧
      ∀ x < g.nodes.length, root g'.uf.parent x =
        if root g.uf.parent x = max (root g.uf.parent a) (root g.uf.parent b)
          then min (root g.uf.parent a) (root g.uf.parent b) else root g.uf.parent x := by
  obtain ⟨u, hu, hsu⟩ := UnionFind.find_eq h.descending (h.lt_table ha)
  obtain ⟨v, hv, hsv⟩ := UnionFind.find_eq hsu.descending (hsu.length.symm ▸ h.lt_table hb)
  rw [hsu.root b (h.lt_table hb)] at hv
  have hsame := hsu.trans hsv
  have hca : root g.uf.parent a < g.nodes.length ∧
      root g.uf.parent (root g.uf.parent a) = root g.uf.parent a :=
    ⟨h.root_lt ha, h.descending.root_root (h.lt_table ha)⟩
  have hcb : root g.uf.parent b < g.nodes.length ∧
      root g.uf.parent (root g.uf.parent b) = root g.uf.parent b :=
    ⟨h.root_lt hb, h.descending.root_root (h.lt_table hb)⟩
  generalize root g.uf.parent a = ca at *
  generalize root g.uf.parent b = cb at *
  have hentry : ∀ x : Nat, x < g.nodes.length ∧ root g.uf.parent x = x →
      v.parent[x]? = some x := by
    rintro x ⟨hx, hroot⟩
    have hget := hsame.descending.getElem?_root (hsame.length.symm ▸ h.lt_table hx)
    rwa [hsame.root x (h.lt_table hx), hroot] at hget
  obtain ⟨w, hw, hdesc, hlen, hroots⟩ :=
    UnionFind.union_eq hsame.descending (hentry ca hca) (hentry cb hcb)
  have hroot : ∀ x < g.uf.parent.length, root w.parent x =
      if root g.uf.parent x = max ca cb then min ca cb else root g.uf.parent x := by
    intro x hx
    rw [hroots x (hsame.length.symm ▸ hx), hsame.root x hx]
  have hlo : min ca cb < g.nodes.length ∧ root g.uf.parent (min ca cb) = min ca cb := by
    rcases Nat.le_total ca cb with hle | hle
    · rwa [Nat.min_eq_left hle]
    · rwa [Nat.min_eq_right hle]
  have hhi : max ca cb < g.nodes.length ∧ root g.uf.parent (max ca cb) = max ca cb := by
    rcases Nat.le_total ca cb with hle | hle
    · rwa [Nat.max_eq_right hle]
    · rwa [Nat.max_eq_left hle]
  have hloser : (if min ca cb = ca then cb else ca) = max ca cb := by
    split <;> omega
  refine ⟨min ca cb, _, ?_, h.join hdesc (hlen.trans hsame.length) hlo hhi hroot, rfl, hlo.1, rfl,
    fun x hx => hroot x (h.lt_table hx)⟩
  simp only [EGraph.merge, hu, hv, hw, hloser, Except.mapError, bind, Except.bind, pure, Except.pure]

-- ---------------------------------------------------------------------------
-- Rebuilding
-- ---------------------------------------------------------------------------

theorem canonChildren_eq {uf : UnionFind} {cs : List Nat} (h : Descending uf.parent)
    (hcs : ∀ c ∈ cs, c < uf.parent.length) :
    ∃ uf', canonChildren uf cs = .ok (cs.map (root uf.parent), uf') ∧
      SameRoots uf.parent uf'.parent := by
  induction cs generalizing uf with
  | nil => exact ⟨uf, rfl, .refl h⟩
  | cons c cs ih =>
    obtain ⟨hc, hcs⟩ := List.forall_mem_cons.mp hcs
    obtain ⟨u, hu, hsu⟩ := UnionFind.find_eq h hc
    obtain ⟨v, hv, hsv⟩ := ih hsu.descending fun d hd => hsu.length.symm ▸ hcs d hd
    have hmap : cs.map (root u.parent) = cs.map (root uf.parent) :=
      List.map_congr_left fun d hd => hsu.root d (hcs d hd)
    refine ⟨v, ?_, hsu.trans hsv⟩
    simp [canonChildren, hu, hv, hmap, bind, Except.bind, pure, Except.pure]

/-- A node with the canonical classes of its children. -/
def canonNode (uf : UnionFind) (n : ENode) : ENode :=
  { n with children := n.children.map (root uf.parent) }

theorem canonNodes_eq {uf : UnionFind} {ns : List ENode} (h : Descending uf.parent)
    (hns : ∀ m ∈ ns, ∀ c ∈ m.children, c < uf.parent.length) :
    ∃ uf', canonNodes uf ns = .ok (ns.map (canonNode uf), uf') ∧
      SameRoots uf.parent uf'.parent := by
  induction ns generalizing uf with
  | nil => exact ⟨uf, rfl, .refl h⟩
  | cons m ns ih =>
    obtain ⟨hm, hns⟩ := List.forall_mem_cons.mp hns
    obtain ⟨u, hu, hsu⟩ := canonChildren_eq h hm
    obtain ⟨v, hv, hsv⟩ := ih hsu.descending fun k hk c hc => hsu.length.symm ▸ hns k hk c hc
    have hmap : ns.map (canonNode u) = ns.map (canonNode uf) := by
      refine List.map_congr_left fun k hk => ?_
      rw [canonNode, canonNode]
      congr 1
      exact List.map_congr_left fun c hc => hsu.root c (hns k hk c hc)
    refine ⟨v, ?_, hsu.trans hsv⟩
    simp [canonNodes, canonNode, hu, hv, hmap, bind, Except.bind, pure, Except.pure]

/-- The first pass of `rebuild`. -/
theorem Inv.canonNodes (h : g.Inv) :
    ∃ uf, EGraph.canonNodes g.uf g.nodes = .ok (g.nodes.map (canonNode g.uf), uf) ∧
      SameRoots g.uf.parent uf.parent ∧
      ({ g with nodes := g.nodes.map (canonNode g.uf), uf } : EGraph).Inv := by
  obtain ⟨uf, hcanon, hsame⟩ :=
    canonNodes_eq h.descending fun m hm c hc => h.lt_table (h.children m hm c hc)
  have hlen : (g.nodes.map (canonNode g.uf)).length = g.nodes.length := List.length_map _
  have hsr := h.sameRoots hsame
  refine ⟨uf, hcanon, hsame, hsr.descending, hsr.table, hlen.trans_le h.bounded,
    h.next.trans hlen.symm, h.nodeClass.trans (congrArg List.range hlen.symm), fun n hn c hc => ?_,
    fun key id hid => ?_, fun x hx => hsr.fresh x (hlen.symm.trans_le hx), fun k => ?_⟩
  · obtain ⟨m, hm, rfl⟩ := List.mem_map.mp hn
    obtain ⟨d, hd, rfl⟩ := List.mem_map.mp hc
    exact (h.root_lt (h.children m hm d hd)).trans_eq hlen.symm
  · exact (h.lookup key id hid).trans_eq hlen.symm
  · simpa [members, hlen] using hsr.classes k

/-- What the second pass keeps. -/
structure Rebuild.Inv (n : Nat) (r : Rebuild) : Prop where
  graph : r.graph.Inv
  length : r.graph.nodes.length = n
  lookup : ∀ (key : UInt64) (id : Nat), r.newLookup[key]? = some id → id < n

/-- One node of the second pass: a new entry, nothing to do, or a merge. -/
theorem Rebuild.Inv.visit_cases {n i : Nat} {r : Rebuild} (h : r.Inv n) (hi : i < n) :
    ∃ m, r.graph.nodes[i]? = some m ∧
      ((r.newLookup[key m.op m.children]? = none ∧
        r.visit i = .ok { r with newLookup := r.newLookup.insert (key m.op m.children) i }) ∨
      ∃ e ex, r.newLookup[key m.op m.children]? = some e ∧ e < n ∧ r.graph.nodes[e]? = some ex ∧
        ((r.visit i = .ok r ∧ (ex.congruentTo m.op m.children = true →
            root r.graph.uf.parent e = root r.graph.uf.parent i)) ∨
          ex.congruentTo m.op m.children = true ∧
            root r.graph.uf.parent e ≠ root r.graph.uf.parent i ∧
            ∃ w g', r.graph.merge (root r.graph.uf.parent e) (root r.graph.uf.parent i) =
              .ok (w, g') ∧ r.visit i = .ok { r with graph := g', merged := r.merged + 1 })) := by
  have hget : ∀ j < n, ∃ m, r.graph.nodes[j]? = some m := by
    intro j hj
    exact ⟨_, List.getElem?_eq_getElem (h.length.symm ▸ hj)⟩
  have hfind : ∀ j < n, r.graph.uf.findRo j = .ok (root r.graph.uf.parent j) := by
    intro j hj
    exact UnionFind.findRo_eq (h.graph.lt_table (h.length.symm ▸ hj))
  have hclass : ∀ j < n, r.graph.nodeClass[j]? = some j := by
    intro j hj
    exact h.graph.nodeClass_get (h.length.symm ▸ hj)
  obtain ⟨node, hnode⟩ := hget i hi
  refine ⟨node, hnode, ?_⟩
  unfold Rebuild.visit
  simp only [hnode, need, bind, Except.bind]
  cases hl : r.newLookup[key node.op node.children]? with
  | none => exact .inl ⟨rfl, rfl⟩
  | some existing =>
    have hlt := h.lookup _ _ hl
    obtain ⟨ex, hex⟩ := hget existing hlt
    refine .inr ⟨existing, ex, rfl, hlt, hex, ?_⟩
    simp only [hex]
    split
    · next hcong =>
      simp only [hclass existing hlt, hclass i hi, hfind existing hlt, hfind i hi, Except.mapError]
      split
      · next heq => exact .inl ⟨rfl, fun _ => heq⟩
      · next hne =>
        have hroot : ∀ j < n, root r.graph.uf.parent j < r.graph.nodes.length := by
          intro j hj
          exact h.graph.root_lt (h.length.symm ▸ hj)
        obtain ⟨w, g', hmerge, -⟩ := h.graph.merge (hroot existing hlt) (hroot i hi)
        exact .inr ⟨hcong, hne, w, g', hmerge, by rw [hmerge]; rfl⟩
    · next hcong => exact .inl ⟨rfl, fun h => absurd h hcong⟩

theorem Rebuild.Inv.visit {n i : Nat} {r : Rebuild} (h : r.Inv n) (hi : i < n) :
    ∃ r', r.visit i = .ok r' ∧ r'.Inv n := by
  obtain ⟨m, hm, ⟨-, hvisit⟩ | ⟨e, ex, -, hlt, -, ⟨hvisit, -⟩ | ⟨-, -, w, g', hmerge, hvisit⟩⟩⟩ :=
    h.visit_cases hi
  · refine ⟨_, hvisit, h.graph, h.length, fun key id hid => ?_⟩
    simp only [TreeMap.getElem?_insert] at hid
    split at hid
    · cases hid
      exact hi
    · exact h.lookup key id hid
  · exact ⟨r, hvisit, h⟩
  · have hroot : ∀ j < n, root r.graph.uf.parent j < r.graph.nodes.length := by
      intro j hj
      exact h.graph.root_lt (h.length.symm ▸ hj)
    obtain ⟨w', g'', hmerge', hinv, hsame, -⟩ := h.graph.merge (hroot e hlt) (hroot i hi)
    cases Except.ok.inj (hmerge.symm.trans hmerge')
    exact ⟨_, hvisit, hinv, (congrArg List.length hsame).trans h.length, h.lookup⟩

theorem Inv.rebuild (h : g.Inv) :
    ∃ m g', g.rebuild = .ok (m, g') ∧ g'.Inv ∧ g'.nodes.length = g.nodes.length := by
  obtain ⟨uf, hcanon, -, hinv⟩ := h.canonNodes
  have hlen : (g.nodes.map (canonNode g.uf)).length = g.nodes.length := List.length_map _
  generalize g.nodes.map (canonNode g.uf) = ns at *
  obtain ⟨r, hr, hrinv⟩ := @foldlM_isOk _ _ _ Rebuild.visit (Rebuild.Inv g.nodes.length)
    (List.range ns.length) ⟨{ g with nodes := ns, uf }, ∅, 0⟩ ⟨hinv, hlen, by simp⟩
    fun r i hi h => h.visit (hlen ▸ List.mem_range.mp hi)
  refine ⟨r.merged, { r.graph with lookup := r.newLookup }, ?_, ?_, hrinv.length⟩
  · simp only [EGraph.rebuild, hcanon, hr, Except.mapError, bind, Except.bind, pure, Except.pure]
  · have hg := hrinv.graph
    refine ⟨hg.descending, hg.table, hg.bounded, hg.next, hg.nodeClass, hg.children,
      fun key id hid => ?_, hg.fresh, hg.classes⟩
    exact hrinv.length.symm ▸ hrinv.lookup key id hid

-- ---------------------------------------------------------------------------
-- Sessions
-- ---------------------------------------------------------------------------

inductive Call where
  | add (op : Op) (children : List Nat)
  | merge (a b : Nat)
  | rebuild
  | canon (cls : Nat)

/-- The class arguments of a call. -/
def Call.args : Call → List Nat
  | .add _ children => children
  | .merge a b => [a, b]
  | .rebuild => []
  | .canon cls => [cls]

/-- The class a call returns, if it returns one, and the graph after it. -/
def Call.run (g : EGraph) : Call → Except EgraphError (Option Nat × EGraph)
  | .add op children => (g.add op children).map fun (c, g) => (some c, g)
  | .merge a b => (g.merge a b).map fun (c, g) => (some c, g)
  | .rebuild => g.rebuild.map fun (_, g) => (none, g)
  | .canon cls => (g.canon cls).map fun (c, g) => (some c, g)

/-- A graph, the classes its calls have returned, and the class each of its
nodes was added with. -/
structure Session where
  graph : EGraph
  issued : List Nat
  added : List Nat

namespace Session

def start (budget : Nat) : Session := ⟨.new budget, [], []⟩

/-- A call that fails leaves the graph alone. -/
def step (s : Session) (call : Call) : Session :=
  match call.run s.graph with
  | .error _ => s
  | .ok (returned, g) =>
    { graph := g
      issued := s.issued ++ returned.toList
      added :=
        if g.nodes.length = s.graph.nodes.length then s.added
        else s.added ++ returned.toList }

/-- Calls whose class arguments were returned by earlier ones. -/
inductive Reachable (budget : Nat) : Session → Prop
  | start : Reachable budget (start budget)
  | step {s : Session} {call : Call} : Reachable budget s → (∀ c ∈ call.args, c ∈ s.issued) →
      Reachable budget (s.step call)

/-- The keys of the class map are the roots of the issued classes; a node is
once in the member list of the canonical class of the class it was added
with, and in no other list; lists are sorted and hold nodes only. -/
structure Membership (s : Session) : Prop where
  keys : ∀ k, k ∈ s.graph.classes ↔ ∃ c ∈ s.issued, s.graph.uf.findRo c = .ok k
  nodes : s.added.length = s.graph.nodes.length
  member : ∀ (id c : Nat), s.added[id]? = some c → ∃ k ms, s.graph.uf.findRo c = .ok k ∧
    s.graph.classes[k]? = some ms ∧ ms.count id = 1 ∧
    ∀ (k' : Nat) (ms' : List Nat), s.graph.classes[k']? = some ms' → id ∈ ms' → k' = k
  known : ∀ (k : Nat) (ms : List Nat), s.graph.classes[k]? = some ms →
    ∀ id ∈ ms, id < s.graph.nodes.length
  sorted : ∀ (k : Nat) (ms : List Nat), s.graph.classes[k]? = some ms → ms.Pairwise (· ≤ ·)

/-- Everything issued is minted and the other way round. -/
structure Inv (s : Session) : Prop where
  graph : s.graph.Inv
  issued : ∀ c, c ∈ s.issued ↔ c < s.graph.nodes.length
  added : s.added = List.range s.graph.nodes.length

variable {s : Session} {budget : Nat} {call : Call}

theorem start_inv : (start budget).Inv := ⟨new_inv budget, by simp [start, new], rfl⟩

/-- A call that keeps the nodes and returns an old class or none. -/
theorem Inv.keep {returned : Option Nat} {g : EGraph} (h : s.Inv)
    (hrun : call.run s.graph = .ok (returned, g)) (hg : g.Inv)
    (hlen : g.nodes.length = s.graph.nodes.length)
    (hold : ∀ c ∈ returned, c < s.graph.nodes.length) : (s.step call).Inv := by
  unfold Session.step
  rw [hrun]
  refine ⟨hg, fun c => ?_, ?_⟩
  · simp only [List.mem_append, Option.mem_toList, h.issued, hlen]
    exact ⟨fun hc => hc.elim id (hold c), .inl⟩
  · simp only [hlen, ↓reduceIte, h.added]

/-- What a call with issued arguments does. -/
theorem Inv.run (h : s.Inv) (hargs : ∀ c ∈ call.args, c ∈ s.issued) : (s.step call).Inv ∧
    ∀ e, call.run s.graph = .error e → e = .full ∨ e = .tooManyChildren := by
  have hargs : ∀ c ∈ call.args, c < s.graph.nodes.length := fun c hc => (h.issued c).mp (hargs c hc)
  cases call with
  | add op children =>
    rcases @EGraph.Inv.add_cases s.graph op children h.graph hargs with
      ⟨e, he, herr⟩ | ⟨x, m, hx, -, hok⟩ | ⟨hok, hinv⟩
    · have hrun : (Call.add op children).run s.graph = .error e := by
        simp [Call.run, he, Except.map]
      refine ⟨?_, fun e' he' => ?_⟩
      · unfold Session.step
        rw [hrun]
        exact h
      · rw [hrun] at he'
        cases he'
        exact herr
    · have hrun : (Call.add op children).run s.graph =
          .ok (some (root s.graph.uf.parent x), s.graph) := by
        simp [Call.run, hok, Except.map]
      refine ⟨h.keep hrun h.graph rfl ?_, by simp [hrun]⟩
      simpa using h.graph.root_lt (List.getElem?_eq_some_iff.mp hx).1
    · have hrun : (Call.add op children).run s.graph =
          .ok (some s.graph.nextClass, (s.graph.mint op children).2) := by
        simp [Call.run, hok, Except.map, mint]
      refine ⟨?_, by simp [hrun]⟩
      unfold Session.step
      rw [hrun]
      have hlen : (s.graph.mint op children).2.nodes.length = s.graph.nodes.length + 1 := by
        simp [mint]
      refine ⟨hinv, fun c => ?_, ?_⟩
      · simp only [List.mem_append, Option.toList_some, List.mem_singleton, h.issued,
          h.graph.next, hlen]
        exact Nat.lt_succ_iff_lt_or_eq.symm
      · simp only [hlen, h.added, h.graph.next, List.range_succ, Option.toList_some,
          Nat.add_eq_left, Nat.one_ne_zero, ↓reduceIte]
  | merge a b =>
    obtain ⟨w, g', hok, hinv, hnodes, hw, -⟩ :=
      h.graph.merge (hargs a (by simp [Call.args])) (hargs b (by simp [Call.args]))
    have hrun : (Call.merge a b).run s.graph = .ok (some w, g') := by
      simp [Call.run, hok, Except.map]
    exact ⟨h.keep hrun hinv (congrArg List.length hnodes) (by simpa using hw), by simp [hrun]⟩
  | rebuild =>
    obtain ⟨m, g', hok, hinv, hlen⟩ := h.graph.rebuild
    have hrun : Call.rebuild.run s.graph = .ok (none, g') := by
      simp [Call.run, hok, Except.map]
    exact ⟨h.keep hrun hinv hlen nofun, by simp [hrun]⟩
  | canon cls =>
    have hcls := hargs cls (by simp [Call.args])
    obtain ⟨uf, hok, hsame⟩ := UnionFind.find_eq h.graph.descending (h.graph.lt_table hcls)
    have hrun : (Call.canon cls).run s.graph =
        .ok (some (root s.graph.uf.parent cls), { s.graph with uf }) := by
      simp [Call.run, canon, hok, Except.map, Except.mapError, bind, Except.bind, pure, Except.pure]
    exact ⟨h.keep hrun (h.graph.sameRoots hsame) rfl (by simpa using h.graph.root_lt hcls),
      by simp [hrun]⟩

theorem Reachable.inv (h : Reachable budget s) : s.Inv := by
  induction h with
  | start => exact start_inv
  | step _ hargs ih => exact (ih.run hargs).1

theorem Inv.membership (h : s.Inv) : s.Membership := by
  have hfind : ∀ c < s.graph.nodes.length, s.graph.uf.findRo c = .ok (root s.graph.uf.parent c) :=
    fun c hc => UnionFind.findRo_eq (h.graph.lt_table hc)
  have hmembers : ∀ (k : Nat) (ms : List Nat), s.graph.classes[k]? = some ms →
      ms = s.graph.members k := by
    intro k ms hk
    rw [h.graph.classes] at hk
    split at hk
    · exact (Option.some.inj hk).symm
    · cases hk
  have hroot : ∀ c < s.graph.nodes.length, root s.graph.uf.parent c < s.graph.nodes.length ∧
      root s.graph.uf.parent (root s.graph.uf.parent c) = root s.graph.uf.parent c :=
    fun c hc => ⟨h.graph.root_lt hc, h.graph.descending.root_root (h.graph.lt_table hc)⟩
  refine ⟨fun k => ?_, ?_, fun id c hid => ?_, fun k ms hk id hid => ?_, fun k ms hk => ?_⟩
  · rw [← TreeMap.isSome_getElem?_iff_mem, h.graph.classes]
    constructor
    · intro hk
      have hself : k < s.graph.nodes.length ∧ root s.graph.uf.parent k = k := by
        by_contra hnot
        simp [if_neg hnot] at hk
      exact ⟨k, (h.issued k).mpr hself.1, by rw [hfind k hself.1, hself.2]⟩
    · rintro ⟨c, hc, hk⟩
      have hc := (h.issued c).mp hc
      rw [hfind c hc] at hk
      cases hk
      rw [if_pos (hroot c hc)]
      rfl
  · simp [h.added]
  · rw [h.added] at hid
    have hlt : id < s.graph.nodes.length := by
      by_contra hge
      rw [List.getElem?_eq_none (by simpa using hge)] at hid
      cases hid
    rw [List.getElem?_range hlt] at hid
    cases hid
    refine ⟨root s.graph.uf.parent id, s.graph.members (root s.graph.uf.parent id), hfind id hlt,
      ?_, ?_, fun k' ms' hk' hid' => ?_⟩
    · rw [h.graph.classes, if_pos (hroot id hlt)]
    · exact List.count_eq_one_of_mem (members_pairwise.imp Nat.ne_of_lt)
        (mem_members.mpr ⟨hlt, rfl⟩)
    · rw [hmembers k' ms' hk'] at hid'
      exact (mem_members.mp hid').2.symm
  · rw [hmembers k ms hk] at hid
    exact (mem_members.mp hid).1
  · rw [hmembers k ms hk]
    exact members_pairwise.imp Nat.le_of_lt

/-- Membership holds after any calls, and the next fails on a full graph or
too many children only. -/
theorem membership_of_reachable (h : Reachable budget s) : s.Membership ∧
    ∀ call : Call, (∀ c ∈ call.args, c ∈ s.issued) → ∀ e, call.run s.graph = .error e →
      e = .full ∨ e = .tooManyChildren :=
  ⟨h.inv.membership, fun _ hargs => (h.inv.run hargs).2⟩

/-- Two constants in two classes. -/
def constants : Session :=
  ((start 4).step (.add (.constI64 1) [])).step (.add (.constI64 2) [])

def merged : Session := (constants.step (.merge 1 0)).step .rebuild

theorem merged_membership : merged.Membership := by
  have hconstants : Reachable 4 constants :=
    .step (.step .start (by simp [Call.args])) (by simp [Call.args])
  have hmerged : Reachable 4 merged :=
    .step (.step hconstants (by decide)) (by simp [Call.args])
  exact (membership_of_reachable hmerged).1

end Session

end EGraph

end Sxla
