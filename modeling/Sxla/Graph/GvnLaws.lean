import Sxla.Graph.DceLaws
import Sxla.Graph.Gvn
import Sxla.Graph.Rewire
import Sxla.Graph.Values

/-!
# Merging congruent nodes

The walk writes nothing but uses: behind every visited node stands a
representative that was visited, is its own, and is not removed, and the
arena is the first one with each use of a merged node, under its own
handle, redirected. Whatever names a merged node under another handle stays.
-/

namespace Sxla

open Checked IrArena Verifier

variable {a b : IrArena} {id r x y : NodeId} {n d : Node} {v w : ValueId} {i k : Nat}

-- ---------------------------------------------------------------------------
-- Values of live nodes
-- ---------------------------------------------------------------------------

theorem ValueId.fromNode_node (hs : v.slot = 0) : ValueId.fromNode v.node 0 = v := by
  have htop : v.word.top = 0 := hs
  obtain ⟨⟨i, g, l, u, t⟩⟩ := v
  subst htop
  simp [fromNode, node]

namespace IrArena

theorem fromNode_live (h : (id, n) ∈ a.liveNodes) :
    (ValueId.fromNode id 0).node = id ∧ (ValueId.fromNode id 0).slot = 0 ∧
      (ValueId.fromNode id 0).isNone = false := by
  obtain ⟨-, g, -, hid⟩ := mem_liveNodes.mp h
  rw [hid]
  exact ⟨ValueId.fromNode_pack_node, ValueId.fromNode_pack_slot, ValueId.isNone_fromNode_pack⟩

end IrArena

namespace Gvn

variable {tree : DominatorTree} {s s' : Walk} {l : List (NodeId × Node)}

-- ---------------------------------------------------------------------------
-- Redirection
-- ---------------------------------------------------------------------------

/-- The entry of a slot, if it has been visited. -/
def Walk.known (s : Walk) (slot : Nat) : Option NodeId := (s.canon[slot]?).join

theorem rep_eq : s.rep v = (s.known v.node.index).getD v.node := rfl

/-- What stands in the place of a use once the nodes in `removals` are merged. -/
def Walk.redirect (s : Walk) (v : ValueId) : ValueId :=
  if v.slot = 0 ∧ v.node ∈ s.removals then .fromNode (s.rep v) 0 else v

theorem redirect_of (hs : v.slot = 0) (hv : v.node ∈ s.removals) :
    s.redirect v = .fromNode (s.rep v) 0 := if_pos ⟨hs, hv⟩

theorem redirect_self (h : v.slot = 0 → v.node ∉ s.removals) : s.redirect v = v :=
  if_neg fun hv => h hv.1 hv.2

def Walk.redirectNode (s : Walk) (n : Node) : Node :=
  { n with inputs := n.inputs.map s.redirect, effectIn := s.redirect n.effectIn }

theorem redirectNode_inputsOnly : InputsOnly s.redirectNode :=
  ⟨fun _ => rfl, fun _ => rfl, fun _ => rfl, fun _ => rfl, fun _ => List.length_map _⟩

theorem redirectNode_valueInputs :
    (s.redirectNode n).valueInputs = n.valueInputs.map s.redirect :=
  (List.map_take ..).symm

theorem redirectNode_congr (h : ∀ v, s'.redirect v = s.redirect v) :
    s'.redirectNode = s.redirectNode := by
  funext n
  simp only [Walk.redirectNode, h, List.map_congr_left fun v _ => h v]

/-- A representative and a node that the walk takes for the same. -/
structure Congruent (tree : DominatorTree) (s : Walk) (d n : Node) : Prop where
  pure : n.op.isPure = true
  op : d.op = n.op
  ty : d.ty = n.ty
  dominates : tree.dominates d.region n.region = true
  arity : d.valueInputs.length = n.valueInputs.length
  inputs : ∀ (i : Nat) (v w : ValueId), n.valueInputs[i]? = some v → d.valueInputs[i]? = some w →
    s.rep v = s.rep w

/-- The walk over `l`: the arena is the first one with the uses of the merged
nodes redirected, and every visited node has a representative. -/
structure Numbered (tree : DominatorTree) (a : IrArena) (l : List (NodeId × Node)) (s : Walk) :
    Prop where
  arena : s.arena = a.mapLive s.redirectNode
  length : s.canon.length = a.slots.length
  unseen : ∀ i, (∀ e ∈ l, e.1.index ≠ i) → s.known i = none
  seen : ∀ id n, (id, n) ∈ l → ∃ r d, (r, d) ∈ l ∧ s.known id.index = some r ∧
    s.known r.index = some r ∧ r ∉ s.removals ∧
    ((id ∉ s.removals ∧ r = id) ∨ (id ∈ s.removals ∧ Congruent tree s d n))
  removals : ∀ id ∈ s.removals, ∃ n, (id, n) ∈ l
  table : ∀ e ∈ s.table, ∃ d, (e.2, d) ∈ l ∧ s.known e.2.index = some e.2 ∧ e.2 ∉ s.removals ∧
    (d.inputs = [] → e.1 = (d.op.hashInto .new).finish)

theorem start_numbered : Numbered tree a [] (.start a) where
  arena := by
    have hnone : ∀ v, (Walk.start a).redirect v = v := fun v => by
      simp [Walk.redirect, Walk.start]
    have hself : (Walk.start a).redirectNode = fun n => n := by
      funext n
      simp [Walk.redirectNode, hnone, List.map_congr_left fun v _ => hnone v]
    rw [hself, mapLive_self]
    rfl
  length := by simp [Walk.start, slotCount]
  unseen i _ := by
    simp only [Walk.known, Walk.start, List.getElem?_replicate]
    split <;> rfl
  seen := by simp
  removals := by simp [Walk.start]
  table := by simp [Walk.start]

theorem known_set (hlt : i < s.canon.length) (hc : s'.canon = s.canon.set i (some r)) (j : Nat) :
    s'.known j = if j = i then some r else s.known j := by
  simp only [Walk.known, hc, List.getElem?_set]
  by_cases hj : i = j
  · subst hj
    simp [hlt]
  · simp [hj, Ne.symm hj]

namespace Numbered

/-- Representatives have been visited and are their own. -/
theorem known_mem (h : Numbered tree a l s) (hk : s.known i = some r) :
    (∃ d, (r, d) ∈ l) ∧ s.known r.index = some r ∧ r ∉ s.removals := by
  by_cases hi : ∀ e ∈ l, e.1.index ≠ i
  · rw [h.unseen i hi] at hk
    cases hk
  · simp only [ne_eq, not_forall, not_not] at hi
    obtain ⟨⟨id, n⟩, he, rfl⟩ := hi
    obtain ⟨c, d, hd, hkc, hcc, hrem, -⟩ := h.seen id n he
    cases Option.some.inj (hk.symm.trans hkc)
    exact ⟨⟨d, hd⟩, hcc, hrem⟩

theorem not_removed (h : Numbered tree a l s) (hnew : ∀ e ∈ l, e.1.index ≠ id.index) :
    id ∉ s.removals := by
  intro hid
  obtain ⟨m, hm⟩ := h.removals id hid
  exact hnew _ hm rfl

/-- A value and its redirection have the same representative. -/
theorem rep_redirect (h : Numbered tree a l s) (hl : ∀ e ∈ l, e ∈ a.liveNodes) :
    s.rep (s.redirect v) = s.rep v := by
  unfold Walk.redirect
  split
  · next hv =>
    obtain ⟨n, hn⟩ := h.removals _ hv.2
    obtain ⟨c, d, hd, hk, hcc, -⟩ := h.seen _ _ hn
    have hrep : s.rep v = c := by rw [rep_eq, hk]; rfl
    rw [hrep, rep_eq, (fromNode_live (hl _ hd)).1, hcc]
    rfl
  · rfl

/-- What has one representative keeps having one. -/
theorem rep_mono (h : Numbered tree a l s) (hnew : ∀ e ∈ l, e.1.index ≠ i)
    (hlt : i < s.canon.length) (hc : s'.canon = s.canon.set i (some r)) (heq : s.rep v = s.rep w) :
    s'.rep v = s'.rep w := by
  have hnone := h.unseen i hnew
  -- a slot that is not visited yet is represented by no visited node
  have hcase : ∀ u u' : ValueId, u.node.index = i → s.rep u = s.rep u' → u'.node.index = i := by
    intro u u' hu huu
    rw [rep_eq, hu, hnone] at huu
    rw [rep_eq] at huu
    cases hk : s.known u'.node.index with
    | none =>
      rw [hk] at huu
      simp only [Option.getD_none] at huu
      rw [← huu, hu]
    | some c =>
      rw [hk] at huu
      simp only [Option.getD_none, Option.getD_some] at huu
      obtain ⟨⟨d, hd⟩, -⟩ := h.known_mem hk
      exact absurd (huu ▸ hu) (hnew _ hd)
  rw [rep_eq, rep_eq, known_set hlt hc, known_set hlt hc]
  by_cases hv : v.node.index = i
  · rw [if_pos hv, if_pos (hcase v w hv heq)]
    rfl
  · rw [if_neg hv, if_neg fun hw => hv (hcase w v hw heq.symm)]
    exact heq

theorem congruent_mono (h : Numbered tree a l s) (hnew : ∀ e ∈ l, e.1.index ≠ i)
    (hlt : i < s.canon.length) (hc : s'.canon = s.canon.set i (some r))
    (hcong : Congruent tree s d n) : Congruent tree s' d n :=
  { hcong with inputs := fun j v w hv hw => h.rep_mono hnew hlt hc (hcong.inputs j v w hv hw) }

/-- The visit of a node that stays. -/
theorem keep (h : Numbered tree a l s)
    (hn : (id, n) ∈ a.liveNodes) (hnew : ∀ e ∈ l, e.1.index ≠ id.index)
    (harena : s'.arena = s.arena) (hc : s'.canon = s.canon.set id.index (some id))
    (hrem : s'.removals = s.removals)
    (htable : ∀ e ∈ s'.table, e ∈ s.table ∨ e = (s.key n, id)) :
    Numbered tree a (l ++ [(id, n)]) s' := by
  have hlt : id.index < s.canon.length := h.length.symm ▸ index_lt_of_node (node_of_live hn)
  have hknown := known_set hlt hc
  have hself : s'.known id.index = some id := by rw [hknown, if_pos rfl]
  have hold : ∀ e ∈ l, s'.known e.1.index = s.known e.1.index := fun e he => by
    rw [hknown, if_neg (hnew e he)]
  have hnotin := h.not_removed hnew
  have hredirect : ∀ v, s'.redirect v = s.redirect v := by
    intro v
    unfold Walk.redirect
    rw [hrem]
    split
    · next hv =>
      obtain ⟨m, hm⟩ := h.removals _ hv.2
      rw [rep_eq, rep_eq, hold _ hm]
    · rfl
  refine ⟨?_, ?_, fun i hi => ?_, fun x m hx => ?_, fun x hx => ?_, fun e he => ?_⟩
  · rw [harena, h.arena, redirectNode_congr hredirect]
  · rw [hc, List.length_set, h.length]
  · rw [hknown, if_neg fun hi' => hi (id, n) (by simp) hi'.symm]
    exact h.unseen i fun e he => hi e (List.mem_append_left _ he)
  · rcases List.mem_append.mp hx with hx | hx
    · obtain ⟨c, d, hd, hk, hcc, hcr, hcases⟩ := h.seen x m hx
      refine ⟨c, d, List.mem_append_left _ hd, (hold _ hx).trans hk, (hold _ hd).trans hcc,
        hrem ▸ hcr, ?_⟩
      rw [hrem]
      exact hcases.imp_right fun hcong =>
        ⟨hcong.1, h.congruent_mono hnew hlt hc hcong.2⟩
    · obtain ⟨rfl, rfl⟩ := Prod.mk.inj (List.mem_singleton.mp hx)
      exact ⟨x, m, by simp, hself, hself, hrem ▸ hnotin, .inl ⟨hrem ▸ hnotin, rfl⟩⟩
  · obtain ⟨m, hm⟩ := h.removals x (hrem ▸ hx)
    exact ⟨m, List.mem_append_left _ hm⟩
  · rcases htable e he with he | rfl
    · obtain ⟨d, hd, hk, hcr, hkey⟩ := h.table e he
      exact ⟨d, List.mem_append_left _ hd, (hold _ hd).trans hk, hrem ▸ hcr, hkey⟩
    · refine ⟨n, by simp, hself, hrem ▸ hnotin, fun hin => ?_⟩
      simp [Walk.key, Node.valueInputs, hin]

/-- A merge redirects what read the merged node, and nothing else. -/
theorem redirect_merge (h : Numbered tree a l s) (hl : ∀ e ∈ l, e ∈ a.liveNodes)
    (hn : (id, n) ∈ a.liveNodes) (hnew : ∀ e ∈ l, e.1.index ≠ id.index)
    (hself : (s.merge id r).known id.index = some r)
    (hold : ∀ e ∈ l, (s.merge id r).known e.1.index = s.known e.1.index) (v : ValueId) :
    (s.merge id r).redirect v =
      if s.redirect v = .fromNode id 0 then .fromNode r 0 else s.redirect v := by
  have hrem : (s.merge id r).removals = s.removals ++ [id] := rfl
  obtain ⟨hidn, hids, -⟩ := fromNode_live hn
  by_cases hs : v.slot = 0
  swap
  · rw [redirect_self fun h => absurd h hs, redirect_self fun h => absurd h hs, if_neg]
    rintro rfl
    exact hs hids
  by_cases hv : v.node ∈ s.removals
  · obtain ⟨m, hm⟩ := h.removals _ hv
    obtain ⟨c, d, hd, hk, -⟩ := h.seen _ _ hm
    have hrep : s.rep v = c := by rw [rep_eq, hk]; rfl
    have hrep' : (s.merge id r).rep v = c := by rw [rep_eq, hold _ hm, hk]; rfl
    rw [redirect_of hs hv, redirect_of hs (List.mem_append_left _ hv), hrep, hrep', if_neg]
    intro heq
    have hnode := congrArg ValueId.node heq
    rw [hidn, (fromNode_live (hl _ hd)).1] at hnode
    exact hnew _ hd (congrArg NodeId.index hnode)
  · rw [redirect_self fun _ => hv]
    by_cases hid : v.node = id
    · have hrep : (s.merge id r).rep v = r := by rw [rep_eq, hid, hself]; rfl
      have hval : v = .fromNode id 0 := by rw [← hid, ValueId.fromNode_node hs]
      rw [redirect_of hs (by simp [hrem, hid]), if_pos hval, hrep]
    · rw [redirect_self fun _ => by simp [hrem, hv, hid], if_neg]
      rintro rfl
      exact hid hidn

/-- The visit of a node that is merged. -/
theorem merge (h : Numbered tree a l s) (hl : ∀ e ∈ l, e ∈ a.liveNodes)
    (hn : (id, n) ∈ a.liveNodes) (hnew : ∀ e ∈ l, e.1.index ≠ id.index) (hd : (r, d) ∈ l)
    (hr : s.known r.index = some r) (hkept : r ∉ s.removals) (hcong : Congruent tree s d n) :
    Numbered tree a (l ++ [(id, n)]) (s.merge id r) := by
  have hlt : id.index < s.canon.length := h.length.symm ▸ index_lt_of_node (node_of_live hn)
  have hc : (s.merge id r).canon = s.canon.set id.index (some r) := rfl
  have hrem : (s.merge id r).removals = s.removals ++ [id] := rfl
  have hknown := known_set hlt hc
  have hself : (s.merge id r).known id.index = some r := by rw [hknown, if_pos rfl]
  have hold : ∀ e ∈ l, (s.merge id r).known e.1.index = s.known e.1.index := fun e he => by
    rw [hknown, if_neg (hnew e he)]
  have hne : ∀ e ∈ l, e.1 ≠ id := fun e he heq => hnew e he (congrArg NodeId.index heq)
  have hredirect := h.redirect_merge hl hn hnew hself hold
  refine ⟨?_, ?_, fun i hi => ?_, fun x m hx => ?_, fun x hx => ?_, fun e he => ?_⟩
  · show replaceUses s.arena _ _ = _
    rw [replaceUses, foldl_rewrite_liveIds, h.arena, mapLive_mapLive]
    congr 1
    funext m
    simp only [replaceUse, Walk.redirectNode, List.map_map, hredirect]
    congr 1
    exact List.map_congr_left fun v _ => (hredirect v).symm
  · rw [hc, List.length_set, h.length]
  · rw [hknown, if_neg fun hi' => hi (id, n) (by simp) hi'.symm]
    exact h.unseen i fun e he => hi e (List.mem_append_left _ he)
  · rcases List.mem_append.mp hx with hx | hx
    · obtain ⟨c, d, hd, hk, hcc, hcr, hcases⟩ := h.seen x m hx
      refine ⟨c, d, List.mem_append_left _ hd, (hold _ hx).trans hk, (hold _ hd).trans hcc, ?_, ?_⟩
      · rw [hrem, List.mem_append, List.mem_singleton, not_or]
        exact ⟨hcr, hne _ hd⟩
      · rw [hrem, List.mem_append, List.mem_singleton]
        rcases hcases with ⟨hx', rfl⟩ | ⟨hx', hcong⟩
        · exact .inl ⟨not_or.mpr ⟨hx', hne _ hx⟩, rfl⟩
        · exact .inr ⟨.inl hx', h.congruent_mono hnew hlt hc hcong⟩
    · obtain ⟨rfl, rfl⟩ := Prod.mk.inj (List.mem_singleton.mp hx)
      refine ⟨r, d, List.mem_append_left _ hd, hself, (hold _ hd).trans hr, ?_, .inr ⟨?_, ?_⟩⟩
      · rw [hrem, List.mem_append, List.mem_singleton, not_or]
        exact ⟨hkept, hne _ hd⟩
      · simp [hrem]
      · exact h.congruent_mono hnew hlt hc hcong
  · rw [hrem, List.mem_append, List.mem_singleton] at hx
    rcases hx with hx | rfl
    · obtain ⟨m, hm⟩ := h.removals x hx
      exact ⟨m, List.mem_append_left _ hm⟩
    · exact ⟨n, by simp⟩
  · obtain ⟨d, hd, hk, hcr, hkey⟩ := h.table e he
    refine ⟨d, List.mem_append_left _ hd, (hold _ hd).trans hk, ?_, hkey⟩
    rw [hrem, List.mem_append, List.mem_singleton, not_or]
    exact ⟨hcr, hne _ hd⟩

end Numbered

-- ---------------------------------------------------------------------------
-- One visit
-- ---------------------------------------------------------------------------

/-- The representative that a node is merged into, if its visit merges it. -/
def handsTo (tree : DominatorTree) (s : Walk) (e : NodeId × Node) : Option NodeId :=
  if merges tree s e then s.table.lookup (s.key e.2) else none

theorem getElem?_zip {l l' : List ValueId} (hv : l[i]? = some v) (hw : l'[i]? = some w) :
    (v, w) ∈ l.zip l' :=
  List.mem_of_getElem? (List.getElem?_zip_eq_some.mpr ⟨hv, hw⟩)

theorem Numbered.congruent (h : Numbered tree a l s) (hl : ∀ e ∈ l, e ∈ a.liveNodes)
    (hconst : ∀ x, n.op = .constF64 x → n.inputs = []) (hp : n.op.isPure = true)
    (hkey : d.inputs = [] → s.key n = (d.op.hashInto .new).finish)
    (hc : s.congruent tree (s.redirectNode d) n = true) : Congruent tree s d n := by
  simp only [Walk.congruent, Bool.and_eq_true, beq_iff_eq] at hc
  obtain ⟨⟨⟨⟨hty, hdom⟩, harity⟩, hop⟩, hinputs⟩ := hc
  have harity : d.inputs.length = n.inputs.length := by
    simpa [Node.nInputs, Walk.redirectNode] using harity
  refine ⟨hp, Op.eq_of_sameAs hop fun x y _ hy => ?_, hty, hdom, ?_, fun i v w hv hw => ?_⟩
  · have hn := hconst y hy
    have hempty : d.inputs = [] := by simpa [hn] using harity
    have hself : s.key n = (n.op.hashInto .new).finish := by
      simp [Walk.key, Node.valueInputs, hn]
    exact (hkey hempty).symm.trans hself
  · simp [Node.valueInputs, harity]
  · have hw' : (s.redirectNode d).valueInputs[i]? = some (s.redirect w) := by
      rw [redirectNode_valueInputs, List.getElem?_map, hw]
      rfl
    have heq := List.all_eq_true.mp hinputs _ (getElem?_zip hv hw')
    rw [beq_iff_eq] at heq
    rw [heq, h.rep_redirect hl]

/-- A visit leaves the node its own representative, or merges it. -/
theorem Numbered.visit_cases (h : Numbered tree a l s) (hl : ∀ e ∈ l, e ∈ a.liveNodes)
    (hconst : ∀ x, n.op = .constF64 x → n.inputs = []) :
    (∃ s', visit tree s (id, n) = .ok s' ∧ handsTo tree s (id, n) = none ∧ s'.arena = s.arena ∧
      s'.canon = s.canon.set id.index (some id) ∧ s'.removals = s.removals ∧
      ∀ e ∈ s'.table, e ∈ s.table ∨ e = (s.key n, id)) ∨
    ∃ r d, visit tree s (id, n) = .ok (s.merge id r) ∧ handsTo tree s (id, n) = some r ∧
      (r, d) ∈ l ∧ s.known r.index = some r ∧ r ∉ s.removals ∧ Congruent tree s d n := by
  cases hp : n.op.isPure with
  | false =>
    obtain ⟨hv, hm⟩ := @visit_impure tree s id _ hp
    exact .inl ⟨_, hv, by simp [handsTo, hm], rfl, rfl, rfl, fun e he => .inl he⟩
  | true =>
    cases hk : s.table.lookup (s.key n) with
    | none =>
      obtain ⟨hv, hm⟩ := @visit_fresh tree _ id _ hp hk
      refine .inl ⟨_, hv, by simp [handsTo, hm], rfl, rfl, rfl, fun e he => ?_⟩
      rcases List.mem_cons.mp he with rfl | he
      · exact .inr rfl
      · exact .inl he
    | some r =>
      obtain ⟨d, hd, hr, hkept, hkey⟩ := h.table _ (mem_of_lookup hk)
      have hlive := hl _ hd
      have hnode : s.arena.node r = .ok (s.redirectNode d) := by
        rw [h.arena, mapLive_node_ok (node_of_live hlive), if_pos (index_mem_liveSlots hlive)]
      obtain ⟨hv, hm⟩ := @visit_known tree _ id _ _ _ hp hk hnode
      cases hc : s.congruent tree (s.redirectNode d) n with
      | false =>
        refine .inl ⟨s.setCanon id id, by rw [hv, hc]; rfl, by simp [handsTo, hm, hc], rfl, rfl,
          rfl, fun e he => .inl he⟩
      | true =>
        refine .inr ⟨r, d, by rw [hv, hc]; rfl, by simp [handsTo, hm, hc, hk], hd, hr, hkept, ?_⟩
        exact h.congruent hl hconst hp hkey hc

-- ---------------------------------------------------------------------------
-- The walk
-- ---------------------------------------------------------------------------

/-- The walk over `l` merges `x` into `r` where it visits `x`. -/
def HandedIn (tree : DominatorTree) (a : IrArena) (l : List (NodeId × Node)) (x r : NodeId) :
    Prop :=
  ∃ l₁ n l₂ s, l = l₁ ++ (x, n) :: l₂ ∧ walk tree a l₁ = .ok s ∧ handsTo tree s (x, n) = some r

theorem handedIn_append (hs : walk tree a l = .ok s) :
    HandedIn tree a (l ++ [(id, n)]) x r ↔
      HandedIn tree a l x r ∨ (handsTo tree s (id, n) = some r ∧ id = x) :=
  visited_append (P := fun u e => handsTo tree u e = some r) hs

theorem walk_numbered (hsub : l <+: a.liveNodes)
    (hconst : ∀ id n, (id, n) ∈ a.liveNodes → ∀ x, n.op = .constF64 x → n.inputs = []) :
    ∃ s, walk tree a l = .ok s ∧ Numbered tree a l s ∧
      ∀ x r, HandedIn tree a l x r ↔ x ∈ s.removals ∧ s.known x.index = some r := by
  induction l using List.reverseRecOn with
  | nil => exact ⟨_, rfl, start_numbered, by simp [HandedIn, Walk.start]⟩
  | append_singleton l e ih =>
    obtain ⟨id, n⟩ := e
    obtain ⟨rest, hrest⟩ := hsub
    obtain ⟨s, hs, hnum, hhanded⟩ := ih ⟨(id, n) :: rest, by simpa using hrest⟩
    have hmem : ∀ e ∈ l ++ [(id, n)], e ∈ a.liveNodes := fun e he =>
      hrest ▸ List.mem_append_left _ he
    have hl : ∀ e ∈ l, e ∈ a.liveNodes := fun e he => hmem e (List.mem_append_left _ he)
    have hn : (id, n) ∈ a.liveNodes := hmem _ (by simp)
    have hnew : ∀ e ∈ l, e.1.index ≠ id.index := by
      have hnodup := a.liveSlots_nodup
      rw [← map_index_liveNodes, ← hrest, List.map_append, List.map_append] at hnodup
      intro e he heq
      exact (List.nodup_append.mp (List.nodup_append.mp hnodup).1).2.2 _
        (List.mem_map_of_mem he) _ (by simp) heq
    have hlt : id.index < s.canon.length := hnum.length.symm ▸ index_lt_of_node (node_of_live hn)
    have hwalk : ∀ s', visit tree s (id, n) = .ok s' →
        walk tree a (l ++ [(id, n)]) = .ok s' := by
      intro s' hv
      rw [walk] at hs ⊢
      rw [foldlM_append_cons]
      simp only [hs, hv, bind, Except.bind, List.foldlM_nil]
      rfl
    have hold : ∀ (s' : Walk) (r' : NodeId), s'.canon = s.canon.set id.index (some r') →
        ∀ x ∈ s.removals, s'.known x.index = s.known x.index := by
      intro s' r' hc x hx
      obtain ⟨m, hm⟩ := hnum.removals x hx
      rw [known_set hlt hc, if_neg (hnew _ hm)]
    rcases @Numbered.visit_cases _ id n _ _ _ hnum hl (hconst id n hn) with
      ⟨s', hv, hnone, harena, hc, hrem, htable⟩ | ⟨r, d, hv, hsome, hd, hr, hkept, hcong⟩
    · refine ⟨s', hwalk s' hv, hnum.keep hn hnew harena hc hrem htable, fun x r => ?_⟩
      rw [handedIn_append hs, hhanded, hnone, hrem]
      simp only [reduceCtorEq, false_and, or_false]
      exact and_congr_right fun hx => by rw [hold s' id hc x hx]
    · refine ⟨_, hwalk _ hv, hnum.merge hl hn hnew hd hr hkept hcong, fun x r' => ?_⟩
      have hself : (s.merge id r).known id.index = some r := by
        rw [known_set hlt rfl, if_pos rfl]
      have hrem : x ∈ (s.merge id r).removals ↔ x ∈ s.removals ∨ x = id := by
        simp [Walk.merge]
      rw [handedIn_append hs, hhanded, hsome, hrem]
      constructor
      · rintro (⟨hx, hk⟩ | ⟨heq, rfl⟩)
        · exact ⟨.inl hx, by rw [hold (s.merge id r) r rfl x hx, hk]⟩
        · exact ⟨.inr rfl, hself.trans heq⟩
      · rintro ⟨hx | rfl, hk⟩
        · exact .inl ⟨hx, by rw [← hold (s.merge id r) r rfl x hx, hk]⟩
        · exact .inr ⟨hself.symm.trans hk, rfl⟩

end Gvn

end Sxla
