import Mathlib.Data.List.Perm.Subperm
import Sxla.Ir.Handles
import Sxla.Ir.Snapshot
import Sxla.Graph.Verifier
import Sxla.Library.Chain

/-!
# Region lists

Every region links its nodes from `firstNode` through `nextInRegion`. A link
is the handle its node was inserted under, level bits included, and a removal
looks for the link equal to the handle it is given. So the lists stay the live
nodes, latest insertion first, as long as every node is removed under that
handle; `setOp` to an op of another level changes the handle under which
`liveNodes` reports the node, and removing it under that one leaves its link
behind.
-/

namespace Sxla

open Checked Linked

namespace IrArena

def nextOf (a : IrArena) (id : NodeId) : Option NodeId :=
  match a.node id with
  | .ok n => some n.nextInRegion
  | .error _ => none

def inRegion (a : IrArena) (k : Nat) (id : NodeId) : Bool :=
  match a.node id with
  | .ok n => n.region.index == k
  | .error _ => false

end IrArena

/-- An arena with the handles under which its live nodes were inserted, the
latest first. -/
structure Listing where
  arena : IrArena
  linked : List NodeId

inductive Action where
  | newRegion (parent : RegionId) (owner : NodeId)
  | insertNode (region : RegionId) (node : Node)
  | removeNode (id : NodeId)
  | commit (log : List Edit) (verify : IrArena → Bool)

namespace Listing

def start (nodeCapacity regionCapacity : Nat) : Listing :=
  ⟨.withCapacity nodeCapacity regionCapacity, []⟩

def without (s : Listing) (id : NodeId) : List NodeId := s.linked.filter (·.index ≠ id.index)

def edit (s : Listing) (e : Edit) : Except CommitError Listing :=
  (applyEdit s.arena e).map fun a =>
    match e with
    | .removeNode id => ⟨a, s.without id⟩
    | _ => ⟨a, s.linked⟩

def commit (s : Listing) (log : List Edit) (verify : IrArena → Bool) :
    Except CommitError Listing := do
  let t ← log.foldlM edit s
  if verify t.arena then return t else throw .verifierFailed

/-- What fails leaves the arena as it was. -/
def step (s : Listing) : Action → Listing
  | .newRegion parent owner =>
    match s.arena.newRegion parent owner with
    | .ok (_, a) => { s with arena := a }
    | .error _ => s
  | .insertNode region node =>
    match s.arena.insertNode region node with
    | .ok (id, a) => ⟨a, id :: s.linked⟩
    | .error _ => s
  | .removeNode id =>
    match s.arena.removeNode id with
    | .ok a => ⟨a, s.without id⟩
    | .error _ => s
  | .commit log verify =>
    match s.commit log verify with
    | .ok t => t
    | .error _ => s

-- ---------------------------------------------------------------------------
-- The property and the condition
-- ---------------------------------------------------------------------------

/-- Every region's list is its live nodes, each once, the latest insertion
first. -/
structure ListsMatch (s : Listing) : Prop where
  live : (s.linked.map (·.index)).Perm s.arena.liveSlots
  chains : ∀ rid r, (rid, r) ∈ s.arena.allRegions →
    Chain s.arena.nextOf .NONE r.firstNode (s.linked.filter (s.arena.inRegion rid.index))

/-- A handle that resolves is one that a live node was inserted under. -/
def Names (s : Listing) (id : NodeId) : Prop := (∃ n, s.arena.node id = .ok n) → id ∈ s.linked

/-- The removals of a log name their nodes by the handles of insertion. -/
def NamesAll (s : Listing) : List Edit → Prop
  | [] => True
  | e :: log =>
    (match e with
      | .removeNode id => s.Names id
      | _ => True) ∧ ∀ t, s.edit e = .ok t → t.NamesAll log

def Meets (s : Listing) : Action → Prop
  | .removeNode id => s.Names id
  | .commit log _ => s.NamesAll log
  | _ => True

/-- The states of a run whose removals meet the condition. -/
inductive Run (nodeCapacity regionCapacity : Nat) : Listing → Prop
  | start : Run nodeCapacity regionCapacity (start nodeCapacity regionCapacity)
  | step {s : Listing} {action : Action} : Run nodeCapacity regionCapacity s → s.Meets action →
      Run nodeCapacity regionCapacity (s.step action)

/-- The listing follows the arena through a commit. -/
theorem commit_arena (s : Listing) (log : List Edit) (verify : IrArena → Bool) :
    (s.commit log verify).map (·.arena) = Sxla.commit s.arena log verify := by
  have hfold : (log.foldlM edit s).map (·.arena) = log.foldlM applyEdit s.arena := by
    induction log generalizing s with
    | nil => rfl
    | cons e log ih =>
      rw [List.foldlM_cons, List.foldlM_cons]
      cases he : applyEdit s.arena e with
      | error err => simp [edit, he, bind, Except.bind, Except.map]
      | ok a =>
        have ht : ∃ t, s.edit e = .ok t ∧ t.arena = a := by
          rw [edit, he]
          cases e <;> exact ⟨_, rfl, rfl⟩
        obtain ⟨t, ht, rfl⟩ := ht
        rw [ht]
        exact ih t
  rw [commit, Sxla.commit, ← hfold]
  cases log.foldlM edit s with
  | error e => rfl
  | ok t =>
    show (if _ then _ else _ : Except CommitError Listing).map _ = if _ then _ else _
    cases verify t.arena <;> rfl

-- ---------------------------------------------------------------------------
-- The invariant
-- ---------------------------------------------------------------------------

structure Inv (s : Listing) : Prop where
  free_lt : ∀ i ∈ s.arena.nodeFree, i < s.arena.slots.length
  free_nodup : s.arena.nodeFree.Nodup
  nodup : (s.linked.map (·.index)).Nodup
  live : ∀ i, i ∈ s.linked.map (·.index) ↔ i ∈ s.arena.liveSlots
  ne_none : ∀ id ∈ s.linked, id ≠ .NONE
  resolves : ∀ id ∈ s.linked, ∃ n r, s.arena.node id = .ok n ∧
    s.arena.validateRegion n.region = .ok r
  generations : ∀ r ∈ s.arena.regions, r.generation = 0
  chains : ∀ k r, s.arena.regions[k]? = some r →
    Chain s.arena.nextOf .NONE r.firstNode (s.linked.filter (s.arena.inRegion k))

variable {s t : Listing} {a b : IrArena} {id x : NodeId} {n : Node}

/-- Two arenas agree on what the lists are made of. -/
structure SameLinks (a b : IrArena) : Prop where
  free : b.nodeFree = a.nodeFree
  regions : b.regions = a.regions
  slots : b.slots.map (fun s => (s.generation, s.node.region, s.node.nextInRegion)) =
    a.slots.map fun s => (s.generation, s.node.region, s.node.nextInRegion)

theorem SameLinks.refl : SameLinks a a := ⟨rfl, rfl, rfl⟩

theorem SameLinks.trans {c : IrArena} (h : SameLinks a b) (h' : SameLinks b c) : SameLinks a c :=
  ⟨h'.free.trans h.free, h'.regions.trans h.regions, h'.slots.trans h.slots⟩

theorem SameLinks.node (h : SameLinks a b) (hn : a.node id = .ok n) : ∃ m, b.node id = .ok m ∧
    m.region = n.region ∧ m.nextInRegion = n.nextInRegion := by
  have hs := congrArg (·[id.index]?) h.slots
  simp only [List.getElem?_map, IrArena.slot_of_node hn, Option.map_some,
    Option.map_eq_some_iff, Prod.mk.injEq] at hs
  obtain ⟨slot, hslot, hgen, hregion, hnext⟩ := hs
  refine ⟨slot.node, ?_, hregion, hnext⟩
  simp [IrArena.node, hslot, hgen]

theorem SameLinks.liveSlots (h : SameLinks a b) : b.liveSlots = a.liveSlots := by
  have hlen := congrArg List.length h.slots
  rw [List.length_map, List.length_map] at hlen
  rw [IrArena.liveSlots, IrArena.liveSlots, h.free, hlen]

theorem validateRegion_congr {region : RegionId} {r : Region}
    (h : a.validateRegion region = .ok r)
    (hr : ∀ r, a.regions[region.index]? = some r →
      ∃ r', b.regions[region.index]? = some r' ∧ r'.generation = r.generation) :
    ∃ r', b.validateRegion region = .ok r' := by
  unfold IrArena.validateRegion at h ⊢
  split at h
  · cases h
  next hnone =>
  rw [if_neg hnone]
  split at h
  · cases h
  next r₀ hr₀ =>
  split at h
  · next hg =>
    obtain ⟨r', hr', hg'⟩ := hr r₀ hr₀
    rw [hr']
    exact ⟨r', if_pos (hg'.trans hg)⟩
  · cases h

theorem region_of_validate {region : RegionId} {r : Region}
    (h : a.validateRegion region = .ok r) : a.regions[region.index]? = some r := by
  unfold IrArena.validateRegion at h
  split at h
  · cases h
  split at h
  · cases h
  next hr =>
  split at h
  · cases h
    exact hr
  · cases h

/-- The invariant only looks at links, so edits of contents keep it. -/
theorem Inv.sameLinks (h : Inv s) (hl : SameLinks s.arena a) : Inv { s with arena := a } := by
  have hnode : ∀ id ∈ s.linked, ∃ n m, s.arena.node id = .ok n ∧ a.node id = .ok m ∧
      m.region = n.region ∧ m.nextInRegion = n.nextInRegion := by
    intro id hid
    obtain ⟨n, r, hn, -⟩ := h.resolves id hid
    obtain ⟨m, hm, hregion, hnext⟩ := hl.node hn
    exact ⟨n, m, hn, hm, hregion, hnext⟩
  have hlen := congrArg List.length hl.slots
  rw [List.length_map, List.length_map] at hlen
  refine ⟨?_, ?_, h.nodup, ?_, h.ne_none, ?_, ?_, ?_⟩
  · rw [hl.free, hlen]
    exact h.free_lt
  · rw [hl.free]
    exact h.free_nodup
  · rw [hl.liveSlots]
    exact h.live
  · intro id hid
    obtain ⟨n, r, hn, hr⟩ := h.resolves id hid
    obtain ⟨m, hm, hregion, -⟩ := hl.node hn
    obtain ⟨r', hr'⟩ := validateRegion_congr hr fun r₀ hr₀ => ⟨r₀, hl.regions ▸ hr₀, rfl⟩
    exact ⟨m, r', hm, hregion ▸ hr'⟩
  · rw [hl.regions]
    exact h.generations
  · intro k r hr
    rw [hl.regions] at hr
    have hfilter : s.linked.filter (a.inRegion k) = s.linked.filter (s.arena.inRegion k) := by
      refine List.filter_congr fun id hid => ?_
      obtain ⟨n, m, hn, hm, hregion, -⟩ := hnode id hid
      simp only [IrArena.inRegion, hn, hm, hregion]
    show Chain a.nextOf _ _ (s.linked.filter (a.inRegion k))
    rw [hfilter]
    refine (h.chains k r hr).congr fun id hid => ?_
    obtain ⟨n, m, hn, hm, -, hnext⟩ := hnode id (List.mem_of_mem_filter hid)
    simp only [IrArena.nextOf, hn, hm, hnext]

-- ---------------------------------------------------------------------------
-- Edits of contents, new regions and insertions
-- ---------------------------------------------------------------------------

theorem modifyNode_sameLinks {f : Node → Node}
    (hf : ∀ n, (f n).region = n.region ∧ (f n).nextInRegion = n.nextInRegion)
    (h : a.modifyNode id f = .ok b) : SameLinks a b := by
  obtain ⟨n, hn, rfl⟩ := map_ok.mp h
  refine ⟨rfl, rfl, ?_⟩
  have hslot := IrArena.slot_of_node hn
  rw [List.map_set]
  refine List.ext_getElem? fun i => ?_
  rw [List.getElem?_set]
  split
  · next hi =>
    subst hi
    rw [List.length_map, if_pos (IrArena.index_lt_of_node hn), List.getElem?_map, hslot]
    simp only [Option.map_some, (hf n).1, (hf n).2]
  · rfl

theorem replaceAllUses_sameLinks (source target : ValueId) (ids : List NodeId) :
    SameLinks a (ids.foldl (fun a id => a.rewrite id (Node.replaceUses source target)) a) := by
  induction ids generalizing a with
  | nil => exact .refl
  | cons id ids ih =>
    refine SameLinks.trans ?_ (ih (a := a.rewrite id (Node.replaceUses source target)))
    unfold IrArena.rewrite
    split
    · next b h =>
      exact modifyNode_sameLinks (f := Node.replaceUses source target) (fun _ => ⟨rfl, rfl⟩) h
    · exact .refl

theorem mapError_ok {x : Except ε α} {f : ε → ε'} : x.mapError f = .ok y ↔ x = .ok y := by
  cases x <;> simp [Except.mapError]

theorem Inv.newRegion {parent r : RegionId} {owner : NodeId} (h : Inv s)
    (hr : s.arena.newRegion parent owner = .ok (r, a)) : Inv { s with arena := a } := by
  unfold IrArena.newRegion at hr
  split at hr
  · cases hr
  cases hr
  have hsame : ∀ k r, s.arena.regions[k]? = some r →
      (s.arena.regions ++ [⟨parent, .NONE, owner, 0⟩])[k]? = some r := fun k r hk => by
    rw [List.getElem?_append_left (List.getElem?_eq_some_iff.mp hk).1, hk]
  refine ⟨h.free_lt, h.free_nodup, h.nodup, h.live, h.ne_none, ?_, ?_, ?_⟩
  · intro id hid
    obtain ⟨n, r, hn, hr⟩ := h.resolves id hid
    exact ⟨n, (validateRegion_congr hr fun r₀ hr₀ => ⟨r₀, hsame _ _ hr₀, rfl⟩).imp fun _ hr' =>
      ⟨hn, hr'⟩⟩
  · intro r hr
    rcases List.mem_append.mp hr with hr | hr
    · exact h.generations r hr
    · rw [List.mem_singleton.mp hr]
  · intro k r hk
    dsimp only at hk
    rcases Nat.lt_or_ge k s.arena.regions.length with hlt | hge
    · rw [List.getElem?_append_left hlt] at hk
      exact h.chains k r hk
    · rw [List.getElem?_append_right hge, List.getElem?_singleton] at hk
      split at hk
      · cases hk
        have hnil : s.linked.filter (s.arena.inRegion k) = [] := by
          rw [List.filter_eq_nil_iff]
          intro id hid hin
          obtain ⟨n, r, hn, hr⟩ := h.resolves id hid
          have hlt := (List.getElem?_eq_some_iff.mp (region_of_validate hr)).1
          simp only [IrArena.inRegion, hn, beq_iff_eq] at hin
          omega
        show Chain s.arena.nextOf .NONE .NONE (s.linked.filter (s.arena.inRegion k))
        rw [hnil]
        exact .nil
      · cases hk

theorem Inv.insert {region : RegionId} (h : Inv s)
    (hi : s.arena.insertNode region n = .ok (id, a)) : Inv ⟨a, id :: s.linked⟩ := by
  have hins := IrArena.insertNode_ok h.free_lt hi
  obtain ⟨r, hr, hself⟩ := hins.region_ok
  have hindex : id.index = s.arena.nextSlot.1 := by rw [hins.id_eq]; rfl
  obtain ⟨hdead, hle, hnd, hnotfree, hfree⟩ := IrArena.nextSlot_free h.free_lt h.free_nodup
  have hfresh : ∀ x ∈ s.linked, x.index ≠ s.arena.nextSlot.1 := fun x hx he =>
    hdead (he ▸ (h.live _).mp (List.mem_map.mpr ⟨x, hx, rfl⟩))
  have hnode : ∀ x ∈ s.linked, a.node x = s.arena.node x := fun x hx => by
    simp only [IrArena.node, hins.others _ (hfresh x hx)]
  have hnew : a.node id = .ok { n with nextInRegion := r.firstNode, region } := by
    have hgen : id.generation = s.arena.nextSlot.2.1 := by rw [hins.id_eq]; rfl
    simp [IrArena.node, hindex, hself, hgen]
  have hk := region_of_validate hr
  have hregions : ∀ k r₀, a.regions[k]? = some r₀ → ∃ r₁, s.arena.regions[k]? = some r₁ ∧
      r₀ = if region.index = k then { r₁ with firstNode := id } else r₁ := by
    intro k r₀ hk₀
    rw [hins.regions, List.getElem?_modify, Option.map_eq_map, Option.map_eq_some_iff] at hk₀
    obtain ⟨r₁, hr₁, rfl⟩ := hk₀
    exact ⟨r₁, hr₁, rfl⟩
  have hvalid : ∀ {region₀ r₀}, s.arena.validateRegion region₀ = .ok r₀ →
      ∃ r', a.validateRegion region₀ = .ok r' := fun hv =>
    validateRegion_congr hv fun r₁ hr₁ => by
      rw [hins.regions, List.getElem?_modify, hr₁]
      exact ⟨_, rfl, by split <;> rfl⟩
  refine ⟨?_, ?_, ?_, ?_, ?_, ?_, ?_, ?_⟩
  all_goals dsimp only
  · intro i hi
    rw [hins.free] at hi
    have := h.free_lt i ((hfree i).mpr (.inl hi))
    rw [hins.length]
    omega
  · rw [hins.free]
    exact hnd
  · rw [List.map_cons, List.nodup_cons, h.live, hindex]
    exact ⟨hdead, h.nodup⟩
  · intro i
    rw [hins.liveSlots h.free_lt h.free_nodup, List.map_cons, List.mem_cons, h.live i, hindex]
  · refine List.forall_mem_cons.mpr ⟨?_, h.ne_none⟩
    rw [hins.id_eq]
    exact NodeId.pack_ne_none
  · refine List.forall_mem_cons.mpr ⟨?_, fun x hx => ?_⟩
    · exact (hvalid hr).imp' _ fun r' hr' => ⟨_, hnew, hr'⟩
    · obtain ⟨m, r₀, hm, hr₀⟩ := h.resolves x hx
      obtain ⟨r', hr'⟩ := hvalid hr₀
      exact ⟨m, r', (hnode x hx).trans hm, hr'⟩
  · intro r₀ hr₀
    obtain ⟨k, hk₀⟩ := List.mem_iff_getElem?.mp hr₀
    obtain ⟨r₁, hr₁, rfl⟩ := hregions k r₀ hk₀
    have hg := h.generations r₁ (List.mem_of_getElem? hr₁)
    split <;> exact hg
  · intro k r₀ hk₀
    obtain ⟨r₁, hr₁, rfl⟩ := hregions k r₀ hk₀
    have hfilter : s.linked.filter (a.inRegion k) = s.linked.filter (s.arena.inRegion k) :=
      List.filter_congr fun x hx => by simp only [IrArena.inRegion, hnode x hx]
    have hold : Chain a.nextOf .NONE r₁.firstNode (s.linked.filter (a.inRegion k)) := by
      rw [hfilter]
      refine (h.chains k r₁ hr₁).congr fun x hx => ?_
      simp only [IrArena.nextOf, hnode x (List.mem_of_mem_filter hx)]
    by_cases hkr : region.index = k
    · subst hkr
      rw [hk, Option.some.injEq] at hr₁
      subst hr₁
      rw [if_pos rfl, List.filter_cons_of_pos (by simp [IrArena.inRegion, hnew])]
      refine .cons (hins.id_eq ▸ NodeId.pack_ne_none) ?_ hold
      simp only [IrArena.nextOf, hnew]
    · rw [if_neg hkr, List.filter_cons_of_neg (by simp [IrArena.inRegion, hnew, hkr])]
      exact hold

-- ---------------------------------------------------------------------------
-- Removals
-- ---------------------------------------------------------------------------

theorem nextOf_eq_some {y : NodeId} :
    a.nextOf x = some y ↔ ∃ n, a.node x = .ok n ∧ n.nextInRegion = y := by
  unfold IrArena.nextOf
  cases a.node x <;> simp

/-- The walk stops at the cell in front of the removed one and links it past
that. -/
theorem unlinkFrom_chain {pre post : List NodeId} {p next : NodeId} {fuel : Nat}
    (hc : Chain a.nextOf .NONE x (pre ++ p :: id :: post))
    (hnd : (pre ++ p :: id :: post).Nodup) (hfuel : pre.length < fuel) :
    ∃ m, a.node p = .ok m ∧ a.unlinkFrom id next fuel x =
      { a with slots := a.slots.set p.index ⟨{ m with nextInRegion := next }, p.generation⟩ } := by
  induction fuel generalizing x pre with
  | zero => exact absurd hfuel (Nat.not_lt_zero _)
  | succ fuel ih =>
    unfold IrArena.unlinkFrom
    cases pre with
    | nil =>
      obtain ⟨y, hy, hstop, ht⟩ := hc.tail
      obtain rfl := hc.head_eq
      obtain ⟨m, hm, rfl⟩ := nextOf_eq_some.mp hy
      refine ⟨m, hm, ?_⟩
      simp only [hstop, ↓reduceIte, hm, ht.head_eq, IrArena.modifyNode, Except.map]
    | cons c pre =>
      obtain ⟨y, hy, hstop, ht⟩ := hc.tail
      obtain rfl := hc.head_eq
      obtain ⟨m, hm, rfl⟩ := nextOf_eq_some.mp hy
      rw [List.cons_append, List.nodup_cons] at hnd
      have hne : m.nextInRegion ≠ id := by
        intro he
        cases pre with
        | nil =>
          have hp : m.nextInRegion = p := ht.head_eq
          have hnd' := (List.nodup_cons.mp hnd.2).1
          exact hnd' (hp ▸ he ▸ List.mem_cons_self)
        | cons d pre =>
          have hd : m.nextInRegion = d := ht.head_eq
          have hnd' := (List.nodup_cons.mp hnd.2).1
          refine hnd' (List.mem_append_right _ (List.mem_cons_of_mem _ ?_))
          exact hd ▸ he ▸ List.mem_cons_self
      simp only [hstop, ↓reduceIte, hm, hne]
      exact ih ht hnd.2 (by simpa using hfuel)

theorem ne_none_of_validate {region : RegionId} {r : Region}
    (h : a.validateRegion region = .ok r) : region ≠ .NONE := by
  rintro rfl
  cases h

/-- What unlinking does: the removed cell is the first of its list, or the
walk finds the cell in front of it. -/
theorem unlink_cases {r : Region} {l : List NodeId} (hv : a.validateRegion n.region = .ok r)
    (hc : Chain a.nextOf .NONE r.firstNode l) (hmem : id ∈ l) (hnd : l.Nodup)
    (hlen : l.length ≤ a.slots.length) :
    (∃ post, l = id :: post ∧ a.unlink id n = a.setFirstNode n.region.index n.nextInRegion) ∨
    ∃ pre p post m, l = pre ++ p :: id :: post ∧ a.node p = .ok m ∧ a.unlink id n =
      { a with slots := a.slots.set p.index ⟨{ m with nextInRegion := n.nextInRegion },
        p.generation⟩ } := by
  obtain ⟨pre, post, rfl⟩ := List.append_of_mem hmem
  simp only [IrArena.unlink, ne_none_of_validate hv, ↓reduceIte, hv]
  rcases List.eq_nil_or_concat pre with rfl | ⟨pre, p, rfl⟩
  · refine .inl ⟨post, rfl, ?_⟩
    rw [if_pos hc.head_eq]
  · rw [List.concat_eq_append, List.append_assoc, List.singleton_append] at hc hnd hlen
    have hne : r.firstNode ≠ id := by
      rw [List.nodup_append] at hnd
      cases pre with
      | nil =>
        rw [show r.firstNode = p from hc.head_eq]
        exact fun he => (List.nodup_cons.mp hnd.2.1).1 (he ▸ List.mem_cons_self)
      | cons c pre =>
        rw [show r.firstNode = c from hc.head_eq]
        exact hnd.2.2 c List.mem_cons_self id (by simp)
    rw [if_neg hne]
    have hfuel : pre.length < a.slots.length + 1 := by
      simp only [List.length_append, List.length_cons] at hlen
      omega
    obtain ⟨m, hm, hu⟩ := @unlinkFrom_chain _ _ _ _ _ _ n.nextInRegion _ hc hnd hfuel
    exact .inr ⟨pre, p, post, m, by simp, hm, hu⟩

theorem unlinkFrom_regions {next : NodeId} {fuel : Nat} :
    (a.unlinkFrom id next fuel x).regions = a.regions := by
  induction fuel generalizing x with
  | zero => rfl
  | succ fuel ih =>
    unfold IrArena.unlinkFrom
    split
    · rfl
    extract_lets nextOfCur
    split
    · cases h : a.modifyNode x fun n => { n with nextInRegion := next } with
      | ok b =>
        obtain ⟨m, -, rfl⟩ := map_ok.mp h
        rfl
      | error e => rfl
    · exact ih

theorem unlink_generations :
    (a.unlink id n).regions.map (·.generation) = a.regions.map (·.generation) := by
  unfold IrArena.unlink
  split
  · rfl
  split
  · rfl
  split
  · refine List.ext_getElem? fun i => ?_
    simp only [IrArena.setFirstNode, List.getElem?_map, List.getElem?_modify, Option.map_eq_map,
      Option.map_map]
    congr 1
    funext r
    simp only [Function.comp_apply]
    split <;> rfl
  · rw [unlinkFrom_regions]

theorem Inv.filter_region (h : Inv s) {k : Nat} {pre post : List NodeId}
    (hl : s.linked.filter (s.arena.inRegion k) = pre ++ id :: post) :
    (s.linked.filter (s.arena.inRegion k)).filter (·.index ≠ id.index) = pre ++ post := by
  have hnd : ((s.linked.filter (s.arena.inRegion k)).map (·.index)).Nodup :=
    h.nodup.sublist (List.filter_sublist.map _)
  rw [hl] at hnd ⊢
  simp only [List.map_append, List.map_cons, List.nodup_append, List.nodup_cons, List.mem_cons,
    List.mem_map] at hnd
  obtain ⟨-, ⟨hpost, -⟩, hpre⟩ := hnd
  rw [List.filter_append, List.filter_cons_of_neg (by simp)]
  congr 1
  · refine List.filter_eq_self.mpr fun x hx => ?_
    simpa using hpre x.index ⟨x, hx, rfl⟩ id.index (.inl rfl)
  · refine List.filter_eq_self.mpr fun x hx => ?_
    simpa using fun he => hpost ⟨x, hx, he⟩

theorem Inv.filter_other (h : Inv s) (hid : id ∈ s.linked) {k : Nat}
    (hk : s.arena.inRegion k id = false) :
    (s.linked.filter (s.arena.inRegion k)).filter (·.index ≠ id.index) =
      s.linked.filter (s.arena.inRegion k) := by
  refine List.filter_eq_self.mpr fun x hx => ?_
  rw [List.mem_filter] at hx
  rw [decide_eq_true_eq]
  intro he
  rw [List.inj_on_of_nodup_map h.nodup hx.1 hid he, hk] at hx
  exact Bool.noConfusion hx.2

/-- After unlinking, every list lacks the removed cell and nothing else. -/
theorem Inv.unlink_chains (h : Inv s) (hid : id ∈ s.linked) (hn : s.arena.node id = .ok n)
    {k : Nat} {r₀ : Region} (hr₀ : (s.arena.unlink id n).regions[k]? = some r₀) :
    Chain (s.arena.unlink id n).nextOf .NONE r₀.firstNode
      ((s.linked.filter (s.arena.inRegion k)).filter (·.index ≠ id.index)) := by
  obtain ⟨n', r, hn', hv⟩ := h.resolves id hid
  rw [hn, Except.ok.injEq] at hn'
  subst hn'
  have hc := h.chains _ _ (region_of_validate hv)
  have hin : ∀ k, s.arena.inRegion k id = (n.region.index == k) := fun k => by
    simp only [IrArena.inRegion, hn]
  have hmem : id ∈ s.linked.filter (s.arena.inRegion n.region.index) :=
    List.mem_filter.mpr ⟨hid, by simp [hin]⟩
  have hlen : (s.linked.filter (s.arena.inRegion n.region.index)).length ≤
      s.arena.slots.length := by
    have hsub : (s.linked.map (·.index)).Subperm (List.range s.arena.slots.length) :=
      List.subperm_of_subset h.nodup fun i hi => by
        rw [List.mem_range]
        exact (IrArena.mem_liveSlots.mp ((h.live i).mp hi)).1
    have := hsub.length_le
    rw [List.length_map, List.length_range] at this
    exact (List.length_filter_le _ _).trans this
  rcases unlink_cases hv hc hmem (h.nodup.of_map.filter _) hlen with
    ⟨post, hl, hu⟩ | ⟨pre, p, post, m, hl, hm, hu⟩
  · rw [hu] at hr₀ ⊢
    simp only [IrArena.setFirstNode, List.getElem?_modify, Option.map_eq_map,
      Option.map_eq_some_iff] at hr₀
    obtain ⟨r₁, hr₁, rfl⟩ := hr₀
    by_cases hk : n.region.index = k
    · subst hk
      rw [if_pos rfl, @Inv.filter_region _ _ h _ [] _ hl]
      rw [hl] at hc
      obtain ⟨y, hy, -, ht⟩ := hc.tail
      obtain ⟨m, hm, rfl⟩ := nextOf_eq_some.mp hy
      rw [hn, Except.ok.injEq] at hm
      exact hm ▸ ht
    · rw [if_neg hk, h.filter_other hid (by simp [hin, hk])]
      exact h.chains k r₁ hr₁
  · have hp : p ∈ s.linked.filter (s.arena.inRegion n.region.index) := by
      rw [hl]
      simp
    have hpset : (s.arena.unlink id n).nextOf p = some n.nextInRegion := by
      rw [hu, nextOf_eq_some]
      refine ⟨{ m with nextInRegion := n.nextInRegion }, ?_, rfl⟩
      simp [IrArena.node, IrArena.index_lt_of_node hm]
    have hother : ∀ y ∈ s.linked, y ≠ p →
        (s.arena.unlink id n).nextOf y = s.arena.nextOf y := by
      intro y hy hne
      have hi : p.index ≠ y.index := fun he =>
        hne (List.inj_on_of_nodup_map h.nodup hy (List.mem_of_mem_filter hp) he.symm)
      rw [hu]
      simp only [IrArena.nextOf, IrArena.node, List.getElem?_set_ne hi]
    rw [show (s.arena.unlink id n).regions = s.arena.regions from by rw [hu]] at hr₀
    have hnd := h.nodup.of_map.filter (s.arena.inRegion n.region.index)
    by_cases hk : n.region.index = k
    · subst hk
      rw [region_of_validate hv, Option.some.injEq] at hr₀
      subst hr₀
      rw [@Inv.filter_region _ _ h _ (pre ++ [p]) _ (by simpa using hl),
        List.append_assoc, List.singleton_append]
      have hl' := hl
      rw [hl] at hc hnd
      refine hc.bypass ?_ fun y hy => hother y ?_ ?_
      · rw [hpset, eq_comm, nextOf_eq_some]
        exact ⟨n, hn, rfl⟩
      · have hy : y ∈ s.linked.filter (s.arena.inRegion n.region.index) := by
          rw [hl']
          simp only [List.mem_append, List.mem_cons] at hy ⊢
          tauto
        exact List.mem_of_mem_filter hy
      · rintro rfl
        simp only [List.nodup_append, List.nodup_cons, List.mem_cons, List.mem_append] at hnd hy
        rcases hy with hy | hy
        · exact hnd.2.2 y hy y (.inl rfl) rfl
        · exact hnd.2.1.1 (.inr hy)
    · rw [h.filter_other hid (by simp [hin, hk])]
      refine (h.chains k r₀ hr₀).congr fun y hy => ?_
      rw [List.mem_filter] at hy hp
      refine hother y hy.1 ?_
      rintro rfl
      have hpk := hp.2
      have hyk := hy.2
      rw [IrArena.inRegion] at hpk hyk
      rw [hm, beq_iff_eq] at hpk hyk
      exact hk (hpk ▸ hyk)

theorem Inv.remove (h : Inv s) (hid : id ∈ s.linked) (hr : s.arena.removeNode id = .ok a) :
    Inv ⟨a, s.without id⟩ := by
  have hrem := IrArena.removeNode_ok hr
  obtain ⟨n, r, hn, hv⟩ := h.resolves id hid
  rw [IrArena.removeNode_eq_release hn, Except.ok.injEq] at hr
  have hkept : ∀ x, x ∈ s.without id ↔ x ∈ s.linked ∧ x.index ≠ id.index := by
    intro x
    rw [without, List.mem_filter, decide_eq_true_eq]
  have hnode : ∀ x ∈ s.without id, ∃ m m', s.arena.node x = .ok m ∧ a.node x = .ok m' ∧
      m'.region = m.region := by
    intro x hx
    obtain ⟨hx, hne⟩ := (hkept x).mp hx
    obtain ⟨m, -, hm, -⟩ := h.resolves x hx
    have ho := hrem.others _ hne
    rw [IrArena.slot_of_node hm, Option.map_some, Option.map_eq_some_iff] at ho
    obtain ⟨t, ht, hu⟩ := ho
    obtain ⟨hg, -, -, hregion⟩ := IrArena.unlinked_eq hu
    refine ⟨m, t.node, hm, ?_, hregion⟩
    simp [IrArena.node, ht, show t.generation = x.generation from hg]
  have hregions : a.regions = (s.arena.unlink id n).regions := by rw [← hr]; rfl
  have hgenerations : ∀ (k : Nat) r₁, s.arena.regions[k]? = some r₁ →
      ∃ r', a.regions[k]? = some r' ∧ r'.generation = r₁.generation := by
    intro k r₁ hr₁
    have hg := congrArg (·[k]?) (@unlink_generations s.arena id n)
    simp only [List.getElem?_map, hr₁, Option.map_some, Option.map_eq_some_iff] at hg
    rwa [hregions]
  refine ⟨?_, ?_, ?_, ?_, ?_, ?_, ?_, ?_⟩
  all_goals dsimp only
  · rw [hrem.free, hrem.length]
    exact List.forall_mem_cons.mpr ⟨IrArena.index_lt_of_node hn, h.free_lt⟩
  · have hlive := (h.live id.index).mp (List.mem_map.mpr ⟨id, hid, rfl⟩)
    rw [hrem.free, List.nodup_cons]
    exact ⟨(IrArena.mem_liveSlots.mp hlive).2, h.free_nodup⟩
  · exact h.nodup.sublist (List.filter_sublist.map _)
  · exact fun i => (hrem.live_map (f := fun x => x) (fun i => (h.live i).symm) hkept i).symm
  · exact fun x hx => h.ne_none x ((hkept x).mp hx).1
  · intro x hx
    obtain ⟨m, m', hm, hm', hregion⟩ := hnode x hx
    obtain ⟨m₀, r₀, hm₀, hr₀⟩ := h.resolves x ((hkept x).mp hx).1
    rw [hm, Except.ok.injEq] at hm₀
    subst hm₀
    obtain ⟨r', hr'⟩ := validateRegion_congr hr₀ fun r₁ hr₁ => hgenerations _ r₁ hr₁
    exact ⟨m', r', hm', hregion ▸ hr'⟩
  · intro r₀ hr₀
    have hg : r₀.generation ∈ a.regions.map (·.generation) := List.mem_map.mpr ⟨r₀, hr₀, rfl⟩
    rw [hregions, unlink_generations] at hg
    obtain ⟨r₁, hr₁, he⟩ := List.mem_map.mp hg
    exact he ▸ h.generations r₁ hr₁
  · intro k r₀ hr₀
    rw [hregions] at hr₀
    have hc := h.unlink_chains hid hn hr₀
    have hfilter : (s.without id).filter (a.inRegion k) =
        (s.linked.filter (s.arena.inRegion k)).filter (·.index ≠ id.index) := by
      rw [List.filter_comm]
      refine List.filter_congr fun x hx => ?_
      obtain ⟨m, m', hm, hm', hregion⟩ := hnode x hx
      simp only [IrArena.inRegion, hm, hm', hregion]
    rw [hfilter]
    refine hc.congr fun x hx => ?_
    have hi : id.index ≠ x.index := by
      rw [List.mem_filter, decide_eq_true_eq] at hx
      exact Ne.symm hx.2
    rw [← hr]
    simp only [IrArena.nextOf, IrArena.node, IrArena.release, List.getElem?_modify_ne _ _ hi]

-- ---------------------------------------------------------------------------
-- Runs
-- ---------------------------------------------------------------------------

theorem inv_start : Inv (start nodes regions) := by
  obtain ⟨hslots, hfree⟩ := Session.slots_withCapacity nodes regions
  have hs : (start nodes regions).arena.slots = [] := hslots
  have hf : (start nodes regions).arena.nodeFree = [] := hfree
  have hl : (start nodes regions).linked = [] := rfl
  have hregions : ∀ x ∈ (start nodes regions).arena.regions, x = ⟨.NONE, .NONE, .NONE, 0⟩ := by
    unfold start IrArena.withCapacity IrArena.newRegion
    cases regions <;> simp
  refine ⟨by simp [hf], by simp [hf], by simp [hl], fun i => ?_, by simp [hl], by simp [hl],
    fun x hx => ?_, fun k x hx => ?_⟩
  · simp [hl, IrArena.mem_liveSlots, hs]
  · rw [hregions x hx]
  · rw [hregions x (List.mem_of_getElem? hx), hl]
    exact .nil

theorem Inv.edit {e : Edit} (h : Inv s)
    (hn : match e with
      | .removeNode id => s.Names id
      | _ => True) (he : s.edit e = .ok t) : Inv t := by
  obtain ⟨a, ha, rfl⟩ := map_ok.mp he
  cases e with
  | replaceAllUses source target =>
    cases ha
    exact h.sameLinks (replaceAllUses_sameLinks _ _ _)
  | removeNode id =>
    simp only [applyEdit] at ha
    split at ha
    · next b hb =>
      cases ha
      exact h.remove (hn (IrArena.removeNode_ok hb).node_ok) hb
    · cases ha
    · cases ha
  | setOp id op =>
    rw [applyEdit, mapError_ok] at ha
    exact h.sameLinks (modifyNode_sameLinks (f := fun n => { n with op }) (fun _ => ⟨rfl, rfl⟩) ha)
  | setEffectIn id effect =>
    rw [applyEdit, mapError_ok] at ha
    exact h.sameLinks (modifyNode_sameLinks (f := fun n => { n with effectIn := effect })
      (fun _ => ⟨rfl, rfl⟩) ha)

theorem Inv.foldlM_edit {log : List Edit} (h : Inv s) (hn : s.NamesAll log)
    (hf : log.foldlM Listing.edit s = .ok t) : Inv t := by
  induction log generalizing s with
  | nil =>
    cases hf
    exact h
  | cons e log ih =>
    rw [List.foldlM_cons, bind_ok] at hf
    obtain ⟨u, hu, hf⟩ := hf
    exact ih (h.edit hn.1 hu) (hn.2 u hu) hf

theorem Inv.step {action : Action} (h : Inv s) (hm : s.Meets action) : Inv (s.step action) := by
  cases action with
  | newRegion parent owner =>
    simp only [Listing.step]
    split
    · next hr => exact h.newRegion hr
    · exact h
  | insertNode region node =>
    simp only [Listing.step]
    split
    · next hi => exact h.insert hi
    · exact h
  | removeNode id =>
    simp only [Listing.step]
    split
    · next hr => exact h.remove (hm (IrArena.removeNode_ok hr).node_ok) hr
    · exact h
  | commit log verify =>
    simp only [Listing.step]
    split
    · next t ht =>
      obtain ⟨u, hu, ht⟩ := bind_ok.mp ht
      split at ht
      · cases ht
        exact h.foldlM_edit hm hu
      · cases ht
    · exact h

/-- The lists match in every state of a run that removes nodes under the
handles they were inserted under. -/
theorem listsMatch_of_run (h : Run nodes regions s) : ListsMatch s := by
  have hinv : Inv s := by
    induction h with
    | start => exact inv_start
    | step _ hm ih => exact ih.step hm
  refine ⟨?_, fun rid x hx => ?_⟩
  · exact (List.perm_ext_iff_of_nodup hinv.nodup s.arena.liveSlots_nodup).mpr hinv.live
  · simp only [IrArena.allRegions, List.mem_map, Prod.exists, Prod.mk.injEq] at hx
    obtain ⟨x', k, hk, rfl, rfl⟩ := hx
    exact hinv.chains k x' (List.mem_zipIdx_iff_getElem?.mp hk)

/-- A constant whose op a commit moves to the fusion level. -/
def relevelled : Listing :=
  [.insertNode (.pack 0 0) (.new (.constI64 0) (.pack 0 0) [] (.scalar .i64)),
    .commit [.setOp (.pack 0 0 .graph) .fusionCluster] fun a => (verify a).toBool].foldl step
    (start 4 2)

theorem run_relevelled : Run 4 2 relevelled := by
  have hinsert : Run 4 2 (step (start 4 2) (.insertNode (.pack 0 0)
      (.new (.constI64 0) (.pack 0 0) [] (.scalar .i64)))) := .step .start trivial
  refine @Run.step 4 2 _ (.commit [.setOp (.pack 0 0 .graph) .fusionCluster]
    fun a => (verify a).toBool) hinsert ?_
  exact ⟨trivial, fun _ _ => trivial⟩

theorem listsMatch_of_run_relevelled :
    ListsMatch (relevelled.step (.removeNode (.pack 0 0 .graph))) :=
  listsMatch_of_run (.step run_relevelled fun _ => by decide)

/-- The handle under which `liveNodes` now reports the node leaves its link
behind. -/
theorem relevelled_not_listsMatch :
    .pack 0 0 .fusion ∈ relevelled.arena.liveIds ∧
      ¬ ListsMatch (relevelled.step (.removeNode (.pack 0 0 .fusion))) := by
  refine ⟨by decide, fun h => ?_⟩
  have hchain := h.chains (.pack 0 0) ⟨.NONE, .pack 0 0 .graph, .NONE, 0⟩ (by decide)
  have hlinked : (relevelled.step (.removeNode (.pack 0 0 .fusion))).linked = [] := by decide
  rw [hlinked] at hchain
  cases hchain

end Listing

end Sxla
