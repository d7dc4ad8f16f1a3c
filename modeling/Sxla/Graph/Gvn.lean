import Sxla.Graph.Dominance
import Sxla.Ir.Hash
import Sxla.Ir.Live
import Mathlib.Data.List.Induction

/-!
# Global value numbering

One walk over the live nodes in slot order. The table sends a structural
hash to the first node that had it; a later node that is congruent to that
representative, and dominated by it, hands its uses over and is removed at
the end. The tree map of the source is an association list here.
-/

namespace Sxla

open Checked

inductive PassError where
  | dominanceBuildFailed (e : DominanceError)
  | internal
deriving DecidableEq, Repr

namespace Gvn

/-- The running state of the walk. -/
structure Walk where
  arena : IrArena
  canon : List (Option NodeId)
  table : List (UInt64 × NodeId)
  removals : List NodeId
  changed : Nat

namespace Walk

def start (a : IrArena) : Walk := ⟨a, List.replicate a.slotCount none, [], [], 0⟩

/-- The representative of the node that defines a value. -/
def rep (s : Walk) (v : ValueId) : NodeId := (s.canon[v.node.index]?).join.getD v.node

def key (s : Walk) (n : Node) : UInt64 :=
  (n.valueInputs.foldl (fun h v => h.writeU64 (s.rep v).toWord) (n.op.hashInto .new)).finish

def setCanon (s : Walk) (id rep : NodeId) : Walk :=
  { s with canon := s.canon.set id.index (some rep) }

def insert (s : Walk) (key : UInt64) (id : NodeId) : Walk :=
  { s with table := (key, id) :: s.table }

/-- The full congruence test between a representative and a node. -/
def congruent (s : Walk) (tree : DominatorTree) (d n : Node) : Bool :=
  d.ty == n.ty && tree.dominates d.region n.region && d.nInputs == n.nInputs &&
    d.op.sameAs n.op &&
    (n.valueInputs.zip d.valueInputs).all fun (mine, theirs) => s.rep mine == s.rep theirs

end Walk

def replaceUse (old new : ValueId) (n : Node) : Node :=
  { n with
    inputs := n.inputs.map fun v => if v = old then new else v
    effectIn := if n.effectIn = old then new else n.effectIn }

def replaceUses (a : IrArena) (old new : ValueId) : IrArena :=
  a.liveIds.foldl (fun a id => a.rewrite id (replaceUse old new)) a

def Walk.merge (s : Walk) (id rep : NodeId) : Walk :=
  { s with
    arena := replaceUses s.arena (.fromNode id 0) (.fromNode rep 0)
    removals := s.removals ++ [id]
    canon := s.canon.set id.index (some rep)
    changed := s.changed + 1 }

def visit (tree : DominatorTree) (s : Walk) : NodeId × Node → Except PassError Walk
  | (id, n) =>
    if !n.op.isPure then .ok (s.setCanon id id)
    else
      match s.table.lookup (s.key n) with
      | none => .ok ((s.insert (s.key n) id).setCanon id id)
      | some rep =>
        match s.arena.node rep with
        | .error _ => .error .internal
        | .ok d => .ok (if s.congruent tree d n then s.merge id rep else s.setCanon id id)

def walk (tree : DominatorTree) (a : IrArena) (l : List (NodeId × Node)) : Except PassError Walk :=
  l.foldlM (visit tree) (.start a)

/-- The arena without its duplicates and the number of merges. -/
def run (a : IrArena) : Except PassError (IrArena × Nat) := do
  let tree ← (DominatorTree.build a).mapError .dominanceBuildFailed
  let s ← walk tree a a.liveNodes
  let b ← s.removals.foldlM (fun a id => (a.removeNode id).mapError fun _ => .internal) s.arena
  return (b, s.changed)

-- ---------------------------------------------------------------------------
-- One visit
-- ---------------------------------------------------------------------------

/-- The visit of a node takes the merging branch. -/
def merges (tree : DominatorTree) (s : Walk) : NodeId × Node → Bool
  | (_, n) => n.op.isPure &&
    match s.table.lookup (s.key n) with
    | none => false
    | some rep =>
      match s.arena.node rep with
      | .error _ => false
      | .ok d => s.congruent tree d n

/-- What the walk keeps: the handles of the arena, and a table of nodes that
were visited. -/
structure Inv (a : IrArena) (seen : List NodeId) (s : Walk) : Prop where
  handles : a.SameHandles s.arena
  table : ∀ e ∈ s.table, e.2 ∈ seen

variable {a : IrArena} {tree : DominatorTree} {s s' t : Walk} {e : NodeId × Node}
  {l : List (NodeId × Node)} {seen : List NodeId} {x : NodeId}

theorem replaceUses_sameHandles {old new : ValueId} : a.SameHandles (replaceUses a old new) :=
  IrArena.foldl_sameHandles _ fun _ _ => IrArena.rewrite_sameHandles

theorem start_inv : Inv a [] (.start a) := ⟨.refl, by simp [Walk.start]⟩

theorem mem_of_lookup {table : List (UInt64 × NodeId)} (h : table.lookup k = some x) :
    (k, x) ∈ table := by
  induction table with
  | nil => simp at h
  | cons e table ih =>
    obtain ⟨k', y⟩ := e
    rw [List.lookup_cons] at h
    split at h
    · next hk =>
      cases h
      rw [beq_iff_eq] at hk
      simp [hk]
    · exact List.mem_cons_of_mem _ (ih h)

section
variable {id rep : NodeId} {n d : Node}

theorem visit_impure (hp : n.op.isPure = false) :
    visit tree s (id, n) = .ok (s.setCanon id id) ∧ merges tree s (id, n) = false := by
  simp [visit, merges, hp]

theorem visit_fresh (hp : n.op.isPure = true) (hk : s.table.lookup (s.key n) = none) :
    visit tree s (id, n) = .ok ((s.insert (s.key n) id).setCanon id id) ∧
      merges tree s (id, n) = false := by
  simp [visit, merges, hp, hk]

theorem visit_known (hp : n.op.isPure = true) (hk : s.table.lookup (s.key n) = some rep)
    (hd : s.arena.node rep = .ok d) :
    visit tree s (id, n) =
        .ok (if s.congruent tree d n then s.merge id rep else s.setCanon id id) ∧
      merges tree s (id, n) = s.congruent tree d n := by
  simp [visit, merges, hp, hk, hd]

end

/-- One visit: it succeeds, keeps the invariant, and removes the visited
node exactly when it merges. -/
theorem visit_spec (h : Inv a seen s) (hl : ∀ id ∈ seen, a.IsLive id) :
    ∃ s', visit tree s e = .ok s' ∧ Inv a (seen ++ [e.1]) s' ∧
      s'.removals = s.removals ++ if merges tree s e then [e.1] else [] := by
  obtain ⟨id, n⟩ := e
  have hseen : ∀ e ∈ s.table, e.2 ∈ seen ++ [id] :=
    fun e he => List.mem_append_left _ (h.table e he)
  cases hp : n.op.isPure with
  | false =>
    obtain ⟨hv, hm⟩ := @visit_impure tree s id _ hp
    exact ⟨_, hv, ⟨h.handles, hseen⟩, by simp [hm, Walk.setCanon]⟩
  | true =>
    cases hk : s.table.lookup (s.key n) with
    | none =>
      obtain ⟨hv, hm⟩ := @visit_fresh tree _ id _ hp hk
      refine ⟨_, hv, ⟨h.handles, ?_⟩, by simp [hm, Walk.setCanon, Walk.insert]⟩
      intro e he
      rcases List.mem_cons.mp he with rfl | he
      · simp
      · exact hseen e he
    | some rep =>
      have hrep : s.arena.IsLive rep :=
        h.handles.isLive_iff.mpr (hl rep (h.table _ (mem_of_lookup hk)))
      obtain ⟨_, d, hd⟩ := hrep
      obtain ⟨hv, hm⟩ := @visit_known tree _ id _ _ _ hp hk hd
      refine ⟨_, hv, ?_, ?_⟩
      · split
        · exact ⟨h.handles.trans replaceUses_sameHandles, hseen⟩
        · exact ⟨h.handles, hseen⟩
      · rw [hm]
        split <;> simp [Walk.merge, Walk.setCanon]

-- ---------------------------------------------------------------------------
-- The walk and the run
-- ---------------------------------------------------------------------------

/-- The walk over `l` takes the merging branch where it visits `x`. -/
def MergedIn (tree : DominatorTree) (a : IrArena) (l : List (NodeId × Node)) (x : NodeId) : Prop :=
  ∃ l₁ n l₂ s, l = l₁ ++ (x, n) :: l₂ ∧ walk tree a l₁ = .ok s ∧ merges tree s (x, n) = true

/-- The last visit of a walk starts where the walk before it ends. -/
theorem visited_append {P : Walk → NodeId × Node → Prop} (hs : walk tree a l = .ok s) :
    (∃ l₁ n l₂ u, l ++ [e] = l₁ ++ (x, n) :: l₂ ∧ walk tree a l₁ = .ok u ∧ P u (x, n)) ↔
      (∃ l₁ n l₂ u, l = l₁ ++ (x, n) :: l₂ ∧ walk tree a l₁ = .ok u ∧ P u (x, n)) ∨
        (P s e ∧ e.1 = x) := by
  constructor
  · rintro ⟨l₁, n, l₂, u, hl, hu, hm⟩
    rcases List.eq_nil_or_concat l₂ with rfl | ⟨r, f, rfl⟩
    · obtain ⟨rfl, he⟩ := List.append_inj' hl rfl
      rw [hs, Except.ok.injEq] at hu
      rw [List.singleton_inj] at he
      subst hu he
      exact .inr ⟨hm, rfl⟩
    · rw [List.concat_eq_append, ← List.cons_append, ← List.append_assoc] at hl
      obtain ⟨rfl, -⟩ := List.append_inj' hl rfl
      exact .inl ⟨l₁, n, r, u, rfl, hu, hm⟩
  · rintro (⟨l₁, n, l₂, u, rfl, hu, hm⟩ | ⟨hm, rfl⟩)
    · exact ⟨l₁, n, l₂ ++ [e], u, by simp, hu, hm⟩
    · exact ⟨l, e.2, [], s, rfl, hs, hm⟩

theorem mergedIn_append (hs : walk tree a l = .ok s) :
    MergedIn tree a (l ++ [e]) x ↔ MergedIn tree a l x ∨ (merges tree s e = true ∧ e.1 = x) :=
  visited_append (P := fun u f => merges tree u f = true) hs

theorem walk_spec (hl : ∀ e ∈ l, a.IsLive e.1) :
    ∃ t, walk tree a l = .ok t ∧ Inv a (l.map (·.1)) t ∧
      t.removals.Sublist (l.map (·.1)) ∧ ∀ x, x ∈ t.removals ↔ MergedIn tree a l x := by
  induction l using List.reverseRecOn with
  | nil => exact ⟨_, rfl, start_inv, by simp [Walk.start], by simp [Walk.start, MergedIn]⟩
  | append_singleton l e ih =>
    have hl' : ∀ e ∈ l, a.IsLive e.1 := fun e he => hl e (List.mem_append_left _ he)
    obtain ⟨s, hs, hinv, hsub, hmem⟩ := ih hl'
    have hseen : ∀ id ∈ l.map (·.1), a.IsLive id := by
      rintro id hid
      obtain ⟨e, he, rfl⟩ := List.mem_map.mp hid
      exact hl' e he
    obtain ⟨t, ht, hinv', hrem⟩ := @visit_spec _ tree _ e _ hinv hseen
    refine ⟨t, ?_, by simpa using hinv', ?_, fun x => ?_⟩
    · rw [walk, foldlM_append_cons]
      rw [walk] at hs
      simp only [hs, bind, Except.bind, ht, List.foldlM_nil]
      rfl
    · rw [hrem, List.map_append]
      refine hsub.append ?_
      split <;> simp
    · rw [mergedIn_append hs, ← hmem, hrem, List.mem_append]
      refine or_congr_right ?_
      cases hm : merges tree s e <;> simp [eq_comm]

theorem walk_liveNodes (h : DominatorTree.build a = .ok tree) :
    ∃ b k, run a = .ok (b, k) ∧
      ∀ x, b.IsLive x ↔ a.IsLive x ∧ ∀ y, MergedIn tree a a.liveNodes y → y.index ≠ x.index := by
  have hlive : ∀ e ∈ a.liveNodes, a.IsLive e.1 := fun e he => IrArena.isLive_of_live he
  obtain ⟨t, ht, hinv, hsub, hmem⟩ := @walk_spec _ tree _ hlive
  have hremovals : ∀ id ∈ t.removals, t.arena.IsLive id := fun id hid =>
    hinv.handles.isLive_iff.mpr (IrArena.isLive_of_mem_liveIds (hsub.subset hid))
  have hnodup : (t.removals.map (·.index)).Nodup := by
    have hsub' := hsub.map (·.index)
    rw [List.map_map] at hsub'
    exact (IrArena.map_index_liveNodes a ▸ a.liveSlots_nodup).sublist hsub'
  obtain ⟨b, hb, -, -, hlive'⟩ :=
    @IrArena.removeAll_spec _ _ _ (fun _ => PassError.internal) hremovals hnodup
  refine ⟨b, t.changed, ?_, fun x => ?_⟩
  · exact bind_ok.mpr ⟨tree, by rw [h]; rfl, bind_ok.mpr ⟨t, ht, bind_ok.mpr ⟨b, hb, rfl⟩⟩⟩
  · rw [hlive', hinv.handles.isLive_iff]
    simp only [List.mem_map, hmem, not_exists, not_and, ne_eq]

end Gvn

end Sxla
