import Sxla.Ir.Arena
import Sxla.Library.Ends

/-!
# Live handles under edits

A handle is live when it resolves and its slot is not free. Edits that only
rewrite node contents (`SameHandles`) keep every live handle; removing a node
ends exactly the handles of its slot.
-/

namespace Sxla

open Checked

namespace IrArena

variable {a b c : IrArena} {id x : NodeId} {n : Node}

def IsLive (a : IrArena) (id : NodeId) : Prop :=
  id.index ∉ a.nodeFree ∧ ∃ n, a.node id = .ok n

/-- The two arenas agree on which handles resolve and which slots are free. -/
structure SameHandles (a b : IrArena) : Prop where
  free : b.nodeFree = a.nodeFree
  generations : b.slots.map (·.generation) = a.slots.map (·.generation)

theorem SameHandles.refl : SameHandles a a := ⟨rfl, rfl⟩

theorem SameHandles.trans (h : SameHandles a b) (h' : SameHandles b c) : SameHandles a c :=
  ⟨h'.free.trans h.free, h'.generations.trans h.generations⟩

theorem exists_node_iff :
    (∃ n, a.node id = .ok n) ↔ (a.slots.map (·.generation))[id.index]? = some id.generation := by
  rw [List.getElem?_map]
  unfold node
  cases a.slots[id.index]? with
  | none => simp
  | some s => by_cases h : s.generation = id.generation <;> simp [h]

instance : Decidable (a.IsLive id) :=
  decidable_of_iff
    (id.index ∉ a.nodeFree ∧
      (a.slots.map (·.generation))[id.index]? = some id.generation)
    (and_congr_right fun _ => exists_node_iff.symm)

theorem SameHandles.isLive_iff (h : SameHandles a b) : b.IsLive id ↔ a.IsLive id := by
  rw [IsLive, IsLive, h.free, exists_node_iff, exists_node_iff, h.generations]

theorem SameHandles.slotCount (h : SameHandles a b) : b.slots.length = a.slots.length := by
  simpa using congrArg List.length h.generations

theorem SameHandles.liveSlots (h : SameHandles a b) : b.liveSlots = a.liveSlots := by
  rw [IrArena.liveSlots, IrArena.liveSlots, h.free, h.slotCount]

theorem isLive_of_live (h : (id, n) ∈ a.liveNodes) : a.IsLive id :=
  ⟨(mem_liveNodes.mp h).1, n, node_of_live h⟩

theorem isLive_of_mem_liveIds (h : id ∈ a.liveIds) : a.IsLive id := by
  obtain ⟨⟨id, n⟩, hn, rfl⟩ := List.mem_map.mp h
  exact isLive_of_live hn

theorem IsLive.index_mem (h : a.IsLive id) : id.index ∈ a.liveSlots := by
  obtain ⟨hf, n, hn⟩ := h
  exact mem_liveSlots.mpr ⟨index_lt_of_node hn, hf⟩

-- ---------------------------------------------------------------------------
-- Rewriting contents
-- ---------------------------------------------------------------------------

theorem modifyNode_sameHandles {f : Node → Node} (h : a.modifyNode id f = .ok b) :
    SameHandles a b := by
  obtain ⟨n, hn, rfl⟩ := map_ok.mp h
  refine ⟨rfl, ?_⟩
  have hg := exists_node_iff.mp ⟨n, hn⟩
  rw [List.map_set]
  refine List.ext_getElem? fun i => ?_
  rw [List.getElem?_set]
  split
  · next hi =>
    subst hi
    rw [hg]
    simp [index_lt_of_node hn]
  · rfl

/-- `if let Ok(node) = arena.node_mut(id)` with a write behind it. -/
def rewrite (a : IrArena) (id : NodeId) (f : Node → Node) : IrArena :=
  match a.modifyNode id f with
  | .ok b => b
  | .error _ => a

theorem rewrite_sameHandles {f : Node → Node} : SameHandles a (a.rewrite id f) := by
  unfold rewrite
  cases h : a.modifyNode id f with
  | ok b => exact modifyNode_sameHandles h
  | error e => exact .refl

theorem node_rewrite_self {f : Node → Node} (h : a.node id = .ok n) :
    (a.rewrite id f).node id = .ok (f n) := by
  have hlt := index_lt_of_node h
  rw [rewrite, modifyNode, h]
  simp [node, Except.map, hlt]

theorem node_rewrite_ne {f : Node → Node} (h : x.index ≠ id.index) :
    (a.rewrite x f).node id = a.node id := by
  unfold rewrite modifyNode
  cases a.node x with
  | error e => rfl
  | ok n => simp [node, Except.map, List.getElem?_set_ne h]

theorem foldl_sameHandles {f : IrArena → α → IrArena} (l : List α)
    (hf : ∀ b x, SameHandles b (f b x)) : SameHandles a (l.foldl f a) := by
  induction l generalizing a with
  | nil => exact .refl
  | cons x l ih => exact (hf a x).trans ih

theorem unlinkFrom_sameHandles {next : NodeId} {fuel : Nat} :
    SameHandles a (a.unlinkFrom id next fuel x) := by
  induction fuel generalizing x with
  | zero => exact .refl
  | succ fuel ih =>
    unfold unlinkFrom
    split
    · exact .refl
    extract_lets nextOfCur
    split
    · cases h : a.modifyNode x fun n => { n with nextInRegion := next } with
      | ok b => exact modifyNode_sameHandles h
      | error e => exact .refl
    · exact ih

-- ---------------------------------------------------------------------------
-- Removing nodes
-- ---------------------------------------------------------------------------

/-- A removal is a rewrite of contents followed by the release of the slot. -/
theorem removeNode_eq (h : a.node id = .ok n) : ∃ u, SameHandles a u ∧
    a.removeNode id = .ok { u with
      slots := u.slots.modify id.index fun s =>
        { s with generation := nextGeneration s.generation }
      nodeFree := id.index :: u.nodeFree } := by
  simp only [removeNode, h]
  refine ⟨_, ?_, rfl⟩
  split
  · exact .refl
  split
  · exact .refl
  split
  · exact ⟨rfl, rfl⟩
  · exact unlinkFrom_sameHandles

theorem removeNode_spec (h : a.node id = .ok n) :
    ∃ b, a.removeNode id = .ok b ∧
      b.slots.length = a.slots.length ∧ b.nodeFree = id.index :: a.nodeFree ∧
      ∀ x, b.IsLive x ↔ a.IsLive x ∧ x.index ≠ id.index := by
  obtain ⟨u, hu, hb⟩ := removeNode_eq h
  refine ⟨_, hb, by simp [hu.slotCount], by simp [hu.free], fun x => ?_⟩
  rw [← hu.isLive_iff]
  by_cases hx : x.index = id.index
  · simp [IsLive, hx]
  · simp only [IsLive, exists_node_iff, List.mem_cons, hx, not_false_eq_true, and_true,
      false_or, ne_eq]
    rw [List.getElem?_map, List.getElem?_map, List.getElem?_modify]
    simp [Ne.symm hx]

/-- Removing live nodes of distinct slots one after the other. -/
theorem removeAll_spec {ids : List NodeId} {onError : ArenaError → ε}
    (hl : ∀ id ∈ ids, a.IsLive id) (hd : (ids.map (·.index)).Nodup) :
    ∃ b, ids.foldlM (fun a id => (a.removeNode id).mapError onError) a = .ok b ∧
      b.slots.length = a.slots.length ∧
      (∀ i, i ∈ b.nodeFree ↔ i ∈ ids.map (·.index) ∨ i ∈ a.nodeFree) ∧
      ∀ x, b.IsLive x ↔ a.IsLive x ∧ x.index ∉ ids.map (·.index) := by
  induction ids generalizing a with
  | nil => exact ⟨a, rfl, rfl, by simp, by simp⟩
  | cons id ids ih =>
    rw [List.map_cons, List.nodup_cons] at hd
    obtain ⟨hf, n, hn⟩ := hl id (by simp)
    obtain ⟨u, hu, hlen, hfree, hlive⟩ := removeNode_spec hn
    have hl' : ∀ x ∈ ids, u.IsLive x := by
      intro x hx
      refine (hlive x).mpr ⟨hl x (List.mem_cons_of_mem _ hx), fun he => hd.1 ?_⟩
      exact List.mem_map.mpr ⟨x, hx, he⟩
    obtain ⟨b, hb, hlen', hfree', hlive'⟩ := ih hl' hd.2
    refine ⟨b, ?_, hlen'.trans hlen, fun i => ?_, fun x => ?_⟩
    · rw [List.foldlM_cons, hu]
      exact hb
    · rw [hfree', hfree, List.map_cons, List.mem_cons, List.mem_cons]
      tauto
    · rw [hlive', hlive, List.map_cons, List.mem_cons]
      tauto

end IrArena

end Sxla
