import Sxla.Graph.RegionTree

/-!
# Links under removals

Insertions give even generations and removals make them odd, so a handle of
an insertion never resolves to a freed slot. All links are such handles,
whatever ops and levels the nodes have by now; a removal leaves the links as
they are, but for one that may be led past the removed node.
-/

namespace Sxla

open Checked

/-- `NONE`, or a handle of an insertion. -/
def Issuable (h : NodeId) : Prop := h = .NONE ∨ h.generation % 2 = 0

/-- A link behind the removal of `id`. -/
def Past (id next x x' : NodeId) : Prop := x' = x ∨ (x = id ∧ x' = next)

theorem Issuable.past {id next x x' : NodeId} (hx : Issuable x) (hp : Past id next x x')
    (hnext : Issuable next) : Issuable x' := by
  rcases hp with rfl | ⟨-, rfl⟩
  · exact hx
  · exact hnext

namespace IrArena

variable {a b : IrArena} {id x next : NodeId} {n : Node} {rid : RegionId} {fuel i : Nat}

/-- What unlinking one node does to the links. -/
structure Bypassed (id next : NodeId) (a b : IrArena) : Prop where
  slot : ∀ (j : Nat) (t : NodeSlot), b.slots[j]? = some t → ∃ s, a.slots[j]? = some s ∧
    t.unlinked = s.unlinked ∧ Past id next s.node.nextInRegion t.node.nextInRegion
  region : ∀ (j : Nat) (r' : Region), b.regions[j]? = some r' → ∃ r, a.regions[j]? = some r ∧
    r'.unlisted = r.unlisted ∧ Past id next r.firstNode r'.firstNode

theorem Bypassed.refl : Bypassed id next a a :=
  ⟨fun _ s hs => ⟨s, hs, rfl, .inl rfl⟩, fun _ r hr => ⟨r, hr, rfl, .inl rfl⟩⟩

theorem unlinkFrom_bypassed : Bypassed id next a (a.unlinkFrom id next fuel x) := by
  induction fuel generalizing x with
  | zero => exact .refl
  | succ fuel ih =>
    unfold unlinkFrom
    split
    · exact .refl
    extract_lets nextOfCur
    split
    · next hcur =>
      cases h : a.modifyNode x fun n => { n with nextInRegion := next } with
      | error e => exact .refl
      | ok b =>
        obtain ⟨m, hm, rfl⟩ := map_ok.mp h
        have hlink : m.nextInRegion = id := by
          rw [← hcur]
          simp only [nextOfCur, hm]
        refine ⟨fun j t ht => ?_, fun _ r hr => ⟨r, hr, rfl, .inl rfl⟩⟩
        rw [List.getElem?_set] at ht
        split at ht
        · next hj =>
          subst hj
          rw [if_pos (index_lt_of_node hm)] at ht
          cases ht
          exact ⟨_, slot_of_node hm, rfl, .inr ⟨hlink, rfl⟩⟩
        · exact ⟨t, ht, rfl, .inl rfl⟩
    · exact ih

theorem setFirstNode_bypassed {r : Region} (hr : a.regions[i]? = some r)
    (hfirst : r.firstNode = id) : Bypassed id next a (a.setFirstNode i next) := by
  refine ⟨fun _ s hs => ⟨s, hs, rfl, .inl rfl⟩, fun j r' hr' => ?_⟩
  rw [setFirstNode, List.getElem?_modify] at hr'
  obtain ⟨r₀, hr₀, heq⟩ := Option.map_eq_some_iff.mp hr'
  refine ⟨r₀, hr₀, ?_⟩
  split at heq
  · next hij =>
    subst hij
    cases Option.some.inj (hr.symm.trans hr₀)
    cases heq
    exact ⟨rfl, .inr ⟨hfirst, rfl⟩⟩
  · cases heq
    exact ⟨rfl, .inl rfl⟩

theorem unlink_bypassed : Bypassed id n.nextInRegion a (a.unlink id n) := by
  unfold unlink
  split
  · exact .refl
  split
  · exact .refl
  next r hr =>
  split
  · next hfirst =>
    exact setFirstNode_bypassed (region_eq_ok.mp hr).2.1 hfirst
  · exact unlinkFrom_bypassed

/-- The slots and regions behind a removal. -/
structure Excised (id : NodeId) (n : Node) (a b : IrArena) : Prop where
  length : b.slots.length = a.slots.length
  free : b.nodeFree = id.index :: a.nodeFree
  self : ∀ s t, a.slots[id.index]? = some s → b.slots[id.index]? = some t →
    t.generation = nextGeneration s.generation ∧
      Past id n.nextInRegion s.node.nextInRegion t.node.nextInRegion
  slot : ∀ (j : Nat) (t : NodeSlot), j ≠ id.index → b.slots[j]? = some t →
    ∃ s, a.slots[j]? = some s ∧ t.unlinked = s.unlinked ∧
      Past id n.nextInRegion s.node.nextInRegion t.node.nextInRegion
  region : ∀ (j : Nat) (r' : Region), b.regions[j]? = some r' → ∃ r, a.regions[j]? = some r ∧
    r'.unlisted = r.unlisted ∧ Past id n.nextInRegion r.firstNode r'.firstNode

theorem removeNode_excised (h : a.removeNode id = .ok b) :
    ∃ n, a.node id = .ok n ∧ Excised id n a b := by
  have hrem := removeNode_ok h
  obtain ⟨n, hn⟩ := hrem.node_ok
  have hby := @unlink_bypassed a id n
  rw [removeNode_eq_release hn, Except.ok.injEq] at h
  subst h
  refine ⟨n, hn, hrem.length, hrem.free, fun s t hs ht => ?_, fun j t hj ht => ?_, hby.region⟩
  · rw [release, List.getElem?_modify_eq] at ht
    obtain ⟨u, hu, rfl⟩ := Option.map_eq_some_iff.mp ht
    obtain ⟨s', hs', heq, hpast⟩ := hby.slot _ _ hu
    cases Option.some.inj (hs.symm.trans hs')
    exact ⟨by rw [(unlinked_eq heq).1], hpast⟩
  · rw [release, List.getElem?_modify_ne _ _ (Ne.symm hj)] at ht
    exact hby.slot j t ht

-- ---------------------------------------------------------------------------
-- The invariant
-- ---------------------------------------------------------------------------

/-- Freed slots are those of odd generation, and links are handles of
insertions. -/
structure LinksOk (a : IrArena) : Prop where
  free_lt : ∀ i ∈ a.nodeFree, i < a.slots.length
  free_nodup : a.nodeFree.Nodup
  parity : ∀ (i : Nat) (s : NodeSlot), a.slots[i]? = some s →
    (i ∈ a.nodeFree ↔ s.generation % 2 = 1)
  next : ∀ (i : Nat) (s : NodeSlot), a.slots[i]? = some s → Issuable s.node.nextInRegion
  first : ∀ (i : Nat) (r : Region), a.regions[i]? = some r → Issuable r.firstNode

theorem nextGeneration_parity (g : Nat) : nextGeneration g % 2 = (g + 1) % 2 := by
  unfold nextGeneration
  omega

/-- A handle of an insertion resolves to live nodes only. -/
theorem LinksOk.live (h : LinksOk a) (hx : Issuable x) (hne : x ≠ .NONE) (hn : a.node x = .ok n) :
    x.index ∈ a.liveSlots := by
  have hslot := slot_of_node hn
  refine mem_liveSlots.mpr ⟨index_lt_of_node hn, fun hfree => ?_⟩
  have hodd := (h.parity _ _ hslot).mp hfree
  rcases hx with rfl | heven
  · exact hne rfl
  · have hodd : x.generation % 2 = 1 := hodd
    omega

theorem LinksOk.remove (h : LinksOk a) (hlive : a.IsLive id) (hr : a.removeNode id = .ok b) :
    LinksOk b := by
  obtain ⟨n, hn, hex⟩ := removeNode_excised hr
  have hself := slot_of_node hn
  have hnext : Issuable n.nextInRegion := h.next _ _ hself
  have heven : ¬ id.generation % 2 = 1 := fun hodd => hlive.1 ((h.parity _ _ hself).mpr hodd)
  refine ⟨fun i hi => ?_, ?_, fun i t ht => ?_, fun i t ht => ?_, fun i r hr => ?_⟩
  · rw [hex.free, List.mem_cons] at hi
    rw [hex.length]
    rcases hi with rfl | hi
    · exact index_lt_of_node hn
    · exact h.free_lt i hi
  · rw [hex.free, List.nodup_cons]
    exact ⟨hlive.1, h.free_nodup⟩
  · rw [hex.free, List.mem_cons]
    by_cases hi : i = id.index
    · subst hi
      rw [(hex.self _ _ hself ht).1, nextGeneration_parity]
      refine iff_of_true (.inl rfl) ?_
      show (id.generation + 1) % 2 = 1
      omega
    · obtain ⟨s, hs, heq, -⟩ := hex.slot i t hi ht
      rw [(unlinked_eq heq).1, ← h.parity i s hs]
      simp [hi]
  · by_cases hi : i = id.index
    · subst hi
      exact hnext.past (hex.self _ _ hself ht).2 hnext
    · obtain ⟨s, hs, -, hpast⟩ := hex.slot i t hi ht
      exact (h.next i s hs).past hpast hnext
  · obtain ⟨r₀, hr₀, -, hpast⟩ := hex.region i r hr
    exact (h.first i r₀ hr₀).past hpast hnext

theorem LinksOk.insert (h : LinksOk a) (hi : a.insertNode rid n = .ok (id, b)) : LinksOk b := by
  have hins := insertNode_ok h.free_lt hi
  obtain ⟨r, hr, hself⟩ := hins.region_ok
  obtain ⟨hdead, hle, hnd, hnotfree, hfree⟩ := nextSlot_free h.free_lt h.free_nodup
  have hfirst : Issuable r.firstNode := h.first _ _ (region_eq_ok.mp hr).2.1
  have heven : a.nextSlot.2.1 % 2 = 0 := by
    unfold nextSlot
    split
    · rfl
    · next i free hcons =>
      have hmem : i ∈ a.nodeFree := hcons ▸ List.mem_cons_self
      have hget := List.getElem?_eq_getElem (h.free_lt i hmem)
      have hodd := (h.parity _ _ hget).mp hmem
      simp only [hget, Option.map_some, Option.getD_some, nextGeneration_parity]
      omega
  have hslot : ∀ (i : Nat) (t : NodeSlot), b.slots[i]? = some t →
      (i = a.nextSlot.1 ∧ t.generation = a.nextSlot.2.1 ∧ t.node.nextInRegion = r.firstNode) ∨
      (i ≠ a.nextSlot.1 ∧ a.slots[i]? = some t) := by
    intro i t ht
    by_cases hi : i = a.nextSlot.1
    · subst hi
      cases Option.some.inj (hself.symm.trans ht)
      exact .inl ⟨rfl, rfl, rfl⟩
    · exact .inr ⟨hi, (hins.others i hi).symm.trans ht⟩
  refine ⟨fun i hi => ?_, ?_, fun i t ht => ?_, fun i t ht => ?_, fun i r' hr' => ?_⟩
  · rw [hins.free] at hi
    rw [hins.length]
    exact Nat.lt_of_lt_of_le (h.free_lt i ((hfree i).mpr (.inl hi))) (Nat.le_max_left ..)
  · rw [hins.free]
    exact hnd
  · rw [hins.free]
    rcases hslot i t ht with ⟨rfl, hgen, -⟩ | ⟨hi, hs⟩
    · rw [hgen]
      exact iff_of_false hnotfree (by omega)
    · rw [← h.parity i t hs, hfree]
      simp [hi]
  · rcases hslot i t ht with ⟨-, -, hlink⟩ | ⟨-, hs⟩
    · rw [hlink]
      exact hfirst
    · exact h.next i t hs
  · rw [hins.regions, List.getElem?_modify] at hr'
    obtain ⟨old, hold, heq⟩ := Option.map_eq_some_iff.mp hr'
    split at heq
    · cases heq
      refine .inr ?_
      rw [hins.id_eq]
      exact heven
    · cases heq
      exact h.first i _ hold

theorem LinksOk.newRegion {parent : RegionId} {owner : NodeId} (h : LinksOk a)
    (hn : a.newRegion parent owner = .ok (rid, b)) : LinksOk b := by
  unfold IrArena.newRegion at hn
  split at hn
  · cases hn
  cases hn
  refine ⟨h.free_lt, h.free_nodup, h.parity, h.next, fun i r hr => ?_⟩
  rw [List.getElem?_append] at hr
  split at hr
  · exact h.first i r hr
  · obtain rfl := List.mem_singleton.mp (List.mem_of_getElem? hr)
    exact .inl rfl

theorem LinksOk.modify {f : Node → Node} (h : LinksOk a)
    (hf : ∀ n, (f n).nextInRegion = n.nextInRegion) (hm : a.modifyNode id f = .ok b) :
    LinksOk b := by
  obtain ⟨m, hm', rfl⟩ := map_ok.mp hm
  have hself := slot_of_node hm'
  have hslot : ∀ (i : Nat) (t : NodeSlot),
      (a.slots.set id.index ⟨f m, id.generation⟩)[i]? = some t →
      ∃ s, a.slots[i]? = some s ∧ t.generation = s.generation ∧
        t.node.nextInRegion = s.node.nextInRegion := by
    intro i t ht
    rw [List.getElem?_set] at ht
    split at ht
    · next hi =>
      subst hi
      rw [if_pos (index_lt_of_node hm')] at ht
      cases ht
      exact ⟨_, hself, rfl, hf m⟩
    · exact ⟨t, ht, rfl, rfl⟩
  refine ⟨fun i hi => ?_, h.free_nodup, fun i t ht => ?_, fun i t ht => ?_, h.first⟩
  · simpa using h.free_lt i hi
  · obtain ⟨s, hs, hgen, -⟩ := hslot i t ht
    rw [hgen]
    exact h.parity i s hs
  · obtain ⟨s, hs, -, hlink⟩ := hslot i t ht
    rw [hlink]
    exact h.next i s hs

theorem withCapacity_linksOk (nodes regions : Nat) : LinksOk (withCapacity nodes regions) := by
  obtain ⟨hslots, hfree⟩ := Session.slots_withCapacity nodes regions
  refine ⟨by simp [hfree], by simp [hfree], by simp [hslots], by simp [hslots], fun i r hr => ?_⟩
  unfold withCapacity IrArena.newRegion at hr
  cases regions with
  | zero => simp at hr
  | succ regions =>
    simp only [List.length_nil, ge_iff_le, List.nil_append] at hr
    obtain rfl := List.mem_singleton.mp (List.mem_of_getElem? hr)
    exact .inl rfl

end IrArena

/-- The arenas that the operations leave: new regions and insertions with any
arguments, writes that keep the link of the node, removals of live nodes. -/
inductive Tended (nodes regions : Nat) : IrArena → Prop
  | start : Tended nodes regions (.withCapacity nodes regions)
  | newRegion {a b : IrArena} {parent r : RegionId} {owner : NodeId}
      (h : Tended nodes regions a) (hr : a.newRegion parent owner = .ok (r, b)) :
      Tended nodes regions b
  | insert {a b : IrArena} {region : RegionId} {n : Node} {id : NodeId}
      (h : Tended nodes regions a) (hi : a.insertNode region n = .ok (id, b)) :
      Tended nodes regions b
  | modify {a b : IrArena} {id : NodeId} {f : Node → Node} (h : Tended nodes regions a)
      (hf : ∀ n, (f n).nextInRegion = n.nextInRegion) (hm : a.modifyNode id f = .ok b) :
      Tended nodes regions b
  | remove {a b : IrArena} {id : NodeId} (h : Tended nodes regions a) (hlive : a.IsLive id)
      (hr : a.removeNode id = .ok b) : Tended nodes regions b

open IrArena

theorem Tended.linksOk {nodes regions : Nat} {a : IrArena} (h : Tended nodes regions a) :
    LinksOk a := by
  induction h with
  | start => exact withCapacity_linksOk _ _
  | newRegion _ hr ih => exact ih.newRegion hr
  | insert _ hi ih => exact ih.insert hi
  | modify _ hf hm ih => exact ih.modify hf hm
  | remove _ hlive hr ih => exact ih.remove hlive hr

end Sxla
