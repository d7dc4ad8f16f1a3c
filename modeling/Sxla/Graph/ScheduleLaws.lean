import Sxla.Graph.Schedule
import Sxla.Graph.Verifier

/-!
# When scheduling succeeds, and what it returns

Both schedulers succeed on exactly the arenas whose value graph is closed
and acyclic on the live nodes, and every order they return lists each live
node once with its value producers in front (`Scheduled`). The verifier
establishes neither condition: it lets a node use itself, and it lets an
input name a freed slot by the generation the slot has while it is free.
-/

namespace Sxla

open DepOrder Checked Relation

variable {a : IrArena} {id : NodeId} {n : Node} {order : List NodeId}

/-- The node in slot `y` uses a value of slot `x`. -/
def ValueDep (a : IrArena) (x y : Nat) : Prop :=
  ∃ id n, (id, n) ∈ a.liveNodes ∧ id.index = y ∧ ∃ v ∈ n.valueInputs, v.node.index = x

/-- Every value input of a live node names a live slot. -/
def InputsLive (a : IrArena) : Prop :=
  ∀ id n, (id, n) ∈ a.liveNodes → ∀ v ∈ n.valueInputs, v.node.index ∈ a.liveSlots

/-- No live node depends on its own value. -/
def ValueAcyclic (a : IrArena) : Prop := Acyclic (ValueDep a) (· ∈ a.liveSlots)

/-- Every live node exactly once, each after the producers of its inputs. -/
structure Scheduled (a : IrArena) (order : List NodeId) : Prop where
  perm : order.Perm a.liveIds
  ordered : Ordered (ValueDep a) (order.map (·.index))

namespace Schedule

-- ---------------------------------------------------------------------------
-- The producer table
-- ---------------------------------------------------------------------------

def slotAt (a : IrArena) (pos : Nat) : Nat := a.liveSlots.getD pos 0

theorem length_liveIds : a.liveIds.length = a.liveSlots.length := by
  rw [← IrArena.map_index_liveIds, List.length_map]

theorem idAt_index (h : pos < a.liveSlots.length) : (idAt a pos).index = slotAt a pos := by
  have h' : pos < a.liveIds.length := length_liveIds ▸ h
  simp only [idAt, slotAt, ← IrArena.map_index_liveIds]
  simp [List.getElem?_eq_getElem h']

theorem idAt_eq (h : pos < a.liveIds.length) : idAt a pos = a.liveIds[pos] := by
  simp [idAt, List.getElem?_eq_getElem h]

theorem slotAt_mem (h : pos < a.liveSlots.length) : slotAt a pos ∈ a.liveSlots := by
  simp [slotAt, List.getElem?_eq_getElem h]

theorem slotAt_inj (hp : p < a.liveSlots.length) (hq : q < a.liveSlots.length)
    (h : slotAt a p = slotAt a q) : p = q := by
  simp only [slotAt, List.getD_eq_getElem?_getD, List.getElem?_eq_getElem hp,
    List.getElem?_eq_getElem hq, Option.getD_some] at h
  exact (a.liveSlots_nodup.getElem_inj_iff).mp h

theorem exists_slotAt (h : slot ∈ a.liveSlots) : ∃ p < a.liveSlots.length, slotAt a p = slot := by
  obtain ⟨p, hp, rfl⟩ := List.mem_iff_getElem.mp h
  exact ⟨p, hp, by simp [slotAt, List.getElem?_eq_getElem hp]⟩

theorem posOf_eq_some : posOf a slot = some p ↔ p < a.liveSlots.length ∧ slotAt a p = slot := by
  rw [posOf, List.findIdx?_eq_some_iff_getElem]
  constructor
  · rintro ⟨hp, hs, _⟩
    have hp' : p < a.liveSlots.length := length_liveIds ▸ hp
    refine ⟨hp', ?_⟩
    rw [← idAt_index hp', idAt_eq hp]
    simpa using hs
  · rintro ⟨hp', rfl⟩
    have hp : p < a.liveIds.length := length_liveIds ▸ hp'
    refine ⟨hp, by simp [← idAt_index hp', idAt_eq hp], fun j hj => ?_⟩
    have hj' : j < a.liveSlots.length := hj.trans hp'
    have hne : slotAt a j ≠ slotAt a p := fun he => hj.ne (slotAt_inj hj' hp' he)
    rw [← idAt_index hj', idAt_eq (hj.trans hp)] at hne
    simpa using hne

theorem producerPos_ok : producerPos a v = .ok p ↔ posOf a v.node.index = some p := by
  unfold producerPos
  cases posOf a v.node.index <;> simp

theorem producerPos_isOk :
    (∃ p, producerPos a v = .ok p) ↔ v.node.index ∈ a.liveSlots := by
  simp only [producerPos_ok, posOf_eq_some]
  constructor
  · rintro ⟨p, hp, hs⟩
    exact hs ▸ slotAt_mem hp
  · exact exists_slotAt

theorem nodeProducers_eq (h : (id, n) ∈ a.liveNodes) :
    nodeProducers a id = n.valueInputs.mapM (producerPos a) := by
  simp [nodeProducers, IrArena.node_of_live h]

theorem mem_of_forall₂ {r : α → β → Prop} {l : List α} {l' : List β} (h : List.Forall₂ r l l') :
    y ∈ l' → ∃ x ∈ l, r x y := by
  induction h with
  | nil => simp
  | cons hxy _ ih =>
    intro hy
    rcases List.mem_cons.mp hy with rfl | hy
    · exact ⟨_, by simp, hxy⟩
    · obtain ⟨x, hx, hr⟩ := ih hy
      exact ⟨x, List.mem_cons_of_mem _ hx, hr⟩

theorem mem_nodeProducers (h : (id, n) ∈ a.liveNodes) (hl : nodeProducers a id = .ok l) :
    x ∈ l ↔ ∃ v ∈ n.valueInputs, posOf a v.node.index = some x := by
  rw [nodeProducers_eq h, mapM_ok] at hl
  constructor
  · intro hx
    obtain ⟨v, hv, hp⟩ := mem_of_forall₂ hl hx
    exact ⟨v, hv, producerPos_ok.mp hp⟩
  · rintro ⟨v, hv, hp⟩
    obtain ⟨y, hy, hvy⟩ := mem_of_forall₂ hl.flip hv
    rw [producerPos_ok, hp, Option.some.injEq] at hvy
    exact hvy ▸ hy

theorem producers_isOk : (∃ prods, producers a = .ok prods) ↔ InputsLive a := by
  rw [producers, mapM_isOk]
  constructor
  · intro h id n hn v hv
    have hid : id ∈ a.liveIds := List.mem_map.mpr ⟨_, hn, rfl⟩
    obtain ⟨l, hl⟩ := h id hid
    rw [nodeProducers_eq hn] at hl
    exact producerPos_isOk.mp (mapM_isOk.mp ⟨l, hl⟩ v hv)
  · intro h id hid
    obtain ⟨⟨id, n⟩, hn, rfl⟩ := List.mem_map.mp hid
    rw [nodeProducers_eq hn]
    exact mapM_isOk.mpr fun v hv => producerPos_isOk.mpr (h id n hn v hv)

theorem length_producers (h : producers a = .ok prods) : prods.length = a.liveSlots.length := by
  rw [producers, mapM_ok] at h
  rw [← h.length_eq, length_liveIds]

/-- The table's dependencies are those of the live nodes. -/
theorem dep_iff (h : producers a = .ok prods) (hp : p < a.liveSlots.length) :
    Kahn.Dep prods x p ↔ x < a.liveSlots.length ∧ ValueDep a (slotAt a x) (slotAt a p) := by
  have hlen := length_producers h
  rw [producers, mapM_ok, List.forall₂_iff_get] at h
  have hpi : p < a.liveIds.length := length_liveIds ▸ hp
  have hget := h.2 p hpi (hlen ▸ hp)
  simp only [List.get_eq_getElem, ← idAt_eq hpi] at hget
  obtain ⟨⟨id, n⟩, hn, hid⟩ := List.mem_map.mp (List.getElem_mem hpi)
  rw [← idAt_eq hpi] at hid
  rw [← hid] at hget
  have hslot : id.index = slotAt a p := by rw [← idAt_index hp, ← hid]
  rw [Kahn.Dep, List.getD_eq_getElem?_getD, List.getElem?_eq_getElem (hlen ▸ hp), Option.getD_some,
    mem_nodeProducers hn hget]
  simp only [posOf_eq_some]
  constructor
  · rintro ⟨v, hv, hx, hs⟩
    exact ⟨hx, id, n, hn, hslot, v, hv, hs.symm⟩
  · rintro ⟨hx, id', n', hn', hs', v, hv, hvx⟩
    obtain ⟨rfl, rfl⟩ := IrArena.live_unique hn hn' (hslot.trans hs'.symm)
    exact ⟨v, hv, hx, hvx.symm⟩

theorem dep_lt (h : producers a = .ok prods) :
    ∀ y < prods.length, ∀ x, Kahn.Dep prods x y → x < prods.length := by
  intro y hy x hx
  rw [length_producers h] at *
  exact ((dep_iff h hy).mp hx).1

theorem acyclic_table (h : producers a = .ok prods) (hac : ValueAcyclic a) :
    Acyclic (Kahn.Dep prods) (· < prods.length) := by
  intro p hp hc
  have hlen := length_producers h
  refine hac (slotAt a p) (slotAt_mem (hlen ▸ hp)) (TransGen.lift (slotAt a) ?_ _ _ hc)
  intro x y hxy
  by_cases hy : y < prods.length
  · exact ((dep_iff h (hlen ▸ hy)).mp hxy).2
  · rw [Kahn.Dep, List.getD_eq_getElem?_getD, List.getElem?_eq_none (Nat.le_of_not_lt hy)] at hxy
    simp at hxy

/-- A complete run of Kahn's algorithm on the table is a schedule. -/
theorem scheduled_of_run (h : producers a = .ok prods) (hr : Kahn.Run prods (Kahn.init prods) s)
    (hl : s.order.length = prods.length) : Scheduled a (s.order.map (idAt a)) := by
  have hinv := hr.inv Kahn.init_inv
  have hlen := length_producers h
  have hidx : (s.order.map (idAt a)).map (·.index) = s.order.map (slotAt a) := by
    rw [List.map_map]
    exact List.map_congr_left fun p hp => idAt_index (hlen ▸ hinv.lt p hp)
  constructor
  · have hids : (List.range prods.length).map (idAt a) = a.liveIds := by
      rw [hlen, ← length_liveIds]
      exact List.ext_getElem (by simp) fun i _ hi => by simp [idAt_eq hi]
    exact hids ▸ (hinv.perm_range hl).map (idAt a)
  · rw [hidx]
    refine hinv.ordered.map fun y hy x' hx' => ?_
    have hy' : y < a.liveSlots.length := hlen ▸ hinv.lt y hy
    obtain ⟨id, n, hn, hs, v, hv, rfl⟩ := hx'
    have hlive : v.node.index ∈ a.liveSlots := producers_isOk.mp ⟨prods, h⟩ id n hn v hv
    obtain ⟨x, hx, hxs⟩ := exists_slotAt hlive
    exact ⟨x, hxs, (dep_iff h hy').mpr ⟨hx, id, n, hn, hs, v, hv, hxs.symm⟩⟩

-- ---------------------------------------------------------------------------
-- Batched passes
-- ---------------------------------------------------------------------------

theorem foldl_emitIfReady_run {l : List Nat} (hl : ∀ p ∈ l, p < prods.length) :
    Kahn.Run prods s (l.foldl (emitIfReady prods) s) := by
  induction l generalizing s with
  | nil => exact .refl
  | cons p l ih =>
    have ih := ih (s := emitIfReady prods s p) fun q hq => hl q (List.mem_cons_of_mem _ hq)
    by_cases hr : Kahn.ready s p = true
    · have hstep : emitIfReady prods s p = Kahn.emit prods s p := if_pos hr
      rw [hstep] at ih
      rw [List.foldl_cons, hstep]
      exact (Kahn.Run.refl.emit (hl p (by simp)) hr).trans ih
    · have hstep : emitIfReady prods s p = s := if_neg hr
      rw [hstep] at ih
      rw [List.foldl_cons, hstep]
      exact ih

theorem pass_run : Kahn.Run prods s (pass prods s) :=
  foldl_emitIfReady_run fun _ hp => List.mem_range.mp hp

/-- A pass over a list with a ready position emits at least one node. -/
theorem foldl_emitIfReady_progress {l : List Nat} (hl : ∀ p ∈ l, p < prods.length)
    (h : ∃ p ∈ l, Kahn.ready s p = true) :
    s.order.length < (l.foldl (emitIfReady prods) s).order.length := by
  induction l with
  | nil => simp at h
  | cons p l ih =>
    have hl' : ∀ q ∈ l, q < prods.length := fun q hq => hl q (List.mem_cons_of_mem _ hq)
    rw [List.foldl_cons]
    by_cases hr : Kahn.ready s p = true
    · have hstep : emitIfReady prods s p = Kahn.emit prods s p := if_pos hr
      have hle := (foldl_emitIfReady_run (s := emitIfReady prods s p) hl').order_isPrefix.length_le
      rw [hstep] at hle ⊢
      simp only [Kahn.emit, List.length_append, List.length_singleton] at hle ⊢
      omega
    · have hstep : emitIfReady prods s p = s := if_neg hr
      obtain ⟨q, hq, hqr⟩ := h
      rcases List.mem_cons.mp hq with rfl | hq
      · exact absurd hqr hr
      · rw [hstep]
        exact ih hl' ⟨q, hq, hqr⟩

theorem passes_run (h : passes prods fuel s = some t) :
    Kahn.Run prods s t ∧ t.order.length = prods.length := by
  induction fuel generalizing s with
  | zero =>
    unfold passes at h
    split at h
    · cases h; exact ⟨.refl, ‹_›⟩
    · cases h
  | succ fuel ih =>
    unfold passes at h
    split at h
    · cases h; exact ⟨.refl, ‹_›⟩
    simp only at h
    split at h
    · cases h
    · obtain ⟨hr, hl⟩ := ih h
      exact ⟨pass_run.trans hr, hl⟩

theorem passes_total (hinv : Kahn.Inv prods s)
    (hclosed : ∀ y < prods.length, ∀ x, Kahn.Dep prods x y → x < prods.length)
    (hac : Acyclic (Kahn.Dep prods) (· < prods.length))
    (hf : prods.length ≤ s.order.length + fuel) : ∃ t, passes prods fuel s = some t := by
  induction fuel generalizing s with
  | zero =>
    have hle := hinv.length_le
    exact ⟨s, by rw [passes, if_pos (by omega)]⟩
  | succ fuel ih =>
    unfold passes
    split
    · exact ⟨s, rfl⟩
    rename_i hne
    have hlt : s.order.length < prods.length := Nat.lt_of_le_of_ne hinv.length_le hne
    obtain ⟨p, hp, hr⟩ := hinv.exists_ready hclosed hac hlt
    have hprog : s.order.length < (pass prods s).order.length :=
      foldl_emitIfReady_progress (fun _ hp => List.mem_range.mp hp) ⟨p, by simpa using hp, hr⟩
    simp only [if_neg hprog.ne']
    exact ih (pass_run.inv hinv) (by omega)

-- ---------------------------------------------------------------------------
-- One node a step
-- ---------------------------------------------------------------------------

/-- `pick` returns a ready position, unless there is none. -/
theorem foldl_better_ready {l : List Nat} (hl : ∀ p ∈ l, p < m)
    (hb : ∀ b, best = some b → b < m ∧ Kahn.ready s b = true)
    (h : l.foldl (better k s) best = some b) : b < m ∧ Kahn.ready s b = true := by
  induction l generalizing best with
  | nil => exact hb b h
  | cons p l ih =>
    refine ih (fun q hq => hl q (List.mem_cons_of_mem _ hq)) ?_ h
    intro b' hb'
    unfold better at hb'
    split at hb'
    · exact hb b' hb'
    rename_i hr
    have hp : p < m ∧ Kahn.ready s p = true := ⟨hl p (by simp), by simpa using hr⟩
    split at hb'
    · cases hb'; exact hp
    · split at hb'
      · cases hb'; exact hp
      · cases hb'; exact hb _ rfl

theorem pick_ready (h : pick k m s = some p) : p < m ∧ Kahn.ready s p = true :=
  foldl_better_ready (fun _ hp => List.mem_range.mp hp) (by simp) h

theorem better_ne_none (h : best ≠ none) : better k s best p ≠ none := by
  unfold better
  split
  · exact h
  split
  · simp
  · split <;> simp

theorem better_ne_none_of_ready (hr : Kahn.ready s p = true) : better k s best p ≠ none := by
  unfold better
  rw [hr]
  simp only [Bool.not_true, Bool.false_eq_true, if_false]
  split
  · simp
  · split <;> simp

theorem foldl_better_ne_none {l : List Nat} (h : best ≠ none) :
    l.foldl (better k s) best ≠ none := by
  induction l generalizing best with
  | nil => exact h
  | cons p l ih => exact ih (better_ne_none h)

theorem pick_ne_none (hp : p < m) (hr : Kahn.ready s p = true) : pick k m s ≠ none := by
  obtain ⟨l, r, hl⟩ := List.append_of_mem (List.mem_range.mpr hp)
  rw [pick, hl, List.foldl_append, List.foldl_cons]
  exact foldl_better_ne_none (better_ne_none_of_ready hr)

theorem steps_run (h : steps a prods clusterOf fuel active s = some t) :
    Kahn.Run prods s t ∧ t.order.length = prods.length := by
  induction fuel generalizing s active with
  | zero =>
    unfold steps at h
    split at h
    · cases h; exact ⟨.refl, ‹_›⟩
    · cases h
  | succ fuel ih =>
    unfold steps at h
    split at h
    · cases h; exact ⟨.refl, ‹_›⟩
    cases hp : pick (key a clusterOf active) prods.length s with
    | none => simp [hp] at h
    | some p =>
      simp only [hp] at h
      obtain ⟨hlt, hr⟩ := pick_ready hp
      obtain ⟨hrun, hl⟩ := ih h
      exact ⟨(Kahn.Run.refl.emit hlt hr).trans hrun, hl⟩

theorem steps_total (hinv : Kahn.Inv prods s)
    (hclosed : ∀ y < prods.length, ∀ x, Kahn.Dep prods x y → x < prods.length)
    (hac : Acyclic (Kahn.Dep prods) (· < prods.length))
    (hf : prods.length ≤ s.order.length + fuel) :
    ∃ t, steps a prods clusterOf fuel active s = some t := by
  induction fuel generalizing s active with
  | zero =>
    have hle := hinv.length_le
    exact ⟨s, by rw [steps, if_pos (by omega)]⟩
  | succ fuel ih =>
    unfold steps
    split
    · exact ⟨s, rfl⟩
    rename_i hne
    have hlt : s.order.length < prods.length := Nat.lt_of_le_of_ne hinv.length_le hne
    obtain ⟨p, hp, hr⟩ := hinv.exists_ready hclosed hac hlt
    cases hq : pick (key a clusterOf active) prods.length s with
    | none => exact absurd hq (pick_ne_none hp hr)
    | some q =>
      obtain ⟨hqlt, hqr⟩ := pick_ready hq
      refine ih (hinv.emit hqlt hqr) ?_
      simp only [Kahn.emit, List.length_append, List.length_singleton]
      omega

end Schedule

open Schedule

-- ---------------------------------------------------------------------------
-- The two schedulers
-- ---------------------------------------------------------------------------

theorem schedule_run (h : schedule a = .ok order) :
    ∃ prods s, producers a = .ok prods ∧ Kahn.Run prods (Kahn.init prods) s ∧
      s.order.length = prods.length ∧ order = s.order.map (idAt a) := by
  simp only [schedule, bind_ok] at h
  obtain ⟨prods, hprods, h⟩ := h
  split at h
  · rename_i s hs
    obtain ⟨hr, hl⟩ := passes_run hs
    exact ⟨prods, s, hprods, hr, hl, (pure_ok.mp h).symm⟩
  · cases h

theorem scheduleFused_run (h : scheduleFused a clusterOf = .ok order) :
    ∃ prods s, producers a = .ok prods ∧ Kahn.Run prods (Kahn.init prods) s ∧
      s.order.length = prods.length ∧ order = s.order.map (idAt a) := by
  simp only [scheduleFused, bind_ok] at h
  obtain ⟨prods, hprods, h⟩ := h
  split at h
  · rename_i s hs
    obtain ⟨hr, hl⟩ := steps_run hs
    exact ⟨prods, s, hprods, hr, hl, (pure_ok.mp h).symm⟩
  · cases h

theorem schedule_scheduled (h : schedule a = .ok order) : Scheduled a order := by
  obtain ⟨prods, s, hprods, hr, hl, rfl⟩ := schedule_run h
  exact scheduled_of_run hprods hr hl

theorem scheduleFused_scheduled (h : scheduleFused a clusterOf = .ok order) :
    Scheduled a order := by
  obtain ⟨prods, s, hprods, hr, hl, rfl⟩ := scheduleFused_run h
  exact scheduled_of_run hprods hr hl

theorem schedule_total (hl : InputsLive a) (hac : ValueAcyclic a) :
    ∃ order, schedule a = .ok order := by
  obtain ⟨prods, hprods⟩ := producers_isOk.mpr hl
  obtain ⟨t, ht⟩ : ∃ t, passes prods prods.length (Kahn.init prods) = some t :=
    passes_total Kahn.init_inv (dep_lt hprods) (acyclic_table hprods hac) (Nat.le_add_left _ _)
  exact ⟨t.order.map (idAt a), by simp [schedule, hprods, ht, bind_ok, pure_ok]⟩

theorem scheduleFused_total (hl : InputsLive a) (hac : ValueAcyclic a)
    (clusterOf : NodeId → Option UInt32) : ∃ order, scheduleFused a clusterOf = .ok order := by
  obtain ⟨prods, hprods⟩ := producers_isOk.mpr hl
  obtain ⟨t, ht⟩ : ∃ t, steps a prods clusterOf prods.length none (Kahn.init prods) = some t :=
    steps_total Kahn.init_inv (dep_lt hprods) (acyclic_table hprods hac) (Nat.le_add_left _ _)
  exact ⟨t.order.map (idAt a), by simp [scheduleFused, hprods, ht, bind_ok, pure_ok]⟩

theorem Scheduled.slots_perm (h : Scheduled a order) :
    (order.map (·.index)).Perm a.liveSlots :=
  a.map_index_liveIds ▸ h.perm.map _

theorem Scheduled.slots_nodup (h : Scheduled a order) : (order.map (·.index)).Nodup :=
  h.slots_perm.nodup_iff.mpr a.liveSlots_nodup

/-- Between live nodes, the order of slots is the order of handles. -/
theorem Scheduled.before_iff (h : Scheduled a order) (hp : (p, d) ∈ a.liveNodes)
    (hn : (id, n) ∈ a.liveNodes) :
    Before (order.map (·.index)) p.index id.index ↔ Before order p id := by
  have hlive : ∀ q ∈ order, ∃ m, (q, m) ∈ a.liveNodes := by
    intro q hq
    obtain ⟨⟨q, m⟩, hm, rfl⟩ := List.mem_map.mp (h.perm.mem_iff.mp hq)
    exact ⟨m, hm⟩
  constructor
  · rintro ⟨l', r', he, hx⟩
    obtain ⟨l, t, rfl, rfl, ht⟩ := List.map_eq_append_iff.mp he
    obtain ⟨y, r, rfl, hy, rfl⟩ := List.map_eq_cons_iff.mp ht
    obtain ⟨x, hxl, hxi⟩ := List.mem_map.mp hx
    obtain ⟨m, hm⟩ := hlive y (by simp)
    obtain ⟨m', hm'⟩ := hlive x (by simp [hxl])
    obtain ⟨rfl, _⟩ := IrArena.live_unique hm hn hy
    obtain ⟨rfl, _⟩ := IrArena.live_unique hm' hp hxi
    exact ⟨l, r, rfl, hxl⟩
  · rintro ⟨l, r, rfl, hx⟩
    exact ⟨l.map (·.index), r.map (·.index), by simp, List.mem_map_of_mem hx⟩

theorem Scheduled.nodup (h : Scheduled a order) : order.Nodup :=
  h.perm.nodup_iff.mpr a.liveIds_nodup

theorem Scheduled.inputsLive (h : Scheduled a order) : InputsLive a := by
  intro id n hn v hv
  have hmem := h.slots_perm.mem_iff.mpr (IrArena.index_mem_liveSlots hn)
  exact h.slots_perm.mem_iff.mp (h.ordered.before hmem ⟨id, n, hn, rfl, v, hv, rfl⟩).mem_left

theorem Scheduled.acyclic (h : Scheduled a order) : ValueAcyclic a := by
  intro x hx
  exact h.ordered.acyclic h.slots_nodup x (h.slots_perm.mem_iff.mpr hx)

-- ---------------------------------------------------------------------------
-- Nodes without inputs
-- ---------------------------------------------------------------------------

namespace Schedule

/-- A pass emits whatever needs nothing, in the order it visits it. -/
theorem foldl_emitIfReady_sources {l : List Nat} {P : Nat → Bool}
    (hP : ∀ p < prods.length, P p = true → prods.getD p [] = [])
    (hl : ∀ p ∈ l, p < prods.length) (hnd : l.Nodup) (hinv : Kahn.Inv prods s)
    (hnew : ∀ p ∈ l, p ∉ s.order) :
    (l.foldl (emitIfReady prods) s).order.filter P = s.order.filter P ++ l.filter P := by
  induction l generalizing s with
  | nil => simp
  | cons p l ih =>
    have hp := hl p (by simp)
    have hl' : ∀ q ∈ l, q < prods.length := fun q hq => hl q (List.mem_cons_of_mem _ hq)
    obtain ⟨hpl, hnd⟩ := List.nodup_cons.mp hnd
    have hnew' : ∀ q ∈ l, q ∉ s.order := fun q hq => hnew q (List.mem_cons_of_mem _ hq)
    rw [List.foldl_cons, emitIfReady]
    cases hr : Kahn.ready s p with
    | true =>
      have hemit : (Kahn.emit prods s p).order = s.order ++ [p] := rfl
      rw [if_pos rfl, ih hl' hnd (hinv.emit hp hr), hemit]
      · rw [List.filter_append, List.append_assoc, ← List.filter_append, List.singleton_append]
      · intro q hq hm
        rcases List.mem_append.mp (hemit ▸ hm) with hm | hm
        · exact hnew' q hq hm
        · exact hpl (List.mem_singleton.mp hm ▸ hq)
    | false =>
      have hPp : P p = false := by
        by_contra hPp
        rw [Bool.not_eq_false] at hPp
        have hready := (hinv.ready_iff hp).mpr ⟨hnew p (by simp), fun x hx => by
          rw [Kahn.Dep, hP p hp hPp] at hx
          cases hx⟩
        rw [hr] at hready
        cases hready
      rw [if_neg (by simp), ih hl' hnd hinv hnew', List.filter_cons_of_neg (by simp [hPp])]

theorem passes_sources {P : Nat → Bool}
    (hP : ∀ p < prods.length, P p = true → prods.getD p [] = [])
    (h : passes prods fuel (Kahn.init prods) = some t) :
    t.order.filter P = (List.range prods.length).filter P := by
  unfold passes at h
  split at h
  · -- an empty table
    rename_i h0
    rw [Option.some.injEq] at h
    subst h
    have h0 : prods.length = 0 := h0.symm
    simp [Kahn.init, h0]
  cases fuel with
  | zero => cases h
  | succ fuel =>
    simp only at h
    split at h
    · cases h
    have hfirst : (pass prods (Kahn.init prods)).order.filter P =
        (List.range prods.length).filter P := by
      rw [pass, foldl_emitIfReady_sources hP (fun p hp => List.mem_range.mp hp)
        List.nodup_range Kahn.init_inv (by simp [Kahn.init])]
      rfl
    obtain ⟨hrun, _⟩ := passes_run h
    obtain ⟨rest, hrest⟩ := hrun.order_isPrefix
    have hinv := (pass_run.trans hrun).inv Kahn.init_inv
    have hnone : rest.filter P = [] := by
      rw [List.filter_eq_nil_iff]
      intro p hp hPp
      have hnd := hinv.nodup
      rw [← hrest] at hnd
      refine List.disjoint_of_nodup_append hnd ?_ hp
      refine (List.mem_filter.mp (hfirst ▸ List.mem_filter.mpr ⟨List.mem_range.mpr ?_, hPp⟩)).1
      exact hinv.lt p (hrest ▸ List.mem_append_right _ hp)
    rw [← hrest, List.filter_append, hfirst, hnone, List.append_nil]

end Schedule

theorem map_idAt_range (a : IrArena) :
    (List.range a.liveIds.length).map (idAt a) = a.liveIds := by
  refine List.ext_getElem (by simp) fun i h _ => ?_
  simp at h
  simp [idAt_eq h]

/-- Nodes without inputs are scheduled in slot order. -/
theorem schedule_sources {P : NodeId → Bool}
    (hP : ∀ id n, (id, n) ∈ a.liveNodes → P id = true → n.valueInputs = [])
    (h : schedule a = .ok order) : order.filter P = a.liveIds.filter P := by
  simp only [schedule, bind_ok] at h
  obtain ⟨prods, hprods, h⟩ := h
  have hlen : prods.length = a.liveIds.length := by
    rw [length_producers hprods, length_liveIds]
  cases hp : passes prods prods.length (Kahn.init prods) with
  | none => simp [hp, throw, throwThe, MonadExceptOf.throw] at h
  | some t =>
    simp only [hp, pure_ok] at h
    subst h
    have hsource : ∀ p < prods.length, P (idAt a p) = true → prods.getD p [] = [] := by
      intro p hp hPp
      rw [List.eq_nil_iff_forall_not_mem]
      intro x hx
      have hp' : p < a.liveSlots.length := length_producers hprods ▸ hp
      obtain ⟨_, i, n, hn, hi, v, hv, _⟩ := (dep_iff hprods hp').mp hx
      have hmem : idAt a p ∈ a.liveIds := by
        rw [idAt_eq (length_liveIds ▸ hp')]
        exact List.getElem_mem _
      obtain ⟨⟨j, m⟩, hm, hj⟩ := List.mem_map.mp hmem
      obtain ⟨rfl, rfl⟩ := IrArena.live_unique hm hn (by rw [hi, ← idAt_index hp', ← hj])
      simp only at hj
      rw [hP _ _ hm (by rw [hj]; exact hPp)] at hv
      cases hv
    rw [List.filter_map, passes_sources (P := P ∘ idAt a) hsource hp, ← List.filter_map, hlen,
      map_idAt_range]

/-- Verified arenas are schedulable exactly when no input names a freed slot
and no node depends on itself. -/
theorem schedule_of_verify (h : verify a = .ok ()) :
    (∃ order, schedule a = .ok order ∧ Scheduled a order) ↔
      (∀ id n, (id, n) ∈ a.liveNodes → ∀ v ∈ n.valueInputs, v.node.index ∉ a.nodeFree) ∧
        ValueAcyclic a := by
  have hlive : InputsLive a ↔
      ∀ id n, (id, n) ∈ a.liveNodes → ∀ v ∈ n.valueInputs, v.node.index ∉ a.nodeFree := by
    refine forall_congr' fun id => forall_congr' fun n => forall_congr' fun hn => ?_
    refine forall₂_congr fun v hv => ?_
    obtain ⟨d, hv⟩ := ((verify_ok.mp h).2.2 id n hn).inputs v hv
    rw [IrArena.mem_liveSlots]
    exact and_iff_right (IrArena.index_lt_of_node hv.def_eq)
  rw [← hlive]
  constructor
  · rintro ⟨order, _, hs⟩
    exact ⟨hs.inputsLive, hs.acyclic⟩
  · rintro ⟨hl, hac⟩
    obtain ⟨order, ho⟩ := schedule_total hl hac
    exact ⟨order, ho, schedule_scheduled ho⟩

/-- One node that negates its own value. -/
def selfUse : IrArena := .built do
  let a := IrArena.withCapacity 16 4
  let (g, a) ← a.insertNode a.rootRegion (.new (.unary .neg) a.rootRegion [.NONE] (.scalar .f64))
  let gval ← a.valueOf g 0
  a.modifyNode g fun n => { n with inputs := [gval] }

theorem selfUse_not_scheduled :
    verify selfUse = .ok () ∧
      ¬ ∃ order, schedule selfUse = .ok order ∧ Scheduled selfUse order := by
  have hcycle : schedule selfUse = .error .cycle := by decide
  exact ⟨by decide, by simp [hcycle]⟩

/-- A constant and its negation. -/
def negatedConst : IrArena := .built do
  let a := IrArena.withCapacity 16 4
  let (c, a) ← a.insertNode a.rootRegion (.new (.constF64 ⟨0⟩) a.rootRegion [] (.scalar .f64))
  let cval ← a.valueOf c 0
  let (_, a) ← a.insertNode a.rootRegion
    (.new (.unary .neg) a.rootRegion [cval] (.scalar .f64))
  return a

theorem schedule_of_verify_negatedConst :
    (∀ id n, (id, n) ∈ negatedConst.liveNodes →
      ∀ v ∈ n.valueInputs, v.node.index ∉ negatedConst.nodeFree) ∧
        ValueAcyclic negatedConst :=
  (schedule_of_verify (by decide)).mp
    ⟨[.pack 0 0 .graph, .pack 1 0 .graph], by decide, schedule_scheduled (by decide)⟩

/-- What a topological sort answers on an arena. -/
structure Sorts (a : IrArena) (r : Except ScheduleError (List NodeId)) : Prop where
  ok_iff : (∃ order, r = .ok order) ↔ ValueAcyclic a
  scheduled : ∀ order, r = .ok order → Scheduled a order
  cycle_iff : r = .error .cycle ↔ ¬ ValueAcyclic a

/-- A sound and total scheduler that fails with `Cycle` only is such a sort. -/
theorem sorts_of {r : Except ScheduleError (List NodeId)}
    (hs : ∀ order, r = .ok order → Scheduled a order)
    (ht : ValueAcyclic a → ∃ order, r = .ok order) (he : ∀ e, r = .error e → e = .cycle) :
    Sorts a r := by
  have hok : (∃ order, r = .ok order) ↔ ValueAcyclic a := by
    refine ⟨?_, ht⟩
    rintro ⟨order, ho⟩
    exact (hs order ho).acyclic
  refine ⟨hok, hs, ?_⟩
  rw [← hok]
  cases r with
  | ok order => simp
  | error e =>
    obtain rfl := he e rfl
    simp

theorem schedule_error (hl : InputsLive a) {e : ScheduleError} (h : schedule a = .error e) :
    e = .cycle := by
  obtain ⟨prods, hprods⟩ := producers_isOk.mpr hl
  simp only [schedule, hprods, bind, Except.bind] at h
  split at h
  · cases h
  · exact (Except.error.inj h).symm

theorem scheduleFused_error (hl : InputsLive a) {clusterOf : NodeId → Option UInt32}
    {e : ScheduleError} (h : scheduleFused a clusterOf = .error e) : e = .cycle := by
  obtain ⟨prods, hprods⟩ := producers_isOk.mpr hl
  simp only [scheduleFused, hprods, bind, Except.bind] at h
  split at h
  · cases h
  · exact (Except.error.inj h).symm

/-- Both schedulers sort: they succeed on exactly the acyclic value graphs,
with every producer in front of its consumers, and report the others. -/
theorem schedulers_sort (a : IrArena) (h : InputsLive a) :
    Sorts a (schedule a) ∧ ∀ clusterOf, Sorts a (scheduleFused a clusterOf) := by
  refine ⟨sorts_of (fun _ => schedule_scheduled) (schedule_total h) fun _ => schedule_error h, ?_⟩
  intro clusterOf
  refine sorts_of (fun _ => scheduleFused_scheduled) ?_ fun _ => scheduleFused_error h
  intro hac
  exact scheduleFused_total h hac clusterOf

/-- A constant added to itself: both inputs of the sum have one producer. -/
def summedConst : IrArena := .built do
  let a := IrArena.withCapacity 16 4
  let (c, a) ← a.insertNode a.rootRegion (.new (.constF64 ⟨0⟩) a.rootRegion [] (.scalar .f64))
  let cval ← a.valueOf c 0
  let (_, a) ← a.insertNode a.rootRegion
    (.new (.binary .add) a.rootRegion [cval, cval] (.scalar .f64))
  return a

theorem schedulers_sort_summedConst :
    Sorts summedConst (schedule summedConst) ∧
      ∀ clusterOf, Sorts summedConst (scheduleFused summedConst clusterOf) :=
  schedulers_sort summedConst (@schedule_scheduled _
    [.pack 0 0 .graph, .pack 1 0 .graph] (by decide)).inputsLive

end Sxla
