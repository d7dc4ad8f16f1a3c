import Sxla.Graph.ScheduleLaws

/-!
# Effect edges and the schedulers

The schedulers order value inputs only. An effect input is respected when
its producer happens to be an ancestor of the consumer in the value graph;
otherwise there is a clustering under which `scheduleFused` emits the
consumer first (`effectOrdered_iff`).
-/

namespace Sxla

open DepOrder Relation

variable {a : IrArena} {id : NodeId} {n : Node} {order : List NodeId}

/-- The producer of every consumed effect token stands before the consumer. -/
def EffectOrdered (a : IrArena) (order : List NodeId) : Prop :=
  ∀ id n, (id, n) ∈ a.liveNodes → n.effectIn.isNone = false →
    ∃ p, p.index = n.effectIn.node.index ∧ p.generation = n.effectIn.node.generation ∧
      Before order p id

/-- Every consumed effect token is produced by a live node on whose value
the consumer depends. -/
def EffectsFollowValues (a : IrArena) : Prop :=
  ∀ id n, (id, n) ∈ a.liveNodes → n.effectIn.isNone = false →
    ∃ p d, (p, d) ∈ a.liveNodes ∧ p.index = n.effectIn.node.index ∧
      p.generation = n.effectIn.node.generation ∧
      TransGen (ValueDep a) p.index id.index

theorem Scheduled.effectOrdered (h : Scheduled a order) (hev : EffectsFollowValues a) :
    EffectOrdered a order := by
  intro id n hn he
  obtain ⟨p, d, hp, hi, hg, hpath⟩ := hev id n hn he
  have hmem := h.slots_perm.mem_iff.mpr (IrArena.index_mem_liveSlots hn)
  have hbefore := h.ordered.before_of_transGen h.slots_nodup hmem hpath
  exact ⟨p, hi, hg, (h.before_iff hp hn).mp hbefore⟩

namespace Schedule

-- ---------------------------------------------------------------------------
-- The cluster tie-break
-- ---------------------------------------------------------------------------

theorem keyLt_trans (h : keyLt k₁ k₂ = true) (h' : keyLt k₂ k₃ = true) : keyLt k₁ k₃ = true := by
  obtain ⟨b₁, n₁⟩ := k₁
  obtain ⟨b₂, n₂⟩ := k₂
  obtain ⟨b₃, n₃⟩ := k₃
  cases b₁ <;> cases b₂ <;> cases b₃ <;> simp [keyLt] at * <;> omega

/-- What the scan holds at the end is below every ready position it saw. -/
theorem foldl_better_least {l : List Nat} (h : l.foldl (better k s) best = some b) :
    (∀ p ∈ l, Kahn.ready s p = true → keyLt (k p) (k b) = false) ∧
      ∀ b', best = some b' → b' = b ∨ keyLt (k b) (k b') = true := by
  induction l generalizing best with
  | nil =>
    refine ⟨by simp, fun b' hb' => .inl ?_⟩
    simpa [hb'] using h
  | cons p l ih =>
    obtain ⟨hl, hbest⟩ := ih h
    have hirrefl : ∀ x, keyLt (k x) (k x) = false := by simp [keyLt]
    cases hr : Kahn.ready s p with
    | false =>
      have hstep : better k s best p = best := by simp [better, hr]
      rw [hstep] at hbest
      refine ⟨fun q hq hqr => ?_, hbest⟩
      rcases List.mem_cons.mp hq with rfl | hq
      · simp [hr] at hqr
      · exact hl q hq hqr
    | true =>
      have hnew : ∃ b', better k s best p = some b' ∧
          (b' = p ∨ keyLt (k p) (k b') = false) ∧
          ∀ b₀, best = some b₀ → b' = b₀ ∨ keyLt (k b') (k b₀) = true := by
        cases best with
        | none => exact ⟨p, by simp [better, hr], .inl rfl, by simp⟩
        | some b₀ =>
          cases hk : keyLt (k p) (k b₀) with
          | true => exact ⟨p, by simp [better, hr, hk], .inl rfl, by simp [hk]⟩
          | false => exact ⟨b₀, by simp [better, hr, hk], .inr hk, by simp⟩
      obtain ⟨b', hb', hpb', hold⟩ := hnew
      have hb := hbest b' hb'
      have hpb : keyLt (k p) (k b) = false := by
        rw [Bool.eq_false_iff]
        intro hlt
        have hlt' : keyLt (k p) (k b') = true := by
          rcases hb with rfl | hb
          · exact hlt
          · exact keyLt_trans hlt hb
        rcases hpb' with rfl | hpb'
        · rw [hirrefl] at hlt'; cases hlt'
        · rw [hpb'] at hlt'; cases hlt'
      constructor
      · intro q hq hqr
        rcases List.mem_cons.mp hq with rfl | hq
        · exact hpb
        · exact hl q hq hqr
      · intro b₀ hb₀
        rcases hb with rfl | hb
        · exact (hold b₀ hb₀).imp_left Eq.symm
        · rcases hold b₀ hb₀ with rfl | ho
          · exact .inr hb
          · exact .inr (keyLt_trans hb ho)

theorem pick_least (h : pick k m s = some b) (hp : p < m) (hr : Kahn.ready s p = true) :
    keyLt (k p) (k b) = false :=
  (foldl_better_least h).1 p (List.mem_range.mpr hp) hr

/-- When `A` contains what its members need and is exactly the unclustered
part, the fused scheduler emits nothing outside `A` until `q` is out. -/
theorem steps_stay {A : Nat → Prop} (hinv : Kahn.Inv prods s)
    (hac : Acyclic (Kahn.Dep prods) (· < prods.length))
    (hA : ∀ y, A y → ∀ x, Kahn.Dep prods x y → x < prods.length ∧ A x)
    (hcluster : ∀ p < prods.length, clusterOf (idAt a p) = none ↔ A p)
    (hq : q < prods.length) (hqA : A q) (hqs : q ∉ s.order) (hs : ∀ p ∈ s.order, A p)
    (h : steps a prods clusterOf fuel none s = some t) :
    ∃ l r, t.order = l ++ q :: r ∧ ∀ p ∈ l, A p := by
  classical
  induction fuel generalizing s with
  | zero =>
    unfold steps at h
    split at h
    · rename_i hl
      exact absurd ((hinv.perm_range hl).mem_iff.mpr (List.mem_range.mpr hq)) hqs
    · cases h
  | succ fuel ih =>
    unfold steps at h
    split at h
    · rename_i hl
      exact absurd ((hinv.perm_range hl).mem_iff.mpr (List.mem_range.mpr hq)) hqs
    cases hp : pick (key a clusterOf none) prods.length s with
    | none => simp [hp] at h
    | some p =>
      simp only [hp] at h
      obtain ⟨hplt, hpr⟩ := pick_ready hp
      -- something in `A` is ready, and it has the smaller key than any stranger
      let inA := (List.range prods.length).filter fun x => decide (A x)
      obtain ⟨y, hy, hyo, hydeps⟩ :
          ∃ y ∈ inA, y ∉ s.order ∧ ∀ x, Kahn.Dep prods x y → x ∈ s.order :=
        exists_ready
          (fun y hy x hx => by
            have := hA y (by simpa [inA] using (List.mem_filter.mp hy).2) x hx
            simpa [inA] using this)
          (fun x hx => hac x (by simpa using (List.mem_filter.mp hx).1))
          ⟨q, by simp [inA, hq, hqA], hqs⟩
      obtain ⟨hylt, hyA⟩ : y < prods.length ∧ A y := by simpa [inA] using hy
      have hleast := pick_least hp hylt ((hinv.ready_iff hylt).mpr ⟨hyo, hydeps⟩)
      have hyc : clusterOf (idAt a y) = none := (hcluster y hylt).mpr hyA
      have hpc : clusterOf (idAt a p) = none := by
        by_contra hpc
        simp [key, keyLt, hyc, hpc] at hleast
      have hpA := (hcluster p hplt).mp hpc
      by_cases hpq : p = q
      · subst hpq
        obtain ⟨r, hr⟩ := (steps_run h).1.order_isPrefix
        exact ⟨s.order, r, by simp [← hr, Kahn.emit], hs⟩
      · rw [hpc] at h
        refine ih (hinv.emit hplt hpr) ?_ ?_ h
        · simp [Kahn.emit, hqs, Ne.symm hpq]
        · intro x hx
          rcases List.mem_append.mp hx with hx | hx
          · exact hs x hx
          · exact List.mem_singleton.mp hx ▸ hpA

end Schedule

open Schedule

/-- When exactly the ancestors of `id` are unclustered, the fused scheduler
emits nothing else ahead of `id`. -/
theorem fused_order_of_clusters (hl : InputsLive a) (hac : ValueAcyclic a)
    (hn : (id, n) ∈ a.liveNodes)
    (hcl : ∀ p ∈ a.liveIds,
      clusterOf p = none ↔ ReflTransGen (ValueDep a) p.index id.index) :
    ∃ order, scheduleFused a clusterOf = .ok order ∧
      ∀ p, Before order p id → TransGen (ValueDep a) p.index id.index := by
  let anc : Nat → Prop := fun x => ReflTransGen (ValueDep a) x id.index
  obtain ⟨prods, hprods⟩ := producers_isOk.mpr hl
  have hlen := length_producers hprods
  obtain ⟨t, ht⟩ : ∃ t, steps a prods clusterOf prods.length none (Kahn.init prods) = some t :=
    steps_total Kahn.init_inv (dep_lt hprods) (acyclic_table hprods hac) (Nat.le_add_left _ _)
  have hrun : scheduleFused a clusterOf = .ok (t.order.map (idAt a)) := by
    simp [scheduleFused, hprods, ht, Checked.bind_ok, Checked.pure_ok]
  have hsched := scheduleFused_scheduled hrun
  obtain ⟨q, hq, hqid⟩ := exists_slotAt (IrArena.index_mem_liveSlots hn)
  have hat : ∀ p < a.liveSlots.length, idAt a p ∈ a.liveIds := fun p hp => by
    rw [idAt_eq (length_liveIds ▸ hp)]
    exact List.getElem_mem _
  have hqeq : idAt a q = id := by
    obtain ⟨⟨i, m⟩, hm, hi⟩ := List.mem_map.mp (hat q hq)
    rw [← hi]
    exact (IrArena.live_unique hm hn (by rw [← hqid, ← idAt_index hq, ← hi])).1
  obtain ⟨l, r, hlr, hlA⟩ := steps_stay (A := fun p => p < prods.length ∧ anc (slotAt a p))
    Kahn.init_inv (acyclic_table hprods hac)
    (fun y hy x hx => by
      obtain ⟨hx', hdep⟩ := (dep_iff hprods (hlen ▸ hy.1)).mp hx
      exact ⟨hlen ▸ hx', hlen ▸ hx', .head hdep hy.2⟩)
    (fun p hp => by
      have hp' : p < a.liveSlots.length := hlen ▸ hp
      rw [hcl _ (hat p hp'), idAt_index hp']
      exact (and_iff_right hp).symm)
    (hlen ▸ hq) ⟨hlen ▸ hq, hqid ▸ .refl⟩ (by simp [Kahn.init]) (by simp [Kahn.init]) ht
  refine ⟨_, hrun, fun p hp => ?_⟩
  have hsplit : t.order.map (idAt a) = l.map (idAt a) ++ id :: r.map (idAt a) := by
    rw [hlr]
    simp [hqeq]
  have hnd := hsched.nodup
  have hne : p ≠ id := fun he => Before.irrefl hnd (he ▸ hp)
  rw [hsplit] at hnd hp
  obtain ⟨x, hx, rfl⟩ := List.mem_map.mp (hp.mem_of_split hnd)
  obtain ⟨hxlt, hxa⟩ := hlA x hx
  have hxi := idAt_index (a := a) (hlen ▸ hxlt)
  rw [hxi]
  rcases reflTransGen_iff_eq_or_transGen.mp hxa with he | hpath
  · refine absurd ?_ hne
    rw [← hqeq, slotAt_inj hq (hlen ▸ hxlt) (hqid.trans he)]
  · exact hpath

/-- Some clustering makes the fused scheduler emit, ahead of `id`, nothing
but the ancestors of `id`. -/
theorem exists_fused_order (hl : InputsLive a) (hac : ValueAcyclic a)
    (hn : (id, n) ∈ a.liveNodes) :
    ∃ clusterOf order, scheduleFused a clusterOf = .ok order ∧
      ∀ p, Before order p id → TransGen (ValueDep a) p.index id.index := by
  classical
  let clusterOf : NodeId → Option UInt32 := fun q =>
    if ReflTransGen (ValueDep a) q.index id.index then none else some 0
  exact ⟨clusterOf, fused_order_of_clusters hl hac hn fun p _ => by simp [clusterOf]⟩

/-- All orders of both schedulers respect the effect edges exactly when the
value graph implies them, or nothing can be scheduled at all. -/
theorem effectOrdered_iff (a : IrArena) :
    ((∀ order, schedule a = .ok order → EffectOrdered a order) ∧
      ∀ clusterOf order, scheduleFused a clusterOf = .ok order → EffectOrdered a order) ↔
    (InputsLive a → ValueAcyclic a → EffectsFollowValues a) := by
  constructor
  · rintro ⟨_, hfused⟩ hl hac id n hn he
    obtain ⟨clusterOf, order, hrun, hpath⟩ := exists_fused_order hl hac hn
    obtain ⟨p, hi, hg, hb⟩ := hfused clusterOf order hrun id n hn he
    have hmem := (scheduleFused_scheduled hrun).perm.mem_iff.mp hb.mem_left
    obtain ⟨⟨p, d⟩, hp, rfl⟩ := List.mem_map.mp hmem
    exact ⟨p, d, hp, hi, hg, hpath p hb⟩
  · intro h
    constructor
    · intro order hrun
      have hs := schedule_scheduled hrun
      exact hs.effectOrdered (h hs.inputsLive hs.acyclic)
    · intro clusterOf order hrun
      have hs := scheduleFused_scheduled hrun
      exact hs.effectOrdered (h hs.inputsLive hs.acyclic)

/-- Two samples, the first made to consume the token of the second. -/
def reversedSamples : IrArena := .built do
  let a := IrArena.withCapacity 16 4
  let sample := Node.new (.rng .uniform 1) a.rootRegion [] (.scalar .f64)
  let (first, a) ← a.insertNode a.rootRegion sample
  let (second, a) ← a.insertNode a.rootRegion sample
  let token ← a.valueOf second 0
  a.modifyNode first fun n => { n with effectIn := token }

theorem reversedSamples_not_effectOrdered :
    verify reversedSamples = .ok () ∧
      ∃ order, schedule reversedSamples = .ok order ∧ ¬ EffectOrdered reversedSamples order := by
  refine ⟨by decide, [.pack 0 0 .graph, .pack 1 0 .graph], by decide, fun h => ?_⟩
  have hlive : (reversedSamples.liveNodes.map fun e => (e.1, e.2.effectIn)) =
      [(.pack 0 0 .graph, .fromNode (.pack 1 0 .graph) 0), (.pack 1 0 .graph, .NONE)] := by decide
  obtain ⟨⟨id, n⟩, hn, he⟩ := List.mem_map.mp (hlive ▸ List.mem_cons_self ..)
  obtain ⟨rfl, he⟩ := Prod.mk.inj he
  obtain ⟨p, hi, _, hb⟩ := h _ n hn (by rw [he]; rfl)
  have hnil : p ∈ ([] : List NodeId) := hb.mem_of_split (l := []) (by decide)
  simp at hnil

end Sxla
