import Sxla.Egraph.Room
import Sxla.Fusion.Search
import Sxla.Ir.Fingerprint
import Sxla.Jit.CacheKey
import Sxla.Jit.Driver
import Sxla.Levels.Level1Laws
import Sxla.Levels.PassManager
import Sxla.Runtime.Saturated
import Sxla.Supertensor.Wpa
import Sxla.Text.Program

/-!
# The tiers

A tier is its passes, what becomes of the layouts, and the clusters that the
projection follows. The searches for clusters stay open: whatever they
return, it decides where values are kept and in which order they are
computed. So tiers agree on what a program computes as soon as their passes
keep the meaning of the arena and their schedules bind its parameters.
-/

namespace Sxla

open Checked IrArena Projection
open Jit (Tier)
open Wpa (isScheduleable)

/-- `Unchanged` where no rewrite was applied: what the sweep has removed is
not published then. -/
def egraphPass (roots : List NodeId) : Pass where
  name := "egraph-apply"
  version := 2
  requiredForm := .graph
  hpcClass := .hpc0
  passId := 2
  run ctx ir :=
    match apply ir roots 8192 with
    | .error _ => (.error (.err (.passFailed "egraph-apply")), ctx)
    | .ok none => (.error .panic, ctx)
    | .ok (some out) =>
      if out.rewritesApplied = 0 then (.ok .unchanged, ctx)
      else
        match verify out.arena with
        | .error e => (.error (.err (.verifyFailed "egraph-apply" e)), ctx)
        | .ok () => (.ok (.changed out.arena), ctx)

structure CompiledProgram where
  target : TargetProgram
  results : List Nat
  tier : Tier
  fingerprint : UInt64
  buffers : List Buffer

/-- What the superoptimizer and the fusion search return for an arena; none
where the superoptimizer fails. -/
structure Searches where
  superoptimize : IrArena → Option ClusterSet
  search : IrArena → Except (Fusion.Halt Fusion.FusionError) ClusterSet

namespace Driver

def passName : PipelineError → String
  | .passFailed p => p
  | .verifyFailed p _ => p
  | .formConversion p => p

/-- The manifest of a tier that has one. -/
def manifest (libm : Libm) (roots : List NodeId) (tier : Tier) : PassManager where
  manifest := if tier = .tier1 then "sxla-tier1-2026-09" else "sxla-tier2-2026-09"
  passes := canonicalizePass libm roots :: if tier = .tier2 then [egraphPass roots] else []

def runPipeline (pm : PassManager) (a : IrArena) : Except (Fusion.Halt JitError) IrArena :=
  match (pm.run ⟨0, 1, .new 1⟩ a).1 with
  | .ok next => .ok next
  | .error (.err e) => .error (.error (.pipeline (passName e)))
  | .error .panic => .error .panic

/-- The snapshot that the passes of the tier leave. -/
def optimise (libm : Libm) (roots : List NodeId) (tier : Tier) (a : IrArena) :
    Except (Fusion.Halt JitError) IrArena :=
  match tier with
  | .tier0 | .tier3 => .ok a
  | .tier1 | .tier2 => runPipeline (manifest libm roots tier) a

def inferLayouts (tier : Tier) (a : IrArena) : Except (Fusion.Halt JitError) IrArena :=
  if tier = .tier1 ∨ tier = .tier2 then
    let working := (layoutInfer a).1
    match verify working with
    | .error e => .error (.error (.verify e))
    | .ok () => .ok working
  else .ok a

def isTensorHeavy (a : IrArena) (minOps : Nat) : Bool :=
  minOps ≤ (a.liveNodes.filter fun (_, n) => isScheduleable n).length

/-- The superoptimizer's clusters, or those of the search. -/
def fuse (searches : Searches) (tier : Tier) (a : IrArena) :
    Except (Fusion.Halt JitError) (Option ClusterSet) :=
  if tier = .tier2 then
    match if isTensorHeavy a 2 then searches.superoptimize a else none with
    | some clusters => .ok (some clusters)
    | none =>
      match searches.search a with
      | .ok clusters => .ok (some clusters)
      | .error (.error _) => .error (.error (.pipeline "fusion-search"))
      | .error .panic => .error .panic
  else .ok none

def structurize (a : IrArena) (roots : List NodeId) : Option ClusterSet →
    Except LowerError LoopProgram
  | some clusters => projectWithFusion a roots clusters
  | none => project a roots

def compile (libm : Libm) (searches : Searches) (a : IrArena) (roots : List NodeId)
    (tier : Tier) : Except (Fusion.Halt JitError) CompiledProgram :=
  if tier = .tier3 then .error (.error (.pipeline "tier3-pgo-unavailable"))
  else do
    let current ← optimise libm roots tier a
    let current ← inferLayouts tier current
    let fused ← fuse searches tier current
    let prog ← (structurize current roots fused).mapError fun _ => .error (.pipeline "structurize")
    let target ← (lower prog).mapError fun e => .error (.lower e)
    return {
      target
      results := target.results
      tier
      fingerprint := computeFingerprint current
      buffers := prog.buffers }

def compileText (libm : Libm) (searches : Searches) (src : String) (tier : Tier) :
    Except (Fusion.Halt JitError) CompiledProgram := do
  let (a, roots) ← (parseAndVerify src).mapError .error
  compile libm searches a roots tier

-- ---------------------------------------------------------------------------
-- The passes of a tier
-- ---------------------------------------------------------------------------

variable {libm : Libm} {searches searches' : Searches} {a b c : IrArena} {roots : List NodeId}
  {tier : Tier} {args vs : List Value} {p p' : CompiledProgram} {ctx ctx' : WorkerContext}
  {passes : List Pass} {pass : Pass}

theorem runPasses_cons (h : (runPasses (pass :: passes) ctx a).1 = .ok c) :
    ∃ b ctx', pass.step ctx a = (.ok b, ctx') ∧ (runPasses passes ctx' b).1 = .ok c := by
  rw [runPasses] at h
  cases hstep : pass.step ctx a with
  | mk r ctx' =>
    rw [hstep] at h
    cases r with
    | error e => cases h
    | ok b => exact ⟨b, ctx', rfl, h⟩

/-- A step leaves its arena, or one that the pass has published. -/
theorem step_cases (h : pass.step ctx a = (.ok b, ctx')) :
    b = a ∨ ∃ ctx ctx₁, pass.run ctx a = (.ok (.changed b), ctx₁) := by
  obtain ⟨out, ctx₁, hrun, hacc, -⟩ := Pass.step_ok h
  rcases Pass.accept_ok.mp hacc with ⟨-, rfl⟩ | ⟨rfl, -⟩
  · exact .inl rfl
  · exact .inr ⟨_, _, hrun⟩

theorem canonicalizePass_changed
    (h : (canonicalizePass libm roots).run ctx a = (.ok (.changed b), ctx')) :
    ∃ c, canonicalize libm a roots = .ok c ∧ b = c.arena := by
  unfold canonicalizePass at h
  dsimp only at h
  split at h
  · cases h
  · next c hc =>
    split at h
    · cases h
    · split at h
      · cases h
      · cases h
        exact ⟨c, hc, rfl⟩

theorem egraphPass_changed (h : (egraphPass roots).run ctx a = (.ok (.changed b), ctx')) :
    ∃ out, apply a roots 8192 = .ok (some out) ∧ b = out.arena := by
  unfold egraphPass at h
  dsimp only at h
  split at h
  · cases h
  · cases h
  · next out hout =>
    split at h
    · cases h
    · split at h
      · cases h
      · cases h
        exact ⟨out, hout, rfl⟩

theorem runPipeline_ok {pm : PassManager} (h : runPipeline pm a = .ok b) :
    verify a = .ok () ∧ (runPasses pm.passes ⟨0, 1, .new 1⟩ a).1 = .ok b := by
  unfold runPipeline at h
  cases hrun : pm.run ⟨0, 1, .new 1⟩ a with
  | mk r ctx =>
    rw [hrun] at h
    cases r with
    | error e => cases e <;> cases h
    | ok c =>
      obtain rfl := Except.ok.inj h
      obtain ⟨hv, -⟩ := PassManager.run_eq_ok.mp hrun
      refine ⟨hv, ?_⟩
      rw [PassManager.run, hv] at hrun
      exact congrArg Prod.fst hrun

theorem optimise_tier1 (h : optimise libm roots .tier1 a = .ok b) :
    verify a = .ok () ∧ (b = a ∨ ∃ c, canonicalize libm a roots = .ok c ∧ b = c.arena) := by
  obtain ⟨hv, hrun⟩ := runPipeline_ok h
  obtain ⟨c, ctx', hstep, hrun⟩ := runPasses_cons hrun
  obtain rfl := Except.ok.inj hrun
  refine ⟨hv, (step_cases hstep).imp_right ?_⟩
  rintro ⟨ctx, ctx₁, hchanged⟩
  exact canonicalizePass_changed hchanged

theorem optimise_tier2 (h : optimise libm roots .tier2 a = .ok b) :
    ∃ c, optimise libm roots .tier1 a = .ok c ∧
      (b = c ∨ ∃ out, apply c roots 8192 = .ok (some out) ∧ b = out.arena) := by
  obtain ⟨hv, hrun⟩ := runPipeline_ok h
  obtain ⟨c, ctx', hstep, hrun⟩ := runPasses_cons hrun
  obtain ⟨d, ctx'', hstep', hrun⟩ := runPasses_cons hrun
  obtain rfl := Except.ok.inj hrun
  refine ⟨c, ?_, (step_cases hstep').imp_right ?_⟩
  · rw [optimise, runPipeline, PassManager.run, hv]
    simp [manifest, runPasses, hstep]
  · rintro ⟨ctx, ctx₁, hchanged⟩
    exact egraphPass_changed hchanged

/-- What the passes of the tier ask of an arena to keep its meaning. -/
def Keeping (libm : Libm) (args : List Value) (roots : List NodeId) (a : IrArena) : Tier → Prop
  | .tier0 | .tier3 => True
  | .tier1 => Canonicalizable libm a roots
  | .tier2 => Canonicalizable libm a roots ∧
      ∀ b, optimise libm roots .tier1 a = .ok b → ExactOn libm args b

-- ---------------------------------------------------------------------------
-- The contract of a pass
-- ---------------------------------------------------------------------------

variable {nodes regions : Nat}

theorem tended_addedZero : Tended 4 1 addedZero :=
  @Tended.insert 4 1 _ _ (.pack 0 0)
    (.new (.binary .add) (.pack 0 0) zeroOperands (.scalar .i64)) (.pack 2 0 .graph)
    (@Tended.insert 4 1 _ _ (.pack 0 0) (.new (.constI64 0) (.pack 0 0) [] (.scalar .i64))
      (.pack 1 0 .graph)
      (@Tended.insert 4 1 _ _ (.pack 0 0) (.new (.param 0) (.pack 0 0) [] (.scalar .i64))
        (.pack 0 0 .graph) .start rfl) rfl) rfl

/-- On an accepted arena with exact folding and no root that is merged, the
pass never fails: it leaves the arena, or publishes an accepted one with the
roots and every meaning of the old one. -/
theorem canonicalizePass_contract (h : Tended nodes regions a) (hv : verify a = .ok ())
    (hlive : ∀ r ∈ roots, a.IsLive r) (hc : Canonicalizable libm a roots) :
    (canonicalizePass libm roots).run ctx a = (.ok .unchanged, ctx) ∨
      ∃ b, (canonicalizePass libm roots).run ctx a = (.ok (.changed b), ctx) ∧
        verify b = .ok () ∧ (∀ r ∈ roots, b.IsLive r) ∧
        ∀ args vs, Denotes libm a roots args vs → Denotes libm b roots args vs := by
  obtain ⟨c, hcan, hcv, -, -, hden⟩ := canonicalize_denotes h.linksOk hv hlive hc
  obtain ⟨c', hcan', hkept⟩ := @canonicalize_spec libm a roots hlive
  obtain rfl := Except.ok.inj (hcan.symm.trans hcan')
  unfold canonicalizePass
  dsimp only
  rw [hcan]
  dsimp only
  split
  · exact .inl rfl
  · rw [hcv]
    exact .inr ⟨c.arena, rfl, hcv, fun r hr => (hkept r hr).mpr (hc.roots r hr), hden⟩

theorem canonicalizePass_contract_addedZero :
    (canonicalizePass .absent [.pack 2 0 .graph]).run ⟨0, 1, .new 1⟩ addedZero =
        (.ok .unchanged, ⟨0, 1, .new 1⟩) ∨
      ∃ b, (canonicalizePass .absent [.pack 2 0 .graph]).run ⟨0, 1, .new 1⟩ addedZero =
          (.ok (.changed b), ⟨0, 1, .new 1⟩) ∧
        verify b = .ok () ∧ Denotes .absent b [.pack 2 0 .graph] [.i64 7] [.i64 7] := by
  have hv : verify addedZero = .ok () := by decide
  have hlive : ∀ r ∈ [NodeId.pack 2 0 .graph], addedZero.IsLive r := by decide
  have hgvn : ((Gvn.run addedZero).toOption.any fun g =>
      decide (g.1.liveSlots = addedZero.liveSlots)) = true := by decide
  obtain ⟨⟨b, k⟩, hb, hslots⟩ := (Option.any_eq_true _ _).mp hgvn
  have hc : Canonicalizable .absent addedZero [.pack 2 0 .graph] :=
    .of_settled tended_addedZero.linksOk hv
      (fun id n hn => (by decide : ∀ e ∈ addedZero.liveNodes,
        Fold.folded .absent addedZero e.2 = none) _ hn)
      (toOption_eq_some.mp hb) (fun i hi => of_decide_eq_true hslots ▸ hi) hlive
  rcases canonicalizePass_contract tended_addedZero hv hlive hc with h | ⟨b, h, hbv, -, hden⟩
  · exact .inl h
  · exact .inr ⟨b, h, hbv, hden _ _ addedZero_denotes⟩

/-- On an accepted arena the pass publishes accepted arenas only, and never
reports one that is not. It fails where its budget is less than nine times
what can be lifted, or panics in the total of the costs. Where the integers are
exact, what it publishes has every meaning of the old arena. -/
theorem egraphPass_contract (h : Tended nodes regions a) (hv : verify a = .ok ()) :
    (egraphPass roots).run ctx a = (.ok .unchanged, ctx) ∨
      (egraphPass roots).run ctx a = (.error .panic, ctx) ∨
      (egraphPass roots).run ctx a = (.error (.err (.passFailed "egraph-apply")), ctx) ∧
        8192 < 9 * LiftedGraph.liftCount a ∨
      ∃ b, (egraphPass roots).run ctx a = (.ok (.changed b), ctx) ∧ verify b = .ok () ∧
        (∀ r ∈ roots, r.index ∈ a.liveSlots → r.index ∈ b.liveSlots) ∧
        ∀ libm args vs, ExactOn libm args a →
          Denotes libm a roots args vs → Denotes libm b roots args vs := by
  have ht := h.operated.treeOk
  unfold egraphPass
  dsimp only
  rcases @apply_cases a roots 8192 h.linksOk with ⟨o, ho⟩ | ⟨hfull, hlt⟩
  · rw [ho]
    cases o with
    | none => exact .inr (.inl rfl)
    | some out =>
      obtain ⟨hov, -, -, hroots⟩ := apply_accepted ht h.linksOk hv ho
      dsimp only
      split
      · exact .inl rfl
      · rw [hov]
        exact .inr (.inr (.inr ⟨out.arena, rfl, hov, hroots,
          fun libm args vs he => apply_denotes ht h.linksOk hv he ho⟩))
  · rw [hfull]
    exact .inr (.inr (.inl ⟨rfl, hlt⟩))

/-- Twenty-seven are enough here. -/
theorem egraphPass_contract_addedZero :
    (egraphPass [.pack 2 0 .graph]).run ⟨0, 1, .new 1⟩ addedZero =
        (.ok .unchanged, ⟨0, 1, .new 1⟩) ∨
      (egraphPass [.pack 2 0 .graph]).run ⟨0, 1, .new 1⟩ addedZero =
        (.error .panic, ⟨0, 1, .new 1⟩) ∨
      ∃ b, (egraphPass [.pack 2 0 .graph]).run ⟨0, 1, .new 1⟩ addedZero =
          (.ok (.changed b), ⟨0, 1, .new 1⟩) ∧
        verify b = .ok () ∧ Denotes .absent b [.pack 2 0 .graph] [.i64 7] [.i64 7] := by
  have hcount : LiftedGraph.liftCount addedZero = 3 := by decide
  rcases egraphPass_contract tended_addedZero (by decide) with
    h | h | ⟨-, hlt⟩ | ⟨b, h, hbv, -, hden⟩
  · exact .inl h
  · exact .inr (.inl h)
  · omega
  · exact .inr (.inr ⟨b, h, hbv, hden _ _ _ addedZero_exactOn addedZero_denotes⟩)

-- ---------------------------------------------------------------------------
-- Parameters
-- ---------------------------------------------------------------------------

/-- At most one parameter, and that is number 0. -/
def Sole (a : IrArena) : Prop :=
  ∀ id n k, (id, n) ∈ a.liveNodes → n.op = .param k → k = 0 ∧ liveParams a = [id]

/-- The nodes of an arena are nodes of another, and parameters where those are. -/
def ParamsFrom (a b : IrArena) : Prop :=
  ∀ x n', (x, n') ∈ b.liveNodes →
    ∃ n, (x, n) ∈ a.liveNodes ∧ n'.op.paramIndex = n.op.paramIndex

theorem ParamsFrom.refl : ParamsFrom a a := fun _ n hn => ⟨n, hn, rfl⟩

theorem ParamsFrom.trans (h : ParamsFrom a b) (h' : ParamsFrom b c) : ParamsFrom a c := by
  intro x d hd
  obtain ⟨m, hm, hdm⟩ := h' x d hd
  obtain ⟨n, hn, hmn⟩ := h x m hm
  exact ⟨n, hn, hdm.trans hmn⟩

theorem constant_paramIndex {n m : Node} (h : Fold.Constant n m) :
    m.op.paramIndex = n.op.paramIndex := by
  obtain ⟨helem, hconst, -⟩ := h
  rcases helem with ⟨u, hn⟩ | ⟨b, hn⟩ <;> rcases hconst with ⟨v, hm⟩ | ⟨v, hm⟩ <;>
    rw [hn, hm] <;> rfl

theorem fold_params : ParamsFrom a (Fold.run libm a).1 := by
  intro x m hm
  obtain ⟨n, hn⟩ := (@Fold.run_liveNodes libm a).2 x m hm
  obtain ⟨m', hm', hsame⟩ := (@Fold.run_liveNodes libm a).1 x n hn
  obtain ⟨-, rfl⟩ := live_unique hm hm' rfl
  rcases hsame with rfl | hconst
  · exact ⟨m, hn, rfl⟩
  · exact ⟨n, hn, constant_paramIndex hconst⟩

theorem trimmed_params (h : Trimmed a b) : ParamsFrom a b := by
  intro x m hm
  obtain ⟨n, hn, heq⟩ := h.live_of_live hm
  exact ⟨n, hn, congrArg Op.paramIndex (Node.unlinked_fields heq).1⟩

/-- Canonicalization turns no node into a parameter. -/
theorem canonicalize_params {c : Canonical} (hl : LinksOk a) (hv : verify a = .ok ())
    (hc : Canonicalizable libm a roots) (h : canonicalize libm a roots = .ok c) :
    ParamsFrom a c.arena := by
  obtain ⟨⟨f, merged⟩, hgvn, hdce⟩ := bind_ok.mp h
  obtain ⟨⟨b, removed⟩, hrun, hres⟩ := bind_ok.mp hdce
  obtain rfl := Except.ok.inj hres
  obtain ⟨tree, htree, -⟩ := hc.redirects
  obtain ⟨walk, f', hgvn', hout, -⟩ :=
    Gvn.run_outcome (@Fold.run_linksOk libm a hl) (@Fold.run_verify libm a hv) htree
  obtain ⟨rfl, -⟩ := Prod.mk.inj (Except.ok.inj (hgvn.symm.trans hgvn'))
  have hmerged : ParamsFrom (Fold.run libm a).1 f := by
    intro x m hm
    obtain ⟨n, hn, -, heq⟩ := hout.of_kept hm
    exact ⟨n, hn, congrArg Op.paramIndex (Node.unlinked_fields heq).1⟩
  exact fold_params.trans (hmerged.trans (trimmed_params (Dce.run_closed hout.links hrun).1))

open Apply in
theorem apply_params {budget : Nat} {out : ApplyOutcome} (hl : LinksOk a)
    (h : apply a roots budget = .ok (some out)) : ParamsFrom a out.arena := by
  obtain ⟨lg, ex, order, s, hsat, -, horder, hloop, hdce⟩ := apply_ok h
  obtain ⟨⟨hlinks, hparams⟩, -⟩ := loop_induction (P := fun t => LinksOk t ∧ ParamsFrom a t)
    hsat.inv horder (by
    rintro t b hs ⟨hlinks, hparams⟩
    refine ⟨hs.linksOk hlinks, hparams.trans fun x m hm => ?_⟩
    cases hs with
    | fold hr he hop hw =>
      obtain ⟨n, hn, heq⟩ := hw.mem_liveNodes.mp hm
      refine ⟨n, hn, ?_⟩
      rw [← heq]
      split
      · next hi =>
        rw [hw.eq_of_index (node_of_live hn) hi]
        exact constant_paramIndex hw.constant
      · rfl
    | redirect hr he hy hw =>
      obtain ⟨n, hn, heq⟩ := hw.mem_liveNodes.mp hm
      exact ⟨n, hn, heq ▸ rfl⟩) ⟨hl, .refl⟩ hloop
  exact hparams.trans (trimmed_params (Dce.run_closed hlinks hdce).1)

theorem Sole.of_params (h : Sole a) (hp : ParamsFrom a b) : Sole b := by
  have hparam : ∀ {x n' k}, (x, n') ∈ b.liveNodes → n'.op = .param k →
      k = 0 ∧ liveParams a = [x] := by
    intro x n' k hn' hop
    obtain ⟨n, hn, heq⟩ := hp x n' hn'
    rw [hop] at heq
    exact h x n k hn (Op.paramIndex_eq_some.mp heq.symm)
  intro x n' k hn' hop
  obtain ⟨hk, hone⟩ := hparam hn' hop
  refine ⟨hk, liveParams_eq_singleton (mem_liveParams.mpr ⟨n', k, hn', hop⟩) fun y hy => ?_⟩
  obtain ⟨m, j, hm, hj⟩ := mem_liveParams.mp hy
  exact List.singleton_inj.mp ((hparam hm hj).2.symm.trans hone)

/-- A sole parameter is bound, whatever the clusters are. -/
theorem Sole.binds {clusters : ClusterSet} (h : Sole a) (hv : verify a = .ok ()) :
    BindsParams a roots clusters := by
  intro s prog tp hs hp hl
  obtain ⟨order, -, hc⟩ := compiled_of_ok hs hp hl
  refine (hc.paramsBound_iff hv).mpr fun id n k hn hk _ => ?_
  obtain ⟨rfl, hone⟩ := h id n k hn hk
  have hperm := paramSlots_perm hc.scheduled
  rw [hone, List.map_singleton, List.perm_singleton] at hperm
  rw [hperm]
  rfl

theorem paramCount_eq : paramCount a = (liveParams a).length := by
  have hsame : a.liveNodes.filter (fun e => e.2.op.isParam) =
      a.liveNodes.filter (isParam a ∘ Prod.fst) :=
    List.filter_congr fun e he => (isParam_live he).symm
  rw [paramCount, liveParams, liveIds, List.filter_map, List.length_map, hsame]

/-- A slot for each parameter. -/
theorem Sole.covered (h : Sole a) : paramCount a ≤ paramSpan a % 2 ^ 32 := by
  cases hparams : a.liveNodes.filter fun e => e.2.op.isParam with
  | nil => simp [paramCount, hparams]
  | cons e rest =>
    have hmem : e ∈ a.liveNodes.filter fun e => e.2.op.isParam := hparams ▸ List.mem_cons_self
    obtain ⟨hn, hp⟩ := List.mem_filter.mp hmem
    obtain ⟨k, hk⟩ := Op.isParam_iff.mp hp
    obtain ⟨rfl, hone⟩ := h e.1 e.2 k hn hk
    have hle : paramSpan a ≤ 1 := paramSpan_le.mpr fun id n k hn hk => by
      obtain ⟨rfl, -⟩ := h id n k hn hk
      exact le_rfl
    have hspan : paramSpan a = 1 := le_antisymm hle (paramSpan_le.mp le_rfl e.1 e.2 0 hn hk)
    rw [hspan, paramCount_eq, hone]
    exact Nat.le_refl 1

/-- The passes leave an accepted arena with the meaning of the old one. -/
theorem optimise_kept (ht : TreeOk a) (hl : LinksOk a) (hv : verify a = .ok ())
    (hlive : ∀ r ∈ roots, a.IsLive r) (hk : Keeping libm args roots a tier)
    (h : optimise libm roots tier a = .ok b) : verify b = .ok () ∧ ParamsFrom a b ∧
      ∀ vs, Denotes libm a roots args vs → Denotes libm b roots args vs := by
  have hcanonical : ∀ b, Canonicalizable libm a roots → optimise libm roots .tier1 a = .ok b →
      verify b = .ok () ∧ LinksOk b ∧ TreeOk b ∧ ParamsFrom a b ∧
        ∀ vs, Denotes libm a roots args vs → Denotes libm b roots args vs := by
    intro b hc hb
    obtain ⟨c, hcan, hcv, hcl, hct, hden⟩ := canonicalize_denotes hl hv hlive hc
    obtain ⟨-, rfl | ⟨c', hcan', rfl⟩⟩ := optimise_tier1 hb
    · exact ⟨hv, hl, ht, .refl, fun _ => id⟩
    · obtain rfl := Except.ok.inj (hcan.symm.trans hcan')
      exact ⟨hcv, hcl, ht.sameTree hct, canonicalize_params hl hv hc hcan, hden args⟩
  cases tier with
  | tier0 | tier3 =>
    obtain rfl := Except.ok.inj h
    exact ⟨hv, .refl, fun _ => id⟩
  | tier1 =>
    obtain ⟨hbv, -, -, hparams, hden⟩ := hcanonical b hk h
    exact ⟨hbv, hparams, hden⟩
  | tier2 =>
    obtain ⟨c, hc, hcases⟩ := optimise_tier2 h
    obtain ⟨hcv, hcl, hct, hparams, hden⟩ := hcanonical c hk.1 hc
    rcases hcases with rfl | ⟨out, hout, rfl⟩
    · exact ⟨hcv, hparams, hden⟩
    · obtain ⟨hov, -⟩ := apply_accepted hct hcl hcv hout
      exact ⟨hov, hparams.trans (apply_params hcl hout),
        fun vs hd => apply_denotes hct hcl hcv (hk.2 c hc) hout (hden vs hd)⟩

-- ---------------------------------------------------------------------------
-- The program of a tier
-- ---------------------------------------------------------------------------

/-- A program is that of the arena the passes left, for some clusters at tier 2
and for none below. -/
theorem compile_ok (h : compile libm searches a roots tier = .ok p) :
    ∃ b clusters, optimise libm roots tier a = .ok b ∧ (tier ≠ .tier2 → clusters = .empty) ∧
      ∀ args, lowerAndRun libm b roots clusters args =
        .ok (.ok (execute libm p.target args)) := by
  unfold compile at h
  split at h
  · cases h
  · obtain ⟨b, hb, h⟩ := bind_ok.mp h
    obtain ⟨t, ht, h⟩ := bind_ok.mp h
    obtain ⟨fused, hfused, h⟩ := bind_ok.mp h
    obtain ⟨prog, hprog, h⟩ := bind_ok.mp h
    obtain ⟨target, htarget, hret⟩ := bind_ok.mp h
    cases hret
    have hlayouts : ∀ clusters args,
        lowerAndRun libm t roots clusters args = lowerAndRun libm b roots clusters args := by
      unfold inferLayouts at ht
      split at ht
      · dsimp only at ht
        split at ht
        · cases ht
        · obtain rfl := Except.ok.inj ht
          exact fun clusters args => layoutInfer_executes
      · obtain rfl := Except.ok.inj ht
        exact fun _ _ => rfl
    obtain ⟨clusters, hnone, hproj⟩ : ∃ clusters, (tier ≠ .tier2 → clusters = .empty) ∧
        projectWithFusion t roots clusters = .ok prog := by
      have hprog := mapError_ok.mp hprog
      cases fused with
      | some clusters =>
        refine ⟨clusters, fun hne => ?_, hprog⟩
        rw [fuse, if_neg hne] at hfused
        cases hfused
      | none => exact ⟨.empty, fun _ => rfl, hprog⟩
    refine ⟨b, clusters, hb, hnone, fun args => ?_⟩
    rw [← hlayouts, lowerAndRun, hproj]
    change Except.ok ((lower prog).map _) = _
    rw [mapError_ok.mp htarget]
    rfl

/-- A lowered program computes the meaning of its arena. -/
theorem lowered_iff {clusters : ClusterSet} {r : Run (List Value)} (hv : verify a = .ok ())
    (hi : Initialised a roots) (hb : BindsParams a roots clusters)
    (h : lowerAndRun libm a roots clusters args = .ok (.ok r)) :
    r = .ok vs ↔ Denotes libm a roots args vs := by
  obtain ⟨prog, hp, hl⟩ := map_ok.mp h
  obtain ⟨tp, htp, rfl⟩ := map_ok.mp hl
  obtain ⟨s, hs, -⟩ := bind_ok.mp hp
  exact execute_iff hv hs hp htp hi (hb s prog tp hs hp htp)

/-- Whatever the clusters, a graph whose programs bind their parameters computes
the same. -/
theorem fusion_irrelevant {clusters clusters' : ClusterSet} {r r' : Run (List Value)}
    (hv : verify a = .ok ()) (hi : Initialised a roots) (hb : BindsParams a roots clusters)
    (hb' : BindsParams a roots clusters')
    (h : lowerAndRun libm a roots clusters args = .ok (.ok r))
    (h' : lowerAndRun libm a roots clusters' args = .ok (.ok r')) : r = .ok vs ↔ r' = .ok vs :=
  (lowered_iff hv hi hb h).trans (lowered_iff hv hi hb' h').symm

/-- The constant and the sum in one cluster, the parameter in none. -/
def sumCluster : ClusterSet :=
  ⟨[⟨[.pack 1 0 .graph, .pack 2 0 .graph], 64, 8, true⟩], [none, some 0, some 0]⟩

theorem sole_addedZero : Sole addedZero := by
  intro id n k hn hk
  obtain ⟨-, hop, -⟩ | hop | ⟨-, hop⟩ := addedZero_nodes _ hn
  · cases hop.symm.trans hk
  · have hone : liveParams addedZero = [.pack 0 0 .graph] := by decide
    cases hop.symm.trans hk
    have hmem : id ∈ liveParams addedZero := mem_liveParams.mpr ⟨n, 0, hn, hop⟩
    rw [hone] at hmem
    exact ⟨rfl, List.mem_singleton.mp hmem ▸ hone⟩
  · cases hop.symm.trans hk

theorem fusion_irrelevant_addedZero : ∃ r r' : Run (List Value),
    lowerAndRun .absent addedZero [.pack 2 0 .graph] .empty [.i64 7] = .ok (.ok r) ∧
    lowerAndRun .absent addedZero [.pack 2 0 .graph] sumCluster [.i64 7] = .ok (.ok r') ∧
    r = .ok [.i64 7] ∧ r' = .ok [.i64 7] := by
  have hv : verify addedZero = .ok () := by decide
  have hi : Initialised addedZero [.pack 2 0 .graph] :=
    (@addedZero_denotes .absent).initialised (.inr sole_addedZero.covered)
  have h : lowerAndRun .absent addedZero [.pack 2 0 .graph] .empty [.i64 7] =
      .ok (.ok (.ok [.i64 7])) := by decide +kernel
  obtain ⟨r', h'⟩ : ∃ r',
      lowerAndRun .absent addedZero [.pack 2 0 .graph] sumCluster [.i64 7] = .ok (.ok r') :=
    ⟨_, rfl⟩
  exact ⟨_, r', h, h', rfl, (fusion_irrelevant hv hi (sole_addedZero.binds hv)
    (sole_addedZero.binds hv) h h').mp rfl⟩

/-- The arena's programs bind their parameters, and have a slot for each. -/
structure Binds (a : IrArena) (roots : List NodeId) (clusters : ClusterSet) : Prop where
  params : BindsParams a roots clusters
  covered : (∃ id n, (id, n) ∈ a.liveNodes ∧ n.op.isParam = false) ∨
    paramCount a ≤ paramSpan a % 2 ^ 32

/-- What tier 0 computes, every tier computes whose passes keep meanings and
whose program binds its parameters. -/
theorem tiers_agree (ht : TreeOk a) (hl : LinksOk a) (hv : verify a = .ok ())
    (hlive : ∀ r ∈ roots, a.IsLive r) (hk : Keeping libm args roots a tier)
    (hi : Initialised a roots) (hb₀ : BindsParams a roots .empty)
    (hb : ∀ b (clusters : ClusterSet), optimise libm roots tier a = .ok b →
      (tier ≠ .tier2 → clusters = .empty) → Binds b roots clusters)
    (h₀ : compile libm searches a roots .tier0 = .ok p)
    (h : compile libm searches' a roots tier = .ok p')
    (hrun : execute libm p.target args = .ok vs) : execute libm p'.target args = .ok vs := by
  obtain ⟨b₀, clusters₀, hopt₀, hnone, hrun₀⟩ := compile_ok h₀
  obtain rfl := Except.ok.inj hopt₀
  obtain rfl := hnone nofun
  have hd : Denotes libm a roots args vs := (lowered_iff hv hi hb₀ (hrun₀ args)).mp hrun
  obtain ⟨b, clusters, hopt, hnone, hrun'⟩ := compile_ok h
  obtain ⟨hbv, -, hden⟩ := optimise_kept ht hl hv hlive hk hopt
  have hbinds := hb b clusters hopt hnone
  have hi' := (hden vs hd).initialised hbinds.covered
  exact (lowered_iff hbv hi' hbinds.params (hrun' args)).mpr (hden vs hd)

theorem parseAndVerify_ok {src : String} (h : parseAndVerify src = .ok (a, roots)) :
    parseArena src 4096 = .ok a ∧ verify a = .ok () ∧ roots = resultRoots a := by
  obtain ⟨a', hparse, h⟩ := bind_ok.mp h
  obtain ⟨u, hverify, hret⟩ := bind_ok.mp h
  cases hret
  exact ⟨mapError_ok.mp hparse, mapError_ok.mp hverify, rfl⟩

theorem resultRoots_live {r : NodeId} (hr : r ∈ resultRoots a) : a.IsLive r := by
  have hmem := List.mem_of_getLast? (Option.mem_toList.mp hr)
  obtain ⟨e, he, rfl⟩ := List.mem_map.mp hmem
  exact isLive_of_mem_liveIds (List.mem_map_of_mem (List.mem_filter.mp he).1)

/-- A parameter, a dead constant, and zero added to the parameter. -/
def deadSource : String :=
  "xir v1 func @main \x7b\n%0 = param 0 : scalar<i64>\n%1 = const.i64 5\n" ++
  "%2 = const.i64 0\n%3 = binary.add %0, %2 : scalar<i64>\n\x7d\n"

def noSearches : Searches := ⟨fun _ => none, fun _ => .error .panic⟩

end Driver

end Sxla
