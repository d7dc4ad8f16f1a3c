import Sxla.Jit.Tiers
import Sxla.Runtime.ParamBinding

/-!
# Tier 0 on every text

Tier 0 has neither passes nor searches, so nothing about it stays open. The
parser defines every operand before its user, the verifier has counted the
operands, and the roots are live: projection cannot fail. What is left is the
lowering, which refuses two kinds of op.
-/

namespace Sxla

open Checked IrArena Projection Relation

namespace Driver

variable {libm : Libm} {searches : Searches} {a : IrArena} {roots : List NodeId} {src : String}
  {vals : Parse.Vals} {prog : LoopProgram}

-- ---------------------------------------------------------------------------
-- What was parsed can be scheduled
-- ---------------------------------------------------------------------------

theorem acyclic_of_inOrder (h : Built.InOrder ⟨a, vals⟩) : ValueAcyclic a := by
  have hdep : ∀ {x y}, ValueDep a x y → x < y := by
    rintro x y ⟨id, n, hn, rfl, v, hv, rfl⟩
    exact h.operands id n hn v hv
  have hlt : ∀ {x y}, TransGen (ValueDep a) x y → x < y := by
    intro x y hxy
    induction hxy with
    | single hxy => exact hdep hxy
    | tail _ hyz ih => exact ih.trans (hdep hyz)
  exact fun x _ hx => Nat.lt_irrefl x (hlt hx)

theorem inputsLive_of_unfreed (hfree : a.nodeFree = []) (hv : verify a = .ok ()) :
    InputsLive a := by
  intro id n hn v hvm
  obtain ⟨d, hd⟩ := ((verify_ok.mp hv).2.2 id n hn).inputs v hvm
  refine mem_liveSlots.mpr ⟨index_lt_of_node hd.def_eq, ?_⟩
  rw [hfree]
  exact List.not_mem_nil

theorem project_total (hsrc : parseAndVerify src = .ok (a, roots)) :
    ∃ s prog, assignSlots a .empty = .ok s ∧ project a roots = .ok prog := by
  obtain ⟨hparse, hv, rfl⟩ := parseAndVerify_ok hsrc
  obtain ⟨vals, hin⟩ := parseArena_inOrder hparse
  obtain ⟨order, ho⟩ := @projectionOrder_total a .empty
    (inputsLive_of_unfreed hin.unfreed hv) (acyclic_of_inOrder hin)
  exact projection_total hv ho fun r hr => (resultRoots_live hr).index_mem

-- ---------------------------------------------------------------------------
-- The lowering
-- ---------------------------------------------------------------------------

theorem lowerOp_error {sop : ScheduledOp} {e : TargetError} (h : lowerOp sop = .error e) :
    e = .unsupportedOp := by
  unfold lowerOp at h
  cases hop : sop.op <;> rw [hop] at h <;> cases h <;> rfl

theorem mapM_error {α β ε : Type} {f : α → Except ε β} {l : List α} {e : ε}
    (h : l.mapM f = .error e) : ∃ x ∈ l, f x = .error e := by
  induction l with
  | nil => cases h
  | cons x l ih =>
    rw [List.mapM_cons] at h
    cases hx : f x with
    | error e' =>
      rw [hx] at h
      cases h
      exact ⟨x, List.mem_cons_self, hx⟩
    | ok y =>
      rw [hx] at h
      cases hl : l.mapM f with
      | error e' =>
        rw [hl] at h
        cases h
        obtain ⟨z, hz, he⟩ := ih hl
        exact ⟨z, List.mem_cons_of_mem _ hz, he⟩
      | ok ys =>
        rw [hl] at h
        cases h

theorem lower_error {e : TargetError} (h : lower prog = .error e) : e = .unsupportedOp := by
  unfold lower at h
  cases hops : prog.ops.mapM lowerOp with
  | error e' =>
    rw [hops] at h
    cases h
    obtain ⟨sop, -, hop⟩ := mapM_error hops
    exact lowerOp_error hop
  | ok is =>
    rw [hops] at h
    cases h

/-- Tier 0 is the projection and the lowering. -/
theorem compileText_lower (hsrc : parseAndVerify src = .ok (a, roots))
    (hproj : project a roots = .ok prog) :
    compileText libm searches src .tier0 = (lower prog).mapError (fun e => .error (.lower e)) >>=
      fun target => .ok ⟨target, target.results, .tier0, computeFingerprint a, prog.buffers⟩ := by
  rw [compileText, hsrc]
  change ((project a roots).mapError _ >>= _) = _
  rw [hproj]
  rfl

/-- Every text is refused by the parser or the verifier, or compiles, or holds
an op that is not lowered. -/
theorem compileText_tier0 :
    (∃ e, parseAndVerify src = .error e ∧
      compileText libm searches src .tier0 = .error (.error e)) ∨
    ∃ a roots, parseAndVerify src = .ok (a, roots) ∧
      (((∀ id n, (id, n) ∈ a.liveNodes → n.op.refused = false) ∧
          ∃ p, compileText libm searches src .tier0 = .ok p) ∨
        ((∃ id n, (id, n) ∈ a.liveNodes ∧ n.op.refused = true) ∧
          compileText libm searches src .tier0 = .error (.error (.lower .unsupportedOp)))) := by
  cases hsrc : parseAndVerify src with
  | error e =>
    refine .inl ⟨e, rfl, ?_⟩
    rw [compileText, hsrc]
    rfl
  | ok r =>
    obtain ⟨a, roots⟩ := r
    refine .inr ⟨a, roots, rfl, ?_⟩
    obtain ⟨s, prog, hs, hproj⟩ := project_total hsrc
    have hcompile := @compileText_lower libm searches _ _ _ _ hsrc hproj
    cases hl : lower prog with
    | ok tp =>
      rw [hl] at hcompile
      exact .inl ⟨(lowerable_of_ok hs hproj hl).ops, _, hcompile⟩
    | error e =>
      rw [hl, lower_error hl] at hcompile
      refine .inr ⟨?_, hcompile⟩
      by_contra hno
      obtain ⟨tp, htp⟩ := lower_isOk.mpr fun sop hsop => by
        obtain ⟨id, n, hn, hop⟩ := ops_live hs hproj hsop
        rw [hop, ← Bool.not_eq_true]
        exact fun hr => hno ⟨id, n, hn, hr⟩
      rw [hl] at htp
      cases htp

end Driver

end Sxla
