import Sxla.Graph.Dce
import Sxla.Graph.Fold
import Sxla.Levels.SlotSafety

/-!
# The canonicalization pass

Folding, value numbering and dead code elimination in the order the pass
runs them. Only value numbering can end a root: folding rewrites in place
and dead code elimination anchors the roots' slots. It does so exactly where
its walk merges the root into a representative.
-/

namespace Sxla

open Checked

/-- The resulting arena with what each pass changed. -/
structure Canonical where
  arena : IrArena
  folded : Nat
  merged : Nat
  removed : Nat

def canonicalize (libm : Libm) (a : IrArena) (roots : List NodeId) :
    Except PassError Canonical := do
  let (working, folded) := Fold.run libm a
  let (working, merged) ← Gvn.run working
  let (working, removed) ← Dce.run working roots
  return ⟨working, folded, merged, removed⟩

/-- Every root is live in the result, and a projection that assigns slots
finds one for each root. -/
def KeepsRoots (libm : Libm) (a : IrArena) (roots : List NodeId) : Prop :=
  ∃ c, canonicalize libm a roots = .ok c ∧ (∀ r ∈ roots, c.arena.IsLive r) ∧
    ∀ s, assignSlots c.arena .empty = .ok s → ∃ results, roots.mapM s.lookup = .ok results

/-- Value numbering of the folded arena takes the merging branch when its
walk is at the root's slot. -/
def MergesRoot (libm : Libm) (a : IrArena) (root : NodeId) : Prop :=
  let folded := (Fold.run libm a).1
  ∃ tree x, DominatorTree.build folded = .ok tree ∧
    Gvn.MergedIn tree folded folded.liveNodes x ∧ x.index = root.index

variable {libm : Libm} {a : IrArena} {roots : List NodeId} {root : NodeId}

/-- The pass never fails, and it ends a live root exactly by merging it. -/
theorem canonicalize_spec (hroots : ∀ r ∈ roots, a.IsLive r) :
    ∃ c, canonicalize libm a roots = .ok c ∧
      ∀ r ∈ roots, c.arena.IsLive r ↔ ¬ MergesRoot libm a r := by
  obtain ⟨tree, htree⟩ := DominatorTree.build_total (Fold.run libm a).1
  obtain ⟨b, merged, hb, hlive⟩ := Gvn.walk_liveNodes htree
  obtain ⟨c, removed, hc, hsub, hkeep⟩ := @Dce.run_spec b roots
  refine ⟨⟨c, _, merged, removed⟩, bind_ok.mpr ⟨_, hb, bind_ok.mpr ⟨_, hc, rfl⟩⟩, fun r hr => ?_⟩
  have hfolded := (@Fold.run_sameHandles libm a).isLive_iff.mpr (hroots r hr)
  constructor
  · rintro h ⟨tree', x, htree', hx, he⟩
    rw [htree, Except.ok.injEq] at htree'
    subst htree'
    exact ((hlive r).mp (hsub r h)).2 x hx he
  · intro h
    refine hkeep r hr ((hlive r).mpr ⟨hfolded, fun x hx he => h ⟨tree, x, htree, hx, he⟩⟩)

/-- A projection has a slot for every live node. -/
theorem lookup_of_isLive (hs : assignSlots a .empty = .ok s) (h : a.IsLive root) :
    ∃ slot, s.lookup root = .ok slot := by
  obtain ⟨order, ho, hassigned⟩ := assignSlots_ok hs
  obtain ⟨id, n, hn, hi⟩ := IrArena.exists_live h.index_mem
  obtain ⟨slot, hslot⟩ := hassigned.lookup_of_live (projectionOrder_scheduled ho) hn
  refine ⟨slot, ?_⟩
  rwa [Projection.lookup, hi] at hslot

/-- Canonicalization keeps its roots exactly when value numbering merges
none of them. -/
theorem keepsRoots_iff (hroots : ∀ r ∈ roots, a.IsLive r) :
    KeepsRoots libm a roots ↔ ∀ r ∈ roots, ¬ MergesRoot libm a r := by
  obtain ⟨c, hc, hlive⟩ := @canonicalize_spec libm _ _ hroots
  constructor
  · rintro ⟨c', hc', hkeep, _⟩ r hr
    rw [hc, Except.ok.injEq] at hc'
    exact (hlive r hr).mp (hc' ▸ hkeep r hr)
  · intro h
    have hkeep : ∀ r ∈ roots, c.arena.IsLive r := fun r hr => (hlive r hr).mpr (h r hr)
    refine ⟨c, hc, hkeep, fun s hs => mapM_isOk.mpr fun r hr => ?_⟩
    exact lookup_of_isLive hs (hkeep r hr)

/-- The same constant twice. -/
def twinConsts : IrArena := .built do
  let a := IrArena.withCapacity 16 4
  let (_, a) ← a.insertNode a.rootRegion
    (.new (.constI64 7) a.rootRegion [] (.scalar .i64))
  let (_, a) ← a.insertNode a.rootRegion
    (.new (.constI64 7) a.rootRegion [] (.scalar .i64))
  return a

theorem keepsRoots_iff_twinConsts : ¬ MergesRoot .absent twinConsts (.pack 0 0 .graph) := by
  have hkeep : KeepsRoots .absent twinConsts [.pack 0 0 .graph] := by
    have hrun : ∃ c, canonicalize .absent twinConsts [.pack 0 0 .graph] = .ok c ∧
        c.arena.IsLive (.pack 0 0 .graph) := by
      refine ⟨_, rfl, by decide⟩
    obtain ⟨c, hc, hlive⟩ := hrun
    refine ⟨c, hc, by simpa using hlive, fun s hs => mapM_isOk.mpr ?_⟩
    simpa using lookup_of_isLive hs hlive
  exact (keepsRoots_iff (by decide)).mp hkeep _ (List.mem_singleton_self _)

theorem twinConsts_not_keepsRoots :
    verify twinConsts = .ok () ∧ twinConsts.IsLive (.pack 1 0 .graph) ∧
      ¬ KeepsRoots .absent twinConsts [.pack 1 0 .graph] := by
  refine ⟨by decide, by decide, ?_⟩
  rintro ⟨c, hc, hlive, _⟩
  have hfree : (canonicalize .absent twinConsts [.pack 1 0 .graph]).toOption.map
      (·.arena.nodeFree) = some [0, 1] := by decide
  rw [hc] at hfree
  have hfree : c.arena.nodeFree = [0, 1] := Option.some.inj hfree
  have hroot := (hlive _ (List.mem_singleton_self _)).1
  exact hroot (by simp [hfree])

end Sxla
