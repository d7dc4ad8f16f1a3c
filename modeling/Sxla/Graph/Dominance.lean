import Sxla.Ir.Arena
import Sxla.Library.Checked

/-!
# Region-tree dominance

Depths and parents of the region slots, found by passes over the slots until
one changes nothing. The climb of a query is bounded by the slot count.
-/

namespace Sxla

inductive DominanceError where
  | unknownRegion
deriving DecidableEq, Repr

structure DominatorTree where
  depths : List Nat
  parents : List RegionId
deriving Repr

namespace DominatorTree

/-- `u16::MAX`. -/
def unvisited : Nat := 2 ^ 16 - 1

def depthOf (t : DominatorTree) (slot : Nat) : Nat := t.depths.getD slot unvisited

def place (t : DominatorTree) (slot depth : Nat) (parent : RegionId) : DominatorTree :=
  ⟨t.depths.set slot depth, t.parents.set slot parent⟩

/-- One slot of a pass, with the `changed` flag. -/
def settle (a : IrArena) : DominatorTree × Bool → Nat → DominatorTree × Bool
  | (t, changed), slot =>
    if t.depthOf slot ≠ unvisited then (t, changed)
    else
      match a.region (.pack slot 0) with
      | .error _ => (t, changed)
      | .ok r =>
        if r.parent.isNone then (t.place slot 0 .NONE, true)
        else if r.parent.index < a.regionCount ∧ t.depthOf r.parent.index ≠ unvisited then
          (t.place slot (min (t.depthOf r.parent.index + 1) unvisited) r.parent, true)
        else (t, changed)

def rounds (a : IrArena) : Nat → DominatorTree → DominatorTree
  | 0, t => t
  | fuel + 1, t =>
    match (List.range a.regionCount).foldl (settle a) (t, false) with
    | (t, true) => rounds a fuel t
    | (t, false) => t

def recordedParent (a : IrArena) (slot : Nat) : Except DominanceError RegionId :=
  match a.region (.pack slot 0) with
  | .ok r => .ok r.parent
  | .error .unknownRegion => .ok .NONE
  | .error _ => .error .unknownRegion

def build (a : IrArena) : Except DominanceError DominatorTree := do
  let parents ← (List.range a.regionCount).mapM (recordedParent a)
  let t : DominatorTree := ⟨List.replicate a.regionCount unvisited, parents⟩
  let t := match a.region a.rootRegion with
    | .ok _ => t.place a.rootRegion.index 0 .NONE
    | .error _ => t
  return rounds a a.regionCount t

/-- Climbs from `cur` at depth `db` to depth `da`. -/
def climb (t : DominatorTree) (da : Nat) : Nat → Nat → RegionId → Option (Nat × RegionId)
  | fuel, db, cur =>
    if db ≤ da then some (db, cur)
    else
      match fuel with
      | 0 => some (db, cur)
      | fuel + 1 =>
        match t.parents[cur.index]? with
        | none => none
        | some parent => if parent.isNone then none else climb t da fuel (db - 1) parent

def dominates (t : DominatorTree) (x y : RegionId) : Bool :=
  if x = y then true
  else if x.index ≥ t.depths.length ∨ y.index ≥ t.depths.length then false
  else
    let dx := t.depthOf x.index
    let dy := t.depthOf y.index
    if dx = unvisited ∨ dy = unvisited ∨ dy < dx then false
    else
      match t.climb dx (t.depths.length + 1) dy y with
      | none => false
      | some (depth, cur) => depth == dx && cur == x

theorem recordedParent_total (a : IrArena) (slot : Nat) : ∃ p, recordedParent a slot = .ok p := by
  unfold recordedParent
  cases h : a.region (.pack slot 0) with
  | ok r => exact ⟨_, rfl⟩
  | error e =>
    have he : e = .unknownRegion := by
      unfold IrArena.region IrArena.validateRegion at h
      split at h
      · exact (Except.error.inj h).symm
      split at h
      · exact (Except.error.inj h).symm
      split at h
      · cases h
      · exact (Except.error.inj h).symm
    subst he
    exact ⟨_, rfl⟩

/-- The analysis never fails: a region lookup has one way to fail. -/
theorem build_total (a : IrArena) : ∃ t, build a = .ok t := by
  obtain ⟨parents, hp⟩ := Checked.mapM_isOk.mpr fun slot (_ : slot ∈ List.range a.regionCount) =>
    recordedParent_total a slot
  exact ⟨_, Checked.bind_ok.mpr ⟨parents, hp, rfl⟩⟩

end DominatorTree

end Sxla
