import Sxla.Ir.Arena

/-!
# The verifier

`verify` in the order the source runs it: the region tree, the owners of
`if` regions, then each live node's own contract and the dominance of its
inputs. `verify_ok` reads its success as facts about the arena.

Effect inputs are not resolved by any of these checks.
-/

namespace Sxla

inductive VerifierError where
  | useDefInvalid (id : NodeId)
  | regionInvalid (id : NodeId)
  | arityInvalid (id : NodeId)
  | typeInvalid (id : NodeId)
  | effectChainBroken (id : NodeId)
  | slotInvalid (id : NodeId)
  | regionTreeInvalid (id : NodeId)
  | badRegionOwner (id : NodeId)
  | badIfRegions (id : NodeId)
  | typeDisagreement (id : NodeId)
deriving DecidableEq, Repr

namespace Verifier

variable (a : IrArena)

-- ---------------------------------------------------------------------------
-- Regions
-- ---------------------------------------------------------------------------

/-- The parent chain from `cur` ends within the given number of steps. -/
def parentChainEnds : Nat → RegionId → Bool
  | fuel, cur =>
    if cur.isNone then true
    else
      match fuel with
      | 0 => false
      | fuel + 1 =>
        match a.region cur with
        | .ok r => parentChainEnds fuel r.parent
        | .error _ => true

def regionTreeOk : Bool :=
  (List.range (a.regionCount + 1)).all fun slot =>
    match a.region (.pack slot 0) with
    | .ok _ => parentChainEnds a (a.regionCount + 1) (.pack slot 0)
    | .error _ => true

/-- The owner is an `if` node living in the region's parent. -/
def ownerOk (r : Region) : Bool :=
  match a.node r.owner with
  | .ok n => n.op == .ifOp && n.region == r.parent
  | .error _ => false

def badOwner (r : Region) : Option VerifierError :=
  if r.owner.isNone || ownerOk a r then none else some (.badRegionOwner r.owner)

/-- How many regions the node in a slot owns, in a saturating `u8`. -/
def ownedCount (slot : Nat) : Nat :=
  min (a.regions.countP fun r => !r.owner.isNone && r.owner.index == slot) 255

/-- Ancestor-or-self walk, with at most `fuel` steps. -/
def reaches (ancestor : RegionId) : Nat → RegionId → Bool
  | 0, _ => false
  | fuel + 1, cur =>
    if cur.isNone then false
    else if cur = ancestor then true
    else
      match a.region cur with
      | .ok r => reaches ancestor fuel r.parent
      | .error _ => false

def regionDominates (ancestor descendant : RegionId) : Bool :=
  if ancestor = descendant || ancestor.isNone then true
  else reaches a ancestor (a.regionCount + 2) descendant

-- ---------------------------------------------------------------------------
-- Nodes
-- ---------------------------------------------------------------------------

def elemOf : Ty → Option ScalarType
  | .scalar s => some s
  | .tensor t => some t.elem
  | .memRef t _ => some t.elem
  | .token | .none => none

def claimsIntegerElement (op : Op) (ty : Ty) : Bool :=
  let elemConsuming := match op with
    | .binary _ | .unary _ | .dot | .reduce .. | .matmul .. | .conv .. | .broadcast _
    | .transpose .. => true
    | _ => false
  elemConsuming && (elemOf ty == some .i64 || elemOf ty == some .i32)

def operandElemIsFloat (ty : Ty) : Bool :=
  elemOf ty == some .f64 || elemOf ty == some .f32

def checkInput (id : NodeId) (n : Node) (v : ValueId) : Option VerifierError :=
  if v.isNone then some (.useDefInvalid id)
  else
    match a.node v.node with
    | .error _ => some (.useDefInvalid id)
    | .ok d =>
      if v.slot ≠ 0 then some (.slotInvalid id)
      else if claimsIntegerElement n.op n.ty && operandElemIsFloat d.ty then
        some (.typeDisagreement id)
      else none

/-- Walks the region's list from `cur`, newest node first, and looks for an
effectful node ahead of `id`. -/
def effectAhead (id : NodeId) : Nat → NodeId → Bool
  | 0, _ => false
  | fuel + 1, cur =>
    if cur.isNone then false
    else if cur = id then false
    else
      match a.node cur with
      | .ok n => if n.op.hasEffect then true else effectAhead id fuel n.nextInRegion
      | .error _ => false

def regionHasEarlierEffect (region : RegionId) (id : NodeId) : Bool :=
  match a.region region with
  | .ok r => effectAhead a id (a.nodeCount + 2) r.firstNode
  | .error _ => false

def verifyNode (id : NodeId) (n : Node) : Option VerifierError :=
  if !n.region.isNone && (a.region n.region).toBool == false then
    some (.regionInvalid id)
  else if n.nInputs ≠ expectedArity n.op then
    some (.arityInvalid id)
  else if producesValue n.op && (n.ty == .none || n.ty == .token) then
    some (.typeInvalid id)
  else
    match n.valueInputs.findSome? (checkInput a id n) with
    | some e => some e
    | none =>
      if n.op.hasEffect && n.effectIn.isNone && (a.region n.region).toBool &&
          regionHasEarlierEffect a n.region id then
        some (.effectChainBroken id)
      else none

def inputDominates (n : Node) (v : ValueId) : Bool :=
  match a.node v.node with
  | .ok d => regionDominates a d.region n.region
  | .error _ => true

def checkDominance (id : NodeId) (n : Node) : Option VerifierError :=
  if n.valueInputs.all (inputDominates a n) then none else some (.regionTreeInvalid id)

def verifyLive : NodeId × Node → Option VerifierError
  | (id, n) =>
    if n.op = .ifOp ∧ ownedCount a id.index ≠ 2 then some (.badIfRegions id)
    else
      match verifyNode a id n with
      | some e => some e
      | none => checkDominance a id n

end Verifier

open Verifier

def verify (a : IrArena) : Except VerifierError Unit :=
  if !regionTreeOk a then .error (.regionTreeInvalid (.pack 0 0 .graph))
  else
    match a.regions.findSome? (badOwner a) with
    | some e => .error e
    | none =>
      match a.liveNodes.findSome? (verifyLive a) with
      | some e => .error e
      | none => .ok ()

-- ---------------------------------------------------------------------------
-- What success means
-- ---------------------------------------------------------------------------

namespace Verifier

variable {a : IrArena} {id : NodeId} {n : Node} {v : ValueId}

/-- One value input of a verified node. -/
structure InputOk (a : IrArena) (n : Node) (v : ValueId) (d : Node) : Prop where
  not_none : v.isNone = false
  def_eq : a.node v.node = .ok d
  slot_eq : v.slot = 0
  elem : (claimsIntegerElement n.op n.ty && operandElemIsFloat d.ty) = false
  dominates : regionDominates a d.region n.region = true

/-- What `verify` has checked of one live node. -/
structure NodeOk (a : IrArena) (id : NodeId) (n : Node) : Prop where
  owns : n.op = .ifOp → ownedCount a id.index = 2
  region : n.region.isNone = true ∨ ∃ r, a.region n.region = .ok r
  arity : n.inputs.length = expectedArity n.op
  ty : producesValue n.op = true → n.ty ≠ .none ∧ n.ty ≠ .token
  inputs : ∀ v ∈ n.valueInputs, ∃ d, InputOk a n v d
  effect : n.op.hasEffect = true → n.effectIn.isNone = true →
    regionHasEarlierEffect a n.region id = false

theorem checkInput_ok :
    checkInput a id n v = none ↔ v.isNone = false ∧ ∃ d, a.node v.node = .ok d ∧ v.slot = 0 ∧
      (claimsIntegerElement n.op n.ty && operandElemIsFloat d.ty) = false := by
  unfold checkInput
  cases hn : v.isNone with
  | true => simp
  | false =>
    cases hd : a.node v.node with
    | error e => simp
    | ok d => by_cases hs : v.slot = 0 <;> simp [hs]

theorem expectedArity_le (op : Op) : expectedArity op ≤ MAX_INPUTS := by
  cases op <;> simp [expectedArity, MAX_INPUTS]

/-- A verified node has no inputs past those that the loops visit. -/
theorem NodeOk.valueInputs_eq (h : NodeOk a id n) : n.valueInputs = n.inputs := by
  rw [Node.valueInputs, List.take_of_length_le]
  rw [h.arity]
  exact expectedArity_le n.op

theorem regionHasEarlierEffect_of_error (h : (a.region r).toBool = false) :
    regionHasEarlierEffect a r id = false := by
  unfold regionHasEarlierEffect
  cases hr : a.region r with
  | error e => rfl
  | ok r => simp [hr, Except.toBool] at h

theorem verifyLive_ok : verifyLive a (id, n) = none ↔ NodeOk a id n := by
  simp only [verifyLive, verifyNode, checkDominance]
  constructor
  · intro h
    split at h
    · cases h
    rename_i howns
    split at h
    · cases h
    rename_i hnode
    split at hnode
    · cases hnode
    rename_i hregion
    split at hnode
    · cases hnode
    rename_i harity
    split at hnode
    · cases hnode
    rename_i hty
    split at hnode
    · cases hnode
    rename_i hinputs
    split at hnode
    · cases hnode
    rename_i heffect
    split at h
    swap
    · cases h
    rename_i hdom
    rw [List.findSome?_eq_none_iff] at hinputs
    rw [List.all_eq_true] at hdom
    refine
      { owns := fun ho => by simpa [ho] using howns
        region := ?_
        arity := by simpa [Node.nInputs] using harity
        ty := fun hp => by simpa [hp] using hty
        inputs := fun v hv => ?_
        effect := fun he hin => ?_ }
    · cases hr : a.region n.region with
      | ok r => exact .inr ⟨r, rfl⟩
      | error e => exact .inl (by simpa [hr, Except.toBool] using hregion)
    · obtain ⟨hnone, d, hd, hslot, helem⟩ := checkInput_ok.mp (hinputs v hv)
      exact ⟨d, hnone, hd, hslot, helem, by simpa [inputDominates, hd] using hdom v hv⟩
    · cases hb : (a.region n.region).toBool with
      | false => exact regionHasEarlierEffect_of_error hb
      | true => simpa [he, hin, hb] using heffect
  · intro h
    have hinputs : n.valueInputs.findSome? (checkInput a id n) = none := by
      rw [List.findSome?_eq_none_iff]
      intro v hv
      obtain ⟨d, hv⟩ := h.inputs v hv
      exact checkInput_ok.mpr ⟨hv.not_none, d, hv.def_eq, hv.slot_eq, hv.elem⟩
    have hdom : n.valueInputs.all (inputDominates a n) = true := by
      rw [List.all_eq_true]
      intro v hv
      obtain ⟨d, hv⟩ := h.inputs v hv
      simpa [inputDominates, hv.def_eq] using hv.dominates
    have hregion : (!n.region.isNone && (a.region n.region).toBool == false) = false := by
      rcases h.region with hr | ⟨r, hr⟩ <;> simp [hr, Except.toBool]
    have hty : (producesValue n.op && (n.ty == .none || n.ty == .token)) = false := by
      cases hp : producesValue n.op with
      | false => rfl
      | true => simpa using h.ty hp
    have heffect : (n.op.hasEffect && n.effectIn.isNone && (a.region n.region).toBool &&
        regionHasEarlierEffect a n.region id) = false := by
      cases he : n.op.hasEffect with
      | false => rfl
      | true =>
        cases hin : n.effectIn.isNone with
        | false => rfl
        | true => simp [h.effect he hin]
    rw [if_neg (fun ho => ho.2 (h.owns ho.1)), hregion, hinputs, hty, heffect, hdom]
    simp [Node.nInputs, h.arity]

end Verifier

theorem verify_ok {a : IrArena} :
    verify a = .ok () ↔ regionTreeOk a = true ∧
      (∀ r ∈ a.regions, r.owner.isNone = true ∨ ownerOk a r = true) ∧
      ∀ id n, (id, n) ∈ a.liveNodes → NodeOk a id n := by
  have howner : (∀ r ∈ a.regions, r.owner.isNone = true ∨ ownerOk a r = true) ↔
      a.regions.findSome? (badOwner a) = none := by
    rw [List.findSome?_eq_none_iff]
    refine forall₂_congr fun r _ => ?_
    cases hr : r.owner.isNone <;> simp [badOwner, hr]
  have hnodes : (∀ id n, (id, n) ∈ a.liveNodes → NodeOk a id n) ↔
      a.liveNodes.findSome? (verifyLive a) = none := by
    rw [List.findSome?_eq_none_iff]
    simp only [Prod.forall, verifyLive_ok]
  rw [howner, hnodes, verify]
  cases regionTreeOk a
  · simp
  cases a.regions.findSome? (badOwner a)
  swap
  · simp
  cases a.liveNodes.findSome? (verifyLive a) <;> simp

end Sxla
