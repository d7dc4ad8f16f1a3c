import Sxla.Mss.Program

/-!
# Candidates

A candidate is a base program with an ordered list of overlays: a slot gets
another definition, or a node is appended. Replaying the overlays gives a
slot's effective definition, and materializing emits the slots that the root
reaches, operands first and aliases inlined.
-/

namespace Sxla.Mss

def deadDef : NodeDef := ⟨.dead, 0, 0, NO_OPERAND, NO_OPERAND⟩

inductive Overlay where
  | replace (slot : Nat) (d : NodeDef)
  | extend (d : NodeDef)
deriving DecidableEq, Repr

structure Candidate where
  base : Program
  overlays : List Overlay
  root : Nat
deriving DecidableEq, Repr

namespace Candidate

def fromProgram (base : Program) : Candidate := ⟨base, [], base.root⟩

def push (c : Candidate) (o : Overlay) : Candidate := { c with overlays := c.overlays ++ [o] }

def extendCount (c : Candidate) : Nat := c.overlays.countP fun
  | .extend _ => true
  | .replace .. => false

def slotCount (c : Candidate) : Nat := c.base.arena.length + c.extendCount

/-- `slot_count() as u32`. -/
def slots (c : Candidate) : Nat := u32 c.slotCount

def baseLen (c : Candidate) : Nat := u32 c.base.arena.length

/-- One overlay, with the definition so far and the slot of the next appended
node. That count is a `u32`, and one that passes 32 bits panics. -/
def replay (slot : Nat) (s : NodeDef × Nat) : Overlay → NodeDef × Nat
  | .replace target d => (if target = slot then d else s.1, s.2)
  | .extend d => (if s.2 = slot then d else s.1, s.2 + 1)

def baseDef (c : Candidate) (slot : Nat) : NodeDef :=
  if slot < c.baseLen then c.base.arena.getD slot deadDef else deadDef

def view (c : Candidate) (slot : Nat) : NodeDef :=
  (c.overlays.foldl (replay slot) (c.baseDef slot, c.baseLen)).1

/-- Follows aliases, looking at so many slots. -/
def follow (c : Candidate) : Nat → Nat → Nat
  | 0, cur => cur
  | fuel + 1, cur =>
    if (c.view cur).kind = .alias then
      if (c.view cur).lhs = NO_OPERAND then cur else c.follow fuel (c.view cur).lhs
    else cur

def resolve (c : Candidate) (slot : Nat) : Nat := c.follow (c.slots + 1) slot

-- ---------------------------------------------------------------------------
-- Materializing
-- ---------------------------------------------------------------------------

/-- What an operand adds to the stack. -/
def operandTarget (c : Candidate) (operand : Nat) : List Nat :=
  if operand = NO_OPERAND then [] else [c.resolve operand]

/-- The loop over the stack, its top first. -/
def mark (c : Candidate) : Nat → List Nat → List Bool → List Bool
  | 0, _, marked => marked
  | _, [], marked => marked
  | fuel + 1, s :: stack, marked =>
    if s = NO_OPERAND ∨ s ≥ marked.length ∨ marked.getD s false = true then
      c.mark fuel stack marked
    else
      c.mark fuel (c.operandTarget (c.view s).rhs ++ c.operandTarget (c.view s).lhs ++ stack)
        (marked.set s true)

/-- What the root reaches over resolved operands. A slot is expanded once, so
twice as many rounds as slots, and one, are enough. -/
def reachable (c : Candidate) : List Bool :=
  c.mark (2 * c.slots + 2) [c.resolve c.root] (List.replicate c.slots false)

/-- Marks a slot that is never emitted. -/
def SKIPPED : Nat := 0xFFFFFFFE

/-- No slot stands here for one that waits. -/
def UNSEEN : Nat := 0xFFFFFFFF

structure Emission where
  newIndex : List Nat
  arena : List NodeDef
  progress : Bool

/-- Where an operand was emitted. -/
inductive Ready where
  | skipped
  | waiting
  | at (index : Nat)
deriving DecidableEq

def ready (c : Candidate) (newIndex : List Nat) (operand : Nat) : Ready :=
  if operand = NO_OPERAND then .at NO_OPERAND
  else
    let st := newIndex.getD (c.resolve operand) UNSEEN
    if st = UNSEEN then .waiting else if st = SKIPPED then .skipped else .at st

def emitSlot (c : Candidate) (reach : List Bool) (s : Emission) (slot : Nat) : Emission :=
  if s.newIndex.getD slot UNSEEN ≠ UNSEEN then s
  else
    let d := c.view slot
    if d.kind = .dead ∨ d.kind = .alias ∨ reach.getD slot false = false then
      { s with newIndex := s.newIndex.set slot SKIPPED, progress := true }
    else match c.ready s.newIndex d.lhs, c.ready s.newIndex d.rhs with
      | .at l, .at r =>
        { newIndex := s.newIndex.set slot (u32 s.arena.length)
          arena := s.arena ++ [{ d with lhs := l, rhs := r }]
          progress := true }
      | _, _ => s

/-- Passes over the slots until one makes no progress. -/
def passes (c : Candidate) (reach : List Bool) : Nat → Emission → Emission
  | 0, s => s
  | count + 1, s =>
    let s' := (List.range c.slots).foldl (c.emitSlot reach) { s with progress := false }
    if s'.progress then c.passes reach count s' else s'

def emitted (c : Candidate) : Emission :=
  c.passes c.reachable (c.slots + 1) ⟨List.replicate c.slots UNSEEN, [], false⟩

def materialize (c : Candidate) : Program :=
  let root := c.emitted.newIndex.getD (c.resolve c.root) UNSEEN
  ⟨c.emitted.arena, if root ≠ UNSEEN ∧ root ≠ SKIPPED then root else 0⟩

-- ---------------------------------------------------------------------------
-- The hash of the effective graph
-- ---------------------------------------------------------------------------

def hashWord (h word : UInt64) : UInt64 := (h ^^^ word) * 0x100000001B3

def operandWord (c : Candidate) (operand : Nat) : UInt64 :=
  if operand = NO_OPERAND then .ofNat NO_OPERAND
  else .ofNat (c.follow (c.slotCount + 1) operand)

def hashSlot (c : Candidate) (h : UInt64) (slot : Nat) : UInt64 :=
  let d := c.view slot
  if d.kind = .dead ∨ d.kind = .alias then h
  else [.ofNat d.kind.code, .ofNat d.opcode, d.imm.toUInt64 ^^^ (d.imm.toUInt64 >>> 32),
    c.operandWord d.lhs, c.operandWord d.rhs].foldl hashWord h

def canonicalHash (c : Candidate) : UInt64 :=
  hashWord ((List.range c.slots).foldl c.hashSlot 0xCBF29CE484222325) (.ofNat c.root)

end Candidate

end Sxla.Mss
