import Sxla.Mss.Candidate

/-!
# Mutations

A family rewrites one random slot, or the first site that its scan finds. A
mutation leaves its candidate alone and gives a copy with more overlays, or
nothing where it does not apply.
-/

namespace Sxla.Mss

/-- The xorshift generator. -/
structure Rng where
  state : UInt64
deriving DecidableEq, Repr

namespace Rng

def new (seed : UInt64) : Rng := ⟨(if seed = 0 then 0x9E3779B97F4A7C15 else seed) ||| 1⟩

/-- The product with `2^25` is the shift `x << 25`. -/
def nextU64 (rng : Rng) : UInt64 × Rng :=
  let x := rng.state ^^^ (rng.state >>> 12)
  let x := x ^^^ (x * 0x2000000)
  let x := x ^^^ (x >>> 27)
  (x * 0x2545F4914F6CDD1D, ⟨x⟩)

def below (rng : Rng) (bound : Nat) : Nat × Rng :=
  if bound = 0 then (0, rng) else (rng.nextU64.1.toNat % bound, rng.nextU64.2)

def permille (rng : Rng) : Nat × Rng := rng.below 1000

end Rng

inductive MutationFamily where
  | identityAdd
  | identityMul
  | subSelf
  | constFold
  | commuteNorm
  | reassocAdd
  | cse
  | dce
deriving DecidableEq, Repr

def FAMILIES : List MutationFamily :=
  [.identityAdd, .identityMul, .subSelf, .constFold, .commuteNorm, .reassocAdd, .cse, .dce]

def aliasDef (target : Nat) : NodeDef := ⟨.alias, 0, 0, target, NO_OPERAND⟩

def constDef (value : Int64) : NodeDef := ⟨.const, value, 0, NO_OPERAND, NO_OPERAND⟩

namespace Candidate

variable (c : Candidate)

def liveSlots : List Nat :=
  (List.range c.slots).filter fun s => (c.view s).kind ≠ .dead ∧ (c.view s).kind ≠ .alias

def randomLiveSlot (rng : Rng) : Option Nat × Rng :=
  if c.liveSlots = [] then (none, rng)
  else (c.liveSlots[(rng.below c.liveSlots.length).1]?, (rng.below c.liveSlots.length).2)

/-- The slot is the binary operation. -/
def isBin (slot : Nat) (op : BinOp) : Bool :=
  (c.view slot).kind = .bin ∧ (c.view slot).opcode = op.code

def isConst (slot : Nat) (value : Int64) : Bool :=
  (c.view slot).kind = .const ∧ (c.view slot).imm = value

/-- Drops an operand that is the unit of the operation, the left one first. -/
def identity (op : BinOp) (unit : Int64) (slot : Nat) : Option Candidate :=
  let l := c.resolve (c.view slot).lhs
  let r := c.resolve (c.view slot).rhs
  if c.isBin slot op then
    if c.isConst l unit then some (c.push (.replace slot (aliasDef r)))
    else if c.isConst r unit then some (c.push (.replace slot (aliasDef l)))
    else none
  else none

def identityAdd (slot : Nat) : Option Candidate := c.identity .add 0 slot

def identityMul (slot : Nat) : Option Candidate := c.identity .mul 1 slot

def subSelf (slot : Nat) : Option Candidate :=
  if c.isBin slot .sub ∧ c.resolve (c.view slot).lhs = c.resolve (c.view slot).rhs then
    some (c.push (.replace slot (constDef 0)))
  else none

/-- The folded constant; no fold where the exact value does not fit. -/
def folded (opcode : Nat) (x y : Int64) : Option Int64 :=
  if opcode = BinOp.add.code then CheckedInt.add x y
  else if opcode = BinOp.sub.code then CheckedInt.sub x y
  else if opcode = BinOp.mul.code then CheckedInt.mul x y
  else if opcode = BinOp.min.code then some (min x y)
  else if opcode = BinOp.max.code then some (max x y)
  else none

def constFold (slot : Nat) : Option Candidate :=
  let ld := c.view (c.resolve (c.view slot).lhs)
  let rd := c.view (c.resolve (c.view slot).rhs)
  if (c.view slot).kind = .bin ∧ ld.kind = .const ∧ rd.kind = .const then do
    let value ← folded (c.view slot).opcode ld.imm rd.imm
    return c.push (.replace slot (constDef value))
  else none

def commutative (opcode : Nat) : Bool :=
  opcode = BinOp.add.code ∨ opcode = BinOp.mul.code ∨ opcode = BinOp.min.code ∨
    opcode = BinOp.max.code

/-- The orientation key of `l` is at most that of `r`. -/
def keyLe (l r : Nat) : Bool :=
  let ld := c.view l
  let rd := c.view r
  ld.kind.code < rd.kind.code ∨ (ld.kind.code = rd.kind.code ∧
    (ld.imm < rd.imm ∨ (ld.imm = rd.imm ∧ l ≤ r)))

def commuteNorm (slot : Nat) : Option Candidate :=
  let d := c.view slot
  if d.kind = .bin ∧ commutative d.opcode = true ∧
      c.keyLe (c.resolve d.lhs) (c.resolve d.rhs) = false then
    some (c.push (.replace slot { d with lhs := d.rhs, rhs := d.lhs }))
  else none

/-- `(x + c1) + c2` with both constants, which may stand on either side of the
inner sum: the `x`, `c1` and `c2`. -/
def reassocSite (slot : Nat) : Option (Nat × Int64 × Int64) :=
  let l := c.resolve (c.view slot).lhs
  let r := c.resolve (c.view slot).rhs
  let innerL := c.resolve (c.view l).lhs
  let innerR := c.resolve (c.view l).rhs
  if c.isBin slot .add ∧ c.isBin l .add then
    if (c.view innerR).kind = .const ∧ (c.view r).kind = .const then
      some (innerL, (c.view innerR).imm, (c.view r).imm)
    else if (c.view innerL).kind = .const ∧ (c.view r).kind = .const then
      some (innerR, (c.view innerL).imm, (c.view r).imm)
    else none
  else none

def reassocAdd (slot : Nat) : Option Candidate := do
  let (x, c1, c2) ← c.reassocSite slot
  let value ← CheckedInt.add c1 c2
  let out := c.push (.extend (constDef value))
  return out.push (.replace slot ⟨.bin, 0, BinOp.add.code, x, u32 (out.slotCount - 1)⟩)

/-- A slot with its resolved definition. -/
structure Twin where
  slot : Nat
  kind : Nat
  opcode : Nat
  imm : Int64
  l : Nat
  r : Nat
deriving DecidableEq, Repr

def Twin.key (t : Twin) : Nat × Nat × Int64 × Nat × Nat := (t.kind, t.opcode, t.imm, t.l, t.r)

def Twin.keyLe (s t : Twin) : Bool :=
  s.kind < t.kind ∨ (s.kind = t.kind ∧ (s.opcode < t.opcode ∨ (s.opcode = t.opcode ∧
    (s.imm < t.imm ∨ (s.imm = t.imm ∧ (s.l < t.l ∨ (s.l = t.l ∧ s.r ≤ t.r)))))))

def resolveOperand (operand : Nat) : Nat :=
  if operand = NO_OPERAND then NO_OPERAND else c.resolve operand

def twinOf (slot : Nat) : Twin :=
  let d := c.view slot
  ⟨slot, d.kind.code, d.opcode, d.imm, c.resolveOperand d.lhs, c.resolveOperand d.rhs⟩

def twins : List Twin := (c.liveSlots.map c.twinOf).mergeSort Twin.keyLe

def cse : Option Candidate := do
  let (a, b) ← (c.twins.zip c.twins.tail).find? fun w => w.1.key = w.2.key
  return c.push (.replace b.slot (aliasDef a.slot))

def dce : Option Candidate := do
  let s ← (List.range c.slots).find? fun s => c.reachable.getD s false = false ∧
    (c.view s).kind ≠ .dead ∧ (c.view s).kind ≠ .alias
  return c.push (.replace s deadDef)

/-- A family at a slot it has drawn. -/
def rewriteAt : MutationFamily → Nat → Option Candidate
  | .identityAdd, slot => c.identityAdd slot
  | .identityMul, slot => c.identityMul slot
  | .subSelf, slot => c.subSelf slot
  | .constFold, slot => c.constFold slot
  | .commuteNorm, slot => c.commuteNorm slot
  | .reassocAdd, slot => c.reassocAdd slot
  | .cse, _ => c.cse
  | .dce, _ => c.dce

/-- The mutated candidate, if any, and the generator afterwards. The scans
draw nothing. -/
def apply (family : MutationFamily) (rng : Rng) : Option Candidate × Rng :=
  match family with
  | .cse => (c.cse, rng)
  | .dce => (c.dce, rng)
  | family => ((c.randomLiveSlot rng).1.bind (c.rewriteAt family), (c.randomLiveSlot rng).2)

end Candidate

end Sxla.Mss
