/-!
# Packed identifiers

A node, value or region handle of the source is one 64-bit word. It is kept
here as the record of its bit fields, so that decoding a field is a
projection and two handles are equal exactly when their words are. The
index field holds any number: the source assumes that an index fits its 32
bits.
-/

namespace Sxla

/-- The five IR levels. -/
inductive IrLevel where
  | graph
  | tensor
  | fusion
  | loop
  | target
deriving DecidableEq, Repr

def IrLevel.code : IrLevel → Nat
  | .graph => 0
  | .tensor => 1
  | .fusion => 2
  | .loop => 3
  | .target => 4

/-- Bits 0..31, 32..47, 48..50, 51..59 and 60..63 of a node handle. -/
structure NodeId where
  index : Nat
  generation : Nat
  levelBits : Nat
  unused : Nat
  top : Nat
deriving DecidableEq, Repr

namespace NodeId

/-- All ones: `u64::MAX`. -/
def NONE : NodeId := ⟨0xffffffff, 0xffff, 7, 511, 15⟩

def pack (index generation : Nat) (level : IrLevel) : NodeId :=
  ⟨index, generation, level.code, 0, 0⟩

def isNone (id : NodeId) : Bool := id == NONE

@[simp] theorem pack_index : (pack i g l).index = i := rfl
@[simp] theorem pack_generation : (pack i g l).generation = g := rfl

theorem pack_ne_none : pack i g l ≠ NONE := by
  simp [pack, NONE]

@[simp] theorem isNone_pack : (pack i g l).isNone = false := by
  simpa [isNone] using pack_ne_none

end NodeId

/-- A value handle: the producing node's word with the output slot in its
top four bits. -/
structure ValueId where
  word : NodeId
deriving DecidableEq, Repr

namespace ValueId

def NONE : ValueId := ⟨NodeId.NONE⟩

/-- `node.0 | (slot & 0xF) << 60`. -/
def fromNode (node : NodeId) (slot : Nat) : ValueId :=
  ⟨{ node with top := node.top ||| slot % 16 }⟩

/-- The word with its top four bits cleared. -/
def node (v : ValueId) : NodeId := { v.word with top := 0 }

def slot (v : ValueId) : Nat := v.word.top

def isNone (v : ValueId) : Bool := v == NONE

@[simp] theorem fromNode_pack_node :
    (fromNode (NodeId.pack i g l) s).node = NodeId.pack i g l := rfl

@[simp] theorem fromNode_pack_slot :
    (fromNode (NodeId.pack i g l) s).slot = s % 16 := by
  simp [fromNode, NodeId.pack, slot]

@[simp] theorem isNone_fromNode_pack : (fromNode (NodeId.pack i g l) s).isNone = false := by
  simp [isNone, fromNode, NodeId.pack, NONE, NodeId.NONE]

end ValueId

/-- Bits 0..31, 32..47 and 48..63 of a region handle. -/
structure RegionId where
  index : Nat
  generation : Nat
  unused : Nat
deriving DecidableEq, Repr

namespace RegionId

def NONE : RegionId := ⟨0xffffffff, 0xffff, 0xffff⟩

def pack (index generation : Nat) : RegionId := ⟨index, generation, 0⟩

def isNone (id : RegionId) : Bool := id == NONE

theorem pack_ne_none : pack i g ≠ NONE := by
  simp [pack, NONE]

@[simp] theorem isNone_pack : (pack i g).isNone = false := by
  simpa [isNone] using pack_ne_none

end RegionId

end Sxla
