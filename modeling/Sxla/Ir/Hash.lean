import Sxla.Ir.Op
import Sxla.Library.Blocks

/-!
# Structural hashing

FNV-1a over the little-endian bytes of an op and its immediates. The hash
only filters candidates: two ops count as the same by `Op.sameAs`, the
derived equality, which compares float constants as numbers.
-/

namespace Sxla

structure Fnv64 where
  state : UInt64
deriving DecidableEq, Repr

namespace Fnv64

def offsetBasis : UInt64 := 0xcbf29ce484222325

def prime : UInt64 := 0x100000001b3

def new : Fnv64 := ⟨offsetBasis⟩

def writeByte (h : Fnv64) (b : UInt8) : Fnv64 := ⟨(h.state ^^^ b.toUInt64) * prime⟩

/-- The `count` low bytes of a number, the lowest first. -/
def writeLe (h : Fnv64) (count v : Nat) : Fnv64 :=
  (List.range count).foldl (fun h i => h.writeByte (.ofNat (v / 256 ^ i))) h

def writeU16 (h : Fnv64) (v : UInt16) : Fnv64 := h.writeLe 2 v.toNat

def writeU32 (h : Fnv64) (v : UInt32) : Fnv64 := h.writeLe 4 v.toNat

def writeU64 (h : Fnv64) (v : UInt64) : Fnv64 := h.writeLe 8 v.toNat

def writeI64 (h : Fnv64) (v : Int64) : Fnv64 := h.writeU64 v.toUInt64

def writeF64 (h : Fnv64) (v : F64) : Fnv64 := h.writeU64 v.bits

def finish (h : Fnv64) : UInt64 := h.state

theorem writeLe_eq (h : Fnv64) (count v : Nat) :
    h.writeLe count v = (Blocks.littleEndian count v).foldl writeByte h := by
  rw [Blocks.littleEndian, List.foldl_map]
  rfl

/-- Writing the entries of a list in turn writes their bytes in a row. -/
theorem foldl_write {write : Fnv64 → α → Fnv64} {code : α → List UInt8}
    (hwrite : ∀ h x, write h x = (code x).foldl writeByte h) (h : Fnv64) (l : List α) :
    l.foldl write h = (l.flatMap code).foldl writeByte h := by
  induction l generalizing h with
  | nil => rfl
  | cons x l ih => rw [List.foldl_cons, ih, List.flatMap_cons, List.foldl_append, hwrite]

end Fnv64

-- ---------------------------------------------------------------------------
-- Discriminants
-- ---------------------------------------------------------------------------

def Monoid.code : Monoid → UInt8
  | .add => 0
  | .mul => 1
  | .max => 2
  | .min => 3
  | .and => 4
  | .or => 5

def Padding.code : Padding → UInt8
  | .valid => 0
  | .same => 1

def RngDist.code : RngDist → UInt8
  | .uniform => 0
  | .normal => 1

def BinaryOp.code : BinaryOp → UInt8
  | .add => 0
  | .sub => 1
  | .mul => 2
  | .div => 3
  | .max => 4
  | .min => 5

def UnaryOp.code : UnaryOp → UInt8
  | .relu => 0
  | .neg => 1
  | .exp => 2
  | .log => 3

/-- The handle as the source's 64-bit word. -/
def NodeId.toWord (id : NodeId) : UInt64 :=
  .ofNat (id.index + id.generation * 2 ^ 32 + id.levelBits * 2 ^ 48 + id.unused * 2 ^ 51 +
    id.top * 2 ^ 60)

-- ---------------------------------------------------------------------------
-- Ops
-- ---------------------------------------------------------------------------

namespace Op

def opcode : Op → UInt16
  | .constI64 _ => 1
  | .constF64 _ => 2
  | .param _ => 3
  | .dot => 4
  | .reduce .. => 5
  | .rng .. => 6
  | .custom _ => 7
  | .ifOp => 8
  | .binary b => 10 + b.code.toUInt16
  | .unary u => 20 + u.code.toUInt16
  | .matmul .. => 30
  | .conv .. => 31
  | .broadcast _ => 32
  | .transpose .. => 33
  | .fusionCluster => 40
  | .fusionBarrier => 41
  | .fusionMaterialize => 42
  | .loopParallel _ => 50
  | .loopAlloc .. => 51
  | .loopAsyncCopy => 52
  | .loopPipelineStage _ => 53
  | .targetMma => 60
  | .targetWarpShuffle => 61
  | .targetBarrier => 62

def hashInto (op : Op) (h : Fnv64) : Fnv64 :=
  let h := h.writeU16 op.opcode
  match op with
  | .constI64 v => h.writeI64 v
  | .constF64 v => h.writeF64 v
  | .param index => h.writeU32 index
  | .reduce axis monoid => (h.writeByte axis).writeByte monoid.code
  | .rng dist seed => (h.writeByte dist.code).writeU64 seed
  | .custom sym => h.writeU32 sym
  | .binary b => h.writeByte b.code
  | .unary u => h.writeByte u.code
  | .matmul ta tb => (h.writeByte ta.toUInt8).writeByte tb.toUInt8
  | .conv padding stride => (h.writeByte padding.code).writeByte stride
  | .broadcast target => target.dims.foldl (fun h d => h.writeU64 (.ofNat d)) h
  | .transpose perm rank => (perm.take rank.toNat).foldl (fun h p => h.writeByte p) h
  | .loopParallel axis => h.writeByte axis
  | .loopAlloc bytes space => (h.writeU32 bytes).writeByte space.code
  | .loopPipelineStage stage => h.writeU32 stage
  | .dot | .ifOp | .fusionCluster | .fusionBarrier | .fusionMaterialize | .loopAsyncCopy
  | .targetMma | .targetWarpShuffle | .targetBarrier => h

/-- The derived `==` of ops. -/
def sameAs : Op → Op → Bool
  | .constF64 x, .constF64 y => x.ieeeEq y
  | x, y => x == y

end Op

-- ---------------------------------------------------------------------------
-- Equal ops
-- ---------------------------------------------------------------------------

namespace F64

variable {x y : F64}

theorem eq_of_magnitude (hm : x.magnitude = y.magnitude) (hs : x.isNegative = y.isNegative) :
    x = y := by
  have hx := x.bits.toNat_lt
  have hy := y.bits.toNat_lt
  simp only [magnitude, isNegative, decide_eq_decide] at hm hs
  have hbits : x.bits.toNat = y.bits.toNat := by omega
  cases x
  cases y
  exact congrArg F64.mk (UInt64.toNat_inj.mp hbits)

/-- What is equal as a number is the same pattern or a pair of zeros. -/
theorem eq_or_isZero_of_ieeeEq (h : x.ieeeEq y = true) :
    x = y ∨ (x.magnitude = 0 ∧ y.magnitude = 0) := by
  simp only [ieeeEq, Bool.and_eq_true, beq_iff_eq, orderKey] at h
  obtain ⟨-, hkey⟩ := h
  by_cases hs : x.isNegative = y.isNegative
  · rw [hs] at hkey
    refine .inl (eq_of_magnitude ?_ hs)
    split at hkey <;> omega
  · refine .inr ?_
    cases hx : x.isNegative <;> cases hy : y.isNegative <;> simp_all <;> omega

end F64

namespace Op

/-- The hash tells the two zeros apart, which are all that `sameAs` confuses. -/
theorem eq_of_sameAs {p q : Op} (h : p.sameAs q = true)
    (hhash : ∀ x y, p = .constF64 x → q = .constF64 y →
      (p.hashInto .new).finish = (q.hashInto .new).finish) : p = q := by
  have hzero : ∀ z : F64, z.magnitude = 0 → z = .zero z.isNegative := by
    intro z hz
    have hself : ∀ b, (F64.zero b).magnitude = 0 ∧ (F64.zero b).isNegative = b := by decide
    exact F64.eq_of_magnitude (hz.trans (hself _).1.symm) (hself _).2.symm
  unfold sameAs at h
  split at h
  · next x y =>
    rcases F64.eq_or_isZero_of_ieeeEq h with rfl | ⟨hx, hy⟩
    · rfl
    · have heq := hhash x y rfl rfl
      rw [hzero x hx, hzero y hy] at heq ⊢
      generalize x.isNegative = s at heq ⊢
      generalize y.isNegative = t at heq ⊢
      cases s <;> cases t
      · rfl
      · exact absurd heq (by decide)
      · exact absurd heq (by decide)
      · rfl
  · exact beq_iff_eq.mp h

end Op

end Sxla
