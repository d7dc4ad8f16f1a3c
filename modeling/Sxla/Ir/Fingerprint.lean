import Sxla.Graph.Verifier
import Sxla.Ir.Hash

/-!
# Fingerprints

The hash of the live nodes in slot order and of the region count. The bytes
that are hashed hold no lengths, so the number of dims of a shape or of axes
of a permutation is not among them; neither are the layout of a buffer, the
second result type and the place of a region in the tree. Of verified
arenas that agree in these the bytes tell everything else.
-/

namespace Sxla

open Blocks

/-- The handle as the source's 64-bit word. -/
def RegionId.toWord (id : RegionId) : UInt64 :=
  .ofNat (id.index + id.generation * 2 ^ 32 + id.unused * 2 ^ 48)

-- ---------------------------------------------------------------------------
-- The hash
-- ---------------------------------------------------------------------------

def writeDims (h : Fnv64) (s : Shape) : Fnv64 :=
  s.dims.foldl (fun h d => h.writeI64 (.ofNat d)) h

def hashType (ty : Ty) (h : Fnv64) : Fnv64 :=
  match ty with
  | .scalar s => (h.writeByte 1).writeByte s.code
  | .tensor t =>
    writeDims (((h.writeByte 2).writeByte t.elem.code).writeByte t.layout.code) t.shape
  | .token => h.writeByte 3
  -- unlike a tensor's, the layout of a buffer is not written
  | .memRef t space =>
    writeDims (((h.writeByte 4).writeByte t.elem.code).writeByte space.code) t.shape
  | .none => h.writeByte 0

def Node.hashInto (n : Node) (h : Fnv64) : Fnv64 :=
  let h := n.op.hashInto h
  let h := n.valueInputs.foldl (fun h v => h.writeU64 v.word.toWord) h
  let h := h.writeU64 n.region.toWord
  let h := h.writeU64 n.effectIn.word.toWord
  hashType n.ty h

def computeFingerprint (a : IrArena) : UInt64 :=
  let h := a.liveNodes.foldl (fun h p => p.2.hashInto h) .new
  (h.writeU64 (.ofNat a.regionCount)).finish

-- ---------------------------------------------------------------------------
-- The bytes behind it
-- ---------------------------------------------------------------------------

def wordBytes (w : UInt64) : List UInt8 := littleEndian 8 w.toNat

def dimBytes (d : Nat) : List UInt8 := wordBytes (.ofNat d)

def Op.immediateBytes : Op → List UInt8
  | .constI64 v => wordBytes v.toUInt64
  | .constF64 v => wordBytes v.bits
  | .param index => littleEndian 4 index.toNat
  | .reduce axis monoid => [axis, monoid.code]
  | .rng dist seed => dist.code :: wordBytes seed
  | .custom sym => littleEndian 4 sym.toNat
  | .binary b => [b.code]
  | .unary u => [u.code]
  | .matmul ta tb => [ta.toUInt8, tb.toUInt8]
  | .conv padding stride => [padding.code, stride]
  | .broadcast target => target.dims.flatMap dimBytes
  | .transpose perm rank => perm.take rank.toNat
  | .loopParallel axis => [axis]
  | .loopAlloc bytes space => littleEndian 4 bytes.toNat ++ [space.code]
  | .loopPipelineStage stage => littleEndian 4 stage.toNat
  | .dot | .ifOp | .fusionCluster | .fusionBarrier | .fusionMaterialize | .loopAsyncCopy
  | .targetMma | .targetWarpShuffle | .targetBarrier => []

def Op.bytes (op : Op) : List UInt8 := littleEndian 2 op.opcode.toNat ++ op.immediateBytes

def Ty.bytes : Ty → List UInt8
  | .scalar s => [1, s.code]
  | .tensor t => 2 :: t.elem.code :: t.layout.code :: t.shape.dims.flatMap dimBytes
  | .token => [3]
  | .memRef t space => 4 :: t.elem.code :: space.code :: t.shape.dims.flatMap dimBytes
  | .none => [0]

def Node.bytes (n : Node) : List UInt8 :=
  n.op.bytes ++ (n.valueInputs.flatMap fun v => wordBytes v.word.toWord) ++
    wordBytes n.region.toWord ++ wordBytes n.effectIn.word.toWord ++ n.ty.bytes

def IrArena.liveRecords (a : IrArena) : List Node := a.liveNodes.map (·.2)

def fingerprintBytes (a : IrArena) : List UInt8 :=
  a.liveRecords.flatMap Node.bytes ++ wordBytes (.ofNat a.regionCount)

namespace Fnv64

theorem writeU64_eq (h : Fnv64) (w : UInt64) :
    h.writeU64 w = (wordBytes w).foldl writeByte h :=
  h.writeLe_eq 8 w.toNat

theorem foldl_writeDim (h : Fnv64) (dims : List Nat) :
    dims.foldl (fun h d => h.writeU64 (.ofNat d)) h =
      (dims.flatMap dimBytes).foldl writeByte h :=
  foldl_write (fun h d => h.writeU64_eq (.ofNat d)) h dims

end Fnv64

section

variable (h : Fnv64)

theorem writeDims_eq (s : Shape) :
    writeDims h s = (s.dims.flatMap dimBytes).foldl Fnv64.writeByte h :=
  Fnv64.foldl_writeDim h s.dims

theorem hashType_eq (ty : Ty) : hashType ty h = ty.bytes.foldl Fnv64.writeByte h := by
  cases ty with
  | tensor t =>
    simp only [Ty.bytes, List.foldl_cons]
    exact writeDims_eq _ t.shape
  | memRef t space =>
    simp only [Ty.bytes, List.foldl_cons]
    exact writeDims_eq _ t.shape
  | scalar | token | none => rfl

theorem Op.hashInto_eq (op : Op) : op.hashInto h = op.bytes.foldl Fnv64.writeByte h := by
  rw [Op.bytes, List.foldl_append, ← Fnv64.writeLe_eq]
  change op.hashInto h = op.immediateBytes.foldl _ (h.writeU16 op.opcode)
  simp only [hashInto]
  generalize h.writeU16 op.opcode = h'
  cases op with
  | constI64 v => exact h'.writeU64_eq v.toUInt64
  | constF64 v => exact h'.writeU64_eq v.bits
  | param index => exact h'.writeLe_eq 4 index.toNat
  | rng dist seed =>
    rw [immediateBytes, List.foldl_cons]
    exact (h'.writeByte dist.code).writeU64_eq seed
  | custom sym => exact h'.writeLe_eq 4 sym.toNat
  | broadcast target => exact h'.foldl_writeDim target.dims
  | loopAlloc bytes space =>
    rw [immediateBytes, List.foldl_append, ← Fnv64.writeLe_eq]
    rfl
  | loopPipelineStage stage => exact h'.writeLe_eq 4 stage.toNat
  | _ => rfl

theorem Node.hashInto_eq (n : Node) : n.hashInto h = n.bytes.foldl Fnv64.writeByte h := by
  have hinputs : ∀ h : Fnv64, n.valueInputs.foldl (fun h v => h.writeU64 v.word.toWord) h =
      (n.valueInputs.flatMap fun v => wordBytes v.word.toWord).foldl Fnv64.writeByte h :=
    fun h => Fnv64.foldl_write (fun h v => h.writeU64_eq v.word.toWord) h _
  simp only [hashInto, bytes, List.foldl_append, Op.hashInto_eq, hinputs, hashType_eq]
  simp only [Fnv64.writeU64_eq]

/-- The fingerprint is the hash of these bytes. -/
theorem computeFingerprint_eq (a : IrArena) :
    computeFingerprint a = ((fingerprintBytes a).foldl Fnv64.writeByte .new).finish := by
  have hnodes : a.liveNodes.foldl (fun h p => p.2.hashInto h) .new =
      (a.liveRecords.flatMap Node.bytes).foldl Fnv64.writeByte .new := by
    rw [← Fnv64.foldl_write (fun h n => Node.hashInto_eq h n), IrArena.liveRecords,
      List.foldl_map]
  simp only [computeFingerprint, fingerprintBytes, List.foldl_append, hnodes, Fnv64.writeU64_eq]

end

-- ---------------------------------------------------------------------------
-- Reading the bytes back
-- ---------------------------------------------------------------------------

theorem Monoid.code_inj {x y : Monoid} (h : x.code = y.code) : x = y := by
  cases x <;> cases y <;> first | rfl | exact absurd h (by decide)

theorem Padding.code_inj {x y : Padding} (h : x.code = y.code) : x = y := by
  cases x <;> cases y <;> first | rfl | exact absurd h (by decide)

theorem RngDist.code_inj {x y : RngDist} (h : x.code = y.code) : x = y := by
  cases x <;> cases y <;> first | rfl | exact absurd h (by decide)

theorem BinaryOp.code_inj {x y : BinaryOp} (h : x.code = y.code) : x = y := by
  cases x <;> cases y <;> first | rfl | exact absurd h (by decide)

theorem UnaryOp.code_inj {x y : UnaryOp} (h : x.code = y.code) : x = y := by
  cases x <;> cases y <;> first | rfl | exact absurd h (by decide)

theorem ScalarType.code_inj {x y : ScalarType} (h : x.code = y.code) : x = y := by
  cases x <;> cases y <;> first | rfl | exact absurd h (by decide)

theorem Layout.code_inj {x y : Layout} (h : x.code = y.code) : x = y := by
  cases x <;> cases y <;> first | rfl | exact absurd h (by decide)

theorem AddressSpace.code_inj {x y : AddressSpace} (h : x.code = y.code) : x = y := by
  cases x <;> cases y <;> first | rfl | exact absurd h (by decide)

theorem toUInt8_inj {x y : Bool} (h : x.toUInt8 = y.toUInt8) : x = y := by
  cases x <;> cases y <;> first | rfl | exact absurd h (by decide)

theorem separates_u16 : Separates ⊤ Eq fun v : UInt16 => littleEndian 2 v.toNat := by
  intro v w _ s t h
  obtain ⟨hv, hst⟩ := separates_littleEndian 2 ⟨v.toNat_lt, w.toNat_lt⟩ h
  exact ⟨UInt16.toNat_inj.mp hv, hst⟩

theorem separates_u32 : Separates ⊤ Eq fun v : UInt32 => littleEndian 4 v.toNat := by
  intro v w _ s t h
  obtain ⟨hv, hst⟩ := separates_littleEndian 4 ⟨v.toNat_lt, w.toNat_lt⟩ h
  exact ⟨UInt32.toNat_inj.mp hv, hst⟩

theorem separates_wordBytes : Separates ⊤ Eq wordBytes := by
  intro v w _ s t h
  obtain ⟨hv, hst⟩ := separates_littleEndian 8 ⟨v.toNat_lt, w.toNat_lt⟩ h
  exact ⟨UInt64.toNat_inj.mp hv, hst⟩

theorem separates_dims :
    Separates (fun x y : Shape => x.rank = y.rank) Eq fun s => s.dims.flatMap dimBytes := by
  intro x y hrank s t h
  have hdim : Separates (fun d e => d < 0x8000000000000000 ∧ e < 0x8000000000000000) Eq
      dimBytes := by
    intro d e ⟨hd, he⟩ s t h
    obtain ⟨hword, hst⟩ := separates_wordBytes trivial h
    have hval := congrArg UInt64.toNat hword
    rw [UInt64.toNat_ofNat_of_lt' (hd.trans (by decide)),
      UInt64.toNat_ofNat_of_lt' (he.trans (by decide))] at hval
    exact ⟨hval, hst⟩
  obtain ⟨hdims, hst⟩ := hdim.flatMap hrank
    (fun p hp => ⟨x.dims_lt _ (List.of_mem_zip hp).1, y.dims_lt _ (List.of_mem_zip hp).2⟩) h
  exact ⟨Shape.eq_of_dims (List.forall₂_eq_eq_eq ▸ hdims), hst⟩

namespace Op

/-- The lengths that the bytes of an op leave out, and the axes past the rank. -/
def unwritten : Op → Nat × Nat × List UInt8
  | .broadcast target => (target.rank, 0, [])
  | .transpose perm rank => (rank.toNat, perm.length, perm.drop rank.toNat)
  | _ => (0, 0, [])

/-- The constructor behind an opcode. -/
def kindOf (code : Nat) : Nat :=
  if code ≤ 8 then code - 1
  else if code < 20 then 8
  else if code < 30 then 9
  else if code < 40 then code - 20
  else if code < 50 then code - 26
  else if code < 60 then code - 33
  else code - 39

theorem kindOf_opcode (op : Op) : kindOf op.opcode.toNat = op.ctorIdx := by
  cases op with
  | binary b => cases b <;> rfl
  | unary u => cases u <;> rfl
  | _ => rfl

theorem separates_bytes : Separates (fun p q : Op => p.unwritten = q.unwritten) Eq bytes := by
  intro p q hunwritten s t h
  rw [bytes, bytes, List.append_assoc, List.append_assoc] at h
  obtain ⟨hcode, h⟩ := separates_u16 trivial h
  have hkind : q.ctorIdx = p.ctorIdx := by rw [← kindOf_opcode, ← kindOf_opcode, hcode]
  clear hcode
  revert hunwritten h
  cases p with
  | constI64 v =>
    refine constI64.elim q hkind fun w _ h => ?_
    obtain ⟨hword, hst⟩ := separates_wordBytes trivial h
    exact ⟨by rw [← v.toInt64_toUInt64, hword, w.toInt64_toUInt64], hst⟩
  | constF64 v =>
    refine constF64.elim q hkind fun w _ h => ?_
    obtain ⟨hword, hst⟩ := separates_wordBytes trivial h
    exact ⟨congrArg (constF64 ⟨·⟩) hword, hst⟩
  | param index =>
    refine param.elim q hkind fun index' _ h => ?_
    obtain ⟨hindex, hst⟩ := separates_u32 trivial h
    exact ⟨congrArg param hindex, hst⟩
  | reduce axis monoid =>
    refine reduce.elim q hkind fun axis' monoid' _ h => ?_
    obtain ⟨haxis, h⟩ := List.cons.inj h
    obtain ⟨hmonoid, hst⟩ := List.cons.inj h
    exact ⟨by rw [haxis, Monoid.code_inj hmonoid], hst⟩
  | rng dist seed =>
    refine rng.elim q hkind fun dist' seed' _ h => ?_
    obtain ⟨hdist, h⟩ := List.cons.inj h
    obtain ⟨hseed, hst⟩ := separates_wordBytes trivial h
    exact ⟨by rw [RngDist.code_inj hdist, hseed], hst⟩
  | custom sym =>
    refine custom.elim q hkind fun sym' _ h => ?_
    obtain ⟨hsym, hst⟩ := separates_u32 trivial h
    exact ⟨congrArg custom hsym, hst⟩
  | binary b =>
    refine binary.elim q hkind fun b' _ h => ?_
    obtain ⟨hb, hst⟩ := List.cons.inj h
    exact ⟨congrArg binary (BinaryOp.code_inj hb), hst⟩
  | unary u =>
    refine unary.elim q hkind fun u' _ h => ?_
    obtain ⟨hu, hst⟩ := List.cons.inj h
    exact ⟨congrArg unary (UnaryOp.code_inj hu), hst⟩
  | matmul ta tb =>
    refine matmul.elim q hkind fun ta' tb' _ h => ?_
    obtain ⟨hta, h⟩ := List.cons.inj h
    obtain ⟨htb, hst⟩ := List.cons.inj h
    exact ⟨by rw [toUInt8_inj hta, toUInt8_inj htb], hst⟩
  | conv padding stride =>
    refine conv.elim q hkind fun padding' stride' _ h => ?_
    obtain ⟨hpadding, h⟩ := List.cons.inj h
    obtain ⟨hstride, hst⟩ := List.cons.inj h
    exact ⟨by rw [Padding.code_inj hpadding, hstride], hst⟩
  | broadcast target =>
    refine broadcast.elim q hkind fun target' hrank h => ?_
    obtain ⟨htarget, hst⟩ := separates_dims (Prod.mk.inj hrank).1 h
    exact ⟨congrArg broadcast htarget, hst⟩
  | transpose perm rank =>
    refine transpose.elim q hkind fun perm' rank' haxes h => ?_
    simp only [unwritten, Prod.mk.injEq, UInt8.toNat_inj] at haxes
    obtain ⟨rfl, hlen, hdrop⟩ := haxes
    obtain ⟨htake, hst⟩ := List.append_inj h
      (by simp only [immediateBytes, List.length_take, hlen])
    refine ⟨congrArg (transpose · rank) ?_, hst⟩
    rw [← perm.take_append_drop rank.toNat, ← perm'.take_append_drop rank.toNat, hdrop]
    exact congrArg (· ++ _) htake
  | loopParallel axis =>
    refine loopParallel.elim q hkind fun axis' _ h => ?_
    obtain ⟨haxis, hst⟩ := List.cons.inj h
    exact ⟨congrArg loopParallel haxis, hst⟩
  | loopAlloc bytes space =>
    refine loopAlloc.elim q hkind fun bytes' space' _ h => ?_
    simp only [immediateBytes, List.append_assoc] at h
    obtain ⟨hbytes, h⟩ := separates_u32 trivial h
    obtain ⟨hspace, hst⟩ := List.cons.inj h
    exact ⟨by rw [hbytes, AddressSpace.code_inj hspace], hst⟩
  | loopPipelineStage stage =>
    refine loopPipelineStage.elim q hkind fun stage' _ h => ?_
    obtain ⟨hstage, hst⟩ := separates_u32 trivial h
    exact ⟨congrArg loopPipelineStage hstage, hst⟩
  -- ops without immediates
  | dot => exact dot.elim q hkind fun _ h => ⟨rfl, h⟩
  | ifOp => exact ifOp.elim q hkind fun _ h => ⟨rfl, h⟩
  | fusionCluster => exact fusionCluster.elim q hkind fun _ h => ⟨rfl, h⟩
  | fusionBarrier => exact fusionBarrier.elim q hkind fun _ h => ⟨rfl, h⟩
  | fusionMaterialize => exact fusionMaterialize.elim q hkind fun _ h => ⟨rfl, h⟩
  | loopAsyncCopy => exact loopAsyncCopy.elim q hkind fun _ h => ⟨rfl, h⟩
  | targetMma => exact targetMma.elim q hkind fun _ h => ⟨rfl, h⟩
  | targetWarpShuffle => exact targetWarpShuffle.elim q hkind fun _ h => ⟨rfl, h⟩
  | targetBarrier => exact targetBarrier.elim q hkind fun _ h => ⟨rfl, h⟩

end Op

/-- The rank of a type and, of a buffer, the layout. -/
def Ty.unwritten : Ty → Nat × Option Layout
  | .tensor t => (t.shape.rank, .none)
  | .memRef t _ => (t.shape.rank, some t.layout)
  | .scalar _ | .token | .none => (0, .none)

theorem TensorType.eq_of_fields {x y : TensorType} (helem : x.elem = y.elem)
    (hshape : x.shape = y.shape) (hlayout : x.layout = y.layout) : x = y := by
  cases x
  cases y
  cases helem
  cases hshape
  cases hlayout
  rfl

theorem Ty.separates_bytes : Separates (fun x y : Ty => x.unwritten = y.unwritten) Eq bytes := by
  intro x y hunwritten s t h
  cases x with
  | scalar e =>
    cases y with
    | scalar e' =>
      obtain ⟨he, hst⟩ := List.cons.inj (List.cons.inj h).2
      exact ⟨congrArg scalar (ScalarType.code_inj he), hst⟩
    | _ => exact absurd (List.cons.inj h).1 (by decide)
  | tensor x =>
    cases y with
    | tensor y =>
      obtain ⟨helem, h⟩ := List.cons.inj (List.cons.inj h).2
      obtain ⟨hlayout, h⟩ := List.cons.inj h
      obtain ⟨hshape, hst⟩ := separates_dims (Prod.mk.inj hunwritten).1 h
      have hxy := TensorType.eq_of_fields (ScalarType.code_inj helem) hshape
        (Layout.code_inj hlayout)
      exact ⟨congrArg tensor hxy, hst⟩
    | _ => exact absurd (List.cons.inj h).1 (by decide)
  | token =>
    cases y with
    | token => exact ⟨rfl, (List.cons.inj h).2⟩
    | _ => exact absurd (List.cons.inj h).1 (by decide)
  | memRef x space =>
    cases y with
    | memRef y space' =>
      obtain ⟨hrank, hlayout⟩ := Prod.mk.inj hunwritten
      obtain ⟨helem, h⟩ := List.cons.inj (List.cons.inj h).2
      obtain ⟨hspace, h⟩ := List.cons.inj h
      obtain ⟨hshape, hst⟩ := separates_dims hrank h
      have hxy := TensorType.eq_of_fields (ScalarType.code_inj helem) hshape
        (Option.some.inj hlayout)
      exact ⟨by rw [hxy, AddressSpace.code_inj hspace], hst⟩
    | _ => exact absurd (List.cons.inj h).1 (by decide)
  | none =>
    cases y with
    | none => exact ⟨rfl, (List.cons.inj h).2⟩
    | _ => exact absurd (List.cons.inj h).1 (by decide)

-- ---------------------------------------------------------------------------
-- Handles
-- ---------------------------------------------------------------------------

/-- The fields are those of a 64-bit word. -/
def NodeId.FitsWord (id : NodeId) : Prop :=
  id.index < 2 ^ 32 ∧ id.generation < 2 ^ 16 ∧ id.levelBits < 2 ^ 3 ∧ id.unused < 2 ^ 9 ∧
    id.top < 2 ^ 4

instance : DecidablePred NodeId.FitsWord := fun _ => inferInstanceAs (Decidable (_ ∧ _))

def RegionId.FitsWord (id : RegionId) : Prop :=
  id.index < 2 ^ 32 ∧ id.generation < 2 ^ 16 ∧ id.unused < 2 ^ 16

instance : DecidablePred RegionId.FitsWord := fun _ => inferInstanceAs (Decidable (_ ∧ _))

theorem NodeId.toWord_inj {x y : NodeId} (hx : x.FitsWord) (hy : y.FitsWord)
    (h : x.toWord = y.toWord) : x = y := by
  obtain ⟨hxi, hxg, hxl, hxu, hxt⟩ := hx
  obtain ⟨hyi, hyg, hyl, hyu, hyt⟩ := hy
  have hword := congrArg UInt64.toNat h
  rw [toWord, toWord, UInt64.toNat_ofNat', UInt64.toNat_ofNat'] at hword
  cases x
  cases y
  simp only [mk.injEq] at *
  omega

theorem RegionId.toWord_inj {x y : RegionId} (hx : x.FitsWord) (hy : y.FitsWord)
    (h : x.toWord = y.toWord) : x = y := by
  obtain ⟨hxi, hxg, hxu⟩ := hx
  obtain ⟨hyi, hyg, hyu⟩ := hy
  have hword := congrArg UInt64.toNat h
  rw [toWord, toWord, UInt64.toNat_ofNat', UInt64.toNat_ofNat'] at hword
  cases x
  cases y
  simp only [mk.injEq] at *
  omega

theorem separates_input : Separates (fun v w : ValueId => v.word.FitsWord ∧ w.word.FitsWord) Eq
    fun v => wordBytes v.word.toWord := by
  intro v w ⟨hv, hw⟩ s t h
  obtain ⟨hword, hst⟩ := separates_wordBytes trivial h
  exact ⟨congrArg ValueId.mk (NodeId.toWord_inj hv hw hword), hst⟩

-- ---------------------------------------------------------------------------
-- Nodes
-- ---------------------------------------------------------------------------

namespace Node

/-- What the bytes of a node leave out, its links apart. -/
def unwritten (n : Node) : (Nat × Nat × List UInt8) × (Nat × Option Layout) × Ty :=
  (n.op.unwritten, n.ty.unwritten, n.ty1)

def FitsWords (n : Node) : Prop :=
  (∀ v ∈ n.inputs, v.word.FitsWord) ∧ n.region.FitsWord ∧ n.effectIn.word.FitsWord

instance : DecidablePred FitsWords := fun _ => inferInstanceAs (Decidable (_ ∧ _))

/-- The nodes agree in everything but their links. -/
structure Same (n m : Node) : Prop where
  op : n.op = m.op
  inputs : n.inputs = m.inputs
  ty : n.ty = m.ty
  ty1 : n.ty1 = m.ty1
  region : n.region = m.region
  effectIn : n.effectIn = m.effectIn

/-- The op tells how many inputs follow. -/
structure Written (n : Node) : Prop where
  arity : n.inputs.length = expectedArity n.op
  fits : n.FitsWords

variable {n m : Node}

theorem Same.unwritten_eq (h : Same n m) : n.unwritten = m.unwritten := by
  rw [unwritten, unwritten, h.op, h.ty, h.ty1]

theorem Written.bytes_eq (h : n.Written) : n.bytes =
    n.op.bytes ++ ((n.inputs.flatMap fun v => wordBytes v.word.toWord) ++
      (wordBytes n.region.toWord ++ (wordBytes n.effectIn.word.toWord ++ n.ty.bytes))) := by
  have hle : n.inputs.length ≤ MAX_INPUTS := h.arity.trans_le (Verifier.expectedArity_le n.op)
  simp only [bytes, valueInputs, List.take_of_length_le hle, List.append_assoc]

theorem separates_bytes :
    Separates (fun n m : Node => n.Written ∧ m.Written ∧ n.unwritten = m.unwritten) Same
      bytes := by
  intro n m ⟨hn, hm, hunwritten⟩ s t h
  obtain ⟨hop, hunwritten⟩ := Prod.mk.inj hunwritten
  obtain ⟨hty, hty1⟩ := Prod.mk.inj hunwritten
  rw [hn.bytes_eq, hm.bytes_eq] at h
  simp only [List.append_assoc] at h
  obtain ⟨hop, h⟩ := Op.separates_bytes hop h
  have harity : n.inputs.length = m.inputs.length := by rw [hn.arity, hm.arity, hop]
  obtain ⟨hinputs, h⟩ := separates_input.flatMap harity
    (fun p hp => ⟨hn.fits.1 _ (List.of_mem_zip hp).1, hm.fits.1 _ (List.of_mem_zip hp).2⟩) h
  obtain ⟨hregion, h⟩ := separates_wordBytes trivial h
  obtain ⟨heffect, h⟩ := separates_wordBytes trivial h
  obtain ⟨hty, hst⟩ := Ty.separates_bytes hty h
  refine ⟨⟨hop, List.forall₂_eq_eq_eq ▸ hinputs, hty, hty1, ?_, ?_⟩, hst⟩
  · exact RegionId.toWord_inj hn.fits.2.1 hm.fits.2.1 hregion
  · exact congrArg ValueId.mk (NodeId.toWord_inj hn.fits.2.2 hm.fits.2.2 heffect)

theorem bytes_ne_nil (n : Node) : n.bytes ≠ [] := by
  intro h
  have hlen := congrArg List.length h
  simp only [bytes, Op.bytes, List.length_append, length_littleEndian, List.length_nil] at hlen
  omega

end Node

-- ---------------------------------------------------------------------------
-- Programs
-- ---------------------------------------------------------------------------

def IrArena.FitsWords (a : IrArena) : Prop := ∀ n ∈ a.liveRecords, n.FitsWords

instance : DecidablePred IrArena.FitsWords :=
  fun a => inferInstanceAs (Decidable (∀ n ∈ a.liveRecords, n.FitsWords))

/-- The region's place in the tree. -/
def Region.place (r : Region) : RegionId × NodeId := (r.parent, r.owner)

/-- The live nodes agree in slot order and the regions have the same places. -/
structure SameProgram (a b : IrArena) : Prop where
  nodes : List.Forall₂ Node.Same a.liveRecords b.liveRecords
  regions : a.regions.map Region.place = b.regions.map Region.place

/-- The arenas agree in what the fingerprint leaves out. -/
structure SameUnwritten (a b : IrArena) : Prop where
  nodes : ∀ p ∈ a.liveRecords.zip b.liveRecords, p.1.unwritten = p.2.unwritten
  regions : a.regions.map Region.place = b.regions.map Region.place

variable {a b : IrArena}

theorem written_of_verify (hv : verify a = .ok ()) (hfits : a.FitsWords) {n : Node}
    (hn : n ∈ a.liveRecords) : n.Written := by
  obtain ⟨⟨id, n⟩, hlive, rfl⟩ := List.mem_map.mp hn
  exact ⟨((verify_ok.mp hv).2.2 id n hlive).arity, hfits n hn⟩

theorem SameProgram.sameUnwritten (h : SameProgram a b) : SameUnwritten a b :=
  ⟨fun _ hp => ((List.forall₂_iff_zip.mp h.nodes).2 hp).unwritten_eq, h.regions⟩

/-- Verified arenas with the same bytes are the same program exactly when
they agree in what the bytes leave out. -/
theorem fingerprint_separates_iff (ha : verify a = .ok ()) (hb : verify b = .ok ())
    (hfa : a.FitsWords) (hfb : b.FitsWords) (h : fingerprintBytes a = fingerprintBytes b) :
    SameProgram a b ↔ SameUnwritten a b := by
  refine ⟨SameProgram.sameUnwritten, fun hsame => ⟨?_, hsame.regions⟩⟩
  have hwritten : ∀ p ∈ a.liveRecords.zip b.liveRecords,
      p.1.Written ∧ p.2.Written ∧ p.1.unwritten = p.2.unwritten := fun _ hp =>
    ⟨written_of_verify ha hfa (List.of_mem_zip hp).1,
      written_of_verify hb hfb (List.of_mem_zip hp).2, hsame.nodes _ hp⟩
  exact (Node.separates_bytes.flatMap_of_rest Node.bytes_ne_nil hwritten
    ((length_littleEndian 8 _).trans (length_littleEndian 8 _).symm) h).1

/-- A buffer of one layout as the only parameter. -/
def bufferParam (layout : Layout) : Node :=
  .new (.param 0) (.pack 0 0) [] (.memRef ⟨.f32, .scalar, layout⟩ .shared)

def freshBuffer (layout : Layout) : IrArena := .built do
  let (_, a) ← (IrArena.withCapacity 2 1).insertNode (.pack 0 0) (bufferParam layout)
  return a

/-- The same parameter in a slot that was freed before. -/
def reusedBuffer (layout : Layout) : IrArena := .built do
  let (id, a) ← (IrArena.withCapacity 2 1).insertNode (.pack 0 0) (bufferParam layout)
  let a ← a.removeNode id
  let (_, a) ← a.insertNode (.pack 0 0) (bufferParam layout)
  return a

theorem fingerprint_separates_iff_reused :
    SameProgram (freshBuffer .rowMajor) (reusedBuffer .rowMajor) ↔
      SameUnwritten (freshBuffer .rowMajor) (reusedBuffer .rowMajor) :=
  fingerprint_separates_iff rfl rfl (by decide)
    (by decide) rfl

/-- Two layouts of one buffer. -/
theorem fingerprint_not_separates :
    ¬ ∀ a b, verify a = .ok () → verify b = .ok () → a.FitsWords → b.FitsWords →
      fingerprintBytes a = fingerprintBytes b → SameProgram a b := by
  intro hall
  have hsame := hall (freshBuffer .rowMajor) (freshBuffer .colMajor) rfl
    rfl (by decide) (by decide) rfl
  have hunwritten := hsame.sameUnwritten.nodes
  exact absurd hunwritten (by decide)

end Sxla
