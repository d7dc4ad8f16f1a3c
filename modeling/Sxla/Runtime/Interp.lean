import Sxla.Levels.Level4
import Sxla.Runtime.Value

/-!
# The reference interpreter

Each kernel follows the source's loops over flat row-major data. A tensor
index that is out of range stops the run with `Stop.panic`, apart from the
errors the interpreter reports itself. Extents are unbounded here: the
source assumes that their products fit its integers.

The transcendental functions are parameters (`Libm`): their last bits depend
on the platform.
-/

namespace Sxla

inductive RuntimeError where
  | badSlot
  | shapeMismatch
  | unsupportedValue
  | divisionByZero
  | unsupportedInstr
deriving DecidableEq, Repr

/-- How a run ends without a result. -/
inductive Stop where
  | err (e : RuntimeError)
  | panic
deriving DecidableEq, Repr

abbrev Run := Except Stop

namespace Interp

variable (libm : Libm)

def fail (e : RuntimeError) : Run α := .error (.err e)

def get (table : List Value) (slot : Nat) : Run Value :=
  match table[slot]? with
  | some v => .ok v
  | none => fail .badSlot

def store (table : List Value) (slot : Nat) (v : Value) : Run (List Value) :=
  if slot < table.length then .ok (table.set slot v) else fail .badSlot

/-- `data[i]`. -/
def index (data : List F64) (i : Nat) : Run F64 :=
  match data[i]? with
  | some x => .ok x
  | none => .error .panic

/-- `out[i] = x`. -/
def write (out : List F64) (i : Nat) (x : F64) : Run (List F64) :=
  if i < out.length then .ok (out.set i x) else .error .panic

def loadF64s (table : List Value) (slot : Nat) : Run (List F64) := do
  match ← get table slot with
  | .f64 x => return [x]
  | .tensor data _ => return data
  | .i64 _ => fail .unsupportedValue

def tensorShape (table : List Value) (slot : Nat) : Run Shape := do
  return (← get table slot).shape

/-- `for i in 0..n`. -/
def forRange (n : Nat) (s : α) (body : Nat → α → Run α) : Run α :=
  (List.range n).foldlM (fun s i => body i s) s

-- ---------------------------------------------------------------------------
-- Elementwise kernels
-- ---------------------------------------------------------------------------

def divide (x y : F64) : Run F64 :=
  if y.isZero then fail .divisionByZero else .ok (x.div y)

def binOp (table : List Value) (dst a b : Nat) (f : F64 → F64 → Run F64) :
    Run (List Value) := do
  let va ← get table a
  let vb ← get table b
  match va, vb with
  | .f64 x, .f64 y => store table dst (.f64 (← f x y))
  | .i64 x, .i64 y =>
    let v ← f (.ofInt64 x) (.ofInt64 y)
    store table dst (if v.isIntegral then .i64 v.toInt64 else .f64 v)
  | .f64 x, .tensor data shape =>
    let out ← data.mapM fun y => f x y
    store table dst (.tensor out shape)
  | .tensor data shape, .f64 y =>
    let out ← data.mapM fun x => f x y
    store table dst (.tensor out shape)
  | .tensor xs sx, .tensor ys sy =>
    if sx ≠ sy ∨ xs.length ≠ ys.length then
      fail .shapeMismatch
    else
      let out ← (xs.zip ys).mapM fun (x, y) => f x y
      store table dst (.tensor out sx)
  | _, _ => fail .unsupportedValue

def unOp (table : List Value) (dst a : Nat) (f : F64 → F64) : Run (List Value) := do
  match ← get table a with
  | .f64 x => store table dst (.f64 (f x))
  | .tensor data shape => store table dst (.tensor (data.map f) shape)
  | .i64 _ => fail .unsupportedValue

def dot (table : List Value) (dst a b : Nat) : Run (List Value) := do
  let x ← loadF64s table a
  let y ← loadF64s table b
  if x.length ≠ y.length then
    fail .shapeMismatch
  else
    let acc ← forRange x.length (F64.zero false) fun i acc => do
      return acc.add ((← index x i).mul (← index y i))
    store table dst (.f64 acc)

-- ---------------------------------------------------------------------------
-- Reduction
-- ---------------------------------------------------------------------------

def monoidIdentity : Monoid → F64
  | .add | .or => .zero false
  | .mul | .and => ⟨0x3ff0000000000000⟩
  | .max => .infinity true
  | .min => .infinity false

def monoidApply (m : Monoid) (acc v : F64) : F64 :=
  match m with
  | .add | .or => acc.add v
  | .mul | .and => acc.mul v
  | .max => acc.max v
  | .min => acc.min v

/-- `Shape::from_dims` on extents that are at hand as numbers. -/
def shapeOf (dims : List Nat) : Run Shape :=
  if hr : dims.length ≤ MAX_RANK then
    if hp : ∀ d ∈ dims, 0 < d ∧ d < 0x8000000000000000 then
      .ok ⟨dims, hr, fun d hd => (hp d hd).1, fun d hd => (hp d hd).2⟩
    else fail .shapeMismatch
  else fail .shapeMismatch

def reduceAt (data : List F64) (axisLen inner : Nat) (monoid : Monoid) (ob : Nat) : Run F64 :=
  let row := ob / max inner 1
  let off := ob % max inner 1
  let base := row * axisLen * inner + off
  forRange axisLen (monoidIdentity monoid) fun k acc => do
    return monoidApply monoid acc (← index data (base + k * inner))

def reduce (table : List Value) (dst a : Nat) (axis : UInt8) (monoid : Monoid) :
    Run (List Value) := do
  match ← get table a with
  | .f64 x => store table dst (.f64 x)
  | .i64 _ => fail .unsupportedValue
  | .tensor data shape =>
    if axis.toNat ≥ shape.dims.length then
      fail .shapeMismatch
    else
      let outShape ← shapeOf (shape.dims.eraseIdx axis.toNat)
      let axisLen := shape.dims.getD axis.toNat 1
      let inner := (shape.dims.drop (axis.toNat + 1)).prod
      let out ← (List.range outShape.numElements).mapM (reduceAt data axisLen inner monoid)
      if outShape.dims.length = 0 then
        store table dst (.f64 (← index out 0))
      else
        store table dst (.tensor out outShape)

-- ---------------------------------------------------------------------------
-- Matmul, transpose and convolution
-- ---------------------------------------------------------------------------

/-- The flat index of an operand's `(r, c)` entry; `rows` and `cols` are the
operand's own extents. -/
def matmulIndex (rows cols r c : Nat) (transposed : Bool) : Nat :=
  if transposed then c * rows + r else r * cols + c

def matmul (table : List Value) (dst a b : Nat) (ta tb : Bool) : Run (List Value) := do
  let xa ← loadF64s table a
  let sa ← tensorShape table a
  let xb ← loadF64s table b
  let sb ← tensorShape table b
  match sa.dims, sb.dims with
  | [m0, k0], [k1, n1] =>
    let (m, ka) := if ta then (k0, m0) else (m0, k0)
    let (kb, n) := if tb then (n1, k1) else (k1, n1)
    if ka ≠ kb then
      fail .shapeMismatch
    else
      let out ← forRange m (List.replicate (m * n) (F64.zero false)) fun r out =>
        forRange n out fun c out => do
          let acc ← forRange ka (F64.zero false) fun k acc => do
            let av ← index xa (matmulIndex m0 k0 r k ta)
            let bv ← index xb (matmulIndex k1 n1 k c tb)
            return acc.add (av.mul bv)
          write out (r * n + c) acc
      store table dst (.tensor out (← shapeOf [m, n]))
  | _, _ => fail .shapeMismatch

def transpose (table : List Value) (dst a : Nat) : Run (List Value) := do
  match ← get table a with
  | .tensor data shape =>
    match shape.dims with
    | [r, c] =>
      let out ← forRange r (List.replicate data.length (F64.zero false)) fun i out =>
        forRange c out fun j out => do
          write out (j * r + i) (← index data (i * c + j))
      store table dst (.tensor out (← shapeOf [c, r]))
    | _ => fail .shapeMismatch
  | _ => fail .unsupportedValue

/-- Output extent and total padding of one spatial axis. -/
def convAxis (padding : Padding) (stride extent kernel : Nat) : Nat × Nat :=
  match padding with
  | .valid => ((extent - kernel) / stride + 1, 0)
  | .same =>
    let o := (extent + stride - 1) / stride
    (o, (o - 1) * stride + kernel - extent)

def conv (table : List Value) (dst a b : Nat) (padding : Padding) (stride : UInt8) :
    Run (List Value) := do
  let xa ← loadF64s table a
  let sa ← tensorShape table a
  let xb ← loadF64s table b
  let sb ← tensorShape table b
  match sa.dims, sb.dims with
  | [n, c, h, w], [f, fc, kh, kw] =>
    if stride = 0 ∨ c ≠ fc then
      fail .shapeMismatch
    else if padding = .valid ∧ (kh > h ∨ kw > w) then
      fail .shapeMismatch
    else
      let (oh, padH) := convAxis padding stride.toNat h kh
      let (ow, padW) := convAxis padding stride.toNat w kw
      let padTop := padH / 2
      let padLeft := padW / 2
      if n = 0 ∨ f = 0 ∨ c = 0 ∨ oh = 0 ∨ ow = 0 then
        fail .shapeMismatch
      else
        let out ← forRange n (List.replicate (n * f * oh * ow) (F64.zero false)) fun bn out =>
          forRange f out fun bf out =>
            forRange oh out fun oy out =>
              forRange ow out fun ox out => do
                let acc ← forRange c (F64.zero false) fun cc acc =>
                  forRange kh acc fun ky acc =>
                    forRange kw acc fun kx acc =>
                      let iy := oy * stride.toNat + ky
                      let ix := ox * stride.toNat + kx
                      -- a tap in the padding contributes nothing
                      if iy < padTop ∨ iy - padTop ≥ h ∨ ix < padLeft ∨ ix - padLeft ≥ w then
                        return acc
                      else do
                        let iv ← index xa
                          (((bn * c + cc) * h + (iy - padTop)) * w + (ix - padLeft))
                        let wv ← index xb (((bf * fc + cc) * kh + ky) * kw + kx)
                        return acc.add (iv.mul wv)
                write out (((bn * f + bf) * oh + oy) * ow + ox) acc
        store table dst (.tensor out (← shapeOf [n, f, oh, ow]))
  | _, _ => fail .shapeMismatch

-- ---------------------------------------------------------------------------
-- Sampling
-- ---------------------------------------------------------------------------

def splitmix64 (x : UInt64) : UInt64 :=
  let z := x + 0x9e3779b97f4a7c15
  let z := (z ^^^ (z >>> 30)) * 0xbf58476d1ce4e5b9
  let z := (z ^^^ (z >>> 27)) * 0x94d049bb133111eb
  z ^^^ (z >>> 31)

/-- A draw in `[0, 1)`. -/
def uniform (x : UInt64) : F64 :=
  (F64.ofUInt64 (splitmix64 x >>> 11)).div (.ofUInt64 0x20000000000000)

def sample (seed : UInt64) (dist : RngDist) (i : Nat) : F64 :=
  let u := uniform (seed + .ofNat i)
  match dist with
  | .uniform => u
  | .normal =>
    let u2 := uniform (seed + .ofNat i + 0x9e3779b9)
    -- Box-Muller; the constants are -2, 1e-12 and 2 * pi
    let mag := ((⟨0xc000000000000000⟩ : F64).mul (libm.ln (u.max ⟨0x3d719799812dea11⟩))).sqrt
    mag.mul (libm.cos ((⟨0x401921fb54442d18⟩ : F64).mul u2))

def rng (table : List Value) (dst : Nat) (seed : UInt64) (dist : RngDist) :
    Run (List Value) := do
  -- the shape of whatever the destination holds so far
  let old ← get table dst
  let out := (List.range (max old.elementCount 1)).map (sample libm seed dist)
  if old.shape.dims.length = 0 then
    store table dst (.f64 (← index out 0))
  else
    store table dst (.tensor out old.shape)

-- ---------------------------------------------------------------------------
-- Programs
-- ---------------------------------------------------------------------------

def runInstr (table : List Value) : Instr → Run (List Value)
  | .add dst a b => binOp table dst a b fun x y => .ok (x.add y)
  | .sub dst a b => binOp table dst a b fun x y => .ok (x.sub y)
  | .mul dst a b => binOp table dst a b fun x y => .ok (x.mul y)
  | .div dst a b => binOp table dst a b divide
  | .max dst a b => binOp table dst a b fun x y => .ok (x.max y)
  | .min dst a b => binOp table dst a b fun x y => .ok (x.min y)
  | .neg dst a => unOp table dst a F64.neg
  | .relu dst a => unOp table dst a (F64.max · (.zero false))
  | .exp dst a => unOp table dst a libm.exp
  | .log dst a => unOp table dst a libm.ln
  | .constF64 dst v => store table dst (.f64 v)
  | .constI64 dst v => store table dst (.i64 v)
  | .mov dst a => do store table dst (← get table a)
  | .dot dst a b => dot table dst a b
  | .reduce dst a axis monoid => reduce table dst a axis monoid
  | .matmul dst a b ta tb => matmul table dst a b ta tb
  | .broadcast dst a => do store table dst (← get table a)
  | .transpose dst a => transpose table dst a
  | .rng dst seed dist => rng libm table dst seed dist
  | .conv dst a b padding stride => conv table dst a b padding stride

/-- The arguments, then zeros up to the value count. -/
def initialTable (program : TargetProgram) (params : List Value) : List Value :=
  params ++ List.replicate (program.valueCount - params.length) (Value.f64 (.zero false))

end Interp

open Interp

def execute (libm : Libm) (program : TargetProgram) (params : List Value) : Run (List Value) := do
  let table ← program.instrs.foldlM (runInstr libm) (initialTable program params)
  program.results.mapM (get table)

end Sxla
