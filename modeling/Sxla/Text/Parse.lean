import Sxla.Ir.Arena
import Sxla.Text.Lex
import Sxla.Text.Print

/-!
# The parser

One pass over the tokens that builds the arena as it goes. Productions of
one op or type only read tokens (`Reader`); statements also insert nodes and
regions and record the values that names stand for (`Parser`).
-/

namespace Sxla

abbrev Tokens := List (Tok × Nat)

abbrev Reader := StateT Tokens (Except ParseError)

namespace Parse

-- ---------------------------------------------------------------------------
-- Tokens
-- ---------------------------------------------------------------------------

def peek : Reader (Option (Tok × Nat)) := fun s => .ok (s.head?, s)

def next : Reader (Tok × Nat)
  | [] => .error .truncated
  | t :: s => .ok (t, s)

def skipEols : Reader Unit := fun s => .ok ((), s.dropWhile (·.1 == .eol))

def expectWord (w : String) : Reader Nat := do
  let (tok, off) ← next
  match tok with
  | .word got => if got = w then return off else throw (.unexpectedToken off)
  | _ => throw (.unexpectedToken off)

def expectSym (c : Char) : Reader Nat := do
  let (tok, off) ← next
  match tok with
  | .sym got => if got = c then return off else throw (.unexpectedToken off)
  | _ => throw (.unexpectedToken off)

/-- `name =`. -/
def field (name : String) : Reader Unit := do
  let _ ← expectWord name
  let _ ← expectSym '='

def intArg : Reader (Int64 × Nat) := do
  let (tok, off) ← next
  match tok with
  | .int v => return (v, off)
  | _ => throw (.badInt off)

/-- An integer that fits an unsigned type of so many bits. -/
def natArg (bits : Nat) : Reader Nat := do
  let (v, off) ← intArg
  if 0 ≤ v.toInt ∧ v.toInt < 2 ^ bits then return v.toInt.toNat else throw (.badInt off)

/-- A word with a meaning. -/
def wordArg (decode : String → Option α) : Reader α := do
  let (tok, off) ← next
  match tok with
  | .word w =>
    match decode w with
    | some x => return x
    | none => throw (.unknownOp off)
  | _ => throw (.unexpectedToken off)

def boolArg : Reader Bool := do
  let (tok, off) ← next
  match tok with
  | .bool b => return b
  | _ => throw (.unexpectedToken off)

/-- The integers from here on, separated by commas; a comma may trail. -/
def dimItems : Tokens → List Int64 × Tokens
  | (.int v, _) :: (.sym ',', _) :: s => (v :: (dimItems s).1, (dimItems s).2)
  | (.int v, _) :: s => ([v], s)
  | s => ([], s)

def dims : Reader (List Int64) := fun s => .ok (dimItems s)

/-- The entries of a permutation, with room for so many more. -/
def permItems : Nat → Reader (List UInt8)
  | 0 => do
    let (_, off) ← next
    throw (.badInt off)
  | room + 1 => do
    let p ← natArg 8
    match ← peek with
    | some (.sym ',', _) => do
      let _ ← next
      return .ofNat p :: (← permItems room)
    | _ => return [.ofNat p]

-- ---------------------------------------------------------------------------
-- Ops
-- ---------------------------------------------------------------------------

def monoidOf : String → Option Monoid
  | "add" => some .add
  | "mul" => some .mul
  | "max" => some .max
  | "min" => some .min
  | "and" => some .and
  | "or" => some .or
  | _ => none

def distOf : String → Option RngDist
  | "uniform" => some .uniform
  | "normal" => some .normal
  | _ => none

def paddingOf : String → Option Padding
  | "valid" => some .valid
  | "same" => some .same
  | _ => none

def spaceOf : String → Option AddressSpace
  | "global" => some .global
  | "shared" => some .shared
  | "register" => some .register
  | _ => none

def constF64 : Reader Op := do
  match ← peek with
  | some (.word "bits", _) => do
    let _ ← next
    let (hi, hiOff) ← next
    let (lo, loOff) ← next
    let half : Tok → Nat → Reader Nat := fun tok off =>
      match tok with
      | .int v => if 0 ≤ v.toInt ∧ v.toInt < 2 ^ 32 then return v.toInt.toNat else throw (.badInt off)
      | _ => throw (.badInt off)
    let h ← half hi hiOff
    let l ← half lo loOff
    return .constF64 ⟨.ofNat (h * 2 ^ 32 + l)⟩
  | _ => do
    let (tok, off) ← next
    match tok with
    | .float v => return .constF64 v
    | .int v => return .constF64 (.ofInt64 v)
    | _ => throw (.badFloat off)

def broadcast : Reader Op := do
  field "to"
  let _ ← expectSym '['
  let ds ← dims
  let _ ← expectSym ']'
  match Shape.fromDims ds with
  | .ok shape => return .broadcast shape
  | .error _ =>
    match ← peek with
    | some (_, off) => throw (.unknownType off)
    | none => throw (.unknownType 0)

def transpose : Reader Op := do
  field "perm"
  let _ ← expectSym '['
  let perm ← permItems MAX_RANK
  let _ ← expectSym ']'
  return .transpose (perm ++ List.replicate (MAX_RANK - perm.length) 0) (.ofNat perm.length)

/-- The production behind an op's name. -/
def parseOp (name : String) (off : Nat) : Reader Op :=
  match name with
  | "const.i64" => do return .constI64 (← intArg).1
  | "const.f64" => constF64
  | "param" => do return .param (.ofNat (← natArg 32))
  | "dot" => return .dot
  | "reduce" => do
    field "axis"
    let axis ← natArg 8
    field "monoid"
    return .reduce (.ofNat axis) (← wordArg monoidOf)
  | "rng" => do
    field "dist"
    let dist ← wordArg distOf
    field "seed"
    return .rng dist (← intArg).1.toUInt64
  | "custom" => do return .custom (.ofNat (← natArg 32))
  | "if" => return .ifOp
  | "binary.add" => return .binary .add
  | "binary.sub" => return .binary .sub
  | "binary.mul" => return .binary .mul
  | "binary.div" => return .binary .div
  | "binary.max" => return .binary .max
  | "binary.min" => return .binary .min
  | "unary.relu" => return .unary .relu
  | "unary.neg" => return .unary .neg
  | "unary.exp" => return .unary .exp
  | "unary.log" => return .unary .log
  | "matmul" => do
    field "ta"
    let ta ← boolArg
    field "tb"
    return .matmul ta (← boolArg)
  | "conv" => do
    field "padding"
    let padding ← wordArg paddingOf
    field "stride"
    return .conv padding (.ofNat (← natArg 8))
  | "broadcast" => broadcast
  | "transpose" => transpose
  | "fusion.cluster" => return .fusionCluster
  | "fusion.barrier" => return .fusionBarrier
  | "fusion.materialize" => return .fusionMaterialize
  | "loop.parallel" => do
    field "axis"
    return .loopParallel (.ofNat (← natArg 8))
  | "loop.alloc" => do
    field "bytes"
    let bytes ← natArg 32
    field "space"
    return .loopAlloc (.ofNat bytes) (← wordArg spaceOf)
  | "loop.async_copy" => return .loopAsyncCopy
  | "loop.pipeline_stage" => do
    field "stage"
    return .loopPipelineStage (.ofNat (← natArg 32))
  | "target.mma" => return .targetMma
  | "target.warp_shuffle" => return .targetWarpShuffle
  | "target.barrier" => return .targetBarrier
  | _ => throw (.unknownOp off)

/-- The type of a statement that spells none. -/
def inferType : Op → Ty
  | .constI64 _ => .scalar .i64
  | .constF64 _ | .param _ | .binary _ | .unary _ | .dot | .matmul .. | .reduce .. | .broadcast _
  | .transpose .. | .conv .. => .scalar .f64
  | _ => .none

-- ---------------------------------------------------------------------------
-- Types
-- ---------------------------------------------------------------------------

def elemOf (s : List Char) (off : Nat) : Except ParseError ScalarType :=
  match String.ofList s with
  | "f64" => .ok .f64
  | "i64" => .ok .i64
  | "f32" => .ok .f32
  | "i32" => .ok .i32
  | "bool" => .ok .bool
  | _ => .error (.unknownType off)

/-- Rest of the word behind a prefix. -/
def stripStart (start w : List Char) : Option (List Char) :=
  if start.isPrefixOf w then some (w.drop start.length) else none

/-- Optional `[dims]`. -/
def optionalDims : Reader (List Int64) := do
  match ← peek with
  | some (.sym '[', _) => do
    let _ ← next
    let ds ← dims
    let _ ← expectSym ']'
    return ds
  | _ => return []

def optionalLayout : Reader Layout := do
  match ← peek with
  | some (.word "col", _) => do
    let _ ← next
    return .colMajor
  | some (.word "row", _) => do
    let _ ← next
    return .rowMajor
  | _ => return .rowMajor

/-- The word `global` is not among those that are read. -/
def optionalSpace : Reader AddressSpace := do
  match ← peek with
  | some (.word "shared", _) => do
    let _ ← next
    return .shared
  | some (.word "register", _) => do
    let _ ← next
    return .register
  | _ => return .global

/-- A tensor type behind its word; `close` is what follows the `<`. -/
def tensorType (elem : List Char) (off : Nat) : Reader TensorType := do
  if ¬ elem.contains '>' then throw (.unknownType off)
  let elem ← elemOf (elem.takeWhile (· != '>')) off
  let ds ← optionalDims
  match Shape.fromDims ds with
  | .error _ => throw (.unknownType off)
  | .ok shape => return ⟨elem, shape, ← optionalLayout⟩

def parseTypeTokens : Reader Ty := do
  let (tok, off) ← next
  match tok with
  | .word "token" => return .token
  | .word "none" => return .none
  | .word w =>
    match stripStart "scalar<".toList w.toList with
    | some rest =>
      if rest.getLast? = some '>' then return .scalar (← elemOf rest.dropLast off)
      else throw (.unknownType off)
    | none =>
      match stripStart "tensor<".toList w.toList with
      | some rest => return .tensor (← tensorType rest off)
      | none =>
        match stripStart "memref<".toList w.toList with
        | some rest => do
          let t ← tensorType rest off
          return .memRef t (← optionalSpace)
        | none => throw (.unknownType off)
  | _ => throw (.unknownType off)

-- ---------------------------------------------------------------------------
-- Statements
-- ---------------------------------------------------------------------------

/-- What `%N` stands for, the latest definition last. -/
abbrev Vals := List (UInt32 × ValueId)

structure PState where
  toks : Tokens
  arena : IrArena
  vals : Vals

end Parse

abbrev Parser := StateT Parse.PState (Except ParseError)

namespace Parse

/-- Reads tokens without touching the arena. -/
def tokens (r : Reader α) : Parser α := fun s =>
  match r s.toks with
  | .ok (x, toks) => .ok (x, { s with toks })
  | .error e => .error e

/-- An edit of the arena; every failure of one is `ArenaExhausted`. -/
def edit (f : IrArena → Except ArenaError (α × IrArena)) : Parser α := fun s =>
  match f s.arena with
  | .ok (x, arena) => .ok (x, { s with arena })
  | .error _ => .error .arenaExhausted

def lastValue (vals : Vals) (n : UInt32) : ValueId :=
  vals.foldl (fun found (k, v) => if k = n then v else found) .NONE

/-- The value references from here on, separated by commas. -/
def useItems (vals : Vals) : Tokens → Except ParseError (List ValueId × Tokens)
  | (.valueRef n, off) :: s =>
    let found := lastValue vals n
    if found.isNone then .error (.unexpectedToken off)
    else
      match s with
      | (.sym ',', _) :: s => (useItems vals s).map fun (vs, s) => (found :: vs, s)
      | s => .ok ([found], s)
  | s => .ok ([], s)

def uses : Parser (List ValueId) := fun s => tokens (useItems s.vals) s

/-- Inserts the node that `%defn` names from here on. -/
def define (region : RegionId) (defn : UInt32) (op : Op) (inputs : List ValueId) (ty : Ty) :
    Parser NodeId := do
  let id ← edit fun a => a.insertNode region (.new op region inputs ty)
  let v ← edit fun a => (a.valueOf id 0).map (·, a)
  modify fun s => { s with vals := s.vals ++ [(defn, v)] }
  return id

def optionalType (op : Op) : Reader Ty := do
  match ← peek with
  | some (.sym ':', _) => do
    let _ ← next
    parseTypeTokens
  | _ => return inferType op

/-- End of line or of input. -/
def terminator (off : Nat) : Reader Unit := do
  match ← peek with
  | some (.eol, _) => do
    let _ ← next
  | none => return
  | _ => throw (.unexpectedToken off)

/-- `%N = op`: the name with its offset, the op with its. -/
def statementHead : Reader (UInt32 × Nat × Op × Nat) := do
  let (tok, off) ← next
  match tok with
  | .valueRef defn => do
    let _ ← expectSym '='
    let (word, wordOff) ← next
    match word with
    | .word name => return (defn, off, ← parseOp name wordOff, wordOff)
    | _ => throw (.unexpectedToken wordOff)
  | _ => throw (.unexpectedToken off)

/-- One `%N = op ...` statement; `block` parses the blocks of an `if`. -/
def parseStatement (block : RegionId → Nat → Parser Unit) (region : RegionId) (depth : Nat) :
    Parser Unit := do
  let (defn, off, op, wordOff) ← tokens statementHead
  let inputs ← uses
  if op = .ifOp then
    let _ ← tokens (expectSym ':')
    let ty ← tokens parseTypeTokens
    let id ← define region defn op inputs ty
    let _ ← tokens (expectSym '\x7b')
    let thenR ← edit fun a => a.newRegion region id
    block thenR (depth + 1)
    let _ ← tokens (expectWord "else")
    let _ ← tokens (expectSym '\x7b')
    let elseR ← edit fun a => a.newRegion region id
    block elseR (depth + 1)
    tokens (terminator wordOff)
  else
    let ty ← tokens (optionalType op)
    let _ ← define region defn op inputs ty
    tokens (terminator off)

/-- The offset that a block nested too deep reports: `usize::MAX` at the end
of the input. -/
def blockOffset (toks : Tokens) : Nat :=
  match toks with
  | [] => 2 ^ 64 - 1
  | (_, off) :: _ => off

/-- The statements up to the closing brace. Each takes a token, so fuel of
one more than the tokens never runs out. -/
def parseBlock : Nat → RegionId → Nat → Parser Unit
  | 0, _, _ => throw .truncated
  | fuel + 1, region, depth => do
    if depth > MAX_NEST then throw (.nestingTooDeep (blockOffset (← get).toks))
    tokens skipEols
    match ← tokens peek with
    | some (.sym '\x7d', _) => do
      let _ ← tokens next
    | none => throw .truncated
    | _ => do
      parseStatement (parseBlock fuel) region depth
      parseBlock fuel region depth

/-- `xir v1 func @name {`. -/
def header : Reader Unit := do
  let _ ← expectWord "xir"
  let _ ← expectWord "v1"
  let _ ← expectWord "func"
  match ← peek with
  | some (.word w, _) => do
    if w.toList.head? = some '@' then
      let _ ← next
  | _ => pure ()
  let _ ← expectSym '\x7b'

/-- Only line ends may follow the closing brace. -/
def endOfText : Reader Unit := do
  skipEols
  match ← peek with
  | some (_, off) => throw (.unexpectedToken off)
  | none => return

def parseTokens (toks : Tokens) (nodeCapacity : Nat) : Except ParseError IrArena := do
  let ((), toks) ← header toks
  let arena := IrArena.withCapacity nodeCapacity (nodeCapacity / 2 + 8)
  let ((), s) ← parseBlock (toks.length + 1) arena.rootRegion 0 ⟨toks, arena, []⟩
  let ((), _) ← endOfText s.toks
  return s.arena

end Parse

def parseArena (src : String) (nodeCapacity : Nat) : Except ParseError IrArena := do
  Parse.parseTokens (← lex src.toList) nodeCapacity

end Sxla
