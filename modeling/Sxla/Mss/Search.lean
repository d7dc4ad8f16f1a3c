import Sxla.Anvil.Partition
import Sxla.Library.Binary64
import Sxla.Library.Saturating
import Sxla.Mss.Mutate

/-!
# The stochastic search

Four bands run a Metropolis chain each, from the same seed, and the merge
keeps the first elite that no other beats. A band draws from a generator of
its own and stores to its own place of the results, so the schedule of the
bands does not show. The region refuses more than `MAX_WORKERS` workers, and
the search does not look at its answer: the results are then still the
placeholders that they were allocated with.
-/

namespace Sxla.Mss

open Interleave Sxla.Partition

-- ---------------------------------------------------------------------------
-- The cost of a candidate
-- ---------------------------------------------------------------------------

def nodeWeight (kind : Kind) (opcode : Nat) : Nat :=
  match kind with
  | .const | .param => 1
  | .un => if opcode = UnOp.neg.code then 1 else 2
  | .bin => if opcode = BinOp.mul.code then 3 else 2
  | .alias | .dead => 0

structure Cost where
  total : Nat
  depth : Nat
deriving DecidableEq, Repr

namespace Candidate

structure Weighing where
  depths : List Nat
  cost : Cost

def operandDepth (c : Candidate) (depths : List Nat) (operand : Nat) : Nat :=
  if operand = NO_OPERAND then 0 else depths.getD (c.resolve operand) 0

def weighSlot (c : Candidate) (s : Weighing) (slot : Nat) : Weighing :=
  let d := c.view slot
  if d.kind = .dead ∨ d.kind = .alias then s
  else
    let w := nodeWeight d.kind d.opcode
    let depth := Saturating.add w (max (c.operandDepth s.depths d.lhs)
      (c.operandDepth s.depths d.rhs))
    ⟨s.depths.set slot depth, ⟨Saturating.add s.cost.total w, max s.cost.depth depth⟩⟩

def cost (c : Candidate) : Cost :=
  ((List.range c.slots).foldl c.weighSlot ⟨List.replicate c.slots 0, ⟨0, 0⟩⟩).cost

-- ---------------------------------------------------------------------------
-- The filters of a chain
-- ---------------------------------------------------------------------------

def slotLegal (c : Candidate) (slot : Nat) : Bool :=
  let d := c.view slot
  match d.kind with
  | .const | .param => d.lhs = NO_OPERAND ∧ d.rhs = NO_OPERAND
  | .bin => d.lhs ≠ NO_OPERAND ∧ d.rhs ≠ NO_OPERAND ∧ d.lhs < c.slots ∧ d.rhs < c.slots
  | .un | .alias => d.lhs ≠ NO_OPERAND ∧ d.lhs < c.slots ∧ d.rhs = NO_OPERAND
  | .dead => true

def tier0Legal (c : Candidate) : Bool :=
  (List.range c.slots).all c.slotLegal ∧ c.root < c.slots ∧ (c.view c.root).kind ≠ .dead

end Candidate

/-- By cost, then by depth, then by hash. -/
def candidateOrderStrict (ca cb : Cost) (a b : Candidate) : Bool :=
  ca.total < cb.total ∨ (ca.total = cb.total ∧
    (ca.depth < cb.depth ∨ (ca.depth = cb.depth ∧ a.canonicalHash < b.canonicalHash)))

inductive Band where
  | hot
  | warm
  | cold
  | elite
deriving DecidableEq, Repr

namespace Band

def temperature : Band → F64
  | .hot => .ofUInt64 100
  | .warm => .ofUInt64 30
  | .cold => .ofUInt64 10
  | .elite => .ofUInt64 3

def index : Band → UInt64
  | .hot => 0
  | .warm => 1
  | .cold => 2
  | .elite => 3

def rng (band : Band) : Rng := .new (0x5EED0000 ^^^ (band.index + 1))

end Band

def BANDS : List Band := [.hot, .warm, .cold, .elite]

def ITERS_PER_BAND : Nat := 400

-- ---------------------------------------------------------------------------
-- One band
-- ---------------------------------------------------------------------------

/-- The counters are `u64` and stay far from their limit. -/
structure BandResult where
  elite : Candidate
  eliteCost : Cost
  generated : Nat
  accepted : Nat
  pruned : Nat
  nodesTouched : Nat
deriving DecidableEq, Repr

structure Chain where
  rng : Rng
  seen : List UInt64
  current : Candidate
  currentCost : Cost
  result : BandResult

/-- A step that costs no more is taken, one that costs more at a rate that
falls with the temperature. -/
def metropolis (libm : Libm) (band : Band) (child current : Cost) (rng : Rng) : Bool × Rng :=
  let de := (F64.ofUInt64 (.ofNat child.total)).sub (.ofUInt64 (.ofNat current.total))
  if de.ieeeLt (.zero false) ∨ de.ieeeEq (.zero false) then (true, rng)
  else
    let p := libm.exp (de.neg.div band.temperature)
    ((F64.ofUInt64 (.ofNat rng.permille.1)).ieeeLt (p.mul (.ofUInt64 1000)), rng.permille.2)

namespace Chain

def start (seed : Candidate) (band : Band) : Chain :=
  ⟨band.rng, [], seed, seed.cost, ⟨seed, seed.cost, 0, 0, 0, 0⟩⟩

def touch (s : Chain) (nodes : Nat) : Chain :=
  { s with result.nodesTouched := s.result.nodesTouched + nodes }

/-- The child becomes the current candidate, and the elite where it beats it. -/
def move (s : Chain) (child : Candidate) : Chain :=
  let s := { s with
    current := child
    currentCost := child.cost
    result.accepted := s.result.accepted + 1 }
  if candidateOrderStrict s.currentCost s.result.eliteCost s.current s.result.elite then
    { s with result.elite := s.current, result.eliteCost := s.currentCost }
  else s

/-- A child that is legal and new. -/
def weigh (libm : Libm) (band : Band) (s : Chain) (child : Candidate) : Chain :=
  let s := s.touch child.slotCount
  let s := { s with result.generated := s.result.generated + 1 }
  let s' := { s with rng := (metropolis libm band child.cost s.currentCost s.rng).2 }
  if (metropolis libm band child.cost s.currentCost s.rng).1 then s'.move child else s'

/-- What becomes of the child that a mutation gave. -/
def filter (libm : Libm) (band : Band) (s : Chain) (child : Candidate) : Chain :=
  let s := s.touch (child.slotCount + s.current.slotCount)
  if !child.tier0Legal then s
  else
    let s := s.touch child.slotCount
    if s.seen.contains child.canonicalHash then
      { s with result.pruned := s.result.pruned + 1 }
    else
      weigh libm band { s with seen := child.canonicalHash :: s.seen } child

/-- The family that is drawn next. -/
def family (rng : Rng) : MutationFamily :=
  FAMILIES.getD (rng.below FAMILIES.length).1 .identityAdd

/-- The mutation that is drawn next, of a candidate. -/
def draw (c : Candidate) (rng : Rng) : Option Candidate × Rng :=
  c.apply (family rng) (rng.below FAMILIES.length).2

/-- A draw that does not apply only moves the generator. -/
def advance (libm : Libm) (band : Band) (s : Chain) : Option Candidate × Rng → Chain
  | (none, rng) => { s with rng := rng }
  | (some child, rng) => filter libm band { s with rng := rng } child

def iteration (libm : Libm) (band : Band) (s : Chain) : Chain :=
  advance libm band s (draw s.current s.rng)

def iterations (libm : Libm) (band : Band) (count : Nat) (s : Chain) : Chain :=
  Nat.iterate (iteration libm band) count s

/-- What the band returns. -/
def bandResult (s : Chain) : BandResult := s.result

end Chain

def runBand (libm : Libm) (seed : Candidate) (band : Band) : BandResult :=
  (Chain.iterations libm band ITERS_PER_BAND (.start seed band)).bandResult

-- ---------------------------------------------------------------------------
-- The search
-- ---------------------------------------------------------------------------

structure SearchOutcome where
  best : Candidate
  bestCost : Cost
  generated : Nat
  accepted : Nat
  pruned : Nat
  nodesTouched : Nat
deriving DecidableEq, Repr

def placeholder (seed : Candidate) : BandResult := ⟨seed, seed.cost, 0, 0, 0, 0⟩

def keepBetter (best : Option BandResult) (r : BandResult) : Option BandResult :=
  match best with
  | none => some r
  | some cur =>
    if candidateOrderStrict r.eliteCost cur.eliteCost r.elite cur.elite then some r else some cur

/-- The merge of the results. -/
def outcome (seed : Candidate) (results : List BandResult) : SearchOutcome :=
  let best := (results.foldl keepBetter none).getD (placeholder seed)
  { best := best.elite
    bestCost := best.eliteCost
    generated := (results.map (·.generated)).sum
    accepted := (results.map (·.accepted)).sum
    pruned := (results.map (·.pruned)).sum
    nodesTouched := (results.map (·.nodesTouched)).sum }

def bandIndices : Slice Nat := ⟨[0, 1, 2, 3], by decide⟩

def placeholders (seed : Candidate) : Slice BandResult :=
  ⟨List.replicate 4 (placeholder seed), by simp⟩

def bandRegion (libm : Libm) (inPooledRegion : Bool) (globalPool : Pool) (seed : Candidate)
    (workers : Nat) : Except Fault (List (List (Store BandResult))) :=
  runPartitioned inPooledRegion globalPool (fun i => runBand libm seed (BANDS.getD i .hot))
    bandIndices (placeholders seed) (max workers 1)

/-- What a call of `search` may return: the schedule of the region's stores is
any, and a region that is refused stores nothing. -/
inductive Searched (libm : Libm) (inPooledRegion : Bool) (globalPool : Pool) (seed : Program)
    (workers : Nat) : SearchOutcome → Prop
  | region {stores : List (List (Store BandResult))} {schedule : List (Store BandResult)}
      (h : bandRegion libm inPooledRegion globalPool (.fromProgram seed) workers = .ok stores)
      (hs : Merges stores schedule) :
      Searched libm inPooledRegion globalPool seed workers
        (outcome (.fromProgram seed) (write (placeholders (.fromProgram seed)).items schedule))
  | refused {e : ExecError}
      (h : bandRegion libm inPooledRegion globalPool (.fromProgram seed) workers =
        .error (.error e)) :
      Searched libm inPooledRegion globalPool seed workers
        (outcome (.fromProgram seed) (placeholders (.fromProgram seed)).items)

/-- What a call of `optimize` may return. How many workers there are by default
is for the machine to say. -/
inductive Optimized (libm : Libm) (inPooledRegion : Bool) (globalPool : Pool)
    (defaultWorkerCount : Nat) (program : Program) : Program → Prop
  | materialized {out : SearchOutcome}
      (h : Searched libm inPooledRegion globalPool program (max defaultWorkerCount 1) out) :
      Optimized libm inPooledRegion globalPool defaultWorkerCount program out.best.materialize

end Sxla.Mss
