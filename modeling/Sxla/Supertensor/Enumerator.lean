import Sxla.Supertensor.Pareto

/-!
# Enumeration

One worker of the search: the domains it draws from, the checks it makes of
a prefix, and what it does with the prefix it pops. A prefix is the list of
the ops scheduled so far; the source keeps it in an array whose further
slots nothing reads.

With more than `MAX_SCHED_OPS` ops a worker indexes past that array and
panics. Here it may go on; a run in which it takes no further step covers
the panic.
-/

namespace Sxla

def MAX_SCHED_OPS : Nat := 12

def MAX_CAND_PER_WORKER : Nat := 65536

def MAX_EXPANSIONS_PER_WORKER : Nat := 262144

-- ---------------------------------------------------------------------------
-- Domains
-- ---------------------------------------------------------------------------

/-- The divisors of the upper bound that reach the lower one. -/
def divisorsFrom (lo hi : Nat) : List Nat :=
  (List.range (hi + 1)).filter fun t => lo ≤ t && hi % t == 0

namespace OpBounds

/-- Levels from the top down. -/
def mems (b : OpBounds) : List MemLevel := [.hbm, .sram, .reg].filter b.memInRange

def tiles (b : OpBounds) : List Tile :=
  (divisorsFrom b.tileMin.t0 b.tileMax.t0).flatMap fun t0 =>
    (divisorsFrom b.tileMin.t1 b.tileMax.t1).flatMap fun t1 =>
      (divisorsFrom b.tileMin.t2 b.tileMax.t2).map fun t2 => ⟨t0, t1, t2⟩

def fuses (b : OpBounds) : List NodeId := PackedOpSched.NO_FUSE :: b.validFuse

def widths (b : OpBounds) : List Nat :=
  ((List.range 4).filter b.vecMask.testBit).map (1 <<< ·)

def domain (b : OpBounds) : List PackedOpSched :=
  b.mems.flatMap fun mem => b.tiles.flatMap fun tile => b.fuses.flatMap fun fuse =>
    b.widths.map fun vw =>
      { opId := b.opId, tile, fuseTarget := fuse, memLevel := mem.code, vecWidth := vw }

end OpBounds

def opDomain (poly : SchedulePolytope) (idx : Nat) : List PackedOpSched :=
  match poly.opBounds[idx]? with
  | none => []
  | some b => b.domain

-- ---------------------------------------------------------------------------
-- Prefixes
-- ---------------------------------------------------------------------------

/-- The tile's bounds and the SRAM pressure are not looked at. -/
def feasibleOp (b : OpBounds) (s : PackedOpSched) : Bool :=
  s.opId = b.opId && s.mem.any b.memInRange && validWidth b.vecMask s.vecWidth &&
    b.fuseAllowed s

def feasiblePrefix (poly : SchedulePolytope) (ops : List PackedOpSched) (depth : Nat) : Bool :=
  (ops.take depth).zipIdx.all (fun (s, i) => (poly.opBounds[i]?).any (feasibleOp · s)) &&
    poly.divisibilityConstraints.all (fun d =>
      !(d.opIndex < depth) || ops[d.opIndex]?.any (d.holds ·.tile)) &&
    poly.globalConstraints.checkPartial ops depth

namespace SchedulePolytope

variable (poly : SchedulePolytope)

/-- All flops at the register peak. -/
def constCyclesLb : Nat :=
  Saturating.sum (poly.opFlops.map (ceilDiv · (max poly.hw.regPeakFlopsPerCycle 1)))

def hbmLowerOut (s : PackedOpSched) (i : Nat) : Nat :=
  match s.mem with
  | some .hbm => poly.outBytes i
  | some .reg => if s.fused then 0 else poly.outBytes i
  | _ => 0

def sramLowerOut (s : PackedOpSched) (i : Nat) : Nat :=
  if s.mem = some .sram then poly.outBytes i else 0

/-- The source's plain sum panics at an overflow. Here it wraps; a run in
which the worker takes no further step covers the panic. -/
def remainingMin (depth : Nat) : Nat :=
  ((poly.opMinHbm.take poly.opCount).drop depth).sum % 0x10000000000000000

/-- What every completion of the prefix costs at least. -/
def prefixBound (ops : List PackedOpSched) (depth : Nat) : CostPoint where
  cycles := poly.constCyclesLb
  hbmBytes := Saturating.add (Saturating.sum (overOps (ops.take depth) poly.hbmLowerOut))
    (poly.remainingMin depth)
  sramUsage := Saturating.sum (overOps (ops.take depth) poly.sramLowerOut)

end SchedulePolytope

def prefixPrune (ops : List PackedOpSched) (depth anchorWord : Nat) (poly : SchedulePolytope) :
    Bool :=
  anchorWord != ANCHOR_NONE && dominates (unpackAnchor anchorWord) (poly.prefixBound ops depth)

-- ---------------------------------------------------------------------------
-- A worker
-- ---------------------------------------------------------------------------

structure SearchConfig where
  poly : SchedulePolytope
  workers : Nat
  enablePrune : Bool

namespace SearchConfig

def domain0 (cfg : SearchConfig) : List PackedOpSched := opDomain cfg.poly 0

def nWorkers (cfg : SearchConfig) : Nat :=
  min (min (max cfg.workers 1) (max cfg.domain0.length 1)) 8

/-- The worker's round-robin share of the first op's domain. -/
def slice (cfg : SearchConfig) (w : Nat) : List PackedOpSched :=
  (cfg.domain0.zipIdx.filter fun (_, ci) => ci % cfg.nWorkers = w).map (·.1)

end SearchConfig

/-- Where a worker stands: at the head of its loop, about to load the anchor
for the prefix it popped, or past the loop. -/
inductive WorkerPhase where
  | looping
  | polling (ops : List PackedOpSched)
  | flushing
  | marking
  | ended
deriving DecidableEq, Repr

structure Worker where
  /-- The top of the stack first. -/
  stack : List (List PackedOpSched)
  evaluated : Nat
  pruned : Nat
  expansions : Nat
  anchorWord : Nat
  budgetExhausted : Bool
  phase : WorkerPhase
deriving DecidableEq, Repr

namespace Worker

def start (cfg : SearchConfig) (w : Nat) : Worker where
  stack := (((cfg.slice w).map ([·])).filter (feasiblePrefix cfg.poly · 1)).reverse
  evaluated := 0
  pruned := 0
  expansions := 0
  anchorWord := ANCHOR_NONE
  budgetExhausted := false
  phase := .looping

/-- The loop's `break` on a tripped budget. -/
def giveUp (wk : Worker) : Worker := { wk with budgetExhausted := true, phase := .flushing }

/-- The prefixes one choice longer that are kept. -/
def children (cfg : SearchConfig) (wk : Worker) (ops : List PackedOpSched) :
    List (List PackedOpSched) :=
  ((opDomain cfg.poly ops.length).map (ops ++ [·])).filter fun next =>
    feasiblePrefix cfg.poly next (ops.length + 1) &&
      !(cfg.enablePrune && prefixPrune next (ops.length + 1) wk.anchorWord cfg.poly)

/-- The anchor makes the evaluated candidate superfluous. -/
def anchored (cfg : SearchConfig) (wk : Worker) (cost : CostPoint) : Bool :=
  cfg.enablePrune && wk.anchorWord != ANCHOR_NONE && dominates (unpackAnchor wk.anchorWord) cost

/-- The body of the loop for the popped prefix, with the point it sends. -/
def work (cfg : SearchConfig) (wk : Worker) (ops : List PackedOpSched) :
    Worker × Option FrontierPoint :=
  if ops.length = cfg.poly.opCount then
    if wk.evaluated ≥ MAX_CAND_PER_WORKER then
      (wk.giveUp, none)
    else
      let cost := evaluate ops cfg.poly
      if wk.anchored cfg cost then
        ({ wk with pruned := wk.pruned + 1, phase := .looping }, none)
      else
        ({ wk with evaluated := wk.evaluated + 1, phase := .looping }, some ⟨cost, ops⟩)
  else
    ({ wk with stack := (wk.children cfg ops).reverse ++ wk.stack, phase := .looping }, none)

/-- One pop of the loop. The anchor is polled every 256 expansions. -/
def pop (cfg : SearchConfig) (wk : Worker) : Worker × Option FrontierPoint :=
  match wk.stack with
  | [] => ({ wk with phase := .flushing }, none)
  | ops :: stack =>
    let wk := { wk with stack, expansions := wk.expansions + 1 }
    if wk.expansions > MAX_EXPANSIONS_PER_WORKER then
      (wk.giveUp, none)
    else if cfg.enablePrune && wk.expansions &&& 0xFF == 0 then
      ({ wk with phase := .polling ops }, none)
    else
      wk.work cfg ops

/-- The load of the anchor and the rest of that pass through the loop. -/
def poll (cfg : SearchConfig) (wk : Worker) (ops : List PackedOpSched) (word : Nat) :
    Worker × Option FrontierPoint :=
  { wk with anchorWord := word }.work cfg ops

end Worker

end Sxla
