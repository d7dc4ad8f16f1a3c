import Sxla.Library.Checked
import Sxla.Library.DepOrder
import Sxla.Library.Kahn
import Sxla.Library.Binary64
import Sxla.Library.Ends
import Sxla.Library.Chain
import Sxla.Library.RowMajor
import Sxla.Library.Decimal
import Sxla.Library.Binary64Text
import Sxla.Ir.Id
import Sxla.Ir.Ty
import Sxla.Library.CheckedInt
import Sxla.Ir.Op
import Sxla.Ir.Hash
import Sxla.Ir.Arena
import Sxla.Ir.Live
import Sxla.Ir.Handles
import Sxla.Ir.Snapshot
import Sxla.Graph.Verifier
import Sxla.Ir.RegionLists
import Sxla.Graph.Schedule
import Sxla.Graph.ScheduleLaws
import Sxla.Graph.EffectOrder
import Sxla.Graph.Dominance
import Sxla.Graph.Fold
import Sxla.Graph.Gvn
import Sxla.Graph.Dce
import Sxla.Levels.Level2
import Sxla.Levels.Level3
import Sxla.Levels.Level4
import Sxla.Runtime.Value
import Sxla.Runtime.Interp
import Sxla.Runtime.Runs
import Sxla.Levels.SlotLaws
import Sxla.Levels.SlotSafety
import Sxla.Levels.Registers
import Sxla.Levels.Canonicalize
import Sxla.Runtime.ParamBinding
import Sxla.Runtime.Safety
import Sxla.Runtime.Immediates
import Sxla.Library.Fill
import Sxla.Runtime.Matmul
import Sxla.Runtime.Reduce
import Sxla.Runtime.Conv
import Sxla.Library.Binary64Int
import Sxla.Runtime.Integer
import Sxla.Runtime.Folding
import Sxla.Text.Print
import Sxla.Text.Lex
import Sxla.Text.Pieces
import Sxla.Text.Parse
import Sxla.Text.Program
import Sxla.Text.Spelling
import Sxla.Jit.Driver
import Sxla.Library.Saturating
import Sxla.Library.Skyline
import Sxla.Supertensor.Polytope
import Sxla.Supertensor.Cost
import Sxla.Supertensor.Pareto
import Sxla.Supertensor.Enumerator
import Sxla.Supertensor.Search
import Sxla.Supertensor.Merge
import Sxla.Fusion.Legality
import Sxla.Supertensor.Wpa
import Sxla.Supertensor.Extraction
import Sxla.Supertensor.Candidates
import Sxla.Supertensor.PrefixBounds
import Sxla.Supertensor.Traffic
import Sxla.Supertensor.Coverage
import Sxla.Library.Rank
import Sxla.Supertensor.Capacity
import Sxla.Supertensor.Pruning
import Sxla.Supertensor.Gate
import Sxla.Supertensor.Soundness
import Sxla.Supertensor.Exhaustive
import Sxla.Supertensor.Bridge
import Sxla.Supertensor.Determinism
import Sxla.Supertensor.Overflow
import Sxla.Library.Forest
import Sxla.Egraph.UnionFind
import Sxla.Egraph.EGraph
import Sxla.Egraph.Membership
import Sxla.Text.Bytes
import Sxla.Library.Interleave
import Sxla.Anvil.Partition
import Sxla.Library.Transition
import Sxla.Anvil.ForkJoin
import Sxla.Anvil.Lending
import Sxla.Anvil.Ebr
import Sxla.Anvil.ChaseLev
import Sxla.Anvil.ChaseLevLaws
import Sxla.Library.LinearProbe
import Sxla.Anvil.Sharded
import Sxla.Anvil.ShardedLaws
import Sxla.Anvil.ShardedLedger
import Sxla.Anvil.ShardedGet
import Sxla.Anvil.ShardedSequential
import Sxla.Fusion.Cost
import Sxla.Fusion.Search
import Sxla.Fusion.Joining
import Sxla.Fusion.SearchLaws
import Sxla.Fusion.Groups
import Sxla.Fusion.Budget
import Sxla.Fusion.Owners
import Sxla.Fusion.Crossing
import Sxla.Fusion.Overflow
import Sxla.Mss.Program
import Sxla.Mss.Candidate
import Sxla.Mss.Mutate
import Sxla.Mss.Search
import Sxla.Mss.Reproducible
import Sxla.Ir.Capacity
import Sxla.Library.Blocks
import Sxla.Ir.Fingerprint
import Sxla.Jit.CacheKey
import Sxla.Egraph.Components
import Sxla.Graph.RegionTree
import Sxla.Graph.DominanceLaws
import Sxla.Graph.EffectChain
import Sxla.Library.Peeling
import Sxla.Ir.Links
import Sxla.Graph.Trim
import Sxla.Graph.DceLaws
import Sxla.Egraph.Congruence
import Sxla.Library.TermGraph
import Sxla.Egraph.Extract
import Sxla.Egraph.ExtractLaws
import Sxla.Egraph.Rules
import Sxla.Egraph.Lift
import Sxla.Egraph.Growth
import Sxla.Egraph.Alignment
import Sxla.Graph.Values
import Sxla.Graph.Rewire
import Sxla.Graph.GvnLaws
import Sxla.Graph.GvnSound
import Sxla.Library.RingCounter
import Sxla.Anvil.Typed
import Sxla.Anvil.TypedLaws
import Sxla.Anvil.Bump
import Sxla.Anvil.Spsc
import Sxla.Anvil.Park
import Sxla.Mss.CriticalPath
import Sxla.Mss.Improvement
import Sxla.Mss.Materialize
import Sxla.Mss.HashWords
import Sxla.Mss.Values
import Sxla.Mss.Meaning
import Sxla.Mss.Preservation
import Sxla.Mss.Streams
import Sxla.Codegen.Tile
import Sxla.Codegen.Bufferize
import Sxla.Jit.Cache
import Sxla.Graph.Uses
import Sxla.Levels.Level1Laws
import Sxla.Anvil.GarbageLaws
import Sxla.Library.Metered
import Sxla.Runtime.Denotation
import Sxla.Graph.FoldLaws
import Sxla.Runtime.Optimised
import Sxla.Anvil.Telemetry
import Sxla.Levels.PassManager
import Sxla.Egraph.Valuation
import Sxla.Egraph.Saturation
import Sxla.Egraph.Apply
import Sxla.Egraph.ApplyLaws
import Sxla.Runtime.Saturated
import Sxla.Egraph.Room
import Sxla.Jit.Tiers
import Sxla.Jit.TierZero
import Sxla.Jit.Boundary
import Sxla.Runtime.Stream
