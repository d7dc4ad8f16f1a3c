import Sxla.Graph.Verifier
import Sxla.Levels.Level4
import Sxla.Text.Parse

/-!
# The driver

From text to a verified arena with its root, and from there to a target
program. Tier 0 compiles the arena as it stands.
-/

namespace Sxla

inductive JitError where
  | parse (e : ParseError)
  | verify (e : VerifierError)
  | pipeline (what : String)
  | lower (e : TargetError)
deriving DecidableEq, Repr

namespace Driver

/-- The last live node of the root region, if there is one. -/
def resultRoots (a : IrArena) : List NodeId :=
  ((a.liveNodes.filter fun (_, n) => n.region == a.rootRegion).map (·.1)).getLast?.toList

def parseAndVerify (src : String) : Except JitError (IrArena × List NodeId) := do
  let a ← (parseArena src 4096).mapError .parse
  (verify a).mapError .verify
  return (a, resultRoots a)

def compileTier0 (a : IrArena) (roots : List NodeId) : Except JitError TargetProgram := do
  let prog ← (project a roots).mapError fun _ => .pipeline "structurize"
  (lower prog).mapError .lower

end Driver

end Sxla
