import ChainLowering.Lowering.Guard
import ChainLowering.Lowering.Options

/-! # Lowering whole scripts

Scripts of one unit share their global scope, so the names of all of them are
reserved before a temporary is named. -/

namespace ChainLowering

structure Report where
  /-- Number of chains lowered. -/
  chains : Nat := 0
  /-- Functions and scripts that changed, in the order of first changes. -/
  scopes : List NodeId := []
  deriving DecidableEq

def Report.isUnchanged (r : Report) : Bool := r.chains = 0

namespace Lower

/-- Lowers the chains of a script, in the order in which they stand before the
first is lowered, and counts them. -/
def script (root : Ref) : Lower Names Nat := do
  let ends := (← arena).chainEnds root
  ends.forM fun chain => discard (guardChain chain)
  return ends.length

/-- Stops at the first chain that fails; those before it stay lowered. -/
def scripts (options : Options) (roots : List Ref) : Lower Names Report := do
  if !options.needsLowering .optionalChaining then return {}
  modify fun w => { w with names := roots.foldl (·.reserveIn w.arena ·) w.names }
  let chains ← roots.foldlM (fun n root => return n + (← script root)) 0
  return { chains := chains, scopes := (← get).changes.scopes }

end Lower

/-- Lowers every optional chain under the scripts if the target lacks them. -/
def Arena.lower (a : Arena) (names : Names) (options : Options) (roots : List Ref) :
    Except (Halt LoweringError) Report × Work Names :=
  (Lower.scripts options roots).run { arena := a, names := names }

end ChainLowering
