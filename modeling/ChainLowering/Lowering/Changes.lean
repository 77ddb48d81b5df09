import ChainLowering.Arena.Query

/-! # Changed scopes

A change is put down to the nearest function or script, in the order of first
reports. -/

namespace ChainLowering

structure Changes where
  scopes : List NodeId := []

namespace Changes

def isChanged (c : Changes) (r : Ref) : Bool :=
  r.any fun i => c.scopes.contains i

def report (c : Changes) (a : Arena) (r : Ref) : Option NodeId × Changes :=
  match a.enclosingScope? r with
  | none => (none, c)
  | some s => (some s, if c.scopes.contains s then c else ⟨c.scopes ++ [s]⟩)

end Changes

end ChainLowering
