import ChainLowering.Arena.Chain
import ChainLowering.Lowering.Error

/-! # The segments of a chain -/

namespace ChainLowering.Arena

def inconsistentSegment (a : Arena) (r : Ref) : LoweringError :=
  ⟨.inconsistentSegment, .of a (a.chainExit r)⟩

/-- A lowered chain keeps a plain access or call, hence the first answer. -/
def checkChainEnd (a : Arena) (r : Ref) : Except LoweringError Unit :=
  if !a.isChain r then
    if a.isGet r || a.isCall r then .error ⟨.alreadyLowered, .of a r⟩
    else .error ⟨.notEndOfFullChain, .of a r⟩
  else if !a.isChainEnd r then .error ⟨.notEndOfFullChain, .of a r⟩
  else .ok ()

def segmentStartsTo (a : Arena) : Nat → Ref → List NodeId → Except LoweringError (List NodeId)
  | n + 1, r, found =>
    if a.isChain r then
      match a.segmentStart? r with
      | some s => a.segmentStartsTo n (a.firstChild s) (s :: found)
      | none => .error (a.inconsistentSegment r)
    else .ok found
  | 0, _, found => .ok found

/-- Starts of the segments of a chain that ends here, the innermost first. -/
def segmentStarts (a : Arena) (chain : Ref) : Except LoweringError (List NodeId) :=
  a.segmentStartsTo (a.size + 1) chain []

/-- The same for a node that may be no end of a chain. -/
def checkedSegmentStarts (a : Arena) (chain : Ref) : Except LoweringError (List NodeId) := do
  a.checkChainEnd chain
  a.segmentStarts chain

def segmentLinksTo (a : Arena) : Nat → Ref → Except LoweringError (List (Ref × Kind))
  | n + 1, r =>
    match (a.kind? r).bind Kind.plain? with
    | none => .error ⟨.inconsistentSegment, .of a r⟩
    | some k =>
      if a.isMarked r then .ok [(r, k)]
      else (a.segmentLinksTo n (a.firstChild r)).map ((r, k) :: ·)
  | 0, r => .error ⟨.inconsistentSegment, .of a r⟩

/-- The links of the segment that ends here, the last first, with the plain
kinds that they turn into. -/
def segmentLinks (a : Arena) (last : Ref) : Except LoweringError (List (Ref × Kind)) :=
  a.segmentLinksTo (a.size + 1) last

end ChainLowering.Arena
