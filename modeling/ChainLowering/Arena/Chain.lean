import ChainLowering.Arena.Query

/-! # The shape of optional chains

    a?.b.c?.d(x)

    chainCall               end of the chain, in segment 2
      chainProp d           start of segment 2, marked
        chainProp c         end of segment 1
          chainProp b       start of segment 1, marked
            name a          receiver of segment 1

Only first children continue a chain; a link in any other place ends a chain
of its own. -/

namespace ChainLowering.Arena

/-- No enclosing link continues the chain. -/
def isChainEnd (a : Arena) (r : Ref) : Bool :=
  a.isChain r && !(a.isChain (a.parent r) && a.isFirstChild r (a.parent r))

/-- A link that was written `?.`. -/
def isSegmentStart (a : Arena) (r : Ref) : Bool := a.isChain r && a.isMarked r

/-- The last link of its segment. -/
def isSegmentEnd (a : Arena) (r : Ref) : Bool :=
  a.isChainEnd r || (a.isChain r && a.isMarked (a.parent r))

def segmentStartTo (a : Arena) : Nat → Ref → Option NodeId
  | n + 1, some i =>
    if !a.isChain i then none
    else if a.isMarked i then some i
    else a.segmentStartTo n (a.firstChild i)
  | _, _ => none

/-- The marked link that begins the segment, if the walk down meets one. -/
def segmentStart? (a : Arena) (r : Ref) : Option NodeId :=
  a.segmentStartTo (a.size + 1) r

def segmentEndTo (a : Arena) : Nat → Ref → Option NodeId
  | n + 1, some i =>
    if !a.isChain i then none
    else if a.isSegmentEnd i then some i
    else a.segmentEndTo n (a.parent i)
  | _, _ => none

def segmentEnd? (a : Arena) (r : Ref) : Option NodeId :=
  a.segmentEndTo (a.size + 1) r

def chainExitTo (a : Arena) : Nat → Ref → Ref
  | n + 1, some i => if a.isChain i then a.chainExitTo n (a.firstChild i) else some i
  | _, r => r

/-- The first slot below a chain, along first children, that is no link. -/
def chainExit (a : Arena) (r : Ref) : Ref :=
  a.chainExitTo (a.size + 1) r

/-- The ends of all chains at and below a slot, each before those below it. -/
def chainEnds (a : Arena) (root : Ref) : List NodeId :=
  (a.preorder root).filter (fun i => a.isChainEnd i)

end ChainLowering.Arena
