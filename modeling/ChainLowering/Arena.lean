import ChainLowering.Fault
import ChainLowering.Language.Feature

/-! # The node store

Nodes are only ever added, so an index stays valid. A node that leaves its
tree is merely detached and may be put back elsewhere. The edits keep the
links consistent: a node is listed by at most one node, its parent. -/

namespace ChainLowering

structure Arena where
  nodes : Array Node := #[]
  /-- Features in use, by script. -/
  features : List (NodeId × FeatureSet) := []
  deriving DecidableEq

namespace Arena

def size (a : Arena) : Nat := a.nodes.size

def node? (a : Arena) (r : Ref) : Option Node :=
  r.bind (fun i => a.nodes[i]?)

def kind? (a : Arena) (r : Ref) : Option Kind := (a.node? r).map (·.kind)

def parent (a : Arena) (r : Ref) : Ref := (a.node? r).bind Node.parent

def children (a : Arena) (r : Ref) : List Ref :=
  match a.node? r with
  | some n => n.children
  | none => []

def firstChild (a : Arena) (r : Ref) : Ref := (a.children r).head?.join

def text? (a : Arena) (r : Ref) : Option String := (a.node? r).bind (·.text)

def isDetached (a : Arena) (r : Ref) : Bool := (a.parent r).isNone

def isKind (a : Arena) (r : Ref) (k : Kind) : Bool := a.kind? r = some k

def isChain (a : Arena) (r : Ref) : Bool := (a.kind? r).any Kind.isChain

def isGet (a : Arena) (r : Ref) : Bool := (a.kind? r).any Kind.isGet

def isCall (a : Arena) (r : Ref) : Bool := a.isKind r .call

def isName (a : Arena) (r : Ref) : Bool := a.isKind r .name

def isMarked (a : Arena) (r : Ref) : Bool := (a.node? r).any (·.chainStart)

def isFirstChild (a : Arena) (child parent : Ref) : Bool :=
  child.isSome && a.parent child == parent && a.firstChild parent == child

def modify (a : Arena) (r : Ref) (f : Node → Node) : Arena :=
  match r with
  | some i => { a with nodes := a.nodes.modify i f }
  | none => a

def featuresOf (a : Arena) (r : Ref) : FeatureSet :=
  match r with
  | some i => (a.features.lookup i).getD .empty
  | none => .empty

end Arena

end ChainLowering
