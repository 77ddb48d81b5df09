import ChainLowering.Arena

/-! # Walks up and down the tree

Walks upwards are bounded by the number of nodes, which no walk along the links
of a forest exceeds, and the walk over all that is below a slot by the number
of slots it comes to. -/

namespace ChainLowering.Arena

def ancestorsTo (a : Arena) : Nat → Ref → List NodeId
  | n + 1, some i => i :: a.ancestorsTo n (a.parent i)
  | _, _ => []

def ancestors (a : Arena) (r : Ref) : List NodeId :=
  a.ancestorsTo (a.size + 1) r

/-- A node directly owned by a script or a block. -/
def isStatement (a : Arena) (r : Ref) : Bool :=
  (a.kind? (a.parent r)).any Kind.ownsStatements

def enclosingStatement? (a : Arena) (r : Ref) : Option NodeId :=
  (a.ancestors r).find? (fun i => a.isStatement i)

def enclosingScript? (a : Arena) (r : Ref) : Option NodeId :=
  (a.ancestors r).find? (fun i => a.isKind i .script)

def enclosingScope? (a : Arena) (r : Ref) : Option NodeId :=
  (a.ancestors r).find? (fun i => (a.kind? i).any Kind.isScope)

/-- The nodes of a work list, each followed by what is below it; at most `n`
entries are looked at. -/
def visit (a : Arena) : Nat → List Ref → List NodeId
  | n + 1, some i :: todo =>
    match a.node? (some i) with
    | some node => i :: a.visit n (node.children ++ todo)
    | none => a.visit n todo
  | n + 1, none :: todo => a.visit n todo
  | 0, _ | _, [] => []

def slotsTo (a : Arena) : Nat → Ref → Nat
  | 0, _ => 1
  | depth + 1, r => 1 + ((a.children r).map (a.slotsTo depth)).foldr (· + ·) 0

/-- The nodes at and below a slot, each before its children. Each slot is an
entry of the work list once. -/
def preorder (a : Arena) (root : Ref) : List NodeId :=
  a.visit (a.slotsTo a.size root) [root]

def findKind? (a : Arena) (root : Ref) (k : Kind) : Option NodeId :=
  (a.preorder root).find? (fun i => a.isKind i k)

def findName? (a : Arena) (root : Ref) (name : String) : Option NodeId :=
  (a.preorder root).find? (fun i => a.isName i && a.text? i == some name)

end ChainLowering.Arena
