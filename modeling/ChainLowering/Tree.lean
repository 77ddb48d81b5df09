import ChainLowering.Arena
import ChainLowering.Limits

/-! # Trees

A tree is a node with all that is below it, told without indices. `Arena.tree`
gives the tree at a slot of a store.

A child is made when it is looked at. So there is a tree also at a slot of a
store whose nodes share what is below them, or loop, where a tree written out
would be far larger than the store. -/

namespace ChainLowering

inductive Tree
  /-- A slot that names no node. -/
  | absent
  /-- An index past the end of the store. -/
  | dangling
  /-- Children are told by position; past the last one all are absent. -/
  | node (label : Label) (arity : Nat) (child : Nat → Tree)

namespace Tree

instance : Inhabited Tree := ⟨absent⟩

def of (l : Label) (ts : List Tree) : Tree := node l ts.length fun i => ts.getD i absent

def kind? : Tree → Option Kind
  | node l _ _ => some l.kind
  | _ => none

def text : Tree → String
  | node l _ _ => l.text.getD ""
  | _ => ""

def children : Tree → List Tree
  | node _ n c => (List.range n).map c
  | _ => []

def isAbsent : Tree → Bool
  | absent => true
  | _ => false

def isChain (t : Tree) : Bool := t.kind?.any Kind.isChain

@[simp] theorem children_of (l : Label) (ts : List Tree) : (of l ts).children = ts :=
  List.ext_getElem (by simp [of, children]) fun i h _ => by
    have : i < ts.length := by simpa [of, children] using h
    simp [of, children, this]

end Tree

namespace Arena

def treeTo (a : Arena) : Nat → Ref → Tree
  | _, none => .absent
  | 0, some _ => .dangling
  | depth + 1, some i =>
    match a.nodes[i]? with
    | none => .dangling
    | some n => .node n.toLabel n.children.length fun k => a.treeTo depth (n.children.getD k none)

/-- In a forest no path is longer than the number of nodes. A path that goes
round a loop is cut off `maxUnfolding` levels later. -/
def tree (a : Arena) (r : Ref) : Tree := a.treeTo (a.size + maxUnfolding) r

end Arena

end ChainLowering
