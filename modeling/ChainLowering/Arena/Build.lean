import ChainLowering.Arena.Edit

/-! # Building nodes for transforms

Each builder adds detached nodes that are marked as synthesized and have the
span and type of a reference node, if one is named. Operands must be detached
and keep their own. -/

namespace ChainLowering.Arena

def synthesize (a : Arena) (kind : Kind) (text : Option String) (children : List Ref) (src : Ref) :
    Edited (NodeId × Arena) :=
  let bare : Label := { kind := kind, text := text, synthesized := true }
  match a.node? src with
  | some s => a.addNode { bare with start := s.start, stop := s.stop, type := s.type } children
  | none => a.addNode bare children

/-- A stand-in while a tree is rebuilt. -/
def newEmpty (a : Arena) : Edited (NodeId × Arena) :=
  a.synthesize .empty none [] none

def newName (a : Arena) (name : String) (src : Ref) : Edited (NodeId × Arena) :=
  a.synthesize .name (some name) [] src

def newNull (a : Arena) (src : Ref) : Edited (NodeId × Arena) :=
  a.synthesize .nullLit none [] src

def newNumber (a : Arena) (text : String) (src : Ref) : Edited (NodeId × Arena) :=
  a.synthesize .numberLit (some text) [] src

/-- `void 0` -/
def newUndefined (a : Arena) (src : Ref) : Edited (NodeId × Arena) := do
  let (operand, a) ← a.newNumber "0" src
  a.synthesize .void none [some operand] src

def newGetProp (a : Arena) (receiver : Ref) (name : String) (src : Ref) : Edited (NodeId × Arena) :=
  a.synthesize .getProp (some name) [receiver] src

def newEq (a : Arena) (left right : Ref) (src : Ref) : Edited (NodeId × Arena) :=
  a.synthesize .eq none [left, right] src

def newHook (a : Arena) (cond yes no : Ref) (src : Ref) : Edited (NodeId × Arena) :=
  a.synthesize .hook none [cond, yes, no] src

def newAssign (a : Arena) (name : String) (value : Ref) (src : Ref) : Edited (NodeId × Arena) := do
  let (target, a) ← a.newName name src
  a.synthesize .assign none [some target, value] src

def newLet (a : Arena) (name : String) (src : Ref) : Edited (NodeId × Arena) := do
  let (binding, a) ← a.newName name src
  a.synthesize .letDecl none [some binding] src

end ChainLowering.Arena
