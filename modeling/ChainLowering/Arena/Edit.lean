import ChainLowering.Arena

/-! # Structural edits

An edit that inserts a node wants it detached and faults otherwise. A slot
that names no node counts as detached and may be inserted: it is then listed
without being owned. -/

namespace ChainLowering.Arena

abbrev Edited := Except Fault

def setParent (a : Arena) (child parent : Ref) : Edited Arena :=
  match a.node? child with
  | none => .ok a
  | some n =>
    if n.parent.isSome && parent.isSome then .error (.hasParent child n.parent)
    else .ok (a.modify child fun n => { n with parent := parent })

/-- Adds a detached node that owns `children`, in order. -/
def addNode (a : Arena) (l : Label) (children : List Ref) : Edited (NodeId × Arena) := do
  let i := a.size
  let pushed := { a with nodes := a.nodes.push { toLabel := l, children := children } }
  return (i, ← children.foldlM (fun a c => a.setParent c (some i)) pushed)

def cloneNode (a : Arena) (r : Ref) : Edited (Ref × Arena) :=
  match a.node? r with
  | none => .ok (none, a)
  | some n => do
    let (i, a) ← a.addNode n.toLabel []
    return (some i, a)

def detach (a : Arena) (r : Ref) : Arena :=
  let unlisted := a.modify (a.parent r) fun p => { p with children := p.children.erase r }
  unlisted.modify r fun n => { n with parent := none }

/-- Puts detached `new` where `old` is and detaches `old`. -/
def replaceWith (a : Arena) (old new : Ref) : Edited Arena :=
  let parent := a.parent old
  if !a.isDetached new then .error (.attached new)
  else if old ∉ a.children parent then .error (.notAttached old)
  else
    let swapped := a.modify parent fun p => { p with children := p.children.replace old new }
    (swapped.modify old fun n => { n with parent := none }).setParent new parent

def addToFront (a : Arena) (parent child : Ref) : Edited Arena :=
  if !a.isDetached child then .error (.attached child)
  else if (a.node? parent).isNone then .ok a
  else (a.modify parent fun p => { p with children := child :: p.children }).setParent child parent

def addToBack (a : Arena) (parent child : Ref) : Edited Arena :=
  if !a.isDetached child then .error (.attached child)
  else if (a.node? parent).isNone then .ok a
  else (a.modify parent fun p => { p with children := p.children ++ [child] }).setParent child
    parent

/-- Puts detached `new` right before `old`. -/
def addBefore (a : Arena) (new old : Ref) : Edited Arena :=
  let parent := a.parent old
  if !a.isDetached new then .error (.attached new)
  else if old ∉ a.children parent then .error (.notAttached old)
  else
    (a.modify parent fun p =>
      { p with children := p.children.insertIdx (p.children.idxOf old) new }).setParent new parent

def setKind (a : Arena) (r : Ref) (k : Kind) : Arena :=
  a.modify r fun n => { n with kind := k }

def setMarked (a : Arena) (r : Ref) (value : Bool) : Arena :=
  a.modify r fun n => { n with chainStart := value }

def setSynthesized (a : Arena) (r : Ref) (value : Bool) : Arena :=
  a.modify r fun n => { n with synthesized := value }

def setType (a : Arena) (r : Ref) (type : Nat) : Arena :=
  a.modify r fun n => { n with type := type }

def addFeature (a : Arena) (script : Ref) (f : Feature) : Edited Arena :=
  match script with
  | some i =>
    if a.isKind script .script then
      let old := a.featuresOf script
      .ok { a with features := (i, old.insert f) :: a.features.filter (fun e => e.1 != i) }
    else .error (.notScript script)
  | none => .error (.notScript script)

end ChainLowering.Arena
