import ChainLowering.Arena.Build
import ChainLowering.Lowering.Changes
import ChainLowering.Lowering.Names
import ChainLowering.Lowering.Segments

/-! # Lowering one chain

A segment becomes a guard over what follows its receiver:

    (t = receiver) == null ? void 0 : rest using t

`let t;` goes right before the enclosing statement. A call through an optional
member keeps its receiver by keeping both object and function:

    a.b?.()        (t = (u = a).b) == null ? void 0 : t.call(u)

Segments are lowered from the innermost on. The chain's last link stays the
innermost else branch, and each later guard takes its place:

    a?.b.c?.d      (t = a) == null ? void 0 : (u = t.b.c) == null ? void 0 : u.d -/

namespace ChainLowering

/-- What lowering works on. -/
structure Work (σ : Type) where
  arena : Arena
  names : σ
  changes : Changes := {}

abbrev Lower (σ : Type) := ExceptT (Halt LoweringError) (StateM (Work σ))

/-- Where a chain stands, found before anything is changed. -/
structure Place where
  /-- The last link. -/
  chain : Ref
  parent : Ref
  statement : NodeId
  script : NodeId

namespace Lower

variable {σ : Type}

/-! ## Access to the work -/

def arena : Lower σ Arena := return (← get).arena

def fail {α : Type} (e : LoweringError) : Lower σ α := throw (.error e)

def checked {α : Type} : Except LoweringError α → Lower σ α
  | .ok x => return x
  | .error e => fail e

def edited {α : Type} : Arena.Edited α → Lower σ α
  | .ok x => return x
  | .error f => throw (.fault f)

def edit (f : Arena → Arena.Edited Arena) : Lower σ Unit := do
  let a ← edited (f (← arena))
  modify fun w => { w with arena := a }

def build {α : Type} (f : Arena → Arena.Edited (α × Arena)) : Lower σ α := do
  let (x, a) ← edited (f (← arena))
  modify fun w => { w with arena := a }
  return x

def freshName [NameSource σ] : Lower σ String := do
  let (name, names) := NameSource.fresh (← get).names
  modify fun w => { w with names := names }
  return name

/-! ## Steps -/

def locate (chain : Ref) : Lower σ Place := do
  let a ← arena
  checked (a.checkChainEnd chain)
  let site := Site.of a chain
  if (a.parent chain).isNone then fail ⟨.missingParent, site⟩
  match a.enclosingStatement? chain with
  | none => fail ⟨.missingEnclosingStatement, site⟩
  | some statement =>
    match a.enclosingScript? statement with
    | none => fail ⟨.missingEnclosingScript, site⟩
    | some script => return ⟨chain, a.parent chain, statement, script⟩

def makePlain (last : Ref) : Lower σ Unit := do
  let links ← checked ((← arena).segmentLinks last)
  links.forM fun (r, k) => edit fun a => .ok ((a.setMarked r false).setKind r k)

variable [NameSource σ]

def declareTemp (p : Place) (value : Ref) : Lower σ String := do
  let name ← freshName
  let declaration ← build (·.newLet name value)
  edit (·.addBefore declaration p.statement)
  return name

/-- Puts `(t = e)` for `e`, with a new temporary `t`, and makes a detached `t`. -/
def keepInTemp (p : Place) (e : Ref) : Lower σ Ref := do
  let name ← declareTemp p e
  let standIn ← build (·.newEmpty)
  edit (·.replaceWith e standIn)
  let assign ← build (·.newAssign name e e)
  edit (·.replaceWith standIn assign)
  build fun a => a.cloneNode (a.firstChild assign)

/-- Cuts the kept receiver off the link that starts a segment and puts the
temporary there; the result is the detached receiver. -/
def splitReceiver (p : Place) (start receiver : Ref) : Lower σ Ref := do
  let a ← arena
  if a.isGet receiver && a.isCall start then
    let this ← keepInTemp p (a.firstChild receiver)
    let callee ← keepInTemp p receiver
    let kept := (← arena).firstChild start
    edit fun a => .ok (a.detach kept)
    edit (·.addToFront start this)
    let dotCall ← build (·.newGetProp callee "call" kept)
    edit (·.addToFront start dotCall)
    return kept
  else
    let temp ← keepInTemp p receiver
    let kept := (← arena).firstChild start
    edit (·.replaceWith kept temp)
    return kept

/-- Lowers the segment that starts here and puts its guard where the chain
stands. The receiver must be plain by now. -/
def guardSegment (p : Place) (start : NodeId) : Lower σ NodeId := do
  let a ← arena
  let receiver := a.firstChild start
  if a.isChain receiver then fail ⟨.receiverStillOptional, .of a receiver⟩
  match a.segmentEnd? start with
  | none => fail (a.inconsistentSegment start)
  | some last =>
    makePlain last
    let standIn ← build (·.newEmpty)
    edit (·.replaceWith p.chain standIn)
    let kept ← splitReceiver p start receiver
    let null ← build (·.newNull p.chain)
    let isNullish ← build (·.newEq kept null p.chain)
    let undefined ← build (·.newUndefined p.chain)
    let guard ← build (·.newHook isNullish undefined p.chain p.chain)
    edit (·.replaceWith standIn guard)
    return guard

/-- A call of the whole chain, when the chain ends in an access, still has to
call with the accessed object as `this`:

    (guard ? void 0 : t.b.c)(x)      (guard ? void 0 : (u = t.b).c).call(u, x) -/
def keepThisOfCall (p : Place) (guard : Ref) : Lower σ Unit := do
  let a ← arena
  if a.isCall p.parent && a.isFirstChild guard p.parent && a.isGet p.chain then
    let this ← keepInTemp p (a.firstChild p.chain)
    edit fun a => .ok (a.detach guard)
    edit (·.addToFront p.parent this)
    let dotCall ← build (·.newGetProp guard "call" guard)
    edit (·.addToFront p.parent dotCall)

/-- Lowers the chain that ends here; the result is the guard in its place. -/
def guardChain (chain : Ref) : Lower σ NodeId := do
  let p ← locate chain
  match ← checked ((← arena).segmentStarts chain) with
  | [] => fail ((← arena).inconsistentSegment chain)
  | first :: rest =>
    let guard ← guardSegment p first
    rest.forM fun start => discard (guardSegment p start)
    keepThisOfCall p guard
    edit (·.addFeature p.script .letDeclarations)
    modify fun w => { w with changes := (w.changes.report w.arena p.parent).2 }
    return guard

end Lower

end ChainLowering
