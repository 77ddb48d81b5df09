import ChainLowering.Print.Layout
import ChainLowering.Run.Native

/-! # Running trees

Optional chains are run as they are written: a marked link that finds null or
undefined ends its chain without a value, and the links that continue the chain
hand that on. A plain link sees undefined in its place.

Calls are open: `reference` and `exec` take the function that performs a call,
and `callTo` ties the knot, bounded by the calls that may be nested. -/

namespace ChainLowering

abbrev Eval := ExceptT (Halt RuntimeError) (StateM Machine)

abbrev Caller := Value → Value → List Value → Eval Value

/-- How a statement ended. -/
inductive Completion
  | normal
  | returned (v : Value)

namespace Eval

/-! ## Access to the machine -/

def fail {α : Type} (e : RuntimeError) : Eval α := throw (.error e)

def make {α : Type} (f : Machine → α × Machine) : Eval α := modifyGet f

def variableOf (env : Env) (name : String) : Eval Value := do
  match (← get).lookup env name with
  | some v => return v
  | none => fail (.unbound name)

def declare (env : Env) (name : String) (v : Value) : Eval Unit :=
  modify (·.declare env name v)

def assign (env : Env) (name : String) (v : Value) : Eval Unit := do
  match (← get).frameOf? env name with
  | some f => modify (·.putIn f name v)
  | none => fail (.unbound name)

/-- A block or a call has a frame of its own. -/
def innerEnv (env : Env) (bs : Bindings) : Eval Env := do
  let f ← make (·.newFrame bs)
  return f :: env

def property (v : Value) (key : String) : Eval Value := do
  match v with
  | .undefined | .null => fail (.readOfNullish v key)
  | .object i => return (((← get).objects.getD i []).lookup key).getD .undefined
  | .function f => if key = "call" then make (·.newDotCall f) else return .undefined
  | _ => return .undefined

/-- Only objects keep what is set; on other values it is lost. -/
def setProperty (v : Value) (key : String) (new : Value) : Eval Unit := do
  match v with
  | .object i => modify fun m => { m with objects := m.objects.modify i (Bindings.put key new) }
  | .undefined | .null => fail (.writeToNullish v key)
  | _ => return ()

def closure (env : Env) (c : Nat → Tree) : Eval Value :=
  make (·.newClosure ⟨Tree.paramNames c, (c 2).children, env⟩)

/-! ## Expressions -/

/-- What an expression refers to: its value, and the `this` of a call of it.
Nothing stands for a chain that ended early. -/
abbrev Reference := Option (Value × Value)

def Reference.value (r : Reference) : Value := r.elim .undefined Prod.fst

def plain (v : Value) : Reference := some (v, .undefined)

def compare (k : Kind) (v w : Value) : Bool :=
  match k with
  | .eq => v.looseEquals w
  | .ne => !v.looseEquals w
  | .strictEq => v.strictEquals w
  | _ => !v.strictEquals w

inductive Place
  | variableNamed (name : String)
  | property (object : Value) (key : String)

def store (env : Env) (v : Value) : Place → Eval Unit
  | .variableNamed name => assign env name v
  | .property o key => setProperty o key v

/-- What a link sees where `r` stands before it, if it is to be followed. Where
a chain ended early its own links end too, and a plain link sees undefined. -/
def receiver (link : Label) (r : Reference) : Reference :=
  let r := if link.kind.isChain then r else some (r.getD (.undefined, .undefined))
  r.filter fun r => !(link.chainStart && r.1.isNullish)

/-- The form of a call that needs its object when the chain in it is lowered. -/
def callForm? (link : Label) (callee : Tree) : Option CallForm :=
  let ofChain := callee.kind? = some .chainProp || callee.kind? = some .chainElem
  let ofMember := ofChain || callee.kind? = some .getProp || callee.kind? = some .getElem
  if link.kind.isChain then if link.chainStart && ofMember then some .optionalMember else none
  else if ofChain then some .calledChain else none

def noteCallee (link : Label) (callee : Tree) (f : Value) : Eval Unit :=
  match callForm? link callee with
  | some form => modify (·.note form f)
  | none => return ()

section
variable (call : Caller)

mutual
def reference (env : Env) : Tree → Eval Reference
  | .absent | .dangling => fail (.unsupported .empty)
  | .node l n c =>
    let value i := Reference.value <$> reference env (c i)
    let text := l.text.getD ""
    match l.kind with
    | .name => return plain (← variableOf env text)
    | .numberLit => return plain (.number (Decimal.ofText text))
    | .stringLit => return plain (.string text)
    | .nullLit => return plain .null
    | .trueLit => return plain (.bool true)
    | .falseLit => return plain (.bool false)
    | .this => return plain (((← get).lookup env "this").getD .undefined)
    | .void => do
      let _ ← value 0
      return plain .undefined
    | .not => return plain (.bool !(← value 0).toBool)
    | .eq | .ne | .strictEq | .strictNe => do
      let v ← value 0
      let w ← value 1
      return plain (.bool (compare l.kind v w))
    | .and => do
      let v ← value 0
      if v.toBool then return plain (← value 1) else return plain v
    | .or => do
      let v ← value 0
      if v.toBool then return plain v else return plain (← value 1)
    | .comma => do
      let _ ← value 0
      return plain (← value 1)
    | .hook => do
      let v ← value 0
      if v.toBool then return plain (← value 1) else return plain (← value 2)
    | .assign => do
      let p ← place env (c 0)
      let v ← value 1
      store env v p
      return plain v
    | .objectLit => do
      let entries ← (List.range n).mapM fun i => entry env (c i)
      return plain (← make (·.newObject (entries.foldl (fun bs e => bs.put e.1 e.2) [])))
    | .function => return plain (← closure env c)
    | .getProp | .chainProp => do
      match receiver l (← reference env (c 0)) with
      | none => return none
      | some (o, _) => return some (← property o text, o)
    | .getElem | .chainElem => do
      match receiver l (← reference env (c 0)) with
      | none => return none
      | some (o, _) => do
        let key ← value 1
        return some (← property o key.text, o)
    | .call | .chainCall => do
      match receiver l (← reference env (c 0)) with
      | none => return none
      | some (f, this) => do
        noteCallee l (c 0) f
        let args ← (List.range (n - 1)).mapM fun i => value (i + 1)
        return plain (← call f this args)
    | k => fail (.unsupported k)

def place (env : Env) : Tree → Eval Place
  | .absent | .dangling => fail (.unsupported .empty)
  | .node l _ c =>
    let value i := Reference.value <$> reference env (c i)
    let text := l.text.getD ""
    match l.kind with
    | .name => return .variableNamed text
    | .getProp => return .property (← value 0) text
    | .getElem => do
      let o ← value 0
      let key ← value 1
      return .property o key.text
    | k => fail (.unsupported k)

def entry (env : Env) : Tree → Eval (String × Value)
  | .node l _ c => return (l.text.getD "", (← reference env (c 0)).value)
  | _ => fail (.unsupported .empty)
end

/-! ## Statements -/

def value (env : Env) (t : Tree) : Eval Value := Reference.value <$> reference call env t

/-- Declares the functions among the statements, before any of them runs. -/
def hoist (env : Env) (ts : List Tree) : Eval Unit :=
  ts.forM fun
    | .node l _ c => do
      if l.kind = .function then declare env (c 0).text (← closure env c)
    | _ => return ()

def declareOne (env : Env) : Tree → Eval Unit
  | .node l _ c => do
    let v ← if (c 0).isAbsent then pure .undefined else value call env (c 0)
    declare env (l.text.getD "") v
  | _ => declare env "" .undefined

def inOrder : List (Eval Completion) → Eval Completion
  | [] => return .normal
  | x :: xs => do
    match ← x with
    | .normal => inOrder xs
    | c => return c

def exec (env : Env) : Tree → Eval Completion
  | .absent | .dangling => fail (.unsupported .empty)
  | .node l n c =>
    match l.kind with
    | .block => do
      let env ← innerEnv env []
      hoist env ((List.range n).map c)
      inOrder ((List.range n).map fun i => exec env (c i))
    | .empty | .function => return .normal
    | .exprStmt => do
      let _ ← value call env (c 0)
      return .normal
    | .varDecl | .letDecl | .constDecl => do
      ((List.range n).map c).forM (declareOne call env)
      return .normal
    | .returnStmt => do
      if (c 0).isAbsent then return .returned .undefined
      else return .returned (← value call env (c 0))
    | .ifStmt => do
      if (← value call env (c 0)).toBool then exec env (c 1)
      else if (c 2).isAbsent then return .normal
      else exec env (c 2)
    | k => fail (.unsupported k)

def execBody (env : Env) (ts : List Tree) : Eval Completion := do
  hoist env ts
  inOrder (ts.map (exec call env))

/-! ## Calls -/

def bindParams (args : List Value) (bs : Bindings) : List String → Bindings
  | p :: ps => bindParams args.tail (bs.put p (args.headD .undefined)) ps
  | [] => bs

def invoke (f : Callee) (this : Value) (args : List Value) : Eval Value := do
  match f with
  | .closure i =>
    let c := (← get).closures.getD i {}
    let env ← innerEnv c.env (bindParams args [("this", this)] c.params)
    match ← execBody call env c.body with
    | .returned v => return v
    | .normal => return .undefined
  | .native i =>
    let (lines, result) := (((← get).natives[i]?).getD Native.inert) args
    modify (·.print lines)
    match result with
    | .ok v => return v
    | .error e => fail e
  | .dotCall _ target => call (.function target) (args.headD .undefined) args.tail

end

/-- Runs `x` one call deeper. The depth is put back however `x` ends. -/
def deeper {α : Type} (x : Eval α) : Eval α := do
  if maxCallDepth ≤ (← get).depth then fail .callDepth
  modify Machine.enter
  let result ← ExceptT.lift (ExceptT.run x)
  modify Machine.leave
  liftExcept result
where
  liftExcept : Except (Halt RuntimeError) α → Eval α
    | .ok r => return r
    | .error e => throw e

def callTo : Nat → Caller
  | 0, _, _, _ => throw (.fault .exhausted)
  | n + 1, .function f, this, args => deeper (invoke (callTo n) f this args)
  | _ + 1, v, _, _ => fail (.notCallable v)

/-- The depth is checked before this bound is met. -/
def call : Caller := callTo (maxCallDepth + 1)

end Eval

/-- Runs the statements of a script; a `return` among them ends it early. -/
def Machine.runScript (m : Machine) (script : Tree) : Except (Halt RuntimeError) Unit × Machine :=
  (discard (Eval.execBody Eval.call [globals] script.children)).run m

/-- Each script runs on the machine that the one before it left, however that one ended. -/
def Machine.runScripts (m : Machine) : List Tree → List (Except (Halt RuntimeError) Unit × Machine)
  | [] => []
  | t :: ts => m.runScript t :: runScripts (m.runScript t).2 ts

end ChainLowering
