import ChainLowering.Limits
import ChainLowering.Source.Lexer
import ChainLowering.Source.Nursery

/-! # From tokens to nodes

The reader keeps the nodes that it has finished on a stack, and a node is put
above the topmost of them. The stack is a nursery, or whatever else offers the
same; each reader puts its nodes there as soon as it has read them.

Recursion goes through `Nested`, the readers one level of nesting deeper, and
each level is counted before it is read. -/

namespace ChainLowering

/-- A stack of finished nodes. -/
class NodeStack (σ : Type) where
  /-- Puts a node above the topmost ones, as many as it has children. -/
  build : Label → Nat → σ → σ
  size : σ → Nat
  topKind? : σ → Option Kind

instance : NodeStack Nursery where
  build := Nursery.build
  size s := s.roots.length
  topKind? s := s.arena.kind? s.roots.head?

structure Reader (σ : Type) where
  /-- Tokens not yet taken, the end of input among them. -/
  tokens : List Token
  /-- End of the last token taken. -/
  lastStop : Nat := 0
  /-- Number of levels entered and not left. -/
  depth : Nat := 0
  /-- The most there ever were. -/
  peak : Nat := 0
  made : σ

abbrev Read (σ : Type) := ExceptT (Halt ReadError) (StateM (Reader σ))

namespace Reader

variable {σ : Type}

/-! ## Tokens -/

def current (r : Reader σ) : Token := r.tokens.headD ⟨.eof, r.lastStop, r.lastStop⟩

def fail {α : Type} (e : ReadError) : Read σ α := throw (.error e)

def exhausted {α : Type} : Read σ α := throw (.fault .exhausted)

def peek : Read σ Token := return (← get).current

/-- Takes the next token; the end of input is never taken. -/
def advance : Read σ Token := do
  let t ← peek
  if t.tok ≠ .eof then
    modify fun r => { r with tokens := r.tokens.tail, lastStop := t.stop }
  return t

def position : Read σ Nat := return (← peek).start

def at? (p : Punct) : Read σ Bool := return (← peek).tok = .punct p

def atWord (word : String) : Read σ Bool := return (← peek).tok = .ident word

def atEnd : Read σ Bool := return (← peek).tok = .eof

def eat (p : Punct) : Read σ Bool := do
  if ← at? p then
    let _ ← advance
    return true
  return false

def unexpected {α : Type} (e : Expected) : Read σ α := do
  let t ← peek
  fail (.unexpected e t.tok t.start)

def expect (p : Punct) : Read σ Unit := do
  if !(← eat p) then unexpected (.punct p)

def identifier : Read σ String := do
  match (← peek).tok with
  | .ident s =>
    if s ∈ keywords then unexpected .identifier
    let _ ← advance
    return s
  | _ => unexpected .identifier

/-- Keywords may name properties. -/
def propertyName : Read σ String := do
  match (← peek).tok with
  | .ident s =>
    let _ ← advance
    return s
  | _ => unexpected .propertyName

/-! ## Nodes -/

section
variable [NodeStack σ]

def push (l : Label) (arity : Nat) : Read σ Unit :=
  modify fun r => { r with made := NodeStack.build l arity r.made }

/-- Builds a node that begins at byte `start` and ends with the last token. -/
def finish (l : Label) (start arity : Nat) : Read σ Unit := do
  push { l with start := some start, stop := some (← get).lastStop } arity

/-- Runs a reader and tells how many nodes it leaves on the stack. -/
def counted (x : Read σ Unit) : Read σ Nat := do
  let before := NodeStack.size (← get).made
  x
  return NodeStack.size (← get).made - before

def nameNode : Read σ Unit := do
  let start ← position
  let name ← identifier
  finish { kind := .name, text := some name } start 0

end

/-! ## Repetition and nesting -/

def iterateTo {α : Type} (step : α → Read σ (Option α)) : List Token → α → Read σ Unit
  | [], _ => exhausted
  | _ :: left, x => do
    match ← step x with
    | some y => iterateTo step left y
    | none => return ()

/-- Every step but the last takes a token, and the end of input is left, so
there are no more steps than tokens. -/
def iterate {α : Type} (step : α → Read σ (Option α)) (x : α) : Read σ Unit := do
  iterateTo step (← get).tokens x

/-- Repeats `step` while it answers yes. -/
def repeatedly (step : Read σ Bool) : Read σ Unit :=
  iterate (fun _ => return if ← step then some () else none) ()

def enter (r : Reader σ) : Reader σ :=
  { r with depth := r.depth + 1, peak := max r.peak (r.depth + 1) }

def leave (r : Reader σ) : Reader σ := { r with depth := r.depth - 1 }

/-- Runs a reader one level deeper and leaves the level however that ends. A level that is too deep
is not left. -/
def deeper (x : Read σ Unit) : Read σ Unit := do
  modify enter
  if (← get).depth > maxParseDepth then fail (.tooDeep (← position))
  ExceptT.mk do
    let result ← x.run
    modify leave
    return result

theorem run_deeper (x : Read σ Unit) (r : Reader σ) : (deeper x).run r =
    if r.enter.depth > maxParseDepth then (.error (.error (.tooDeep r.current.start)), r.enter)
    else ((x.run r.enter).1, (x.run r.enter).2.leave) := by
  have hrun : (deeper x).run r = (do
      if r.enter.depth > maxParseDepth then fail (.tooDeep (← position))
      ExceptT.mk do
        let result ← x.run
        modify leave
        return result : Read σ Unit).run r.enter := rfl
  rw [hrun]
  split <;> rfl

theorem run_deeper_full {x : Read σ Unit} {r : Reader σ} (h : maxParseDepth < r.depth + 1) :
    (deeper x).run r = (.error (.error (.tooDeep r.current.start)), r.enter) :=
  (run_deeper x r).trans (if_pos h)

theorem run_deeper_ok {x : Read σ Unit} {r : Reader σ} (h : r.depth + 1 ≤ maxParseDepth) :
    (deeper x).run r = ((x.run r.enter).1, (x.run r.enter).2.leave) :=
  (run_deeper x r).trans (if_neg (Nat.not_lt.mpr h))

/-- Items up to a closing punctuator with commas between them; one comma may
come after the last. -/
def separated (close : Punct) (item : Read σ Unit) : Read σ Unit := do
  repeatedly do
    if ← at? close then return false
    item
    eat .comma
  expect close

/-- The readers one level deeper. -/
structure Nested (σ : Type) where
  statement : Read σ Unit
  assignment : Read σ Unit
  /-- The operand of a unary operator. -/
  operand : Read σ Unit

variable [NodeStack σ] (p : Nested σ)

/-! ## Statements -/

def block : Read σ Unit := do
  let start ← position
  expect .leftBrace
  let n ← counted <| repeatedly do
    if ← at? .rightBrace then return false
    if ← atEnd then unexpected .closingBrace
    p.statement
    return true
  let _ ← advance
  finish { kind := .block } start n

/-- A branch of an `if`, always a block; a bare statement is wrapped. -/
def branch : Read σ Unit := do
  if ← at? .leftBrace then block p
  else
    let start ← position
    p.statement
    finish { kind := .block } start 1

def declaration (kind : Kind) (start : Nat) : Read σ Unit := do
  let n ← counted <| repeatedly do
    let nameStart ← position
    let name ← identifier
    let n ← counted do
      if ← eat .assign then p.assignment
    finish { kind := .name, text := some name } nameStart n
    eat .comma
  let _ ← eat .semicolon
  finish { kind := kind } start n

/-- From the keyword on; only an expression may leave out the name. -/
def function (mustHaveName : Bool) : Read σ Unit := do
  let start ← position
  let _ ← advance
  if mustHaveName || !(← at? .leftParen) then nameNode
  else push { kind := .name, text := some "" } 0
  let paramsStart ← position
  expect .leftParen
  let n ← counted (separated .rightParen nameNode)
  finish { kind := .paramList } paramsStart n
  block p
  finish { kind := .function } start 3

def expression : Read σ Unit := do
  let start ← position
  p.assignment
  repeatedly do
    if !(← eat .comma) then return false
    p.assignment
    finish { kind := .comma } start 2
    return true

def returnStatement (start : Nat) : Read σ Unit := do
  let n ← counted do
    if !(← at? .semicolon) && !(← at? .rightBrace) && !(← atEnd) then expression p
  let _ ← eat .semicolon
  finish { kind := .returnStmt } start n

def ifStatement (start : Nat) : Read σ Unit := do
  expect .leftParen
  let n ← counted do
    expression p
    expect .rightParen
    branch p
    if ← atWord "else" then
      let _ ← advance
      branch p
  finish { kind := .ifStmt } start n

def declarationKind? : Tok → Option Kind
  | .ident "let" => some .letDecl
  | .ident "var" => some .varDecl
  | .ident "const" => some .constDecl
  | _ => none

def statement : Read σ Unit := do
  let start ← position
  if ← at? .leftBrace then block p
  else if ← eat .semicolon then finish { kind := .empty } start 0
  else if let some kind := declarationKind? (← peek).tok then
    let _ ← advance
    declaration p kind start
  else if ← atWord "function" then function p true
  else if ← atWord "return" then
    let _ ← advance
    returnStatement p start
  else if ← atWord "if" then
    let _ ← advance
    ifStatement p start
  else
    expression p
    let _ ← eat .semicolon
    finish { kind := .exprStmt } start 1

/-! ## Expressions -/

def objectLiteral : Read σ Unit := do
  let start ← position
  expect .leftBrace
  let n ← counted <| separated .rightBrace do
    let keyStart ← position
    let key ← match (← peek).tok with
      | .string s => do
        let _ ← advance
        pure s
      | _ => propertyName
    expect .colon
    p.assignment
    finish { kind := .objectKey, text := some key } keyStart 1
  finish { kind := .objectLit } start n

def constantKind? : String → Option Kind
  | "null" => some .nullLit
  | "true" => some .trueLit
  | "false" => some .falseLit
  | "this" => some .this
  | _ => none

def primary : Read σ Unit := do
  let start ← position
  match (← peek).tok with
  | .punct .leftParen => do
    let _ ← advance
    expression p
    expect .rightParen
  | .punct .leftBrace => objectLiteral p
  | .number s => do
    let _ ← advance
    finish { kind := .numberLit, text := some s } start 0
  | .string s => do
    let _ ← advance
    finish { kind := .stringLit, text := some s } start 0
  | .ident s =>
    match constantKind? s with
    | some kind => do
      let _ ← advance
      finish { kind := kind } start 0
    | none => if s = "function" then function p false else nameNode
  | _ => unexpected .expression

def key : Read σ Unit := do
  expression p
  expect .rightBracket

/-- One link onto the topmost tree, if one follows. `inChain` tells whether a
`?.` came before; the answer tells whether one has come by now. -/
def link (start : Nat) (inChain : Bool) : Read σ (Option Bool) := do
  let kindOf (k : Kind) : Kind := if inChain then k.chain?.getD k else k
  if ← eat .questionDot then
    if ← eat .leftParen then
      let n ← counted (separated .rightParen p.assignment)
      finish { kind := .chainCall, chainStart := true } start (n + 1)
    else if ← eat .leftBracket then
      key p
      finish { kind := .chainElem, chainStart := true } start 2
    else
      let name ← propertyName
      finish { kind := .chainProp, text := some name, chainStart := true } start 1
    return some true
  else if ← eat .dot then
    let name ← propertyName
    finish { kind := kindOf .getProp, text := some name } start 1
    return some inChain
  else if ← eat .leftBracket then
    key p
    finish { kind := kindOf .getElem } start 2
    return some inChain
  else if ← eat .leftParen then
    let n ← counted (separated .rightParen p.assignment)
    finish { kind := kindOf .call } start (n + 1)
    return some inChain
  else return none

def linked : Read σ Unit := do
  let start ← position
  primary p
  iterate (link p start) false

def unary : Read σ Unit := do
  let start ← position
  if ← eat .bang then
    p.operand
    finish { kind := .not } start 1
  else if ← atWord "void" then
    let _ ← advance
    p.operand
    finish { kind := .void } start 1
  else linked p

def leftNested (operators : List (Punct × Kind)) (operand : Read σ Unit) : Read σ Unit := do
  let start ← position
  operand
  repeatedly do
    let t ← peek
    match operators.find? (fun o => t.tok = .punct o.1) with
    | none => return false
    | some (_, kind) => do
      let _ ← advance
      operand
      finish { kind := kind } start 2
      return true

def equality : Read σ Unit :=
  leftNested [(.strictEq, .strictEq), (.strictNe, .strictNe), (.eq, .eq), (.ne, .ne)] (unary p)

def conjunction : Read σ Unit := leftNested [(.and, .and)] (equality p)

def disjunction : Read σ Unit := leftNested [(.or, .or)] (conjunction p)

def conditional : Read σ Unit := do
  let start ← position
  disjunction p
  if ← eat .question then
    p.assignment
    expect .colon
    p.assignment
    finish { kind := .hook } start 3

def isAssignable (kind : Option Kind) : Bool := kind.any fun k => k = .name || k.isGet

def assignment : Read σ Unit := do
  let start ← position
  conditional p
  if ← at? .assign then
    if !isAssignable (NodeStack.topKind? (← get).made) then fail (.invalidAssignmentTarget start)
    let _ ← advance
    p.assignment
    finish { kind := .assign } start 2

/-! ## Scripts -/

/-- The readers with `n` levels of nesting to go. -/
def nested : Nat → Nested σ
  | 0 => ⟨exhausted, exhausted, exhausted⟩
  | n + 1 => ⟨deeper (statement (nested n)), deeper (assignment (nested n)),
      deeper (unary (nested n))⟩

/-- The level after the last admitted one only finds that it is too deep. -/
def outermost : Nested σ := nested (maxParseDepth + 1)

def script : Read σ Unit := do
  let n ← counted <| repeatedly do
    if ← atEnd then return false
    (outermost : Nested σ).statement
    return true
  finish { kind := .script } 0 n

end Reader

namespace Arena

/-- Reads a source text into the store. Nodes that were finished before an error stay. -/
def read (a : Arena) (source : String) : Except (Halt ReadError) Ref × Arena :=
  match Lexer.tokens source with
  | .error e => (.error e, a)
  | .ok tokens =>
    let (result, r) := Reader.script.run { tokens := tokens, made := ({ arena := a } : Nursery) }
    (result.map fun _ => r.made.roots.head?, r.made.arena)

def readAll (a : Arena) : List String → Option (List Ref × Arena)
  | [] => some ([], a)
  | s :: ss =>
    match a.read s with
    | (.ok r, b) => (b.readAll ss).map fun (rs, c) => (r :: rs, c)
    | (.error _, _) => none

variable {a : Arena}

/-- Whether a text can be read, and what is read then, is decided by reading it. -/
theorem exists_of_read {source : String} {P : Ref → Arena → Prop} [∀ r b, Decidable (P r b)]
    (h : (match a.read source with
      | (.ok r, b) => decide (P r b)
      | (.error _, _) => false) = true) :
    ∃ r b, a.read source = (.ok r, b) ∧ P r b := by
  rcases hread : a.read source with ⟨_ | r, b⟩ <;> rw [hread] at h
  · cases h
  · exact ⟨r, b, rfl, of_decide_eq_true h⟩

theorem exists_of_readAll {sources : List String} {P : List Ref → Arena → Prop}
    [∀ rs b, Decidable (P rs b)]
    (h : (a.readAll sources).any (fun p => decide (P p.1 p.2)) = true) :
    ∃ rs b, a.readAll sources = some (rs, b) ∧ P rs b := by
  obtain ⟨⟨rs, b⟩, hread, hp⟩ := (Option.any_eq_true _ _).mp h
  exact ⟨rs, b, hread, of_decide_eq_true hp⟩

end Arena

end ChainLowering
