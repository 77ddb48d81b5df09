import ChainLowering.Arena.Query
import ChainLowering.Print.Piece
import ChainLowering.Print.Precedence
import ChainLowering.Tree

/-! # Trees as rows of pieces

One statement stands on a line, and parentheses are written only where the
precedences ask for them, a plain link follows an optional chain, or an
expression would open its statement with a brace or the word `function`. -/

namespace ChainLowering

open Piece

namespace Tree

def isStatementKind : Kind → Bool
  | .script | .block | .function | .exprStmt | .varDecl | .letDecl | .constDecl | .returnStmt
  | .ifStmt => true
  | _ => false

def opensWithChild : Kind → Bool
  | .assign | .hook | .comma | .or | .and | .eq | .ne | .strictEq | .strictNe => true
  | k => k.isLink

def opener? : Tree → Option Kind
  | node l _ c => if opensWithChild l.kind then (c 0).opener? else some l.kind
  | _ => none

/-- An expression of the tree has to be set in parentheses to begin a statement. -/
def opensAmbiguously (t : Tree) : Bool :=
  t.opener? = some .objectLit || t.opener? = some .function

/-- The tree binds too loosely to stand without parentheses. -/
def looserThan (t : Tree) (min : Precedence) : Bool :=
  t.kind?.any fun k => k.precedence.rank < min.rank

/-- `ps`, the pieces of `t`, where `min` is asked for. -/
def operandOf (min : Precedence) (t : Tree) (ps : List Piece) : List Piece :=
  if t.looserThan min then inParens ps else ps

/-- `ps`, the pieces of `t`, before a link. A plain link on a chain would
continue the chain. -/
def receiverOf (link : Kind) (t : Tree) (ps : List Piece) : List Piece :=
  if !link.isChain && t.isChain then inParens ps else operandOf .link t ps

def statementOf (t : Tree) (ps : List Piece) : List Piece :=
  match t.kind? with
  | none => []
  | some .empty => [punct .semicolon]
  | some k => if isStatementKind k then ps else ps ++ [punct .semicolon]

def operator? : Kind → Option Punct
  | .eq => some .eq
  | .ne => some .ne
  | .strictEq => some .strictEq
  | .strictNe => some .strictNe
  | .and => some .and
  | .or => some .or
  | _ => none

def declarator : Kind → String
  | .varDecl => "var"
  | .letDecl => "let"
  | _ => "const"

def paramNames (c : Nat → Tree) : List String := (c 1).children.map text

def functionHead (c : Nat → Tree) : List Piece :=
  let name := (c 0).text
  let named := if name = "" then [] else [space, word name]
  word "function" :: named ++ inParens (withCommas ((paramNames c).map fun s => [word s])) ++
    [space]

def markOf (l : Label) (marked plain : List Piece) : List Piece :=
  if l.chainStart then marked else plain

mutual
/-- The pieces of a tree, which stands `d` levels deep. -/
def pieces (d : Nat) : Tree → List Piece
  | node l n c =>
    let operand min i := operandOf min (c i) (pieces d (c i))
    match l.kind with
    | .script => onLines d ((List.range n).map fun i => statementOf (c i) (pieces d (c i)))
    | .block =>
      inBraces d ((List.range n).map fun i => statementOf (c i) (pieces (d + 1) (c i)))
    | .empty | .paramList | .objectKey => []
    | .exprStmt =>
      let ps := operand .comma 0
      (if (c 0).opensAmbiguously then inParens ps else ps) ++ [punct .semicolon]
    | .varDecl | .letDecl | .constDecl =>
      [word (declarator l.kind), space] ++
        withCommas ((List.range n).map fun i => binding d (c i)) ++ [punct .semicolon]
    | .returnStmt =>
      let value := if (c 0).isAbsent then [] else space :: operand .comma 0
      word "return" :: value ++ [punct .semicolon]
    | .ifStmt =>
      let otherwise :=
        if (c 2).isAbsent then []
        else [space, word "else", space] ++ statementOf (c 2) (pieces d (c 2))
      [word "if", space] ++ inParens (operand .comma 0) ++ [space] ++
        statementOf (c 1) (pieces d (c 1)) ++ otherwise
    | .function => functionHead c ++ body d (c 2)
    | .name => [word (l.text.getD "")]
    | .numberLit => [number (l.text.getD "")]
    | .stringLit => [quoted (l.text.getD "")]
    | .nullLit => [word "null"]
    | .trueLit => [word "true"]
    | .falseLit => [word "false"]
    | .this => [word "this"]
    | .void => [word "void", space] ++ operand .unary 0
    | .not => punct .bang :: operand .unary 0
    | .eq | .ne | .strictEq | .strictNe | .and | .or =>
      let p := l.kind.precedence
      operand p 0 ++ [space] ++ (operator? l.kind).toList.map punct ++ [space] ++ operand p.next 1
    | .comma => operand .comma 0 ++ [punct .comma, space] ++ operand .assign 1
    | .assign => operand .link 0 ++ [space, punct .assign, space] ++ operand .assign 1
    | .hook =>
      operand .or 0 ++ [space, punct .question, space] ++ operand .assign 1 ++
        [space, punct .colon, space] ++ operand .assign 2
    | .objectLit =>
      if n = 0 then [punct .leftBrace, punct .rightBrace]
      else
        [punct .leftBrace, space] ++ withCommas ((List.range n).map fun i => entry d (c i)) ++
          [space, punct .rightBrace]
    | .getProp | .chainProp =>
      receiverOf l.kind (c 0) (pieces d (c 0)) ++
        markOf l [punct .questionDot] [punct .dot] ++ [word (l.text.getD "")]
    | .getElem | .chainElem =>
      receiverOf l.kind (c 0) (pieces d (c 0)) ++ markOf l [punct .questionDot] [] ++
        [punct .leftBracket] ++ operand .comma 1 ++ [punct .rightBracket]
    | .call | .chainCall =>
      let arguments := (List.range (n - 1)).map fun i => operand .assign (i + 1)
      receiverOf l.kind (c 0) (pieces d (c 0)) ++ markOf l [punct .questionDot] [] ++
        inParens (withCommas arguments)
  | _ => []

def body (d : Nat) : Tree → List Piece
  | node _ n c =>
    inBraces d ((List.range n).map fun i => statementOf (c i) (pieces (d + 1) (c i)))
  | _ => inBraces d []

def binding (d : Nat) : Tree → List Piece
  | node l _ c =>
    let init :=
      if (c 0).isAbsent then []
      else [space, punct .assign, space] ++ operandOf .assign (c 0) (pieces d (c 0))
    word (l.text.getD "") :: init
  | _ => [word ""]

def entry (d : Nat) : Tree → List Piece
  | node l _ c =>
    [word (l.text.getD ""), punct .colon, space] ++ operandOf .assign (c 0) (pieces d (c 0))
  | _ => [word "", punct .colon, space]
end

/-! ## Texts -/

def printStatement (t : Tree) : String := Piece.text (statementOf t (pieces 0 t))

/-- The children as statements, without braces. -/
def printStatements (t : Tree) : String :=
  Piece.text (onLines 0 (t.children.map fun t => statementOf t (pieces 0 t)))

def printExpression (t : Tree) : String := Piece.text (pieces 0 t)

end Tree

/-- A script or a child of a script or block is printed as a statement, any
other node as an expression. -/
def Arena.print (a : Arena) (r : Ref) : String :=
  if a.isKind r .script || a.isStatement r then (a.tree r).printStatement
  else (a.tree r).printExpression

end ChainLowering
