/-! # Node kinds

A link of an optional chain has a kind of its own. Whether a link begins a
segment, being written `?.`, is a mark on the node and not part of its kind:
in `a?.b.c` both links have chain kinds and only `?.b` is marked. -/

namespace ChainLowering

inductive Kind
  -- statements and containers
  | script | block | function | paramList | exprStmt | varDecl | letDecl | constDecl
  | returnStmt | ifStmt | empty
  -- leaves
  | name | stringLit | numberLit | nullLit | trueLit | falseLit | this
  -- operators
  | void | not | eq | ne | strictEq | strictNe | and | or | comma | assign | hook
  | objectLit | objectKey
  -- access and calls
  | getProp | getElem | call | chainProp | chainElem | chainCall
  deriving DecidableEq

namespace Kind

def all : List Kind :=
  [script, block, function, paramList, exprStmt, varDecl, letDecl, constDecl,
   returnStmt, ifStmt, empty,
   name, stringLit, numberLit, nullLit, trueLit, falseLit, this,
   void, not, eq, ne, strictEq, strictNe, and, or, comma, assign, hook,
   objectLit, objectKey,
   getProp, getElem, call, chainProp, chainElem, chainCall]

def text : Kind → String
  | script => "Script"
  | block => "Block"
  | function => "Function"
  | paramList => "ParamList"
  | exprStmt => "ExprResult"
  | varDecl => "Var"
  | letDecl => "Let"
  | constDecl => "Const"
  | returnStmt => "Return"
  | ifStmt => "If"
  | empty => "Empty"
  | name => "Name"
  | stringLit => "StringLit"
  | numberLit => "NumberLit"
  | nullLit => "Null"
  | trueLit => "True"
  | falseLit => "False"
  | this => "This"
  | void => "Void"
  | not => "Not"
  | eq => "Eq"
  | ne => "Ne"
  | strictEq => "Sheq"
  | strictNe => "Shne"
  | and => "And"
  | or => "Or"
  | comma => "Comma"
  | assign => "Assign"
  | hook => "Hook"
  | objectLit => "ObjectLit"
  | objectKey => "StringKey"
  | getProp => "GetProp"
  | getElem => "GetElem"
  | call => "Call"
  | chainProp => "OptChainGetProp"
  | chainElem => "OptChainGetElem"
  | chainCall => "OptChainCall"

def number (k : Kind) : Nat := all.idxOf k

def named? (s : String) : Option Kind :=
  all.find? (fun k => k.text = s)

def isChain : Kind → Bool
  | chainProp | chainElem | chainCall => true
  | _ => false

def isGet : Kind → Bool
  | getProp | getElem => true
  | _ => false

def isLink : Kind → Bool
  | getProp | getElem | call | chainProp | chainElem | chainCall => true
  | _ => false

/-- The plain kind of a chain link. -/
def plain? : Kind → Option Kind
  | chainProp => some getProp
  | chainElem => some getElem
  | chainCall => some call
  | _ => none

def chain? : Kind → Option Kind
  | getProp => some chainProp
  | getElem => some chainElem
  | call => some chainCall
  | _ => none

def ownsStatements : Kind → Bool
  | script | block => true
  | _ => false

/-- A unit of change reporting. -/
def isScope : Kind → Bool
  | script | function => true
  | _ => false

theorem mem_all (k : Kind) : k ∈ all := by
  cases k <;> decide

theorem chain?_eq_some_iff {k c : Kind} : k.chain? = some c ↔ c.plain? = some k := by
  cases k <;> cases c <;> decide

theorem isSome_plain? (k : Kind) : k.plain?.isSome = k.isChain := by
  cases k <;> rfl

end Kind

end ChainLowering
