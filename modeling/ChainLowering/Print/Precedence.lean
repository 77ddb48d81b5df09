import ChainLowering.Node.Kind

/-! # Binding strength of expressions -/

namespace ChainLowering

/-- Loosest first. -/
inductive Precedence
  | comma | assign | conditional | or | and | equality | unary | link | primary
  deriving DecidableEq

namespace Precedence

def rank : Precedence → Nat
  | comma => 0
  | assign => 1
  | conditional => 2
  | or => 3
  | and => 4
  | equality => 5
  | unary => 6
  | link => 7
  | primary => 8

def next : Precedence → Precedence
  | comma => assign
  | assign => conditional
  | conditional => or
  | or => and
  | and => equality
  | equality => unary
  | unary => link
  | link | primary => primary

end Precedence

/-- A function is written so that it would be called by the parentheses after
it, so it binds more loosely than other primary expressions. -/
def Kind.precedence : Kind → Precedence
  | comma => .comma
  | assign => .assign
  | hook => .conditional
  | or => .or
  | and => .and
  | eq | ne | strictEq | strictNe => .equality
  | not | void => .unary
  | getProp | getElem | call | chainProp | chainElem | chainCall => .link
  | function => .assign
  | _ => .primary

end ChainLowering
