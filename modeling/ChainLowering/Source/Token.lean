import ChainLowering.Text.Quoted

/-! # Tokens

A token is a lexeme's meaning with the bytes it covers. String tokens hold
the value and not the spelling. -/

namespace ChainLowering

inductive Punct
  | strictEq | strictNe | eq | ne | and | or | questionDot | leftParen | rightParen
  | leftBrace | rightBrace | leftBracket | rightBracket | comma | semicolon | colon | dot
  | question | assign | bang
  deriving DecidableEq

namespace Punct

/-- Longer ones first. -/
def all : List Punct :=
  [strictEq, strictNe, eq, ne, and, or, questionDot, leftParen, rightParen, leftBrace,
   rightBrace, leftBracket, rightBracket, comma, semicolon, colon, dot, question, assign, bang]

def text : Punct → String
  | strictEq => "==="
  | strictNe => "!=="
  | eq => "=="
  | ne => "!="
  | and => "&&"
  | or => "||"
  | questionDot => "?."
  | leftParen => "("
  | rightParen => ")"
  | leftBrace => "\x7b"
  | rightBrace => "\x7d"
  | leftBracket => "["
  | rightBracket => "]"
  | comma => ","
  | semicolon => ";"
  | colon => ":"
  | dot => "."
  | question => "?"
  | assign => "="
  | bang => "!"

def chars (p : Punct) : List Char := p.text.toList

theorem mem_all (p : Punct) : p ∈ all := by
  cases p <;> decide

end Punct

inductive Tok
  | ident (s : String)
  | number (s : String)
  | string (s : String)
  | punct (p : Punct)
  | eof
  deriving DecidableEq

def Tok.describe : Tok → String
  | ident s => "identifier `" ++ s ++ "`"
  | number s => "number `" ++ s ++ "`"
  | string s => "string " ++ Text.quoted s
  | punct p => "`" ++ p.text ++ "`"
  | eof => "end of input"

structure Token where
  tok : Tok
  /-- First byte. -/
  start : Nat
  /-- Byte after the last. -/
  stop : Nat
  deriving DecidableEq

/-- Words that name nothing; as property names they are ordinary. -/
def keywords : List String :=
  ["let", "var", "const", "function", "return", "if", "else", "null", "true", "false", "this",
   "void"]

end ChainLowering
