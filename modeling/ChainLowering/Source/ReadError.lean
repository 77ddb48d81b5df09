import ChainLowering.Source.Token

/-! # What is wrong with a source text -/

namespace ChainLowering

inductive Expected
  | identifier
  | propertyName
  | expression
  | closingBrace
  | punct (p : Punct)
  deriving DecidableEq

def Expected.text : Expected → String
  | identifier => "identifier"
  | propertyName => "property name"
  | expression => "expression"
  | closingBrace => "`\x7d`"
  | punct p => p.text

/-- Positions count bytes. -/
inductive ReadError
  | unexpectedChar (c : Char) (pos : Nat)
  | unterminatedString (pos : Nat)
  | unexpected (expected : Expected) (found : Tok) (pos : Nat)
  | invalidAssignmentTarget (pos : Nat)
  | tooDeep (pos : Nat)
  deriving DecidableEq

namespace ReadError

def pos : ReadError → Nat
  | unexpectedChar _ p | unterminatedString p | unexpected _ _ p
  | invalidAssignmentTarget p | tooDeep p => p

def message : ReadError → String
  | unexpectedChar c p => "unexpected character " ++ Text.quotedChar c ++ " at " ++ toString p
  | unterminatedString p => "unterminated string literal starting at " ++ toString p
  | unexpected e found p =>
    "expected " ++ e.text ++ ", found " ++ found.describe ++ " at " ++ toString p
  | invalidAssignmentTarget p => "invalid assignment target at " ++ toString p
  | tooDeep p => "expression nested too deeply at " ++ toString p

end ReadError

end ChainLowering
