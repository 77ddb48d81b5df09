import ChainLowering.Source.Token

/-! # Pieces of a printed text

A printed text is a row of pieces, each of them a token or a blank. -/

namespace ChainLowering

inductive Piece
  /-- A name or a keyword. -/
  | word (s : String)
  | number (s : String)
  /-- A string literal, by its value. -/
  | quoted (s : String)
  | punct (p : Punct)
  | space
  /-- A line end and the indentation of the next line. -/
  | line (indent : Nat)
  deriving DecidableEq

namespace Piece

def chars : Piece → List Char
  | word s | number s => s.toList
  | quoted s => Text.quotedChars '"' s.toList
  | punct p => p.chars
  | space => [' ']
  | line d => '\n' :: List.replicate (2 * d) ' '

def text (ps : List Piece) : String := .ofList (ps.flatMap chars)

def inParens (ps : List Piece) : List Piece :=
  punct .leftParen :: ps ++ [punct .rightParen]

def withCommas (items : List (List Piece)) : List Piece :=
  [punct .comma, space].intercalate items

def onLines (d : Nat) (items : List (List Piece)) : List Piece :=
  [line d].intercalate items

def inBraces (d : Nat) (items : List (List Piece)) : List Piece :=
  if items.isEmpty then [punct .leftBrace, punct .rightBrace]
  else [punct .leftBrace, line (d + 1)] ++ onLines (d + 1) items ++ [line d, punct .rightBrace]

end Piece

end ChainLowering
