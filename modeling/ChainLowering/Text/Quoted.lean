import ChainLowering.Text.Unprintable
import ChainLowering.Text.GraphemeExtend

/-! # Quoted text

A quoted text writes tab, line end, carriage return, NUL, backslash and its own
quote with a backslash, and a character that could not be told by sight by its
code point. All other characters stand for themselves. -/

namespace ChainLowering.Text

def codePoint (c : Char) : List Char :=
  ['\\', 'u', '\x7b'] ++ Nat.toDigits 16 c.toNat ++ ['\x7d']

def escape (quote c : Char) : List Char :=
  if c = '\x00' then ['\\', '0']
  else if c = '\t' then ['\\', 't']
  else if c = '\r' then ['\\', 'r']
  else if c = '\n' then ['\\', 'n']
  else if c = '\\' then ['\\', '\\']
  else if c = quote then ['\\', c]
  else if extendsGrapheme c || !isPrintable c then codePoint c
  else [c]

def quotedChars (quote : Char) (s : List Char) : List Char :=
  quote :: s.flatMap (escape quote) ++ [quote]

def quoted (s : String) : String := .ofList (quotedChars '"' s.toList)

/-- One character in single quotes. -/
def quotedChar (c : Char) : String := .ofList (quotedChars '\x27' [c])

end ChainLowering.Text
