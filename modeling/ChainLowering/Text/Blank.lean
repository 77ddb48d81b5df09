import ChainLowering.Text.Ranges

/-! # Blank characters

The property White_Space of Unicode. -/

namespace ChainLowering.Text

def blank : Ranges :=
  [(0x9, 0xd), (0x20, 0x20), (0x85, 0x85), (0xa0, 0xa0), (0x1680, 0x1680), (0x2000, 0x200a),
   (0x2028, 0x2029), (0x202f, 0x202f), (0x205f, 0x205f), (0x3000, 0x3000)]

def isBlank (c : Char) : Bool := blank.has c

def trimLeft (s : List Char) : List Char := s.dropWhile isBlank

def trim (s : List Char) : List Char :=
  (trimLeft (trimLeft s).reverse).reverse

end ChainLowering.Text
