/-! # Bounds on nesting

Lowering itself has no bound; these guard the recursive reader, printer and
interpreter. -/

namespace ChainLowering

/-- Nesting of statements and expressions that the reader accepts. -/
def maxParseDepth : Nat := 256

/-- Nesting of calls that the interpreter accepts. -/
def maxCallDepth : Nat := 128

/-- Levels of a tree beyond as many as its store has nodes. -/
def maxUnfolding : Nat := Nat.pow 2 20

end ChainLowering
