/-! # Message templates

A template holds placeholders, a number in braces. They are filled one number
after the other over the growing text, so an argument that brings a
placeholder of a later number has it filled too. -/

namespace ChainLowering

inductive Category
  | warning | error | suggestion | message
  deriving DecidableEq

namespace Category

def all : List Category := [warning, error, suggestion, message]

def name : Category → String
  | warning => "Warning"
  | error => "Error"
  | suggestion => "Suggestion"
  | message => "Message"

end Category

structure Template where
  code : Nat
  category : Category
  text : String
  deriving DecidableEq

namespace Template

def alreadyLowered : Template :=
  ⟨9100, .error, "Optional chain ending at \x7b0\x7d node was already rewritten."⟩
def notEndOfFullChain : Template :=
  ⟨9101, .error, "\x7b0\x7d node is not the end of a complete optional chain."⟩
def missingParent : Template :=
  ⟨9102, .error, "Optional chain ending at \x7b0\x7d node is not attached to a tree."⟩
def missingEnclosingStatement : Template :=
  ⟨9103, .error, "Optional chain ending at \x7b0\x7d node has no enclosing statement."⟩
def missingEnclosingScript : Template :=
  ⟨9104, .error, "Optional chain ending at \x7b0\x7d node is not inside a script."⟩
def receiverStillOptional : Template :=
  ⟨9105, .error,
    "Receiver \x7b0\x7d of an optional chain segment is itself an unrewritten optional chain."⟩
def inconsistentSegment : Template :=
  ⟨9106, .error, "Optional chain segment reaches \x7b0\x7d node before finding its start."⟩

def all : List Template :=
  [alreadyLowered, notEndOfFullChain, missingParent, missingEnclosingStatement,
   missingEnclosingScript, receiverStillOptional, inconsistentSegment]

def withCode? (code : Nat) : Option Template :=
  all.find? (fun t => t.code = code)

/-- Puts `new` for every `old` that `s` holds, taken from the left; the first
`skip` characters belong to a match that was already replaced. -/
def replaceFrom (old new : List Char) : Nat → List Char → List Char
  | _, [] => []
  | skip + 1, _ :: s => replaceFrom old new skip s
  | 0, c :: s =>
    if old.isPrefixOf (c :: s) then new ++ replaceFrom old new (old.length - 1) s
    else c :: replaceFrom old new 0 s

def placeholder (i : Nat) : List Char :=
  '\x7b' :: Nat.toDigits 10 i ++ ['\x7d']

def fillFrom : Nat → List Char → List (List Char) → List Char
  | _, s, [] => s
  | i, s, arg :: args => fillFrom (i + 1) (replaceFrom (placeholder i) arg 0 s) args

def fill (text : String) (args : List String) : String :=
  .ofList (fillFrom 0 text.toList (args.map String.toList))

end Template

end ChainLowering
