import ChainLowering.Arena
import ChainLowering.Diagnostic

/-! # Why a chain cannot be lowered

Each defect is a broken precondition of lowering, not a fault of the program
that is lowered: a pass ran twice, or one before it built a chain wrong. -/

namespace ChainLowering

/-- The node an error is about, as it was then. -/
structure Site where
  node : Ref
  kind : Option Kind := none
  start : Option Nat := none
  stop : Option Nat := none
  deriving DecidableEq

namespace Site

def of (a : Arena) (r : Ref) : Site :=
  match a.node? r with
  | some n => ⟨r, some n.kind, n.start, n.stop⟩
  | none => { node := r }

def kindName (s : Site) : String :=
  s.kind.elim "<missing>" Kind.text

def text (s : Site) : String :=
  s.kindName ++ " " ++ s.node.text ++ s.start.elim "" fun p => " at " ++ toString p

def farEnd : Nat := Nat.pow 2 32 - 1

/-- Start and length; a node that was not read has none. -/
def span (s : Site) : Nat × Nat :=
  s.start.elim (0, 0) fun p => (p, s.stop.getD farEnd - p)

end Site

inductive Defect
  | alreadyLowered
  | notEndOfFullChain
  | missingParent
  | missingEnclosingStatement
  | missingEnclosingScript
  | receiverStillOptional
  | inconsistentSegment
  deriving DecidableEq

namespace Defect

def all : List Defect :=
  [alreadyLowered, notEndOfFullChain, missingParent, missingEnclosingStatement,
   missingEnclosingScript, receiverStillOptional, inconsistentSegment]

def template : Defect → Template
  | alreadyLowered => .alreadyLowered
  | notEndOfFullChain => .notEndOfFullChain
  | missingParent => .missingParent
  | missingEnclosingStatement => .missingEnclosingStatement
  | missingEnclosingScript => .missingEnclosingScript
  | receiverStillOptional => .receiverStillOptional
  | inconsistentSegment => .inconsistentSegment

def message (d : Defect) (site : String) : String :=
  match d with
  | alreadyLowered => "optional chain ending at " ++ site ++ " was already rewritten"
  | notEndOfFullChain => site ++ " is not the end of a complete optional chain"
  | missingParent => "optional chain ending at " ++ site ++ " has no parent"
  | missingEnclosingStatement =>
      "optional chain ending at " ++ site ++ " has no enclosing statement"
  | missingEnclosingScript => "optional chain ending at " ++ site ++ " is not inside a script"
  | receiverStillOptional => "segment receiver " ++ site ++ " is still an optional chain"
  | inconsistentSegment =>
    "optional chain segment reaches " ++ site ++ " before finding its start"

end Defect

structure LoweringError where
  defect : Defect
  site : Site
  deriving DecidableEq

namespace LoweringError

def message (e : LoweringError) : String := e.defect.message e.site.text

def code (e : LoweringError) : Nat := e.defect.template.code

def diagnostic (e : LoweringError) (file : String) : Diagnostic :=
  let text := Template.fill e.defect.template.text [e.site.kindName]
  .error file e.site.span.1 e.site.span.2 text e.code

end LoweringError

end ChainLowering
