import ChainLowering.Node

/-! # Faults

A fault is a broken precondition, a defect of the caller and not of the
input. A computation that can fail in a way of its own stops by one or the
other. -/

namespace ChainLowering

inductive Fault
  /-- A node that should stand in no tree has a parent. -/
  | attached (r : Ref)
  /-- A node that should stand in a tree has no place in one. -/
  | notAttached (r : Ref)
  | hasParent (child parent : Ref)
  | notScript (r : Ref)
  /-- A scanner stood inside the character at a byte. -/
  | insideCharacter (pos : Nat)
  /-- A recursion met its bound. -/
  | exhausted
  deriving DecidableEq

def Fault.message? : Fault → Option String
  | attached r => some (r.text ++ " is attached")
  | notAttached r => some (r.text ++ " is not attached")
  | hasParent c p => some (c.text ++ " already has parent " ++ p.text)
  | notScript _ | insideCharacter _ | exhausted => none

/-- Why a computation with errors `ε` stopped early. -/
inductive Halt (ε : Type)
  | error (e : ε)
  | fault (f : Fault)

end ChainLowering
