import ChainLowering.Node.Kind

/-! # Nodes and the slots that name them

A node is addressed by its place in the arena. A slot names a node or none;
one that points past the end of the arena is legal and names none either. -/

namespace ChainLowering

abbrev NodeId := Nat

abbrev Ref := Option NodeId

def Ref.text : Ref → String
  | some i => "#" ++ toString i
  | none => "#none"

/-- What a node is, apart from where it stands. -/
structure Label where
  kind : Kind
  /-- Identifier, property name or literal. -/
  text : Option String := none
  /-- First byte in the source, absent when the node was not read. -/
  start : Option Nat := none
  /-- Byte after the last one in the source. -/
  stop : Option Nat := none
  /-- Annotation of an earlier analysis, only stored and copied; 0 is unknown. -/
  type : Nat := 0
  /-- Written `?.`, so that it begins a segment. -/
  chainStart : Bool := false
  /-- Made by a transform and not read. -/
  synthesized : Bool := false
  deriving DecidableEq

structure Node extends Label where
  parent : Ref := none
  children : List Ref := []
  deriving DecidableEq

end ChainLowering
