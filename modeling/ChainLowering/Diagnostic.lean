import ChainLowering.Diagnostic.Template

/-! # Diagnostics

A message at a range of a file, with further places that bear on it. -/

namespace ChainLowering

structure Diagnostic.Related where
  category : Category
  code : Nat
  file : String
  start : Nat
  length : Nat
  text : String
  deriving DecidableEq

structure Diagnostic where
  category : Category
  code : Nat
  file : String
  start : Nat
  length : Nat
  text : String
  related : List Diagnostic.Related := []
  deriving DecidableEq

namespace Diagnostic

def error (file : String) (start length : Nat) (text : String) (code : Nat) : Diagnostic where
  category := .error
  code := code
  file := file
  start := start
  length := length
  text := text

/-- Further places carry no code of their own. -/
def withRelated (d : Diagnostic) (file : String) (start length : Nat) (text : String) :
    Diagnostic :=
  { d with related := d.related ++ [⟨.message, 0, file, start, length, text⟩] }

end Diagnostic

end ChainLowering
