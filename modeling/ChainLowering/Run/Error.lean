import ChainLowering.Node.Kind
import ChainLowering.Run.Value

/-! # How a run fails -/

namespace ChainLowering

inductive RuntimeError
  | notCallable (v : Value)
  | readOfNullish (v : Value) (key : String)
  | writeToNullish (v : Value) (key : String)
  /-- A native function refused its arguments. -/
  | refused (message : String)
  | unbound (name : String)
  | callDepth
  /-- No value and no statement; a slot without a node counts as empty. -/
  | unsupported (kind : Kind)

namespace RuntimeError

def name : RuntimeError → String
  | notCallable _ | readOfNullish .. | writeToNullish .. | refused _ => "TypeError"
  | unbound _ => "ReferenceError"
  | callDepth => "RangeError"
  | unsupported _ => "Unsupported"

def message : RuntimeError → String
  | notCallable v => "TypeError: " ++ v.shown ++ " is not a function"
  | readOfNullish v key =>
    "TypeError: Cannot read properties of " ++ v.text ++ " (reading '" ++ key ++ "')"
  | writeToNullish v key =>
    "TypeError: Cannot set properties of " ++ v.text ++ " (setting '" ++ key ++ "')"
  | refused message => "TypeError: " ++ message
  | unbound x => "ReferenceError: " ++ x ++ " is not defined"
  | callDepth => "RangeError: maximum call stack size exceeded"
  | unsupported k => "cannot evaluate " ++ k.text ++ " node"

end RuntimeError

end ChainLowering
