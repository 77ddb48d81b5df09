import ChainLowering.Json.Skip
import ChainLowering.Language.Feature

/-! # Options of lowering

The options are a JSON object with the member `target`, or an array of the
target alone. Without a target the default level is meant. Other members are
passed over, but they have to be JSON. -/

namespace ChainLowering

structure Options where
  /-- Level of the emitted script. -/
  target : Target := default
  deriving DecidableEq

inductive OptionsError
  | malformed
  | unknownTarget (e : UnknownTarget)
  deriving DecidableEq

namespace OptionsError

def message (_ : OptionsError) : String := "failed to parse lowering options"

def cause? : OptionsError → Option String
  | malformed => none
  | unknownTarget e => some e.message

end OptionsError

namespace Options

def needsLowering (o : Options) (f : Feature) : Bool := !o.target.supports f

def text (o : Options) : String := "\x7b\"target\":\"" ++ o.target.name ++ "\"\x7d"

def expected {α : Type} : Option α → Except OptionsError α
  | some x => .ok x
  | none => .error .malformed

/-- A string that names a level. It is judged before what follows it. -/
def targetFrom (s : List Char) : Except OptionsError (Target × List Char) :=
  match Json.skipBlanks s with
  | '"' :: s => do
    let (name, s) ← expected (Json.stringBody? s)
    match Target.parse (.ofList name) with
    | .ok t => return (t, s)
    | .error e => .error (.unknownTarget e)
  | _ => .error .malformed

def members :
    Nat → Option Target → List Char → Except OptionsError (Option Target × List Char)
  | 0, _, _ => .error .malformed
  | n + 1, target, s => do
    let (key, s) ← expected (Json.key? s)
    let (target, s) ←
      if key = "target" then
        if target.isSome then .error .malformed
        else (targetFrom s).map fun r => (some r.1, r.2)
      else (expected (Json.skipValue? s)).map fun s => (target, s)
    match Json.skipBlanks s with
    | ',' :: s => members n target s
    | '\x7d' :: s => return (target, s)
    | _ => .error .malformed

def valueFrom (s : List Char) : Except OptionsError (Option Target × List Char) :=
  match Json.skipBlanks s with
  | '\x7b' :: s =>
    match Json.skipBlanks s with
    | '\x7d' :: s => .ok (none, s)
    | s => members s.length none s
  | '[' :: s =>
    match Json.skipBlanks s with
    | ']' :: s => .ok (none, s)
    | s => do
      let (target, s) ← targetFrom s
      match Json.skipBlanks s with
      | ']' :: s => return (some target, s)
      | _ => .error .malformed
  | _ => .error .malformed

def parse (json : String) : Except OptionsError Options := do
  let (target, s) ← valueFrom json.toList
  if (Json.skipBlanks s).isEmpty then return { target := target.getD default }
  else .error .malformed

end Options

end ChainLowering
