import ChainLowering.Fault
import ChainLowering.Limits
import ChainLowering.Run.Error
import ChainLowering.Tree

/-! # The state of a run

Frames of variables, objects and functions are only ever added. An
environment lists the frames in scope, the innermost first. -/

namespace ChainLowering

/-- Named values, each name once. -/
abbrev Bindings := List (String × Value)

def Bindings.put (name : String) (v : Value) : Bindings → Bindings
  | [] => [(name, v)]
  | (n, w) :: bs => if n = name then (n, v) :: bs else (n, w) :: Bindings.put name v bs

abbrev FrameId := Nat

abbrev Env := List FrameId

structure Closure where
  params : List String := []
  body : List Tree := []
  env : Env := []
  deriving Inhabited

abbrev Native := List Value → List String × Except RuntimeError Value

/-- The calls that need their object when the chain in them is lowered. -/
inductive CallForm
  /-- `o.m?.()` -/
  | optionalMember
  /-- `(o?.m)()` -/
  | calledChain
  deriving DecidableEq

/-- What such a call found in the place of a function. -/
structure Finding where
  form : CallForm
  callee : Value
  /-- Number of lines logged until then. -/
  logged : Nat

structure Machine where
  frames : Array Bindings := #[]
  objects : Array Bindings := #[]
  closures : Array Closure := #[]
  natives : Array Native := #[]
  /-- Number of times that `call` was read from a function. -/
  stamps : Nat := 0
  output : Array String := #[]
  /-- Number of calls not yet ended. -/
  depth : Nat := 0
  /-- The most there ever were. -/
  peak : Nat := 0
  /-- What calls found, the oldest first. It is only noted and never read by a run. -/
  findings : Array Finding := #[]

namespace Machine

def globals : FrameId := 0

def lookup (m : Machine) (env : Env) (name : String) : Option Value :=
  env.findSome? fun f => (m.frames.getD f []).lookup name

def frameOf? (m : Machine) (env : Env) (name : String) : Option FrameId :=
  env.find? fun f => ((m.frames.getD f []).lookup name).isSome

def putIn (m : Machine) (f : FrameId) (name : String) (v : Value) : Machine :=
  { m with frames := m.frames.modify f (Bindings.put name v) }

def declare (m : Machine) (env : Env) (name : String) (v : Value) : Machine :=
  match env with
  | f :: _ => m.putIn f name v
  | [] => m

def global? (m : Machine) (name : String) : Option Value := m.lookup [globals] name

def defineGlobal (m : Machine) (name : String) (v : Value) : Machine := m.putIn globals name v

def newFrame (m : Machine) (bs : Bindings) : FrameId × Machine :=
  (m.frames.size, { m with frames := m.frames.push bs })

def newObject (m : Machine) (bs : Bindings) : Value × Machine :=
  (.object m.objects.size, { m with objects := m.objects.push bs })

def newClosure (m : Machine) (c : Closure) : Value × Machine :=
  (.function (.closure m.closures.size), { m with closures := m.closures.push c })

def newNative (m : Machine) (n : Native) : Value × Machine :=
  (.function (.native m.natives.size), { m with natives := m.natives.push n })

def newDotCall (m : Machine) (target : Callee) : Value × Machine :=
  (.function (.dotCall m.stamps target), { m with stamps := m.stamps + 1 })

def defineNative (m : Machine) (name : String) (n : Native) : Machine :=
  let (v, m) := m.newNative n
  m.defineGlobal name v

def print (m : Machine) (lines : List String) : Machine :=
  { m with output := m.output ++ lines.toArray }

def note (m : Machine) (form : CallForm) (callee : Value) : Machine :=
  { m with findings := m.findings.push ⟨form, callee, m.output.size⟩ }

def enter (m : Machine) : Machine :=
  { m with depth := m.depth + 1, peak := max m.peak (m.depth + 1) }

def leave (m : Machine) : Machine :=
  { m with depth := m.depth - 1 }

end Machine

end ChainLowering
