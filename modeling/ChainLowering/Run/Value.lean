import ChainLowering.Decimal.Reader
import ChainLowering.Decimal.Shortest
import ChainLowering.Text.Quoted

/-! # Values

Objects and functions are told apart by where they were made. Each read of
`call` from a function makes a function of its own. -/

namespace ChainLowering

inductive Callee
  /-- A function of the program. -/
  | closure (id : Nat)
  | native (id : Nat)
  /-- The `call` member of a function, as read for the `stamp`-th time. -/
  | dotCall (stamp : Nat) (target : Callee)
  deriving DecidableEq

inductive Value
  | undefined
  | null
  | bool (b : Bool)
  | number (x : Float)
  | string (s : String)
  | object (id : Nat)
  | function (f : Callee)

namespace Value

instance : Inhabited Value := ⟨undefined⟩

def isNullish : Value → Bool
  | undefined | null => true
  | _ => false

def toBool : Value → Bool
  | undefined | null => false
  | bool b => b
  | number x => x != 0 && x == x
  | string s => s ≠ ""
  | object _ | function _ => true

def strictEquals : Value → Value → Bool
  | undefined, undefined | null, null => true
  | bool a, bool b => a = b
  | number x, number y => x == y
  | string s, string t => s = t
  | object i, object j => i = j
  | function f, function g => f = g
  | _, _ => false

/-- A text equals the number it reads as, blanks around it left out. -/
def numberEqualsText (x : Float) (s : String) : Bool :=
  (Decimal.read? (Text.trim s.toList)).any fun y => y == x

def looseEquals (v w : Value) : Bool :=
  if v.isNullish || w.isNullish then v.isNullish && w.isNullish
  else match v, w with
    | number x, string s | string s, number x => numberEqualsText x s
    | v, w => v.strictEquals w

/-- As logged, and as a property key. -/
def text : Value → String
  | undefined => "undefined"
  | null => "null"
  | bool b => if b then "true" else "false"
  | number x => Decimal.text x
  | string s => s
  | object _ => "[object Object]"
  | function _ => "function"

def shown : Value → String
  | string s => Text.quoted s
  | v => v.text

end Value

end ChainLowering
