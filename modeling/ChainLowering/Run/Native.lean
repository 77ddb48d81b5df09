import ChainLowering.Run.Machine

/-! # Native functions -/

namespace ChainLowering

namespace Native

/-- Logs its arguments on a line and returns the first. -/
def log : Native := fun args =>
  ([" ".intercalate (args.map Value.text)], .ok (args.headD .undefined))

def twice : Native
  | .number x :: _ => ([], .ok (.number (x * 2)))
  | _ => ([], .error (.refused "expected a number"))

def count : Native := fun args =>
  (["count " ++ toString args.length], .ok (.number (.ofNat args.length)))

def inert : Native := fun _ => ([], .ok .undefined)

end Native

/-- Before a program runs there are only the globals `undefined` and `log`. -/
def Machine.initial : Machine :=
  (({ frames := #[[]] } : Machine).defineGlobal "undefined" .undefined).defineNative "log"
    Native.log

end ChainLowering
