/-! # Scanning JSON

Each scanner takes what its name says off the front of a text and gives what
follows, or nothing where the text does not have the form. -/

namespace ChainLowering.Json

def isBlank (c : Char) : Bool := c = ' ' || c = '\n' || c = '\t' || c = '\r'

def skipBlanks (s : List Char) : List Char := s.dropWhile isBlank

def hexDigit? (c : Char) : Option Nat :=
  if c.isDigit then some (c.toNat - '0'.toNat)
  else if 'a' ≤ c && c ≤ 'f' then some (c.toNat - 'a'.toNat + 10)
  else if 'A' ≤ c && c ≤ 'F' then some (c.toNat - 'A'.toNat + 10)
  else none

def unit? (a b c d : Char) : Option Nat := do
  return (((← hexDigit? a) * 16 + (← hexDigit? b)) * 16 + (← hexDigit? c)) * 16 + (← hexDigit? d)

def escaped? : Char → Option Char
  | '"' => some '"'
  | '\\' => some '\\'
  | '/' => some '/'
  | 'b' => some '\x08'
  | 'f' => some '\x0c'
  | 'n' => some '\n'
  | 'r' => some '\r'
  | 't' => some '\t'
  | _ => none

def isLead (u : Nat) : Bool := 0xd800 ≤ u && u < 0xdc00

def isTrail (u : Nat) : Bool := 0xdc00 ≤ u && u < 0xe000

/-- The value of a string after its opening quote, and what follows it. A
surrogate must have its partner. -/
def stringBody? : List Char → Option (List Char × List Char)
  | [] => none
  | '"' :: s => some ([], s)
  | '\\' :: 'u' :: a :: b :: c :: d :: s => do
    let u ← unit? a b c d
    if isTrail u then none
    else if isLead u then
      match s with
      | '\\' :: 'u' :: a :: b :: c :: d :: s => do
        let v ← unit? a b c d
        if isTrail v then
          let (value, rest) ← stringBody? s
          return (.ofNat (0x10000 + (u - 0xd800) * 0x400 + (v - 0xdc00)) :: value, rest)
        else none
      | _ => none
    else
      let (value, rest) ← stringBody? s
      return (.ofNat u :: value, rest)
  | '\\' :: e :: s => do
    let c ← escaped? e
    let (value, rest) ← stringBody? s
    return (c :: value, rest)
  | c :: s =>
    if c = '\\' || c.toNat < 0x20 then none
    else do
      let (value, rest) ← stringBody? s
      return (c :: value, rest)

/-- What follows a string whose value nobody wants; its escapes need not be
of characters. -/
def skipString? : List Char → Option (List Char)
  | [] => none
  | '"' :: s => some s
  | '\\' :: 'u' :: a :: b :: c :: d :: s => do
    let _ ← unit? a b c d
    skipString? s
  | '\\' :: e :: s => do
    let _ ← escaped? e
    skipString? s
  | c :: s => if c = '\\' || c.toNat < 0x20 then none else skipString? s

def skipDigits? (s : List Char) : Option (List Char) :=
  if (s.takeWhile Char.isDigit).isEmpty then none else some (s.dropWhile Char.isDigit)

def skipWhole? : List Char → Option (List Char)
  | '0' :: s => if (s.takeWhile Char.isDigit).isEmpty then some s else none
  | s => skipDigits? s

def skipExponent? : List Char → Option (List Char)
  | c :: s =>
    if c = 'e' || c = 'E' then
      match s with
      | '+' :: s | '-' :: s => skipDigits? s
      | s => skipDigits? s
    else some (c :: s)
  | [] => some []

def skipNumber? (s : List Char) : Option (List Char) := do
  match ← skipWhole? s with
  | '.' :: s => skipExponent? (← skipDigits? s)
  | s => skipExponent? s

def skipColon? (s : List Char) : Option (List Char) :=
  match skipBlanks s with
  | ':' :: s => some s
  | _ => none

def key? (s : List Char) : Option (String × List Char) := do
  match skipBlanks s with
  | '"' :: s => do
    let (key, s) ← stringBody? s
    return (.ofList key, ← skipColon? s)
  | _ => none

def skipKey? (s : List Char) : Option (List Char) := do
  match skipBlanks s with
  | '"' :: s => skipColon? (← skipString? s)
  | _ => none

mutual
def skipValueTo? : Nat → List Char → Option (List Char)
  | 0, _ => none
  | n + 1, s =>
    match skipBlanks s with
    | '"' :: s => skipString? s
    | 'n' :: 'u' :: 'l' :: 'l' :: s => some s
    | 't' :: 'r' :: 'u' :: 'e' :: s => some s
    | 'f' :: 'a' :: 'l' :: 's' :: 'e' :: s => some s
    | '-' :: s => skipNumber? s
    | '[' :: s =>
      match skipBlanks s with
      | ']' :: s => some s
      | s => skipItemsTo? n s
    | '\x7b' :: s =>
      match skipBlanks s with
      | '\x7d' :: s => some s
      | s => skipMembersTo? n s
    | s => skipNumber? s
def skipItemsTo? : Nat → List Char → Option (List Char)
  | 0, _ => none
  | n + 1, s => do
    match skipBlanks (← skipValueTo? n s) with
    | ',' :: s => skipItemsTo? n s
    | ']' :: s => some s
    | _ => none
def skipMembersTo? : Nat → List Char → Option (List Char)
  | 0, _ => none
  | n + 1, s => do
    match skipBlanks (← skipValueTo? n (← skipKey? s)) with
    | ',' :: s => skipMembersTo? n s
    | '\x7d' :: s => some s
    | _ => none
end

/-- Any value. Each character is looked at by at most two calls. -/
def skipValue? (s : List Char) : Option (List Char) := skipValueTo? (2 * s.length + 2) s

end ChainLowering.Json
