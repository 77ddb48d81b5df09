import ChainLowering.Decimal
import ChainLowering.Text.Blank

/-! # Reading numbers

A number has an optional sign, digits with at most one point among or around
them, and an optional exponent; or it is a word for infinity or for no number,
in any case of its letters. Nothing may stand before or after it. -/

namespace ChainLowering.Decimal

def ofDigits (ds : List Char) : Nat :=
  ds.foldl (fun n c => 10 * n + (c.toNat - '0'.toNat)) 0

def splitSign : List Char → Bool × List Char
  | '-' :: s => (true, s)
  | '+' :: s => (false, s)
  | s => (false, s)

/-- The exponent that a text consists of; an empty text is none. -/
def exponent? : List Char → Option Int
  | [] => some 0
  | c :: s =>
    let (negative, ds) := splitSign s
    if (c = 'e' || c = 'E') && !ds.isEmpty && ds.all Char.isDigit then
      some (if negative then -(ofDigits ds : Int) else ofDigits ds)
    else none

def unsigned? (s : List Char) : Option Decimal :=
  let whole := s.takeWhile Char.isDigit
  let (fraction, rest) := match s.dropWhile Char.isDigit with
    | '.' :: s => (s.takeWhile Char.isDigit, s.dropWhile Char.isDigit)
    | s => ([], s)
  if whole.isEmpty && fraction.isEmpty then none
  else (exponent? rest).map fun e => ⟨ofDigits (whole ++ fraction), e - fraction.length⟩

def read? (s : List Char) : Option Float :=
  let (negative, s) := splitSign s
  match unsigned? s with
  | some d => some (d.toFloat negative)
  | none =>
    let word := String.ofList (s.map Char.toLower)
    let sign := if negative then signBit else 0
    if word = "inf" || word = "infinity" then some (.ofBits (.ofNat (infinityBits + sign)))
    else if word = "nan" then some (.ofBits (.ofNat (infinityBits + Nat.pow 2 51)))
    else none

def ofText (s : String) : Float :=
  (read? s.toList).getD (.ofBits (.ofNat (infinityBits + Nat.pow 2 51)))

end ChainLowering.Decimal
