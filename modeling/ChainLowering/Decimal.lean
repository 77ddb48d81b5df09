/-! # Decimal numbers and the doubles next to them

A finite double is `m * 2 ^ s` units of 2⁻¹⁰⁷⁴ with `m` below 2⁵³, and `m` is
at least 2⁵² unless `s` is 0. Its bits, less the sign, then read
`s * 2 ^ 52 + m`. All arithmetic is exact, on natural numbers. -/

namespace ChainLowering

/-- The number `digits * 10 ^ exponent`. -/
structure Decimal where
  digits : Nat
  exponent : Int
  deriving DecidableEq

namespace Decimal

def unit : Nat := Nat.pow 2 1074

/-- The bits of infinity. -/
def infinityBits : Nat := 2047 * Nat.pow 2 52

def signBit : Nat := Nat.pow 2 63

def digitCount (n : Nat) : Nat := (Nat.toDigits 10 n).length

/-- The quotient, rounded to the nearest, a half to the even neighbour. -/
def roundHalfEven (num den : Nat) : Nat :=
  let q := num / den
  let r := num % den
  if 2 * r < den then q else if den < 2 * r then q + 1 else q + q % 2

def inUnits (d : Decimal) : Nat × Nat :=
  if 0 ≤ d.exponent then (d.digits * Nat.pow 10 d.exponent.toNat * unit, 1)
  else (d.digits * unit, Nat.pow 10 (-d.exponent).toNat)

/-- The bits of the double nearest to a decimal. -/
def nearestBits (d : Decimal) : Nat :=
  let order := digitCount d.digits + d.exponent
  if d.digits = 0 || order < -330 then 0
  else if 310 < order then infinityBits
  else
    let (num, den) := d.inUnits
    let s := (num / den).log2 - 52
    min (s * Nat.pow 2 52 + roundHalfEven num (den * Nat.pow 2 s)) infinityBits

def toFloat (negative : Bool) (d : Decimal) : Float :=
  .ofBits (.ofNat (nearestBits d + if negative then signBit else 0))

end Decimal

end ChainLowering
