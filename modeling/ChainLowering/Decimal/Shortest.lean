import ChainLowering.Decimal

/-! # The shortest decimal that reads back

Among the decimals that read back as a double those with fewest digits are
short, and of the short ones the nearest is chosen, the larger one of two that
are equally near. If any point of a decimal grid reads back, so does one of the
two around the double. -/

namespace ChainLowering.Decimal

/-- A positive finite double and the numbers that round to it, in quarters of
a unit. -/
structure Cell where
  low : Nat
  mid : Nat
  high : Nat
  /-- The ends round to the double too. -/
  closed : Bool

namespace Cell

/-- Below a power of two doubles are twice as dense. -/
def of (m s : Nat) : Cell :=
  let below := if m = Nat.pow 2 52 && s ≠ 0 then 1 else 2
  ⟨(4 * m - below) * Nat.pow 2 s, 4 * m * Nat.pow 2 s, (4 * m + 2) * Nat.pow 2 s, m % 2 = 0⟩

def one : Nat := 4 * unit

/-- The exponent of the power of ten at or below the double. -/
def order (c : Cell) : Int :=
  if one ≤ c.mid then digitCount (c.mid / one) - 1
  else -(digitCount ((one + c.mid - 1) / c.mid - 1) : Int)

/-- `n * 10 ^ k` reads back. The grid is scaled so that its steps are whole. -/
def admits (c : Cell) (step scale n : Nat) : Bool :=
  let x := n * step
  if c.closed then c.low * scale ≤ x && x ≤ c.high * scale
  else c.low * scale < x && x < c.high * scale

/-- The nearer one of the two points of the grid `10 ^ k` around the double
that read back. -/
def onGrid? (c : Cell) (k : Int) : Option Decimal :=
  let step := if 0 ≤ k then Nat.pow 10 k.toNat * one else one
  let scale := if 0 ≤ k then 1 else Nat.pow 10 (-k).toNat
  let n := c.mid * scale / step
  let rest := c.mid * scale % step
  match c.admits step scale n, c.admits step scale (n + 1) with
  | true, true => some ⟨if 2 * rest < step then n else n + 1, k⟩
  | true, false => some ⟨n, k⟩
  | false, true => some ⟨n + 1, k⟩
  | false, false => none

/-- Seventeen digits always read back. -/
def shortest (c : Cell) : Decimal :=
  let top := c.order
  ((List.range 17).findSome? fun (i : Nat) => c.onGrid? (top - i)).getD ⟨0, 0⟩

end Cell

def trimZero (d : Decimal) : Decimal :=
  if d.digits % 10 = 0 then ⟨d.digits / 10, d.exponent + 1⟩ else d

/-- The shortest decimal that reads back as the double with these bits, which
is positive and finite. -/
def shortest (bits : Nat) : Decimal :=
  let s := bits / Nat.pow 2 52 - 1
  (Cell.of (bits - s * Nat.pow 2 52) s).shortest.trimZero

def positional (d : Decimal) : List Char :=
  let ds := Nat.toDigits 10 d.digits
  if 0 ≤ d.exponent then ds ++ List.replicate d.exponent.toNat '0'
  else
    let places := (-d.exponent).toNat
    let padded := List.replicate (places + 1 - ds.length) '0' ++ ds
    padded.take (padded.length - places) ++ '.' :: padded.drop (padded.length - places)

/-- The shortest digits that read back, never with an exponent. Zero has no
sign. -/
def text (x : Float) : String :=
  let bits := x.toBits.toNat
  let magnitude := bits % signBit
  let sign := if bits < signBit then [] else ['-']
  if magnitude = 0 then "0"
  else if infinityBits < magnitude then "NaN"
  else if magnitude = infinityBits then .ofList (sign ++ ['i', 'n', 'f'])
  else .ofList (sign ++ (shortest magnitude).positional)

end ChainLowering.Decimal
