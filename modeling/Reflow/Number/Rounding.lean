/-!
Rounding.

Times are computed as a machine with binary floating point does: every result is the number of 53
bits that is nearest to the exact one, and of two that are equally near the one with the even last
bit. Here a result is kept as an exact rational number that lies on the grid of such numbers, so
that every step is a function on rationals. Numbers too large for the grid are not bounded.
-/

namespace Reflow.Number

/-- The whole number nearest to `n / d`; a half goes to the even neighbour. -/
def roundDiv (n d : Nat) : Nat :=
  let q := n / d
  let r := n % d
  if 2 * r < d then q
  else if 2 * r > d then q + 1
  else q + q % 2

def powerOfTwo (e : Int) : Rat :=
  if 0 ≤ e then Nat.pow 2 e.toNat else 1 / (Nat.pow 2 (-e).toNat : Rat)

def binaryExponent (x : Rat) : Int :=
  let k : Int := x.num.natAbs.log2 - x.den.log2
  if powerOfTwo k ≤ x then k else k - 1

/-- The exponent of the last bit of a number of 53 bits near a positive number. Below a bound the
bits are fewer. -/
def lastBit (x : Rat) : Int := max (binaryExponent x - 52) (-1074)

def roundSize (x : Rat) : Rat :=
  let unit := powerOfTwo (lastBit x)
  let scaled := x / unit
  roundDiv scaled.num.natAbs scaled.den * unit

def nearest (x : Rat) : Rat :=
  if x = 0 then 0
  else if x < 0 then -roundSize (-x)
  else roundSize x

/-- The square root of a number without a sign, rounded to 53 bits. The root is taken to many more
bits, with one more that says whether anything is left, and then rounded. -/
def roundedSqrt (x : Rat) : Rat :=
  let n := x.num.natAbs
  let d := x.den
  -- enough places for the root to have more than 53 bits, whatever the number
  let places := 64 + d.log2
  let scaled := n * Nat.pow 4 places
  let root := (scaled / d).sqrt
  let isExact := root * root * d = scaled
  nearest ((2 * root + (if isExact then 0 else 1) : Nat) / ((2 * Nat.pow 2 places : Nat) : Rat))

def oneDecimal (x : Rat) : String :=
  let tenths := roundDiv (10 * x.num.natAbs) x.den
  (if x < 0 then "-" else "") ++ toString (tenths / 10) ++ "." ++ toString (tenths % 10)

end Reflow.Number
