/-!
Doubles as exact numbers. A finite double is a whole number of units of `2 ^ -1074`, so its value, the double
nearest to a quotient, its floor and the length of a hypotenuse are all computed in `Nat`.
-/

namespace ComplexCalc.Binary64

/-- Binary places behind the point of the smallest positive double. -/
def places : Nat := 1074

/-- How many units of `2 ^ -1074` make one. -/
def unitsOfOne : Nat := Nat.pow 2 places

/-- How many bit patterns share an exponent: `2 ^ 52`. -/
def fractions : Nat := 0x10000000000000

/-- Bit pattern of positive infinity, which is the pattern after that of the largest finite double. -/
def infinityBits : Nat := 0x7ff0000000000000

def infinity : Float := Float.ofBits 0x7ff0000000000000

/-- Whether the sign bit is set, also on a zero. -/
def signBit (x : Float) : Bool :=
  0x8000000000000000 ≤ x.toBits.toNat

/-- The bit pattern without its sign. -/
def magnitude (x : Float) : Nat :=
  x.toBits.toNat % 0x8000000000000000

/-- The absolute value of a finite double, counted in units of `2 ^ -1074`. -/
def units (x : Float) : Nat :=
  let exponent := magnitude x / fractions
  let fraction := magnitude x % fractions
  if exponent = 0 then fraction else (fractions + fraction) * Nat.pow 2 (exponent - 1)

/-- The whole number nearest to `num / den`; a half goes to the even neighbour. -/
def roundHalfEven (num den : Nat) : Nat :=
  let quotient := num / den
  let twice := 2 * (num % den)
  if twice < den then quotient
  else if den < twice then quotient + 1
  else quotient + quotient % 2

/-- The double nearest to `num / den`; a half goes to the even significand, and what is too large is infinite.

The quotient is rounded to a significand of at most 53 bits at a multiple of the unit. Adding the shift above the
fraction bits also carries a significand of `2 ^ 53` into the exponent. -/
def nearest (num den : Nat) : Float :=
  let scaled := num * unitsOfOne
  let shift := (scaled / den).log2 - 52
  let significand := roundHalfEven scaled (den * Nat.pow 2 shift)
  Float.ofBits (UInt64.ofNat (min (shift * fractions + significand) infinityBits))

/-- The largest integral double that is not above `x`; a value that is not finite stays as it is. -/
def floor (x : Float) : Float :=
  if x.isFinite then
    let whole := units x / unitsOfOne
    if units x % unitsOfOne = 0 then x
    else if signBit x then -nearest (whole + 1) 1
    else nearest whole 1
  else x

/-- Newton steps from a start that is not below the square root of `n`. -/
def sqrtFrom (n start : Nat) : Nat :=
  let next := (start + n / start) / 2
  if next < start then sqrtFrom n next else start
termination_by start

/-- The whole part of the square root. -/
def sqrt (n : Nat) : Nat :=
  sqrtFrom n (Nat.pow 2 (n.log2 / 2 + 1))

/-- The double nearest to the square root of `x² + y²`, without overflow on the way.

The root of four times the sum is compared with whole numbers only, so one bit that tells whether its fraction is
zero is enough to round it. -/
def hypot (x y : Float) : Float :=
  if x.isInf || y.isInf then infinity
  else if x.isNaN || y.isNaN then x + y
  else
    let square := 4 * (units x * units x + units y * units y)
    let root := sqrt square
    let rest := if root * root = square then 0 else 1
    nearest (2 * root + rest) (4 * unitsOfOne)

end ComplexCalc.Binary64
