import ComplexCalc.Decimal.Shortest

/-!
Complex numbers over doubles. No operation of arithmetic yields a part that is not a number: such a part becomes zero.
-/

namespace ComplexCalc

structure Number where
  re : Float
  im : Float
deriving DecidableEq

namespace Number

def zero : Number := ⟨0.0, 0.0⟩

/-- Zero in place of a value that is not a number. -/
def orZero (x : Float) : Float :=
  if x.isNaN then 0.0 else x

/-- The number with the given parts, once they are cleared of NaN. -/
def cleared (re im : Float) : Number :=
  ⟨orZero re, orZero im⟩

instance : Add Number where
  add a b := cleared (a.re + b.re) (a.im + b.im)

instance : Sub Number where
  sub a b := cleared (a.re - b.re) (a.im - b.im)

instance : Mul Number where
  mul a b := cleared (a.re * b.re - a.im * b.im) (a.re * b.im + a.im * b.re)

def conj (a : Number) : Number :=
  ⟨a.re, -a.im⟩

/-- The square of the magnitude, as division computes it. -/
def normSq (a : Number) : Float :=
  a.re * a.re + a.im * a.im

/-- The quotient, unless the squared magnitude of the divisor is zero. -/
def div? (a b : Number) : Option Number :=
  let d := b.normSq
  if d == 0.0 then none
  else some (cleared ((a.re * b.re + a.im * b.im) / d) ((a.im * b.re - a.re * b.im) / d))

def abs (a : Number) : Float :=
  Binary64.hypot a.re a.im

/-- The angle in radians. -/
def arg (a : Number) : Float :=
  Float.atan2 a.im a.re

/-- The power with a real exponent, through polar coordinates. -/
def power (a : Number) (exponent : Float) : Number :=
  let radius := a.abs.pow exponent
  let angle := a.arg * exponent
  cleared (radius * angle.cos) (radius * angle.sin)

/-- The principal square root. -/
def sqrt (a : Number) : Number :=
  a.power 0.5

/-- The sum of the distances between the real and between the imaginary parts. -/
def distance (a b : Number) : Float :=
  (a.re - b.re).abs + (a.im - b.im).abs

/-- Equality of doubles as numbers, in which a NaN equals itself. -/
def sameFloat (x y : Float) : Bool :=
  x == y || (x.isNaN && y.isNaN)

def same (a b : Number) : Bool :=
  sameFloat a.re b.re && sameFloat a.im b.im

/-! ## Text -/

/-- A double rounded to four decimal places, a half upwards, and never to a negative zero. -/
def fourPlaces (x : Float) : Float :=
  Binary64.floor (x * 10000.0 + 0.5) / 10000.0 + 0.0

/-- Both parts to four places, with the sign that the imaginary part has before it is rounded. -/
def text (a : Number) : String :=
  let sign := if a.im ≥ 0.0 then "+" else "-"
  let re := Binary64.text (fourPlaces a.re)
  let im := Binary64.text (fourPlaces a.im.abs)
  s!"{re} {sign} {im}i"

end Number

end ComplexCalc
