import ComplexCalc.Binary64

/-!
Decimal numerals: digits with a number of places behind the point, their positional text, and how one is read from a run
of digits and points.
-/

namespace ComplexCalc

/-- The numeral worth `digits / 10 ^ places`. -/
structure Decimal where
  digits : Nat
  places : Nat
deriving DecidableEq, Repr

namespace Decimal

def toFloat (d : Decimal) : Float :=
  Binary64.nearest d.digits (Nat.pow 10 d.places)

/-- Exactly `width` digits of a number below `10 ^ width`. -/
def padded (width n : Nat) : List Char :=
  let digits := Nat.toDigits 10 n
  List.replicate (width - digits.length) '0' ++ digits

/-- Digits with a point in front of the last `places` of them, and no point if there are none behind it. -/
def chars (d : Decimal) : List Char :=
  if d.places = 0 then Nat.toDigits 10 d.digits
  else
    let one := Nat.pow 10 d.places
    Nat.toDigits 10 (d.digits / one) ++ '.' :: padded d.places (d.digits % one)

def text (d : Decimal) : String :=
  String.ofList d.chars

/-- The numeral that a text is, if it is one: digits, with at most one point among them and at least one digit. Signs,
exponents and the names of infinity and NaN are left out. -/
def ofText? (text : List Char) : Option Decimal :=
  let whole := text.takeWhile Char.isDigit
  match text.dropWhile Char.isDigit with
  | [] => if whole = [] then none else some ⟨Nat.ofDigitChars 10 whole 0, 0⟩
  | '.' :: fraction =>
    if fraction.all Char.isDigit ∧ whole ++ fraction ≠ [] then
      some ⟨Nat.ofDigitChars 10 (whole ++ fraction) 0, fraction.length⟩
    else none
  | _ => none

/-- What stands in front of the second point. -/
def beforeSecondPoint (run : List Char) : List Char :=
  let whole := run.takeWhile (· ≠ '.')
  match run.dropWhile (· ≠ '.') with
  | [] => whole
  | point :: behind => whole ++ point :: behind.takeWhile (· ≠ '.')

/-- The numeral at the front of a run of digits and points. -/
def ofRun? (run : List Char) : Option Decimal :=
  ofText? (beforeSecondPoint run)

end Decimal

end ComplexCalc
