import ComplexCalc.Decimal

/-!
The text of a double: the fewest digits that read back as the same double, and of those the nearest, always written
positionally.
-/

namespace ComplexCalc

namespace Decimal

/-- The numeral worth `count` steps of `10 ^ (step - 1074)`. -/
def ofSteps (count step : Nat) : Decimal :=
  if Binary64.places ≤ step then ⟨count * Nat.pow 10 (step - Binary64.places), 0⟩
  else ⟨count, Binary64.places - step⟩

/-- The neighbours of `exact` steps of `10 ^ -1074` on the grid of the given step that read back as `x`: the nearer
one if both do, and the upper one if both are equally near. -/
def onGrid? (x : Float) (exact step : Nat) : Option Decimal :=
  let count := exact / Nat.pow 10 step
  let below := ofSteps count step
  let above := ofSteps (count + 1) step
  let aboveIsNearer : Bool := (2 * count + 1) * Nat.pow 10 step ≤ 2 * exact
  if above.toFloat = x ∧ (aboveIsNearer ∨ below.toFloat ≠ x) then some above
  else if below.toFloat = x then some below
  else none

/-- The first hit among the grids from the given step down to `10 ^ -1074`, on which every double lies. -/
def search (x : Float) (exact : Nat) : Nat → Decimal
  | 0 => ofSteps exact 0
  | step + 1 => (onGrid? x exact (step + 1)).getD (search x exact step)

/-- The shortest numeral of a finite double that is not negative. -/
def shortest (x : Float) : Decimal :=
  let exact := Binary64.units x * Nat.pow 5 Binary64.places
  if exact = 0 then ⟨0, 0⟩
  else search x exact ((exact.log2 + 1) * 30103 / 100000 + 1)

end Decimal

/-- A double as text, with `-` in front if its sign bit is set. -/
def Binary64.text (x : Float) : String :=
  if x.isNaN then "NaN"
  else
    let sign := if signBit x then "-" else ""
    if x.isInf then sign ++ "inf" else sign ++ (Decimal.shortest x.abs).text

end ComplexCalc
