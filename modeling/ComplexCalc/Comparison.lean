import ComplexCalc.Evaluation

/-!
Comparison of two expressions by their values when every variable is the sentinel.
-/

namespace ComplexCalc

/-- Numbers at this distance or farther apart count as different. -/
def tolerance : Float := 0.001

inductive Verdict where
  /-- The values agree; this is the left one. -/
  | equivalent (value : Number)
  | different (left right : Number)
deriving DecidableEq

namespace Verdict

def of (left right : Number) : Verdict :=
  if left.distance right < tolerance then .equivalent left else .different left right

def isEquivalent : Verdict → Bool
  | .equivalent _ => true
  | .different _ _ => false

def text : Verdict → String
  | .equivalent value => s!"The expressions are EQUIVALENT. Result: {value.text}"
  | .different left right => s!"The expressions are DIFFERENT. ({left.text} vs {right.text})"

end Verdict

/-- Reads both texts, the left one first, and then evaluates both and compares their values. -/
def compareSources (left right : String) : Except Error Verdict := do
  let leftExpr ← (Expr.parse left).mapError .malformed
  let rightExpr ← (Expr.parse right).mapError .malformed
  let leftValue ← leftExpr.value fun _ => .sentinel
  let rightValue ← rightExpr.value fun _ => .sentinel
  return .of leftValue rightValue

/-- What happens during a comparison. Once both texts are read, nothing more is noted. -/
def comparisonEvents (left right : String) : List Event :=
  let reading : Evaluation Unit := do
    let _ ← Evaluation.parse left
    let _ ← Evaluation.parse right
  (reading .comparison).2.transcript

end ComplexCalc
