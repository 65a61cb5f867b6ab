import ComplexCalc.Operation

/-!
Expressions as trees, their variables, and their text with every operation in parentheses.
-/

namespace ComplexCalc

inductive Expr where
  | lit (value : Number)
  | var (x : String)
  | binary (op : Operator) (left right : Expr)
  | call (f : Builtin) (argument : Expr)
deriving DecidableEq

namespace Expr

/-- The variables from left to right, each as often as it occurs. -/
def occurrences : Expr → List String
  | .lit _ => []
  | .var x => [x]
  | .binary _ left right => left.occurrences ++ right.occurrences
  | .call _ argument => argument.occurrences

/-- Puts a name at its place in an ascending list, unless it is there already. -/
def insertName (x : String) : List String → List String
  | [] => [x]
  | y :: ys => if x < y then x :: y :: ys else if x = y then y :: ys else y :: insertName x ys

/-- The names of the variables in ascending order, each once. -/
def variableNames (e : Expr) : List String :=
  e.occurrences.foldr insertName []

/-- The text of an operand: a literal has a sign of its own, so it is put in parentheses. -/
def asOperand (e : Expr) (text : String) : String :=
  match e with
  | .lit _ => "(" ++ text ++ ")"
  | _ => text

/-- Infix text in which every binary operation has its own parentheses. -/
def text : Expr → String
  | .lit value => value.text
  | .var x => x
  | .binary op left right =>
    "(" ++ left.asOperand left.text ++ " " ++ op.symbol ++ " " ++ right.asOperand right.text ++ ")"
  | .call f argument => f.name ++ "(" ++ argument.text ++ ")"

end Expr

end ComplexCalc
