import ComplexCalc.Expr.Basic

/-!
Expressions drawn as trees, one node a line, with the branches that lead to it in front.
-/

namespace ComplexCalc.Expr

/-- What stands on the line of the topmost node. -/
def label : Expr → String
  | .lit value => value.text
  | .var x => "Var: " ++ x
  | .binary op _ _ => op.symbol
  | .call f _ => f.name

/-- The lines below the topmost node, each with `margin` in front. -/
def branches (margin : String) : Expr → List String
  | .lit _ => []
  | .var _ => []
  | .binary _ left right =>
    (margin ++ "├── " ++ left.label) :: left.branches (margin ++ "│   ") ++
      (margin ++ "└── " ++ right.label) :: right.branches (margin ++ "    ")
  | .call _ argument => (margin ++ "└── " ++ argument.label) :: argument.branches (margin ++ "    ")

/-- The lines of the whole drawing: the node, then its operands from left to right. -/
def drawingLines (e : Expr) : List String :=
  e.label :: e.branches ""

def drawing (e : Expr) : String :=
  String.join (e.drawingLines.map (· ++ "\n"))

end ComplexCalc.Expr
