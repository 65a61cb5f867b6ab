import ComplexCalc.Number

/-!
The operations of expressions: binary operators and built-in functions, how they are written, and what they do.
-/

namespace ComplexCalc

inductive Operator where
  | add
  | sub
  | mul
  | div
  | pow
deriving DecidableEq, Repr

namespace Operator

def symbol : Operator → String
  | .add => "+"
  | .sub => "-"
  | .mul => "*"
  | .div => "/"
  | .pow => "**"

/-- The value of an operation, unless it divides by zero. A power uses the real part of its exponent only. -/
def result? : Operator → Number → Number → Option Number
  | .add, a, b => some (a + b)
  | .sub, a, b => some (a - b)
  | .mul, a, b => some (a * b)
  | .div, a, b => a.div? b
  | .pow, a, b => some (a.power b.re)

end Operator

/-- The functions an expression can call, each on one argument. -/
inductive Builtin where
  | conjugate
  | root
deriving DecidableEq, Repr

namespace Builtin

def name : Builtin → String
  | .conjugate => "conjugate"
  | .root => "root"

def ofName? : String → Option Builtin
  | "conjugate" => some .conjugate
  | "root" => some .root
  | _ => none

theorem ofName?_name (f : Builtin) : ofName? f.name = some f := by
  cases f <;> rfl

def result : Builtin → Number → Number
  | .conjugate, a => a.conj
  | .root, a => a.sqrt

end Builtin

end ComplexCalc
