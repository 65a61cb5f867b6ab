import ComplexCalc.Expr.Basic
import ComplexCalc.Token.Lexer

/-!
From tokens to the tree of an expression. Each function reads the longest phrase of its kind at the front and returns
what follows it. `room` counts the levels that are still free: every prefix sign, power, opening parenthesis and
chained operator takes one, so the recursion is bounded by `room` and not by the length of the input.
-/

namespace ComplexCalc

/-- How many levels an expression may have. -/
def levelLimit : Nat := 256

namespace Operator

/-- Operators that are chained with `+`. -/
def isAdditive : Operator → Bool
  | .add => true
  | .sub => true
  | _ => false

/-- Operators that are chained with `*`. -/
def isMultiplicative : Operator → Bool
  | .mul => true
  | .div => true
  | _ => false

end Operator

namespace Parser

/-- A phrase and the tokens after it. -/
abbrev Reading := Except SyntaxError (Expr × List Lexeme)

mutual

/-- Reads `sum := product (("+" | "-") product)*`, grouped from the left. -/
def sum (room : Nat) (ts : List Lexeme) : Reading := do
  let (left, rest) ← product room ts
  sumTail room left rest
termination_by 7 * room + 6

/-- The operators and operands that follow the left part of a sum. -/
def sumTail (room : Nat) (left : Expr) (ts : List Lexeme) : Reading :=
  match ts with
  | ⟨.operator op, position⟩ :: rest =>
    if op.isAdditive then
      match room with
      | 0 => .error (.tooDeep position)
      | room + 1 => do
        let (right, rest) ← product room rest
        sumTail room (.binary op left right) rest
    else .ok (left, ts)
  | _ => .ok (left, ts)
termination_by 7 * room

/-- Reads `product := power (("*" | "/") power)*`, grouped from the left. -/
def product (room : Nat) (ts : List Lexeme) : Reading := do
  let (left, rest) ← power room ts
  productTail room left rest
termination_by 7 * room + 5

/-- The operators and operands that follow the left part of a product. -/
def productTail (room : Nat) (left : Expr) (ts : List Lexeme) : Reading :=
  match ts with
  | ⟨.operator op, position⟩ :: rest =>
    if op.isMultiplicative then
      match room with
      | 0 => .error (.tooDeep position)
      | room + 1 => do
        let (right, rest) ← power room rest
        productTail room (.binary op left right) rest
    else .ok (left, ts)
  | _ => .ok (left, ts)
termination_by 7 * room

/-- Reads `power := signed ("**" power)?`, so powers are grouped from the right. -/
def power (room : Nat) (ts : List Lexeme) : Reading := do
  let (base, rest) ← signed room ts
  match rest with
  | ⟨.operator .pow, position⟩ :: rest =>
    match room with
    | 0 => .error (.tooDeep position)
    | room + 1 => do
      let (exponent, rest) ← power room rest
      return (.binary .pow base exponent, rest)
  | rest => return (base, rest)
termination_by 7 * room + 4

/-- Reads `signed := ("-" | "+") signed | primary`, where a minus subtracts from zero and a plus leaves nothing. -/
def signed (room : Nat) (ts : List Lexeme) : Reading :=
  match ts with
  | ⟨.operator .sub, position⟩ :: rest =>
    match room with
    | 0 => .error (.tooDeep position)
    | room + 1 => do
      let (operand, rest) ← signed room rest
      return (.binary .sub (.lit .zero) operand, rest)
  | ⟨.operator .add, position⟩ :: rest =>
    match room with
    | 0 => .error (.tooDeep position)
    | room + 1 => signed room rest
  | ts => primary room ts
termination_by 7 * room + 3

/-- Reads `primary := real | imaginary | name | function enclosed | enclosed`. -/
def primary (room : Nat) (ts : List Lexeme) : Reading :=
  match ts with
  | [] => .error .unexpectedEnd
  | ⟨.real x, _⟩ :: rest => .ok (.lit ⟨x, 0.0⟩, rest)
  | ⟨.imaginary x, _⟩ :: rest => .ok (.lit ⟨0.0, x⟩, rest)
  | ⟨.name x, _⟩ :: rest => .ok (.var x, rest)
  | ⟨.opening, position⟩ :: rest => enclosed room position rest
  | ⟨.builtin f, _⟩ :: rest =>
    match rest with
    | ⟨.opening, position⟩ :: rest => do
      let (argument, rest) ← enclosed room position rest
      return (.call f argument, rest)
    | ⟨token, position⟩ :: _ => .error (.noArgument token f position)
    | [] => .error .unexpectedEnd
  | ⟨token, position⟩ :: _ => .error (.unexpected token position)
termination_by 7 * room + 2

/-- Reads `enclosed := "(" sum ")"`, after the parenthesis that was opened at the given position. -/
def enclosed (room opened : Nat) (ts : List Lexeme) : Reading :=
  match room with
  | 0 => .error (.tooDeep opened)
  | room + 1 => do
    let (inner, rest) ← sum room ts
    match rest with
    | ⟨.closing, _⟩ :: rest => return (inner, rest)
    | _ => .error (.unclosed opened)
termination_by 7 * room + 1

end

end Parser

namespace Expr

/-- The expression that a whole list of tokens spells. -/
def ofLexemes (ts : List Lexeme) : Except SyntaxError Expr := do
  let (e, rest) ← Parser.sum levelLimit ts
  match rest with
  | [] => return e
  | ⟨token, position⟩ :: _ => throw (.trailing token position)

/-- The expression that a source text spells. -/
def parse (source : String) : Except SyntaxError Expr := do
  let ts ← tokenize source
  ofLexemes ts

end Expr

end ComplexCalc
