import ComplexCalc.Proofs.ComparisonMode
import ComplexCalc.Proofs.DoubleArithmetic

/-!
# Commuting — the operands of sums and products change places

A sum and a product of numbers do not depend on the order of their operands, to the last bit (section 1).  As an
expression can only fail because of a division by zero, it does not matter either which operand fails first, so swapping
operands anywhere in an expression changes nothing in a comparison (section 2).
-/

namespace ComplexCalc

/-! ## 1. Operations -/

namespace Number

protected theorem add_comm (a b : Number) : a + b = b + a := by
  show cleared (a.re + b.re) (a.im + b.im) = cleared (b.re + a.re) (b.im + a.im)
  rw [Binary64.add_comm a.re, Binary64.add_comm a.im]

/-- The two products that make a part change places as well, and each has its factors swapped. -/
protected theorem mul_comm (a b : Number) : a * b = b * a := by
  show cleared (a.re * b.re - a.im * b.im) (a.re * b.im + a.im * b.re) =
    cleared (b.re * a.re - b.im * a.im) (b.re * a.im + b.im * a.re)
  rw [Binary64.mul_comm a.re b.re, Binary64.mul_comm a.im b.im, Binary64.mul_comm a.re b.im,
    Binary64.mul_comm a.im b.re, Binary64.add_comm (b.im * a.re)]

end Number

/-- Operations whose operands can be swapped. -/
def Operator.isCommutative : Operator → Bool
  | .add => true
  | .mul => true
  | _ => false

theorem Operator.result?_comm {op : Operator} (h : op.isCommutative) (u v : Number) :
    op.result? u v = op.result? v u := by
  cases op with
  | add => exact congrArg some (u.add_comm v)
  | mul => exact congrArg some (u.mul_comm v)
  | _ => cases h

/-! ## 2. Expressions -/

/-- The expressions are the same but for the order of the operands of some sums and products. -/
inductive Expr.Swapped : Expr → Expr → Prop where
  | lit {z} : Swapped (.lit z) (.lit z)
  | var {x} : Swapped (.var x) (.var x)
  | binary {op a b a' b'} : Swapped a a' → Swapped b b' → Swapped (.binary op a b) (.binary op a' b')
  | swap {op a b a' b'} : op.isCommutative → Swapped a a' → Swapped b b' →
      Swapped (.binary op a b) (.binary op b' a')
  | call {f a a'} : Swapped a a' → Swapped (.call f a) (.call f a')

namespace Expr
variable {env : String → Number} {op : Operator} {a b e e' : Expr} {z : Number}

theorem value_binary_eq_ok_iff :
    (Expr.binary op a b).value env = .ok z ↔
      ∃ u v, a.value env = .ok u ∧ b.value env = .ok v ∧ op.result? u v = some z := by
  cases ha : a.value env with
  | error x => simp [value_binary_of_left ha]
  | ok u =>
    cases hb : b.value env with
    | error x => simp [value_binary_of_right ha hb]
    | ok v =>
      rw [value_binary_of_ok ha hb]
      cases hresult : op.result? u v <;> simp [hresult]

/-- There is only one way to fail, so the values tell everything. -/
theorem value_eq_of_ok_iff (h : ∀ z, e.value env = .ok z ↔ e'.value env = .ok z) : e.value env = e'.value env := by
  cases he : e.value env with
  | ok z => exact ((h z).mp he).symm
  | error x =>
    cases he' : e'.value env with
    | ok z =>
      rw [(h z).mpr he'] at he
      cases he
    | error y => rw [eq_divisionByZero_of_value he, eq_divisionByZero_of_value he']

theorem Swapped.value_eq (h : Swapped e e') (env : String → Number) : e.value env = e'.value env := by
  induction h with
  | lit => rfl
  | var => rfl
  | binary _ _ iha ihb =>
    apply value_eq_of_ok_iff
    intro z
    rw [value_binary_eq_ok_iff, value_binary_eq_ok_iff, iha, ihb]
  | swap hop _ _ iha ihb =>
    -- the operand that fails first may be another one, so only values are compared
    apply value_eq_of_ok_iff
    intro z
    rw [value_binary_eq_ok_iff, value_binary_eq_ok_iff, iha, ihb]
    constructor
    · rintro ⟨u, v, hu, hv, hresult⟩
      exact ⟨v, u, hv, hu, by rw [Operator.result?_comm hop, hresult]⟩
    · rintro ⟨v, u, hv, hu, hresult⟩
      exact ⟨u, v, hu, hv, by rw [Operator.result?_comm hop, hresult]⟩
  | call _ ih => rw [value_call, value_call, ih]

end Expr

/-- A comparison looks at a text that is an expression only for its value. -/
theorem compareSources_congr {source source' : String} {e e' : Expr} (hread : Expr.parse source = .ok e)
    (hread' : Expr.parse source' = .ok e') (hvalue : (e.value fun _ => .sentinel) = e'.value fun _ => .sentinel)
    (third : String) :
    compareSources third source = compareSources third source' ∧
      compareSources source third = compareSources source' third := by
  rw [compareSources, compareSources, compareSources, compareSources, hread, hread']
  simp only [Except.mapError, bind, Except.bind, hvalue]
  exact ⟨trivial, trivial⟩

/-- Where two expressions differ only in the order of the operands of sums and products, they come to the same value in
a comparison, bit for bit, or both divide by zero, and compare in the same way with whatever text. -/
theorem comparison_ignores_swaps {e e' : Expr} (h : e.Swapped e') :
    (Context.comparison.eval e).1 = (Context.comparison.eval e').1 ∧
      (∀ x, (Context.comparison.eval e).1 = .error x → x = .divisionByZero) ∧
      ∀ source source' third, Expr.parse source = .ok e → Expr.parse source' = .ok e' →
        compareSources third source = compareSources third source' ∧
          compareSources source third = compareSources source' third := by
  have hvalue := h.value_eq fun _ => .sentinel
  rw [eval_of_comparison rfl, eval_of_comparison rfl]
  exact ⟨hvalue, fun x hx => Expr.eq_divisionByZero_of_value hx,
    fun source source' third hread hread' => compareSources_congr hread hread' hvalue third⟩

/-- Operands are swapped at two nodes, and those of the division between them are not. -/
theorem comparison_ignores_swaps_quotient :
    compareSources "a" "x*y/z+w" = compareSources "a" "w+y*x/z" := by
  have hquotient : (Expr.binary .div (.binary .mul (.var "x") (.var "y")) (.var "z")).Swapped
      (.binary .div (.binary .mul (.var "y") (.var "x")) (.var "z")) := .binary (.swap rfl .var .var) .var
  have hsum : (Expr.binary .add _ (.var "w")).Swapped (.binary .add (.var "w") _) := .swap rfl hquotient .var
  exact ((comparison_ignores_swaps hsum).2.2 _ _ "a" (by cbv) (by cbv)).1

end ComplexCalc
